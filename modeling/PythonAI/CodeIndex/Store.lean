import PythonAI.CodeIndex.Syntax

/-!
# The tables of `CodeIndex`

A row of `ci_files` is a file of the workspace with its text.  The declarations in it are rows of
`ci_symbols`, the identifiers in it rows of `ci_refs`: both name their file, and are deleted with it.
A symbol has a vector, or none yet; the rows of `ci_buckets` say in which bucket of each of the six
hash tables the vector is, and go with the symbol.  All rows are those of one version of the index,
which stands for the parsers, the embedding and the workspace.
-/

namespace PythonAI

namespace CodeIndex

/-- `ci_files.status` -/
inductive Status
  | indexed | parseError
  deriving DecidableEq, Repr

/-- A row of `ci_files`. -/
structure FileRow where
  /-- its name, relative to the workspace -/
  path : String
  /-- the digest of its bytes: a file with the same one is not parsed again -/
  hash : String
  /-- the text, for the text search -/
  text : String
  /-- by its suffix; without one it is `text` -/
  language : Option Language
  /-- it was parsed, or could not be -/
  status : Status
  deriving DecidableEq, Repr

/-- A row of `ci_symbols`. -/
structure SymbolRow (V : Type) where
  /-- given in the order of the insertions -/
  id : ℕ
  /-- the file of the declaration -/
  path : String
  /-- the name that is declared -/
  name : String
  /-- the name with those of the enclosing declarations -/
  qualified : String
  /-- the type of the node -/
  kind : String
  /-- the line of the name, from 1 on -/
  line : ℕ
  /-- its column, in characters -/
  col : ℕ
  /-- the last line of the declaration -/
  endLine : ℕ
  /-- what is embedded -/
  chunk : String
  /-- the embedding, once it was asked for -/
  vector : Option V
  deriving DecidableEq, Repr

/-- A row of `ci_refs`. -/
structure RefRow where
  /-- the file that the identifier is in -/
  path : String
  /-- the identifier -/
  name : String
  /-- its line, counted by line feeds from 1 on -/
  line : ℕ
  /-- its first column, in characters -/
  col : ℕ
  /-- the qualified name of the declaration around it -/
  scope : String
  /-- it is the name of a declaration, not a use -/
  declaration : Bool
  deriving DecidableEq, Repr

/-- A row of `ci_buckets`. -/
structure BucketRow where
  /-- the id of the symbol -/
  symbol : ℕ
  /-- one of the six hash tables -/
  tab : ℕ
  /-- the bucket there: the signs of eight scores -/
  sig : ℕ
  deriving DecidableEq, Repr

/-- The index. -/
structure Db (V : Type) where
  /-- `ci_files` -/
  files : List FileRow := []
  /-- `ci_symbols` -/
  symbols : List (SymbolRow V) := []
  /-- `ci_refs` -/
  refs : List RefRow := []
  /-- `ci_buckets` -/
  buckets : List BucketRow := []
  /-- `version`, in `ci_meta` -/
  version : Option String := none
  deriving DecidableEq, Repr

/-- The row of an occurrence. -/
def refRow (path : String) (o : Occurrence) : RefRow :=
  ⟨path, o.name, o.line, o.column, o.scope, o.declaration⟩

end CodeIndex

end PythonAI
