import Mathlib.Data.List.Sort
import PythonAI.CodeIndex.Store
import PythonAI.Errors
import PythonAI.Library.Records
import PythonAI.Library.Txn

/-!
# `CodeIndex.refresh`

One transaction brings the index up to the files of the workspace: it removes files that are gone,
replaces the rows of changed files, and computes the vectors of symbols that have none.  The rows of
a file go with it, by the foreign keys of the tables.

What a refresh finds outside of the index is its `Course`: whether it is interrupted, whether the
database has grown beyond its limit, and whether the workspace has changed meanwhile.
-/

namespace PythonAI

open Library

namespace CodeIndex

/-- What the version of an index determines. -/
structure Env (V : Type) where
  /-- `hashlib.sha256`, of the bytes of a text -/
  sha256 : String → String
  /-- `extract`, with its grammars; it raises where it is none -/
  extract : String → ByteArray → Option (List Declaration × List Occurrence)
  /-- `Embeddings.embed`, where it does not raise -/
  embed : String → Option V
  /-- the score of a vector at a bit of a table is not negative -/
  sign : V → ℕ → ℕ → Bool

/-- No two texts have the same digest. -/
def Env.Collisionless {V : Type} (env : Env V) : Prop := Function.Injective env.sha256

/-- What a refresh finds outside of the index. -/
structure Course where
  /-- `check` raises at the file -/
  stops : String → Bool := fun _ => false
  /-- the pages of the database are within the limit after the file -/
  fits : String → Bool := fun _ => true
  /-- `check` raises at the symbol, or the budget of its embedding is exhausted -/
  halts : ℕ → Bool := fun _ => false
  /-- the pages are within the limit after the symbol -/
  fitsRow : ℕ → Bool := fun _ => true
  /-- the pages are within the limit at the end -/
  fitsEnd : Bool := true
  /-- the second inventory is equal to the first -/
  same : Bool := true
  /-- the requests that a remote provider allows -/
  remote : Option ℕ := none

variable {V : Type}

/-! ### Rows -/

/-- The name of a language. -/
def Language.label : Option Language → String
  | some .python => "python"
  | some .go => "go"
  | some .javascript => "javascript"
  | some .typescript => "typescript"
  | some .tsx => "tsx"
  | none => "text"

/-- `chunk` -/
def chunk (path : String) (d : Declaration) : String :=
  "File: " ++ path ++ "\nLanguage: " ++ Language.label (language path) ++ "\nSymbol: " ++
    d.qualifiedName ++ "\n" ++ d.text

/-- The row of a declaration. -/
def symbolRow (path : String) (id : ℕ) (d : Declaration) : SymbolRow V where
  id := id
  path := path
  name := d.name
  qualified := d.qualifiedName
  kind := d.nodeType
  line := d.line
  col := d.column
  endLine := d.endLine
  chunk := chunk path d
  vector := none

/-- A file of the inventory: its name and its text. -/
abbrev Source := String × String

/-- What `extract` finds in a file. -/
def extracted (env : Env V) (f : Source) : Option (List Declaration × List Occurrence) :=
  env.extract f.1 f.2.toUTF8

/-- The declarations of a file; there are none where it does not parse. -/
def symbolsOf (env : Env V) (f : Source) : List Declaration := ((extracted env f).map (·.1)).getD []

/-- The identifiers of a file. -/
def refsOf (env : Env V) (f : Source) : List Occurrence := ((extracted env f).map (·.2)).getD []

/-- The row of a file. -/
def fileRow (env : Env V) (f : Source) : FileRow where
  path := f.1
  hash := env.sha256 f.2
  text := f.2
  language := language f.1
  status := if (extracted env f).isSome then .indexed else .parseError

/-- `buckets` -/
def signature (env : Env V) (v : V) (tab : ℕ) : ℕ :=
  ((List.range 8).map fun bit => if env.sign v tab bit then 2 ^ bit else 0).sum

/-- The six rows of a vector. -/
def bucketRows (env : Env V) (id : ℕ) (v : V) : List BucketRow :=
  (List.range 6).map fun tab => ⟨id, tab, signature env v tab⟩

/-! ### Statements -/

namespace Db

/-- `DELETE FROM ci_files WHERE …`: the rows of the files go with them. -/
def remove (p : String → Bool) (db : Db V) : Db V :=
  let files := db.files.filter fun f => p f.path
  let symbols := db.symbols.filter fun s => files.any (·.path = s.path)
  { db with
    files := db.files.filter fun f => !p f.path
    symbols := db.symbols.filter fun s => !files.any (·.path = s.path)
    refs := db.refs.filter fun r => !files.any (·.path = r.path)
    buckets := db.buckets.filter fun b => !symbols.any (·.id = b.symbol) }

/-- `INSERT INTO ci_symbols`: the id is the next one. -/
def addSymbol (path : String) (db : Db V) (d : Declaration) : Db V :=
  { db with
    symbols := db.symbols ++ [symbolRow path ((db.symbols.map (·.id)).foldr max 0 + 1) d] }

/-- The rows of a file are inserted. -/
def addFile (env : Env V) (f : Source) (db : Db V) : Db V :=
  let db := { db with files := db.files ++ [fileRow env f] }
  let db := (symbolsOf env f).foldl (addSymbol f.1) db
  { db with refs := db.refs ++ (refsOf env f).map (refRow f.1) }

/-- The vector of a symbol and its hashes. -/
def setVector (env : Env V) (id : ℕ) (v : V) (db : Db V) : Db V :=
  { db with
    symbols := db.symbols.map fun s => if s.id = id then { s with vector := some v } else s
    buckets := db.buckets ++ bucketRows env id v }

/-- `old`: the hash of a file. -/
def hash (db : Db V) (path : String) : Option String :=
  (Records.find FileRow.path path db.files).map (·.hash)

end Db

/-! ### The transaction -/

/-- The loop over the inventory, at a file; `old` has the hashes before it. -/
def indexFile (env : Env V) (c : Course) (old : String → Option String) (f : Source) (db : Db V) :
    Except Error (Db V) := do
  ensure (!c.stops f.1) (.interrupted "Index operation cancelled")
  if old f.1 = some (env.sha256 f.2) then pure db
  else
    let db := db.remove (· = f.1)
    ensure ((symbolsOf env f).isEmpty || (symbolsOf env f).length + db.symbols.length ≤ 20000)
      (.value "Code index exceeds 20000 symbols")
    ensure ((refsOf env f).isEmpty || (refsOf env f).length + db.refs.length ≤ 200000)
      (.value "Code index exceeds 200000 references")
    ensure (c.fits f.1) (.value "Code index exceeds 256 MiB")
    pure (db.addFile env f)

/-- The loop over the inventory. -/
def indexFiles (env : Env V) (c : Course) (old : String → Option String) :
    List Source → Db V → Except Error (Db V)
  | [], db => .ok db
  | f :: files, db => do
    let db ← indexFile env c old f db
    indexFiles env c old files db

/-- What the loop over the vectors counts. -/
structure Requests where
  /-- `embedding_requests` -/
  made : ℕ := 0
  /-- `embedding_failures` -/
  failed : ℕ := 0
  deriving DecidableEq, Repr

/-- The loop over the symbols without a vector; a remote provider is not asked again after a
failure. -/
def embedRows (env : Env V) (c : Course) :
    List (SymbolRow V) → Requests → Db V → Except Error (Db V × Requests)
  | [], n, db => .ok (db, n)
  | s :: rows, n, db => do
    ensure (!c.halts s.id) (.interrupted "Index operation cancelled")
    match env.embed s.chunk with
    | none =>
      let n := { made := n.made + 1, failed := n.failed + 1 }
      if c.remote.isSome then pure (db, n) else embedRows env c rows n db
    | some v =>
      ensure (c.fitsRow s.id) (.value "Code index exceeds 256 MiB")
      embedRows env c rows { n with made := n.made + 1 } (db.setVector env s.id v)

/-- The symbols without a vector, in the order of their ids. -/
def pending (c : Course) (db : Db V) : List (SymbolRow V) :=
  ((db.symbols.filter fun s => s.vector.isNone).insertionSort fun a b => a.id ≤ b.id).take
    (c.remote.getD 100000)

/-- The statistics of a refresh. -/
structure Stats where
  changed : ℕ
  deleted : ℕ
  unchanged : ℕ
  parseErrors : ℕ
  /-- `embedding_requests` and `embedding_failures` -/
  requests : Requests
  files : ℕ
  symbols : ℕ
  pendingVectors : ℕ
  deriving DecidableEq, Repr

/-- The index under a version: rows of another one are deleted. -/
def versioned (version : String) (db : Db V) : Db V :=
  if db.version = some version then db
  else { db.remove fun _ => true with version := some version }

/-- The index without the files that are gone. -/
def pruned (files : List Source) (db : Db V) : Db V := db.remove fun path => path ∉ files.map (·.1)

/-- `refresh`, with the files of its inventory. -/
def refresh (env : Env V) (version : String) (c : Course) (files : List Source) (embed : Bool)
    (db : Db V) : Except Error (Db V × Stats) := do
  let start := versioned version db
  let old := start.hash
  let db ← indexFiles env c old files (pruned files start)
  let vectors := if embed then embedRows env c (pending c db) {} db else .ok (db, {})
  let (db, requests) ← vectors
  ensure (db.symbols.length ≤ 20000 && db.refs.length ≤ 200000)
    (.value "Code index exceeds 20000 symbols / 200000 references")
  ensure c.fitsEnd (.value "Code index exceeds 256 MiB")
  ensure c.same (.value "Workspace changed while indexing; retry a fresh snapshot")
  let changed := files.filter fun f => old f.1 ≠ some (env.sha256 f.2)
  pure (db, {
    changed := changed.length
    deleted := start.files.countP fun f => f.path ∉ files.map (·.1)
    unchanged := files.countP fun f => old f.1 = some (env.sha256 f.2)
    parseErrors := changed.countP fun f => (extracted env f).isNone
    requests := requests
    files := db.files.length
    symbols := db.symbols.length
    pendingVectors := db.symbols.countP (·.vector.isNone) })

end CodeIndex

end PythonAI
