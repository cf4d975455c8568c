import Mathlib.Data.List.Basic

/-!
# `extract`: declarations and identifiers of a source

The parser gives a tree of nodes with their bytes.  `extract` goes through the named nodes, each
before its children, and lists the declarations and the identifiers that it meets; it counts lines
by the bytes of line feeds, and columns by the characters after the last one.
-/

namespace PythonAI

namespace CodeIndex

/-- The values of `LANGUAGES`. -/
inductive Language
  | python | go | javascript | typescript | tsx
  deriving DecidableEq, Repr

/-- `Path(path).suffix` -/
def suffix (path : String) : String :=
  let name := (path.toList.reverse.takeWhile (· ≠ '/')).reverse
  let extension := (name.reverse.takeWhile (· ≠ '.')).reverse
  if extension ≠ [] ∧ extension.length + 1 < name.length then String.ofList ('.' :: extension)
  else ""

/-- `LANGUAGES.get(Path(path).suffix.lower())` -/
def language (path : String) : Option Language :=
  match (suffix path).toLower with
  | ".py" => some .python
  | ".go" => some .go
  | ".js" | ".jsx" => some .javascript
  | ".ts" => some .typescript
  | ".tsx" => some .tsx
  | _ => none

/-- A node of a syntax tree. -/
inductive Tree
  /-- its type, its first byte and the byte after its last, its field in the parent, if it has one,
  whether it is named, and its children -/
  | node (kind : String) (start stop : ℕ) (field : Option String) (named : Bool)
    (children : List Tree)

namespace Tree

/-- `node.type` -/
def kind : Tree → String
  | node kind .. => kind

/-- `node.start_byte` -/
def start : Tree → ℕ
  | node _ start .. => start

/-- `node.end_byte` -/
def stop : Tree → ℕ
  | node _ _ stop .. => stop

/-- The field that the node is in its parent. -/
def field : Tree → Option String
  | node _ _ _ field .. => field

/-- `node.is_named` -/
def named : Tree → Bool
  | node _ _ _ _ named _ => named

/-- `node.children` -/
def children : Tree → List Tree
  | node _ _ _ _ _ children => children

/-- `node.child_by_field_name(name)` -/
def child (t : Tree) (name : String) : Option Tree := t.children.find? (·.field = some name)

/-- `node.named_children` -/
def namedChildren (t : Tree) : List Tree := t.children.filter (·.named)

end Tree

/-- `DECLARATIONS` -/
def declarations : List String :=
  ["function_definition", "class_definition", "function_declaration", "method_declaration",
    "method_definition", "class_declaration", "interface_declaration", "type_alias_declaration",
    "type_spec", "variable_declarator"]

/-- `IDENTIFIERS` -/
def identifiers : List String :=
  ["identifier", "type_identifier", "field_identifier", "property_identifier"]

/-- An item of `symbols`. -/
structure Declaration where
  name : String
  qualifiedName : String
  nodeType : String
  startLine : ℕ
  endLine : ℕ
  line : ℕ
  column : ℕ
  byte : ℕ
  text : String
  deriving DecidableEq, Repr

/-- An item of `occurrences`. -/
structure Occurrence where
  name : String
  line : ℕ
  column : ℕ
  byte : ℕ
  scope : String
  declaration : Bool := false
  deriving DecidableEq, Repr

/-! ### Positions -/

/-- The positions after the line feeds, where the first byte has the position `n`. -/
def feeds (bytes : List UInt8) (n : ℕ) : List ℕ :=
  (bytes.zipIdx n).filterMap fun (byte, position) => if byte = 10 then some (position + 1) else none

/-- `starts` -/
def starts (content : ByteArray) : List ℕ := 0 :: feeds content.data.toList 0

/-- `bisect_right` in an increasing list: the number of elements that are not greater. -/
def bisectRight (xs : List ℕ) (x : ℕ) : ℕ := (xs.takeWhile (· ≤ x)).length

/-- `content[i:j].decode('utf-8')` -/
def decode (content : ByteArray) (i j : ℕ) : Option String :=
  (content.extract i j).utf8Decode?.map fun text => String.ofList text.toList

/-- `point` -/
def point (content : ByteArray) (byte : ℕ) : Option (ℕ × ℕ) :=
  let row := bisectRight (starts content) byte - 1
  (decode content ((starts content).getD row 0) byte).map fun text => (row + 1, text.length)

/-- `text` -/
def Tree.text (content : ByteArray) (t : Tree) : Option String := decode content t.start t.stop

/-! ### The loop over the nodes -/

/-- `'.'.join(scope)` -/
def joined (scope : List String) : String := String.intercalate "." scope

/-- The scope of a declaration: a method has the type of its receiver in it. -/
def receiverScope (content : ByteArray) (scope : List String) (t : Tree) : Option (List String) :=
  match if t.kind = "method_declaration" then t.child "receiver" else none with
  | none => some scope
  | some receiver =>
    match receiver.namedChildren.head?.bind (·.child "type") with
    | none => some scope
    | some type =>
      (type.text content).map fun text =>
        scope ++ [String.ofList (text.toList.dropWhile (· = '*'))]

/-- The name of a declaration. -/
def declared (t : Tree) : Option Tree :=
  if t.kind ∈ declarations then (t.child "name").filter (·.kind ∈ identifiers) else none

/-- The declaration of a node, and the scope of its children. -/
def symbolOf (content : ByteArray) (scope : List String) (t : Tree) :
    Option (List Declaration × List String) :=
  match declared t with
  | none => some ([], scope)
  | some name => do
    let label ← name.text content
    let outer ← receiverScope content scope t
    let (line, column) ← point content name.start
    let (startLine, _) ← point content t.start
    let (endLine, _) ← point content t.stop
    let text ← t.text content
    pure ([{
      name := label, qualifiedName := joined (outer ++ [label]), nodeType := t.kind,
      startLine := startLine, endLine := endLine, line := line, column := column,
      byte := name.start, text := String.ofList (text.toList.take 4096) }], scope ++ [label])

/-- The identifier of a node. -/
def occurrenceOf (content : ByteArray) (scope : List String) (t : Tree) :
    Option (List Occurrence) :=
  if t.kind ∈ identifiers then do
    let (line, column) ← point content t.start
    let name ← t.text content
    pure [{ name := name, line := line, column := column, byte := t.start, scope := joined scope }]
  else some []

mutual

/-- A node and, after it, its named children. -/
def Tree.walk (content : ByteArray) (scope : List String) :
    Tree → Option (List Declaration × List Occurrence)
  | .node kind start stop field named children => do
    let t := Tree.node kind start stop field named children
    let (symbols, inner) ← symbolOf content scope t
    let occurrences ← occurrenceOf content scope t
    let (below, others) ← walkAll content inner children
    pure (symbols ++ below, occurrences ++ others)

/-- The named nodes of a list. -/
def walkAll (content : ByteArray) (scope : List String) :
    List Tree → Option (List Declaration × List Occurrence)
  | [] => some ([], [])
  | t :: ts => do
    let own := if t.named then t.walk content scope else some ([], [])
    let (symbols, occurrences) ← own
    let (below, others) ← walkAll content scope ts
    pure (symbols ++ below, occurrences ++ others)

end

/-- What the parser makes of a source. -/
structure Parsed where
  /-- `tree.root_node` -/
  root : Tree
  /-- `root.has_error` -/
  hasError : Bool

/-- `extract`; it raises a `ValueError` where it is `none`. -/
def extract (parse : Language → ByteArray → Parsed) (path : String) (content : ByteArray) :
    Option (List Declaration × List Occurrence) :=
  match language path with
  | none => some ([], [])
  | some language =>
    let tree := parse language content
    if tree.hasError then none
    else do
      let (symbols, occurrences) ← tree.root.walk content []
      if 20000 < symbols.length + occurrences.length then none
      else
        let names := symbols.map (·.byte)
        pure (symbols, occurrences.map fun o => { o with declaration := o.byte ∈ names })

end CodeIndex

end PythonAI
