import PythonAI.Coordinator.Human
import PythonAI.Files

/-!
# The files of a merge

`merge_node` takes the files of a reviewed result into the workspace of the parent.  `select` reads
Git's list of changes and compares every file with its content at the base of the result;
`mergeNode` is what follows the transaction `merge_started`: it writes one file after the other,
commits `Merge.finish`, and when something raises, it writes the old contents back, the last one
first, and commits `Merge.abort`.

The name of a temporary file ends in the token of the merge, which nobody has used before: a state
lists the files beside which there is one, apart from the workspace.  What others have done to the
database is given where `mergeNode` reads it.
-/

namespace PythonAI

open Library
open Files (Failure Path Fault posix parts Made Harmed)

namespace Coordinator

namespace Merge

/-- The contents of a workspace. -/
abbrev Workspace := Tree String ByteArray

/-- A file of a merge: its content at the base, and in the result. -/
abbrev Change := Edit String ByteArray

/-- A `ValueError`. -/
def refusal (message : String) : Failure := .raised (.value message)

/-- `path.read_bytes() if path.exists() else None` -/
def read (t : Workspace) (path : Path) : Except Failure (Option ByteArray) :=
  match t.node path with
  | none => .ok none
  | some .dir => .error .os
  | some (.file bytes) => .ok (some bytes)

/-! ### The changes of a result -/

/-- The status letter of `git diff --name-status --no-renames`. -/
inductive Status
  /-- `A` -/
  | added
  /-- `M` -/
  | modified
  /-- `D` -/
  | deleted
  /-- another one -/
  | other
  deriving DecidableEq, Repr

/-- What `blob` finds at the two commits of a result. -/
structure Blobs where
  /-- `blob(repository, result['base'], name)` -/
  base : String → Except Failure ByteArray
  /-- `blob(repository, result['commit'], name)` -/
  commit : String → Except Failure ByteArray

/-- `selected_files(root, [name])[0]`; the names of Git have no `..`. -/
def selectedFile (t : Workspace) (name : String) : Except Failure Path := do
  ensure (name ≠ "" ∧ '\x00' ∉ name.toList) (refusal "Invalid file selection")
  ensure (parts name ≠ [] ∧ ".git" ∉ parts name ∧ t.node (parts name) ≠ some .dir)
    (refusal "Selection must be individual files inside this workspace")
  pure (parts name)

/-- A blob, unless the status says that there is none. -/
def blobUnless (absent : Bool) (blob : Except Failure ByteArray) :
    Except Failure (Option ByteArray) :=
  if absent then .ok none else blob.map some

/-- `len(data or b'')` -/
def size (data : Option ByteArray) : ℕ := (data.map ByteArray.size).getD 0

/-- One round of the loop over Git's list, after `count` files. -/
def change (blobs : Blobs) (t : Workspace) (status : Status) (name : String) (count total : ℕ) :
    Except Failure Change := do
  ensure (status ≠ .other) (refusal "Unsupported merge file type")
  let path ← selectedFile t name
  let old ← blobUnless (status = .added) (blobs.base name)
  let new ← blobUnless (status = .deleted) (blobs.commit name)
  let current ← read t path
  ensure (current = old) (refusal ("Merge conflict; parent content changed: " ++ posix path))
  ensure (total + size new + size old ≤ 32 * 1024 * 1024 ∧ count < 128)
    (refusal "Merge exceeds 128 files / 32 MiB")
  pure ⟨path, old, new⟩

/-- The loop over Git's list. -/
def select (blobs : Blobs) (t : Workspace) :
    List (Status × String) → ℕ → ℕ → Except Failure (List Change)
  | [], _, _ => .ok []
  | (status, name) :: records, count, total => do
    let c ← change blobs t status name count total
    let changes ← select blobs t records (count + 1) (total + size c.new + size c.old)
    pure (c :: changes)

/-! ### Writing the files -/

/-- What goes wrong in a step. -/
inductive Stop
  /-- before the file is compared: the guard, the cancellation, or reading -/
  | guard (error : Failure)
  /-- a directory is not made, only the ones above it -/
  | mkdir (made : ℕ)
  /-- the temporary file is not created, or the file is not unlinked -/
  | create
  /-- the temporary file is created, but not written or not moved -/
  | move
  deriving DecidableEq, Repr

/-- The fault of the file system. -/
def Stop.fault : Stop → Option Fault
  | .guard _ => none
  | .mkdir made => some (.mkdir made)
  | .create | .move => some .write

/-- The workspace, and the files with a temporary file beside them. -/
structure Ground where
  /-- the workspace -/
  tree : Workspace
  /-- the files with a temporary file beside them -/
  temporaries : List Path := []

/-- The step leaves its temporary file: it is created, and not moved. -/
def leaves (t : Workspace) (c : Change) (stop : Option Stop) : Bool :=
  stop = some .move && c.new.isSome && t.Clear c.path.dropLast

/-- One round of the second loop, which `stop` may end. -/
def step (g : Ground) (c : Change) (stop : Option Stop) : Ground × Except Failure Unit :=
  match stop with
  | some (.guard error) => (g, .error error)
  | _ =>
    match read g.tree c.path with
    | .error error => (g, .error error)
    | .ok current =>
      if current ≠ c.old then (g, .error (refusal "Merge conflict during apply"))
      else
        match Files.replace g.tree c.path c.new (stop.bind Stop.fault) with
        | (tree, result) =>
          ({ tree := tree
             temporaries :=
              if leaves g.tree c stop then c.path :: g.temporaries else g.temporaries }, result)

/-! ### Writing them back -/

/-- One round of the recovery. -/
def undo (t : Workspace) (c : Change) : Except Failure Workspace := do
  let current ← read t c.path
  if current ≠ c.new then pure t
  else
    match c.old with
    | none => require (t.remove c.path) .os
    | some bytes => require (t.put c.path bytes) .os

/-- The recovery: it ends at the first error. -/
def rollback : Workspace → List Change → Workspace × Except Failure Unit
  | t, [] => (t, .ok ())
  | t, c :: cs =>
    match undo t c with
    | .ok t' => rollback t' cs
    | .error error => (t, .error error)

/-! ### The merge -/

/-- A merge that has started. -/
structure Started where
  /-- the configuration -/
  env : Env
  /-- what is found outside of the database -/
  site : Site
  /-- the node, as it was read -/
  node : Node
  /-- the token of the lease -/
  token : Token
  /-- the archive -/
  archive : String
  /-- the files -/
  changes : List Change

/-- What goes on meanwhile. -/
structure Course where
  /-- where the step of a file is stopped -/
  stop : Path → Option Stop := fun _ => none
  /-- the database that the last transaction finds -/
  found : Db
  /-- the time of the last transaction -/
  time : Time
  /-- an error of the database in the last transaction -/
  failure : Option Failure := none
  /-- the database that the handler finds -/
  left : Db

/-- The workspace with its temporary files, and the database. -/
structure World where
  /-- the workspace with its temporary files -/
  ground : Ground
  /-- the database -/
  db : Db

/-- The last transaction. -/
def commit (m : Started) (course : Course) : Except Failure (Db × Evidence) :=
  match course.failure, m.node.result with
  | some error, _ => .error error
  | none, none => .error (.raised (.type "'NoneType' object is not subscriptable"))
  | none, some r =>
    let files := m.changes.map fun c => posix c.path
    match finish m.env m.site m.node m.token files m.archive course.time course.found with
    | .error error => .error (.raised error)
    | .ok (db, ()) => .ok (db, evidence m.node r files m.archive course.time)

/-- The handler: it raises `error` again, unless it raises itself. -/
def handle (m : Started) (course : Course) (g : Ground) (applied : List Change) (error : Failure) :
    World × Except Failure Evidence :=
  match rollback g.tree applied with
  | (t, .ok ()) => (⟨{ g with tree := t }, abort m.node m.token course.left⟩, .error error)
  | (t, .error error) => (⟨{ g with tree := t }, course.left⟩, .error error)

/-- `merge_node`, after its first transaction. -/
def mergeNode (m : Started) (course : Course) (t : Workspace) : World × Except Failure Evidence :=
  match Journal.run (fun g c => step g c (course.stop c.path)) ⟨t, []⟩ [] m.changes with
  | (g, applied, .error error) => handle m course g applied error
  | (g, applied, .ok ()) =>
    match commit m course with
    | .ok (db, evidence) => (⟨g, db⟩, .ok evidence)
    | .error error => handle m course g applied error

end Merge

end Coordinator

end PythonAI
