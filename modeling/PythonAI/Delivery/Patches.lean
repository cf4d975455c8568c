import Mathlib.Data.List.DropRight
import PythonAI.Files
import PythonAI.Library.Journal
import PythonAI.Library.Txn

/-!
# Patches: proposed changes of a workspace's files

A patch is proposed for files whose digests the proposer knows, and applied later.  `preparePatch`
checks every path and every content and records the changes; `applyPatch` checks them again, writes
one file after the other, and takes back what it has written when it cannot go on.

The workspace has files and directories and no links.  Arguments have the types the tool declares.
The text of a temporary file's name ends in the patch's own key, and no other file is named so:
it is left out, as it is moved or unlinked before `replace_bytes` ends.
-/

namespace PythonAI

open Library
open Files (Failure Path Fault posix parts)

namespace Patches

/-- A regular file. -/
structure File where
  /-- `path.read_bytes()` -/
  bytes : ByteArray
  /-- `stat.S_IMODE(path.stat().st_mode)` -/
  mode : ℕ

/-- The workspace. -/
abbrev Disk := Tree String File

/-- A proposed change. -/
structure Request where
  path : String
  /-- `before_sha256`: `none` for a file that is not there -/
  beforeSha256 : Option String
  /-- `content`: `none` for a deletion -/
  content : Option String
  deriving DecidableEq, Repr

/-- A recorded change. -/
structure Change where
  /-- `path`, by its parts: `bounded_path` reads them back as they are -/
  path : Path
  before : Option String
  after : Option String
  /-- `before_sha256` -/
  beforeSha256 : Option String
  mode : ℕ
  deriving DecidableEq, Repr

/-- The payload of a patch. -/
structure Patch where
  changes : List Change
  diff : String
  digest : String
  deriving DecidableEq, Repr

/-- What the program computes with texts. -/
structure Env where
  /-- `hashlib.sha256(data).hexdigest()` -/
  digest : ByteArray → String
  /-- `difflib.unified_diff` of the lines of two texts, with `fromfile` and `tofile`, joined -/
  unified : String → String → String → String → String
  /-- `json.dumps(records, sort_keys=True, ensure_ascii=False).encode()` -/
  dumps : List Change → ByteArray

/-- A `ValueError`. -/
def refusal (message : String) : Failure := .raised (.value message)

/-! ### Paths and contents -/

/-- `part.rstrip(' .').casefold()=='.git'` -/
def isGit (part : String) : Bool :=
  (part.toList.rdropWhile fun c => c = ' ' ∨ c = '.').map Char.toLower = ".git".toList

/-- The checks of `bounded_path` that read the name alone. -/
def relative (name : String) : Except Failure Path :=
  if name = "" ∨ ':' ∈ name.toList ∨ name.toList.head? = some '/' ∨ ".." ∈ parts name ∨
      (parts name).any isGit then
    .error (refusal "Patch requires a relative file inside the workspace")
  else .ok (parts name)

/-- The checks of `bounded_path` that read the workspace. -/
def regular (t : Disk) (path : Path) : Except Failure Path :=
  if path = [] then .error (refusal "Patch path escapes workspace")
  else if t.node path = some .dir then .error (refusal "Patch requires regular files")
  else .ok path

/-- `bounded_path` -/
def boundedPath (t : Disk) (name : String) : Except Failure Path := do
  let path ← relative name
  regular t path

/-- 8 MiB -/
def fileLimit : ℕ := 8 * 1024 * 1024

/-- `read_bytes` -/
def readBytes (t : Disk) (path : Path) : Except Failure (Option ByteArray) :=
  match t.node path with
  | none => .ok none
  | some .dir => .error .os
  | some (.file f) =>
    if fileLimit < f.bytes.size then .error (refusal "Patch file exceeds 8 MiB")
    else if f.bytes.validateUTF8 then .ok (some f.bytes) else .error .decode

/-- `replace_bytes` -/
def replaceBytes (t : Disk) (path : Path) (data : Option ByteArray) (mode : ℕ)
    (fault : Option Fault) : Disk × Except Failure Unit :=
  Files.replace t path (data.map fun bytes => ⟨bytes, mode⟩) fault

/-! ### `prepare_patch` -/

/-- `len(data or b'')` -/
def size (data : Option ByteArray) : ℕ := (data.map ByteArray.size).getD 0

/-- The part of the preview that shows one change. -/
def diffOf (env : Env) (name : String) (old : Option String) (content : Option String) : String :=
  "diff --git a/" ++ name ++ " b/" ++ name ++ "\n"
    ++ (if old.isNone then "new file\n" else "")
    ++ (if content.isNone then "deleted file\n" else "")
    ++ env.unified (old.getD "") (content.getD "")
      (if old.isNone then "/dev/null" else "a/" ++ name)
      (if content.isNone then "/dev/null" else "b/" ++ name)

/-- The record of one change, and the bytes before it. -/
def record (env : Env) (t : Disk) (request : Request) (seen : List Path) (total : ℕ) :
    Except Failure (Change × Option ByteArray) := do
  let path ← boundedPath t request.path
  ensure (path ∉ seen) (refusal "Duplicate patch path")
  let old ← readBytes t path
  ensure (request.beforeSha256 = old.map env.digest) (refusal ("Patch conflict: " ++ posix path))
  let new := request.content.map String.toUTF8
  ensure (old.isSome ∨ new.isSome) (refusal "Cannot delete a missing file")
  ensure (old ≠ new) (refusal ("Patch has no change: " ++ posix path))
  ensure (size new ≤ fileLimit ∧ total + size old + size new ≤ 2 * fileLimit)
    (refusal "Patch exceeds 8 MiB/file or 16 MiB total")
  pure ({
    path := path
    before := old.bind String.fromUTF8?
    after := request.content
    beforeSha256 := request.beforeSha256
    mode := ((t.file path).map File.mode).getD 0o644 }, old)

/-- The loop of `prepare_patch`: the records, and the preview. -/
def records (env : Env) (t : Disk) :
    List Request → List Path → ℕ → Except Failure (List Change × String)
  | [], _, _ => .ok ([], "")
  | request :: requests, seen, total => do
    let (change, old) ← record env t request seen total
    let new := request.content.map String.toUTF8
    let (changes, diff) ←
      records env t requests (change.path :: seen) (total + size old + size new)
    pure (change :: changes,
      diffOf env (posix change.path) change.before change.after ++ diff)

/-- `prepare_patch`, up to the row that `ArtifactStore().add` writes. -/
def preparePatch (env : Env) (t : Disk) (requests : List Request) : Except Failure Patch := do
  ensure (1 ≤ requests.length ∧ requests.length ≤ 32) (refusal "Patch requires 1..32 changes")
  let (changes, diff) ← records env t requests [] 0
  ensure (diff.utf8ByteSize ≤ 2 * 1024 * 1024)
    (refusal "Patch diff exceeds 2 MiB; split the proposal")
  pure { changes := changes, diff := diff, digest := env.digest (env.dumps changes) }

/-! ### `apply_patch` -/

/-- A change that is checked: the bytes before and after it. -/
structure Prepared where
  /-- the change -/
  change : Change
  /-- the bytes before -/
  old : Option ByteArray
  /-- the bytes after -/
  new : Option ByteArray

/-- The first loop of `apply_patch`. -/
def prepared (env : Env) (t : Disk) (change : Change) : Except Failure Prepared := do
  let path ← regular t change.path
  let old ← readBytes t path
  ensure (old.map env.digest = change.beforeSha256)
    (refusal ("Patch conflict: " ++ posix change.path))
  pure ⟨change, old, change.after.map String.toUTF8⟩

/-- What goes wrong in a step. -/
inductive Stop
  /-- before the file is compared: the budget, the cancellation, or reading -/
  | guard (error : Failure)
  /-- while it is replaced -/
  | file (fault : Fault)

/-- The fault of the file system. -/
def Stop.fault : Stop → Option Fault
  | .guard _ => none
  | .file fault => some fault

/-- The files must still be as they were read. -/
def unchanged (t : Disk) (p : Prepared) : Except Failure Unit := do
  let path ← regular t p.change.path
  let now ← readBytes t path
  ensure (now = p.old) (refusal ("Patch conflict during apply: " ++ posix p.change.path))

/-- One round of the second loop, which `stop` may end. -/
def step (t : Disk) (p : Prepared) (stop : Option Stop) : Disk × Except Failure Unit :=
  match stop with
  | some (.guard error) => (t, .error error)
  | _ =>
    match unchanged t p with
    | .error error => (t, .error error)
    | .ok () => replaceBytes t p.change.path p.new p.change.mode (stop.bind Stop.fault)

/-- One round of the recovery: errors are dropped. -/
def undo (t : Disk) (p : Prepared) : Disk :=
  match regular t p.change.path >>= readBytes t with
  | .ok now =>
    if now = p.new then (replaceBytes t p.change.path p.old p.change.mode none).1 else t
  | .error _ => t

/-- The state of the patch's row. -/
inductive State
  | prepared | applying | applied | needsResolution | abandoned
  deriving DecidableEq, Repr

/-- The workspace, and the state of the patch. -/
structure World where
  /-- the workspace -/
  disk : Disk
  state : State

/-- Where a call goes wrong.  An update of the row that fails leaves the row. -/
structure Stops where
  /-- `store.get` -/
  get : Option Failure := none
  /-- the update to `applying` -/
  start : Option Failure := none
  /-- the change of a path -/
  step : Path → Option Stop := fun _ => none
  /-- the update to `applied` -/
  finish : Option Failure := none
  /-- the update to `needs_resolution` -/
  resolve : Option Failure := none

/-- What a call returns. -/
structure Reply where
  reused : Bool
  digest : String
  files : Option (List String)
  deriving DecidableEq, Repr

/-- The end of `apply_patch`, after its second loop. -/
def conclude (patch : Patch) (stops : Stops) (t : Disk) (applied : List Prepared) :
    Except Failure Unit → World × Except Failure Reply
  | .ok () =>
    match stops.finish with
    | none => (⟨t, .applied⟩, .ok ⟨false, patch.digest, some (patch.changes.map (posix ·.path))⟩)
    | some error => recover error
  | .error error => recover error
where
  /-- the changes that were applied are taken back -/
  recover (error : Failure) : World × Except Failure Reply :=
    let disk := applied.foldl undo t
    match stops.resolve with
    | none => (⟨disk, .needsResolution⟩, .error error)
    | some error => (⟨disk, .applying⟩, .error error)

/-- `apply_patch` -/
def applyPatch (env : Env) (patch : Patch) (stops : Stops) (w : World) :
    World × Except Failure Reply :=
  match stops.get with
  | some error => (w, .error error)
  | none =>
    match w.state with
    | .applied => (w, .ok ⟨true, patch.digest, none⟩)
    | .prepared =>
      match patch.changes.mapM (prepared env w.disk) with
      | .error error => (w, .error error)
      | .ok ps =>
        match stops.start with
        | some error => (w, .error error)
        | none =>
          -- the second loop: what is `applied` is listed, the last one first
          match Journal.run (fun t p => step t p (stops.step p.change.path)) w.disk [] ps with
          | (t, applied, result) => conclude patch stops t applied result
    | _ => (w, .error (refusal
        "Interrupted or failed patch needs human inspection; create a fresh proposal"))

end Patches

end PythonAI
