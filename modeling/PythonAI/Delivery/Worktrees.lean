import PythonAI.Coordinator.Restoring

/-!
# `WorktreeStore`: archives of worktrees

The worktree of a task is archived and removed, and restored on request.  `snapshot_files` saves the
bytes of every file and the names of the index that lead nowhere; `restore` checks out the commit
again, and puts the saved files over it, one entry of the manifest after the other.

What Git does is given as it is documented: a bundle brings the commit back, `worktree add` makes the
files of the commit, and `ls-files` lists the index.  There are no links, and nothing changes a
worktree while it is archived, so that what `archive` reads twice is the same both times.

* `snapshotFiles` : `snapshot_files`;
* `archive`, `restore` : the operations of `WorktreeStore`, on the registry and the worktrees.
-/

namespace PythonAI

open Library
open Files (Failure Path parts posix)
open Coordinator.Merge (Workspace refusal selectedFile)

namespace Worktrees

variable (sha256 : ByteArray → String)

/-! ### `snapshot_files` -/

/-- An entry of the manifest. -/
inductive Entry
  /-- `{'path':..,'missing':True}` -/
  | missing (path : String)
  /-- `{'path':..,'sha256':..,'size':..}` -/
  | file (path digest : String) (size : ℕ)
  deriving DecidableEq, Repr

/-- What `snapshot_files` writes. -/
structure Snapshot where
  /-- the manifest -/
  manifest : List Entry
  /-- the files of `files.zip`, without the manifest -/
  files : List (String × ByteArray)

/-- The name of the manifest in `files.zip`. -/
def manifestName : String := ".pythonai-archive-manifest.json"

/-- The limit on the bytes of a file. -/
def fileLimit : ℕ := 64 * 1024 * 1024

/-- The limit on the bytes of all files. -/
def totalLimit : ℕ := 256 * 1024 * 1024

/-- The limit on the entries of a manifest. -/
def entryLimit : ℕ := 10000

/-- The loop over the candidates, after `count` entries and `total` bytes. -/
def snapshotEach (t : Workspace) : List Path → ℕ → ℕ → Except Failure Snapshot
  | [], _, _ => .ok ⟨[], []⟩
  | p :: ps, count, total =>
    if ".git" ∈ p then do
      ensure (p.head? = some ".git") (refusal "Embedded repositories require manual preservation")
      snapshotEach t ps count total
    else if posix p = manifestName then .error (refusal "Reserved archive manifest path")
    else match t.node p with
      | none => do
        let s ← snapshotEach t ps (count + 1) total
        pure { s with manifest := .missing (posix p) :: s.manifest }
      | some .dir => snapshotEach t ps count total
      | some (.file data) => do
        ensure (data.size ≤ fileLimit ∧ total + data.size ≤ totalLimit ∧ count < entryLimit)
          (refusal "Archive exceeds file/count/size limits; workspace retained")
        let s ← snapshotEach t ps (count + 1) (total + data.size)
        pure
          { manifest := .file (posix p) (sha256 data) data.size :: s.manifest
            files := (posix p, data) :: s.files }

/-- The candidates: what `rglob` yields, and the names of the index that lead nowhere. -/
def candidates (t : Workspace) (rglob index : List Path) : List Path :=
  rglob ++ index.filter fun p => (t.node p).isNone

/-- `snapshot_files`, of the whole worktree. -/
def snapshotFiles (t : Workspace) (rglob index : List Path) : Except Failure Snapshot :=
  snapshotEach sha256 t (candidates t rglob index) 0 0

/-! ### The registry -/

/-- `metadata.json` -/
structure Metadata where
  owner : String
  task : String
  repository : String
  base : String
  head : String
  deriving DecidableEq, Repr

/-- The directory of an archive. -/
structure Archive where
  /-- `metadata.json` -/
  metadata : Metadata
  /-- `files.zip` -/
  snapshot : Snapshot
  /-- the commit of `history.bundle` -/
  bundle : String

/-- `state` -/
inductive State
  /-- `ready` -/
  | ready
  /-- `archived` -/
  | archived
  deriving DecidableEq, Repr

/-- A row of `worktrees`. -/
structure Row where
  owner : String
  task : String
  repository : String
  base : String
  state : State
  /-- `archive`: the name of a directory of `archives` -/
  archive : Option String
  deriving DecidableEq, Repr

/-- `PRIMARY KEY(owner,task,repository)` -/
abbrev Key := String × String × String

/-- The key of the row. -/
def Row.key (r : Row) : Key := (r.owner, r.task, r.repository)

/-- A worktree. -/
structure Worktree where
  /-- the files -/
  tree : Workspace
  /-- what `git ls-files` lists -/
  index : List Path
  /-- `git rev-parse HEAD` -/
  head : String

/-- The storage of worktrees. -/
structure Storage where
  /-- the rows of `registry.db` -/
  rows : List Row
  /-- the worktrees of Git, by the keys that their locations are made of -/
  worktrees : Key → Option Worktree
  archives : String → Option Archive

/-- `SELECT * FROM worktrees WHERE owner=? AND task=? AND repository=?` -/
def Storage.row (s : Storage) (key : Key) : Option Row := Records.find Row.key key s.rows

/-- `UPDATE worktrees` of the row. -/
def Storage.update (s : Storage) (key : Key) (f : Row → Row) : Storage :=
  { s with rows := s.rows.map fun r => if r.key = key then f r else r }

/-- `SELECT COUNT(*) FROM worktrees WHERE state!='archived'` -/
def Storage.active (s : Storage) : ℕ := s.rows.countP (·.state ≠ .archived)

/-- There is another worktree, or none, at the location. -/
def Storage.place (s : Storage) (key : Key) (w : Option Worktree) : Storage :=
  { s with worktrees := Function.update s.worktrees key w }

/-! ### `archive` -/

/-- What `archive` reads besides the storage and the worktree. -/
structure Archiving where
  /-- `expected_content` -/
  expected : Option String := none
  /-- `fingerprint(path)` -/
  fingerprint : String := ""
  /-- `git submodule status` prints something -/
  submodules : Bool := false
  /-- `size` and `size-pack` of `git count-objects -v` -/
  objects : ℕ := 0
  /-- `uuid.uuid4().hex` -/
  uuid : String
  /-- `path.rglob('*')` -/
  rglob : List Path
  /-- the bytes of `history.bundle` -/
  bundle : ℕ := 0

/-- `Path(None)` -/
def noPath : Error := .type
  "argument should be a str or an os.PathLike object where __fspath__ returns a str, not 'NoneType'"

/-- The entry still says what is in the worktree. -/
def unchanged (t : Workspace) : Entry → Bool
  | .missing path => (t.node (parts path)).isNone
  | .file path digest _ => (t.file (parts path)).any fun data => sha256 data = digest

/-- `archive`, for a worktree that is ready. -/
def archiveReady (x : Archiving) (row : Row) (w : Worktree) (s : Storage) :
    Except Failure (Storage × String) := do
  ensure (x.expected.all (· = x.fingerprint))
    (refusal "Worktree content changed after authorization")
  ensure (!x.submodules) (refusal "Submodule worktrees require manual preservation")
  ensure (x.objects * 1024 ≤ totalLimit)
    (refusal "Repository objects exceed archive limit; workspace retained")
  ensure (s.archives x.uuid).isNone .os
  let snapshot ← snapshotFiles sha256 w.tree x.rglob w.index
  ensure (x.bundle ≤ totalLimit) (refusal "History bundle exceeds archive limit; workspace retained")
  ensure (snapshot.manifest.all (unchanged sha256 w.tree)) (refusal "Worktree changed during archive")
  let metadata : Metadata := ⟨row.owner, row.task, row.repository, row.base, w.head⟩
  let stored := { s with
    archives := Function.update s.archives x.uuid (some ⟨metadata, snapshot, w.head⟩) }
  pure ((stored.place row.key none).update row.key fun r =>
    { r with state := .archived, archive := some x.uuid }, x.uuid)

/-- `archive`; it returns the name of the archive. -/
def archive (x : Archiving) (key : Key) (s : Storage) : Except Failure (Storage × String) := do
  let row ← require (s.row key) (.raised (.missing key.2.1))
  if row.state = .archived then do
    let name ← require row.archive (.raised noPath)
    pure (s, name)
  else do
    let w ← require (s.worktrees key) (refusal "Managed worktree is not registered")
    archiveReady sha256 x row w s

/-! ### `restore` -/

/-- What Git makes of a commit. -/
structure Git where
  /-- the files that `worktree add` makes -/
  checkout : String → Workspace
  /-- the index that it makes -/
  index : String → List Path

/-- `zipped.getinfo`: the last file of the name. -/
def getinfo (files : List (String × ByteArray)) (name : String) : Option ByteArray :=
  (files.reverse.find? fun f => f.1 = name).map Prod.snd

/-- The file of an entry, after `total` bytes: where it goes, and its bytes. -/
def readEntry (t : Workspace) (files : List (String × ByteArray)) (name digest : String)
    (total : ℕ) : Except Failure (Path × ByteArray) := do
  let p ← selectedFile t name
  let data ← require (getinfo files name)
    (.raised (.missing ("There is no item named '" ++ name ++ "' in the archive")))
  ensure (data.size ≤ fileLimit ∧ total + data.size ≤ totalLimit) (refusal "Archive too large")
  ensure (sha256 data = digest) (refusal "Archive digest mismatch")
  pure (p, data)

/-- One entry of the manifest, after `total` bytes: the worktree, and the bytes so far. -/
def restoreEntry (files : List (String × ByteArray)) (t : Workspace) (total : ℕ) :
    Entry → Workspace × Except Failure ℕ
  | .missing name =>
    match selectedFile t name with
    | .error e => (t, .error e)
    | .ok p =>
      if (t.node p).isSome then
        ((Files.unlink t p none).1, (Files.unlink t p none).2.map fun _ => total)
      else (t, .ok total)
  | .file name digest _ =>
    match readEntry sha256 t files name digest total with
    | .error e => (t, .error e)
    | .ok (p, data) =>
      ((Files.write t p data none).1, (Files.write t p data none).2.map fun _ => total + data.size)

/-- The loop over the manifest. -/
def restoreEach (files : List (String × ByteArray)) :
    List Entry → Workspace → ℕ → Workspace × Except Failure Unit
  | [], t, _ => (t, .ok ())
  | e :: es, t, total =>
    match restoreEntry sha256 files t total e with
    | (t', .error error) => (t', .error error)
    | (t', .ok total') => restoreEach files es t' total'

/-- The checks of `restore`, up to the checkout. -/
def findArchive (key : Key) (s : Storage) : Except Failure Archive := do
  let row ← require (s.row key) (.raised (.missing key.2.1))
  ensure (row.state = .archived) (refusal "Only archived worktrees can be restored")
  let name ← require row.archive (.raised noPath)
  let archive ← require (s.archives name) .os
  ensure ((archive.metadata.owner, archive.metadata.task, archive.metadata.repository) = key ∧
      archive.metadata.base = row.base)
    (refusal "Archive identity mismatch")
  ensure (s.worktrees key).isNone (refusal "Restore target is no longer available")
  ensure (s.active < 256) (refusal "Worktree capacity reached")
  ensure (archive.bundle = archive.metadata.head) (refusal "Archive commit mismatch")
  pure archive

/-- What `restore` does once the commit is checked out. -/
def restoreFiles (a : Archive) (t : Workspace) : Workspace × Except Failure Unit :=
  if entryLimit < a.snapshot.manifest.length then (t, .error (refusal "Invalid archive manifest"))
  else restoreEach sha256 a.snapshot.files a.snapshot.manifest t 0

/-- `restore`: an exception leaves the row, and the worktree as far as it was restored. -/
def restore (git : Git) (key : Key) (s : Storage) : Storage × Except Failure Unit :=
  match findArchive key s with
  | .error e => (s, .error e)
  | .ok a =>
    let r := restoreFiles sha256 a (git.checkout a.bundle)
    let placed := s.place key (some ⟨r.1, git.index a.bundle, a.bundle⟩)
    match r.2 with
    | .error e => (placed, .error e)
    | .ok () => (placed.update key fun row => { row with state := .ready }, .ok ())

end Worktrees

end PythonAI
