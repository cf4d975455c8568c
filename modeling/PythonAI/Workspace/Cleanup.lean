import PythonAI.Errors
import PythonAI.Library.Lts
import PythonAI.Library.Table
import PythonAI.Library.Txn
import PythonAI.Tasks.Types

/-!
# The cleanup of managed directories

A plan that the user has approved moves directories to an archive, moves them back, or deletes them.
`resume` carries it out: for each directory it commits the intent, moves the directory, commits that
it was moved, deletes it if the plan says so, and commits the end.  It is taken apart here at each
transaction and at each call of the file system, and a process can end between any two of them; the
user changes the files at any time, except what a process has pinned.

A directory is a tree at a place: its place in the workspace, or the place of an archive.  A digest
stands for what it is computed from.

* `Worker.advance` : the next step of `resume`
* `Host.lts` : workers, previews, decisions, crashes and the user, in any order
-/

namespace PythonAI

open Library

namespace Workspace

/-! ### Directories -/

/-- `wl_directories.id`. -/
abbrev DirId := ℕ

/-- `wl_plans.id`. -/
abbrev PlanId := ℕ

/-- `wl_sessions.id`. -/
abbrev SessionId := String

/-- `identity`: the device and the inode of an object. -/
abbrev Ident := ℕ × ℕ

/-- Where a managed directory can be. -/
inductive Place
  /-- in the workspace -/
  | source (root relative : String)
  /-- in the trash -/
  | payload (root principal : String) (id : DirId) (key : PlanId)
  deriving DecidableEq, Repr

/-- A record of `snapshot`, below the directory. -/
structure Entry where
  /-- the path in the directory -/
  path : String
  /-- `identity` -/
  ident : Ident
  /-- size and digest of a file; nothing for a directory -/
  content : Option (ℕ × String)
  deriving DecidableEq, Repr

/-- A directory with what `snapshot` finds in it. -/
structure Tree where
  /-- `identity` of the directory -/
  ident : Ident
  /-- the records below it -/
  entries : List Entry
  /-- no two records have the same path -/
  paths : (entries.map (·.path)).Nodup
  deriving DecidableEq, Repr

namespace Tree

/-- The record of a manifest under a path. -/
def lookup (t : Tree) (path : String) : Option Entry := t.entries.find? (·.path = path)

/-- All records of `t'` are records of the manifest `t`. -/
def covers (t t' : Tree) : Bool :=
  t'.ident = t.ident && t'.entries.all fun e => t.lookup e.path = some e

/-- The number of parts of the path. -/
def depth (e : Entry) : ℕ := (e.path.toList.splitOn '/').length

/-- The order in which `purge` deletes. -/
def purgeOrder (t : Tree) : List Entry :=
  t.entries.mergeSort fun a b =>
    depth b < depth a || depth b = depth a && b.path.length ≤ a.path.length

/-- `e` is a directory of the tree that is not empty. -/
def occupied (t : Tree) (e : Entry) : Bool :=
  e.content.isNone && t.entries.any fun e' => (e.path.toList ++ ['/']).isPrefixOf e'.path.toList

/-- The tree without the object `e`. -/
def remove (t : Tree) (e : Entry) : Tree :=
  ⟨t.ident, t.entries.erase e, t.paths.sublist (List.erase_sublist.map _)⟩

end Tree

/-- `wl_directories.state`. -/
inductive DirState
  | creating | creatingFailed | active | archiving | archived | restoring | quarantining
  | purgePending | purging | purged
  deriving DecidableEq, Repr

/-- `build_state`. -/
inductive BuildState
  | building | ready | failed
  deriving DecidableEq, Repr

/-- A row of `wl_directories`. -/
structure Row where
  /-- the workspace, as `root` and as `root_path` -/
  root : String
  relative : String
  principal : String
  /-- `purpose` is `temporary` -/
  temporary : Bool
  state : DirState
  generation : ℕ := 1
  identity : Option Ident := none
  archive : Option Place := none
  manifest : Option Tree := none
  /-- `original_relative` -/
  original : Option String := none
  /-- `build_state` -/
  build : BuildState := .ready
  deriving DecidableEq, Repr

/-- The place in the workspace. -/
def Row.source (row : Row) : Place := .source row.root row.relative

/-- `trash`, for a directory of its user. -/
def trash (id : DirId) (row : Row) (key : PlanId) : Place :=
  .payload row.root row.principal id key

/-! ### Plans -/

/-- `action`. -/
inductive Action
  | archive | restore | deleteSession
  deriving DecidableEq, Repr

namespace Action

/-- The state in which `resume` leaves a directory. -/
def final : Action → DirState
  | archive => .archived
  | restore => .active
  | deleteSession => .purged

/-- The state of the intent. -/
def begun : Action → DirState
  | archive => .archiving
  | restore => .restoring
  | deleteSession => .quarantining

/-- The state after the move. -/
def moved : Action → DirState
  | archive => .archived
  | restore => .active
  | deleteSession => .purgePending

/-- The directory is to be moved. -/
def moving (a : Action) (state : DirState) : Bool :=
  a = restore || state = .active || state = .archiving || state = .quarantining

end Action

/-- An item of a plan; its digest is the one of its manifest. -/
structure Item where
  id : DirId
  generation : ℕ
  state : DirState
  manifest : Tree
  deriving DecidableEq, Repr

/-- A directory that a plan keeps. -/
structure Kept where
  id : DirId
  generation : ℕ
  references : List SessionId
  deriving DecidableEq, Repr

/-- A row of `wl_plans`. -/
structure Plan where
  session : SessionId
  principal : String
  action : Action
  /-- `items` of the payload -/
  items : List Item
  /-- `kept` of the payload -/
  kept : List Kept
  expires : Time
  approval : Option ℕ := none
  deriving DecidableEq, Repr

/-- `wl_operations.state` and `error`. -/
inductive OpState
  | running
  | blocked (error : Error)
  | completed
  deriving DecidableEq, Repr

/-- A row of `wl_leases`. -/
structure Lease where
  token : Token
  expires : Time
  deriving DecidableEq, Repr

/-! ### Workers -/

/-- The item that a worker is at, with its row as it was read, and its place in the archive. -/
structure Job where
  item : Item
  row : Row
  /-- `destination` -/
  dest : Place
  deriving DecidableEq, Repr

/-- `origin`. -/
def Job.origin (j : Job) (a : Action) : Place := if a = .restore then j.dest else j.row.source

/-- `target`. -/
def Job.target (j : Job) (a : Action) : Place := if a = .restore then j.row.source else j.dest

/-- Where a call of `resume` is. -/
inductive Pc
  /-- it has read the plan and the operation -/
  | opened
  /-- it has the lease -/
  | entered
  /-- at the next item -/
  | next
  /-- the lease was checked -/
  | ready (item : Item)
  /-- the intent is committed -/
  | placed (j : Job)
  /-- the origin is the registered object -/
  | found (j : Job)
  /-- the origin is pinned, with the approved contents -/
  | pinned (j : Job)
  /-- the lease was checked again -/
  | fenced (j : Job)
  /-- only the directory itself is pinned -/
  | sliding (j : Job)
  /-- the object was moved -/
  | moved (j : Job)
  /-- the target is the registered object -/
  | known (j : Job)
  /-- the target had the approved contents -/
  | verified (j : Job)
  /-- nothing is to be moved any more -/
  | settled (j : Job)
  /-- the archive is the registered object -/
  | condemned (j : Job)
  /-- the purge is recorded, and the archive is pinned -/
  | purging (j : Job) (order : List Entry)
  /-- these objects are still to be deleted -/
  | purge (j : Job) (order : List Entry)
  /-- at the last update of the item -/
  | last (j : Job)
  /-- all items are done -/
  | complete
  /-- at the last transaction -/
  | closing
  /-- an exception was raised -/
  | failing (e : Error)
  /-- at the end -/
  | releasing
  deriving DecidableEq, Repr

/-- A call of `resume`. -/
structure Worker where
  key : PlanId
  plan : Plan
  lease : Token := 0
  /-- the items after the current one -/
  todo : List Item
  /-- where it is -/
  pc : Pc := .opened
  deriving DecidableEq, Repr

/-- What holds a directory: `PinnedTree`. -/
structure Pin where
  /-- the process -/
  owner : ℕ
  /-- the objects below the directory that are held with it -/
  held : List Entry
  deriving DecidableEq, Repr

/-- The database, the files and the processes. -/
structure Host where
  /-- `wl_directories` -/
  rows : Table DirId Row
  /-- `wl_refs` -/
  refs : List (DirId × SessionId)
  /-- `wl_plans` -/
  plans : Table PlanId Plan
  /-- `wl_operations` -/
  operations : Table PlanId OpState
  /-- `wl_leases` -/
  leases : Table PlanId Lease
  /-- the directories -/
  files : Table Place Tree
  /-- the pinned directories -/
  pins : Table Place Pin
  /-- the calls of `resume` -/
  workers : Table ℕ Worker
  /-- the clock -/
  now : Time
  /-- the next value of `uuid4` -/
  uuids : Token

/-- How the calls outside this model end, during a step. -/
structure Env where
  /-- what precedes the items: other stores, schedules and workers of the session -/
  admitted : Except Error Unit := .ok ()
  /-- `directory` -/
  located : Except Error Unit := .ok ()
  /-- `trash` -/
  trashed : Except Error Unit := .ok ()
  /-- the handles of `PinnedTree` -/
  opened : Except Error Unit := .ok ()
  /-- the rename, or the deletion of one object -/
  io : Except Error Unit := .ok ()
  /-- the deletion of the output files -/
  outputs : Except Error Unit := .ok ()
  deriving DecidableEq

namespace Host

/-! ### The registry -/

/-- `get`. -/
def get (principal : String) (id : DirId) (h : Host) : Except Error Row :=
  require ((h.rows id).filter (·.principal = principal))
    (.permission "Directory not owned by this user")

/-- `identity` of the object at a place. -/
def identity (p : Place) (h : Host) : Except Error Ident :=
  require ((h.files p).map (·.ident)) (.runtime "FileNotFoundError")

/-- The place that `locate` looks at. -/
def place (row : Row) : Place :=
  match row.state with
  | .archived | .purging | .purgePending => row.archive.getD row.source
  | _ => row.source

/-- `snapshot` of what `locate` finds. -/
def locate (row : Row) (h : Host) : Except Error Tree := do
  let tree ← require (h.files (place row)) (.runtime "FileNotFoundError")
  ensure (some tree.ident = row.identity) (.permission "Directory identity changed")
  pure tree

/-- The sessions that refer to a directory. -/
def references (id : DirId) (h : Host) : List SessionId :=
  (h.refs.filter (·.1 = id)).map (·.2)

/-- `preview`, for one directory: an item, or a directory that is kept. -/
def previewRow (action : Action) (id : DirId) (row : Row) (h : Host) :
    Except Error (Item ⊕ Kept) :=
  if (!row.temporary && action ≠ .restore) || (h.references id).length ≠ 1 then do
    ensure (action = .deleteSession)
      (.value "Retained/shared directories cannot be moved by temporary cleanup")
    pure (.inr ⟨id, row.generation, h.references id⟩)
  else do
    let ready := match action with
      | .restore => row.state = .archived
      | .archive => row.state = .active
      | .deleteSession => row.state = .active || row.state = .archived
    ensure ready (.value "Directory is busy or needs recovery")
    ensure (row.build ≠ .building) (.value "Program creation is still in progress")
    let manifest ← h.locate row
    ensure (action ≠ .restore || (h.files row.source).isNone)
      (.runtime "Restore destination exists")
    pure (.inl ⟨id, row.generation, row.state, manifest⟩)

/-- The directories that `preview` looks at. -/
def candidates (session : SessionId) (key : Option DirId) (h : Host) : List DirId :=
  match key with
  | some id => [id]
  | none => (h.refs.filter (·.2 = session)).map (·.1)

/-- `preview`, in a session that is active (`env`). -/
def preview (env : Except Error Unit) (session : SessionId) (principal : String)
    (action : Action) (key : Option DirId) (h : Host) : Except Error Host := do
  env
  let found ← (h.candidates session key).mapM fun id => do
    let row ← h.get principal id
    h.previewRow action id row
  let plan : Plan :=
    { session := session, principal := principal, action := action
      items := found.filterMap (·.getLeft?), kept := found.filterMap (·.getRight?)
      expires := h.now + 300 }
  pure { h with plans := h.plans.set h.uuids plan, uuids := h.uuids + 1 }

/-- `request`: the approval that was asked for. -/
def request (key : PlanId) (approval : Except Error ℕ) (h : Host) : Except Error Host := do
  let approval ← approval
  pure { h with
    plans := h.plans.update key (fun _ => true) fun plan => { plan with approval := some approval } }

/-- The part of `check_items` about one item. -/
def checkItem (plan : Plan) (item : Item) (h : Host) : Except Error Unit := do
  let row ← h.get plan.principal item.id
  ensure (row.generation = item.generation && row.state = item.state &&
      (row.temporary || plan.action = .restore))
    (.value "Directory registration changed; preview again")
  ensure (row.build ≠ .building) (.value "Program creation is still in progress")
  ensure (h.references item.id = [plan.session])
    (.value "Directory references changed; preview again")
  let tree ← h.locate row
  ensure (tree = item.manifest) (.value "Directory contents changed; preview again")

/-- The part of `check_items` about one directory that is kept. -/
def checkKept (plan : Plan) (kept : Kept) (h : Host) : Except Error Unit := do
  let row ← h.get plan.principal kept.id
  ensure (row.generation = kept.generation &&
      ((h.references kept.id).isPerm kept.references))
    (.value "Preserved directory references changed; preview again")

/-- The transaction of `execute`; `env` is what it checks in other stores, `consumed` how the
approval `approval` is consumed. -/
def execute (env : Except Error Unit) (key : PlanId) (approval : ℕ) (consumed : Except Error Unit)
    (h : Host) : Except Error Host := do
  let plan ← require (h.plans key) (.permission "Plan does not belong to this conversation")
  ensure (h.operations key).isNone
    (.value "Operation needs recovery; do not repeat the decision")
  ensure (h.now < plan.expires) (.value "Preview expired; preview again")
  env
  plan.kept.forM fun kept => h.checkKept plan kept
  plan.items.forM fun item => h.checkItem plan item
  ensure (plan.approval = some approval) (.permission "Approval does not match this plan")
  consumed
  pure { h with operations := h.operations.set key .running }

/-- The parts of a path in a workspace. -/
def parts (root relative : String) : List (List Char) :=
  (root.toList ++ '/' :: relative.toList).splitOn '/'

/-- One of the directories is the other one, or in it. -/
def overlaps (root relative : String) (row : Row) : Bool :=
  (parts root relative).isPrefixOf (parts row.root row.relative) ||
    (parts row.root row.relative).isPrefixOf (parts root relative)

/-- The first transaction of `create`. -/
def create (env : Except Error Unit) (session : SessionId) (root relative principal : String)
    (temporary : Bool) (h : Host) : Except Error Host := do
  env
  ensure ((List.range h.uuids).all fun id =>
      (h.rows id).all fun row => row.state = .purged || !overlaps root relative row)
    (.value "Directory overlaps an existing registry entry")
  pure { h with
    rows := h.rows.set h.uuids
      { root := root, relative := relative, principal := principal, temporary := temporary
        state := .creating }
    refs := h.refs ++ [(h.uuids, session)]
    uuids := h.uuids + 1 }

/-- The last transaction of `create`. -/
def created (id : DirId) (h : Host) : Except Error Host := do
  let row ← require ((h.rows id).filter (·.state = .creating)) (.missing "id")
  let ident ← h.identity row.source
  pure { h with rows := h.rows.set id { row with state := .active, identity := some ident } }

/-- The row is `active` or `archived`. -/
def free (row : Row) : Bool := row.state = .active || row.state = .archived

/-- `attach`. -/
def attach (env : Except Error Unit) (session : SessionId) (principal : String) (id : DirId)
    (h : Host) : Except Error Host := do
  env
  let row ← h.get principal id
  ensure (free row) (.value "Directory operation in progress")
  pure { h with
    refs := if (id, session) ∈ h.refs then h.refs else h.refs ++ [(id, session)]
    rows := h.rows.set id { row with generation := row.generation + 1 } }

/-- `retain`. -/
def retain (env : Except Error Unit) (principal : String) (id : DirId) (h : Host) :
    Except Error Host := do
  env
  let row ← h.get principal id
  ensure (free row) (.value "Directory operation in progress")
  pure { h with
    rows := h.rows.set id { row with temporary := false, generation := row.generation + 1 } }

/-- `build_status`. -/
def buildStatus (env : Except Error Unit) (principal : String) (id : DirId) (state : BuildState)
    (h : Host) : Except Error Host := do
  env
  let row ← h.get principal id
  ensure (row.state = .active) (.value "Directory operation in progress")
  ensure (!(state = .building && row.build = .building))
    (.value "Program build needs completion or explicit recovery")
  pure { h with
    rows := h.rows.set id { row with build := state, generation := row.generation + 1 } }

/-! ### `resume` -/

/-- The call `id` goes on at `pc`. -/
def goto (id : ℕ) (w : Worker) (pc : Pc) (h : Host) : Host :=
  { h with workers := h.workers.set id { w with pc := pc } }

/-- `fenced` -/
def fence (w : Worker) (h : Host) : Except Error Unit :=
  ensure ((h.leases w.key).any fun l => l.token = w.lease && h.now < l.expires)
    (.permission "Cleanup lease expired or was replaced")

/-- `PinnedTree` of a place: nothing else holds it. -/
def pin (env : Env) (p : Place) (h : Host) : Except Error Tree := do
  let tree ← require (h.files p) (.runtime "FileNotFoundError")
  ensure (h.pins p).isNone (.runtime "File is occupied or cannot be pinned")
  env.opened
  pure tree

/-- The first update of an item, and the intent. -/
def intend (env : Env) (id : ℕ) (w : Worker) (item : Item) (h : Host) : Except Error Host := do
  let row ← h.get w.plan.principal item.id
  if row.state = w.plan.action.final && item.generation < row.generation then
    pure (h.goto id w .next)
  else
    ensure ((row.temporary || w.plan.action = .restore) && row.generation = item.generation)
      (.permission "Directory registration changed after approval")
    env.located
    let trashed : Except Error Unit := if row.archive.isSome then .ok () else env.trashed
    trashed
    let dest := row.archive.getD (trash item.id row w.key)
    if w.plan.action.moving row.state then
      pure ({ h with
        rows := h.rows.set item.id { row with
          state := w.plan.action.begun, archive := some dest
          manifest := some item.manifest } }.goto id w (.placed ⟨item, row, dest⟩))
    else
      pure (h.goto id w (.settled ⟨item, row, dest⟩))

/-- The origin is there, or the object was moved before. -/
def look (id : ℕ) (w : Worker) (j : Job) (h : Host) : Except Error Host := do
  ensure (!((h.files (j.origin w.plan.action)).isSome && (h.files (j.target w.plan.action)).isSome))
    (.permission "Both source and destination exist; recovery required")
  match h.files (j.origin w.plan.action) with
  | some tree => do
    ensure (some tree.ident = j.row.identity) (.permission "Source object was replaced")
    pure (h.goto id w (.found j))
  | none => do
    ensure (h.files (j.target w.plan.action)).isSome
      (.permission "Both source and destination missing")
    pure (h.goto id w (.moved j))

/-- The origin is pinned, if its contents are the approved ones. -/
def grasp (env : Env) (id : ℕ) (w : Worker) (j : Job) (h : Host) : Except Error Host := do
  let tree ← h.pin env (j.origin w.plan.action)
  ensure (tree = j.item.manifest) (.permission "Contents changed since approval")
  pure ({ h with pins := h.pins.set (j.origin w.plan.action) ⟨id, tree.entries⟩ }.goto id w
    (.pinned j))

/-- `move`, up to the rename: what is below the directory is released. -/
def slide (env : Env) (id : ℕ) (w : Worker) (j : Job) (h : Host) : Except Error Host := do
  ensure (h.files (j.target w.plan.action)).isNone (.runtime "Destination already exists")
  env.opened
  pure ({ h with pins := h.pins.set (j.origin w.plan.action) ⟨id, []⟩ }.goto id w (.sliding j))

/-- The rename, which replaces nothing. -/
def rename (env : Env) (id : ℕ) (w : Worker) (j : Job) (h : Host) : Except Error Host := do
  env.io
  ensure (h.files (j.target w.plan.action)).isNone (.runtime "Native rename refused")
  let tree ← require (h.files (j.origin w.plan.action)) (.runtime "Native rename refused")
  pure ({ h with
    files := (h.files.erase (j.origin w.plan.action)).set (j.target w.plan.action) tree
    pins := h.pins.erase (j.origin w.plan.action) }.goto id w (.moved j))

/-- The target is the registered object. -/
def recognize (id : ℕ) (w : Worker) (j : Job) (h : Host) : Except Error Host := do
  let ident ← h.identity (j.target w.plan.action)
  ensure (some ident = j.row.identity) (.permission "Destination object was replaced")
  pure (h.goto id w (.known j))

/-- The target has the approved contents. -/
def verify (env : Env) (id : ℕ) (w : Worker) (j : Job) (h : Host) : Except Error Host := do
  let tree ← h.pin env (j.target w.plan.action)
  ensure (tree = j.item.manifest)
    (.permission "Contents changed after move; retained for recovery")
  pure (h.goto id w (.verified j))

/-- The update after the move. -/
def settle (id : ℕ) (w : Worker) (j : Job) (h : Host) : Host :=
  { h with
    rows := h.rows.update j.item.id (fun _ => true) fun row =>
      { row with state := w.plan.action.moved } }.goto id w (.settled j)

/-- A deletion looks at the archive. -/
def condemn (id : ℕ) (w : Worker) (j : Job) (h : Host) : Except Error Host :=
  if w.plan.action ≠ .deleteSession then pure (h.goto id w (.last j))
  else do
    let row ← h.get w.plan.principal j.item.id
    match h.files j.dest with
    | some tree => do
      ensure (some tree.ident = row.identity) (.permission "Purge object was replaced")
      pure (h.goto id w (.condemned { j with row := row }))
    | none => do
      ensure (row.state = .purging) (.permission "Purge destination unexpectedly missing")
      pure (h.goto id w (.last { j with row := row }))

/-- The purge is recorded, of approved objects only. -/
def doom (env : Env) (id : ℕ) (w : Worker) (j : Job) (h : Host) : Except Error Host := do
  let tree ← h.pin env j.dest
  ensure (j.row.state = .purging || tree = j.item.manifest)
    (.permission "Archive contents changed")
  ensure (j.item.manifest.covers tree)
    (.permission "Unexpected objects in partial purge; retained")
  pure ({ h with
    rows := h.rows.update j.item.id (fun _ => true) fun row => { row with state := .purging }
    pins := h.pins.set j.dest ⟨id, tree.purgeOrder⟩ }.goto id w (.purging j tree.purgeOrder))

/-- `purge` of one object. -/
def purgeOne (env : Env) (id : ℕ) (w : Worker) (j : Job) (order : List Entry) (h : Host) :
    Except Error Host := do
  env.io
  let tree ← require (h.files j.dest)
    (.runtime "Native delete refused; remaining objects retained")
  match order with
  | e :: order => do
    ensure (!tree.occupied e) (.runtime "Native delete refused; remaining objects retained")
    pure ({ h with
      files := h.files.set j.dest (tree.remove e)
      pins := h.pins.set j.dest ⟨id, order⟩ }.goto id w (.purge j order))
  | [] => do
    ensure tree.entries.isEmpty (.runtime "Native delete refused; remaining objects retained")
    pure ({ h with
      files := h.files.erase j.dest
      pins := h.pins.erase j.dest }.goto id w (.last j))

/-- The row after the last update of an item. -/
def finalRow (id : DirId) (a : Action) (row : Row) : Row :=
  match a with
  | .deleteSession =>
    { row with
      original := some (row.original.getD row.relative)
      relative := "@purged/" ++ toString id
      state := .purged
      generation := row.generation + 1 }
  | _ => { row with state := a.final, generation := row.generation + 1 }

/-- The last update of an item. -/
def finish (id : ℕ) (w : Worker) (j : Job) (h : Host) : Host :=
  { h with
    rows := h.rows.update j.item.id (fun _ => true)
      (finalRow j.item.id w.plan.action) }.goto id w .next

/-- The last transaction. -/
def close (id : ℕ) (w : Worker) (h : Host) : Host :=
  let h := if w.plan.action = .deleteSession then
      { h with
        rows := h.rows.updateWhere (fun id _ => w.plan.kept.any (·.id = id)) fun row =>
          { row with generation := row.generation + 1 }
        refs := h.refs.filter (·.2 ≠ w.plan.session) }
    else h
  { h with operations := h.operations.set w.key .completed }.goto id w .releasing

/-- The end of the call: the lease is released, if it is still its own. -/
def release (id : ℕ) (w : Worker) (h : Host) : Host :=
  { h with
    leases := if (h.leases w.key).any (·.token = w.lease) then h.leases.erase w.key else h.leases
    workers := h.workers.erase id }

/-- The lease of the operation. -/
def acquire (id : ℕ) (w : Worker) (h : Host) : Except Error Host := do
  ensure (!(h.leases w.key).any (h.now < ·.expires)) (.value "Cleanup worker is still active")
  pure { h with
    leases := h.leases.set w.key ⟨h.uuids, h.now + 600⟩
    uuids := h.uuids + 1
    workers := h.workers.set id { w with lease := h.uuids, pc := .entered } }

/-- The next step of `resume`. -/
def advance (env : Env) (id : ℕ) (w : Worker) (h : Host) : Except Error Host :=
  match w.pc with
  | .opened => h.acquire id w
  | .entered => do
    let admitted : Except Error Unit :=
      if w.plan.action = .deleteSession then env.admitted else .ok ()
    admitted
    pure (h.goto id w .next)
  | .next =>
    match w.todo with
    | item :: todo => do
      h.fence w
      pure (h.goto id { w with todo := todo } (.ready item))
    | [] => pure (h.goto id w .complete)
  | .ready item => h.intend env id w item
  | .placed j => h.look id w j
  | .found j => h.grasp env id w j
  | .pinned j => do
    h.fence w
    pure (h.goto id w (.fenced j))
  | .fenced j => h.slide env id w j
  | .sliding j => h.rename env id w j
  | .moved j => h.recognize id w j
  | .known j => h.verify env id w j
  | .verified j => pure (h.settle id w j)
  | .settled j => h.condemn id w j
  | .condemned j => h.doom env id w j
  | .purging j order => do
    h.fence w
    pure (h.goto id w (.purge j order))
  | .purge j order => h.purgeOne env id w j order
  | .last j => pure (h.finish id w j)
  | .complete => do
    let cleared : Except Error Unit :=
      if w.plan.action = .deleteSession then h.fence w >>= fun _ => env.outputs else .ok ()
    cleared
    pure (h.goto id w .closing)
  | .closing => pure (h.close id w)
  | .failing e =>
    pure ({ h with
      operations := h.operations.update w.key (fun _ => true) fun _ => .blocked e }.goto id w
        .releasing)
  | .releasing => pure (h.release id w)

/-- The process of the call `id` holds nothing any more. -/
def unpin (id : ℕ) (h : Host) : Host :=
  { h with pins := h.pins.deleteWhere fun _ pin => pin.owner = id }

/-- A process ends. -/
def crash (id : ℕ) (h : Host) : Host :=
  { h.unpin id with workers := h.workers.erase id }

/-- An exception: a call that has the lease records it. -/
def raise (id : ℕ) (w : Worker) (e : Error) (h : Host) : Host :=
  if w.pc = .opened then h.crash id else (h.unpin id).goto id w (.failing e)

/-- A new call of `resume`, of the session and the principal of the plan. -/
def resume (id : ℕ) (key : PlanId) (h : Host) : Except Error Host := do
  ensure (h.workers id).isNone (.busy "resume")
  let plan ← require (h.plans key) (.permission "Plan does not belong to this conversation")
  let state ← require (h.operations key) (.permission "No authorized operation exists")
  if state = .completed then pure h
  else pure { h with workers := h.workers.set id { key := key, plan := plan, todo := plan.items } }

/-- What the user can do to the object at a place: nothing to what is pinned. -/
def allowed (p : Place) (t : Option Tree) (h : Host) : Bool :=
  match h.pins p with
  | none => true
  | some pin =>
    match h.files p, t with
    | some old, some new => new.ident = old.ident && pin.held.all (· ∈ new.entries)
    | _, _ => false

/-- The user changes the object at a place. -/
def edit (p : Place) (t : Option Tree) (h : Host) : Host :=
  if h.allowed p t then { h with files := fun q => if q = p then t else h.files q } else h

end Host

/-! ### Any order -/

/-- A step of the host. -/
inductive Act
  | preview (env : Except Error Unit) (session : SessionId) (principal : String) (action : Action)
      (key : Option DirId)
  | request (key : PlanId) (approval : Except Error ℕ)
  | execute (env : Except Error Unit) (key : PlanId) (approval : ℕ) (consumed : Except Error Unit)
  | create (env : Except Error Unit) (session : SessionId) (root relative principal : String)
      (temporary : Bool)
  | created (id : DirId)
  | attach (env : Except Error Unit) (session : SessionId) (principal : String) (id : DirId)
  | retain (env : Except Error Unit) (principal : String) (id : DirId)
  | buildStatus (env : Except Error Unit) (principal : String) (id : DirId) (state : BuildState)
  | resume (id : ℕ) (key : PlanId)
  /-- the next step of a call of `resume` -/
  | work (env : Env) (id : ℕ)
  /-- the process of a call of `resume` ends -/
  | crash (id : ℕ)
  /-- the user changes the object at a place -/
  | edit (p : Place) (t : Option Tree)
  | tick (t : Time)

namespace Host

/-- What a step commits. -/
def attempt (h : Host) : Act → Except Error Host
  | .preview env session principal action key => h.preview env session principal action key
  | .request key approval => h.request key approval
  | .execute env key approval consumed => h.execute env key approval consumed
  | .create env session root relative principal temporary =>
    h.create env session root relative principal temporary
  | .created id => h.created id
  | .attach env session principal id => h.attach env session principal id
  | .retain env principal id => h.retain env principal id
  | .buildStatus env principal id state => h.buildStatus env principal id state
  | .resume id key => h.resume id key
  | .work env id =>
    match h.workers id with
    | some w =>
      match h.advance env id w with
      | .ok h' => .ok h'
      | .error e => .ok (h.raise id w e)
    | none => .ok h
  | .crash id => .ok (h.crash id)
  | .edit p t => .ok (h.edit p t)
  | .tick t => .ok { h with now := h.now + t }

/-- The state after a step. -/
def after (h : Host) (a : Act) : Host :=
  match h.attempt a with
  | .ok h' => h'
  | .error _ => h

/-- One step at a time. -/
def lts : Lts Host Act where
  step h a h' := h' = h.after a

/-- A new registry. -/
def Initial (h : Host) : Prop :=
  h.rows = .empty ∧ h.refs = [] ∧ h.plans = .empty ∧ h.operations = .empty ∧ h.leases = .empty ∧
    h.pins = .empty ∧ h.workers = .empty

end Host

end Workspace

end PythonAI
