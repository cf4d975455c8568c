import PythonAI.Tasks.Continuation
import PythonAI.Temporal.Types

/-!
# The operation ledger

An operation is prepared, claimed with a fence, executed outside the database, and completed or
given up as uncertain.  Every transaction first checks the scope of its caller: the submission
must still be running with the fence of the ledger, and the task must be open.

`Caller` is the execution context of the caller.  Inside an activity its cancellation check also
asks, through a connection of its own, whether the step of the activity still runs with the
fence of the activity (`current`); a connection of its own sees the last committed database.
-/

namespace PythonAI

open Library

namespace Temporal

/-- `STEP_LIMIT`. -/
def stepLimit : ℕ := 1024

/-- `StepStore._row`: the row of a cursor. -/
def stepRow (db : Db) (cursor : Cursor) : Except Error StepRun := do
  ensure (cursor.revision ≤ stepLimit) (.value "Invalid step cursor")
  require ((db.stepRuns (cursor.submission, cursor.revision)).filter fun run =>
      run.stateRef = cursor.stateRef && run.nextKind = cursor.nextKind)
    (.permission "Continuation does not match its persisted cursor")

/-- `StepStore.current`. -/
def current (db : Db) (cursor : Cursor) (fence : FenceId) : Except Error Bool := do
  let run ← stepRow db cursor
  pure (run.status = .running && run.fence = some fence)

/-- `current_context()`: what a caller runs as. -/
structure Caller where
  /-- `task_owner(context)` -/
  owner : Owner
  /-- `task_id` -/
  task : Option TaskId
  /-- `workspace`, resolved -/
  workspace : Option Path
  /-- `repository_workspace`, resolved -/
  repository : Option Path := none
  /-- the workspace configured for the project -/
  configured : Path
  /-- the workspace is a Git worktree that the lifecycle tables register for the task -/
  managed : Bool := false
  /-- the activity was cancelled -/
  cancelled : Bool := false
  /-- the cursor and the fence of the step that `advance` runs -/
  step : Option (Cursor × FenceId) := none
  deriving DecidableEq, Repr

/-- `context.check_cancelled()`. -/
def Caller.checkCancelled (c : Caller) (seen : Db) : Except Error Bool :=
  if c.cancelled then .ok true
  else match c.step with
    | none => .ok false
    | some (cursor, fence) => do
      let running ← current seen cursor fence
      pure !running

/-- The submission states `_scope` accepts. -/
def scopeStates (active : Bool) : SubmissionState → Bool
  | .running => true
  | .completed | .failed => !active
  | _ => false

/-- The task states `_scope` accepts. -/
def scopeTasks (active : Bool) : TaskState → Bool
  | .pending | .running => true
  | .completed | .failed | .suspended => !active
  | _ => false

/-- The attributes of a `Ledger`. -/
structure Ledger where
  key : SubmissionId
  fence : Option FenceId
  owner : Owner
  task : TaskId
  /-- `scope_digest` -/
  scope : Scope
  deriving DecidableEq, Repr

namespace Ledger

/-- The key of the task of the ledger. -/
def taskKey (l : Ledger) : TaskKey := (l.owner, l.task)

/-- `_scope`, on a connection that sees `db` while a connection of its own sees `seen`. -/
def checkScope (env : Access) (c : Caller) (l : Ledger) (active : Bool) (seen db : Db) :
    Except Error Unit := do
  ensure (c.owner = l.owner && c.task = some l.task)
    (.permission "Operation is outside this task scope")
  env.ownerActive
  let fenced := Error.permission "Operation fenced by task or submission state"
  let row ← require ((db.submissions l.key).filter fun row =>
    row.taskKey = l.taskKey && l.fence.isSome && row.fence = l.fence &&
      scopeStates active row.state) fenced
  ensure ((db.task l.taskKey).any fun task => scopeTasks active task.state) fenced
  ensure (db.bindings l.taskKey = some .temporal) fenced
  ensure (row.scope = l.scope) (.permission "Stored operation scope changed")
  ensure (c.workspace.isSome && row.scope.context.workspace = c.configured)
    (.permission "Operation workspace configuration changed")
  let binding := db.base.workspaces l.taskKey
  ensure (!(active && binding.isSome && c.workspace = some c.configured))
    (.permission "Operation must enter this task managed worktree")
  ensure (c.workspace = some c.configured ||
      binding.any (·.repository = c.configured) && c.repository = some c.configured && c.managed)
    (.permission "Operation workspace is not this task managed worktree")
  let cancelled ← c.checkCancelled seen
  ensure (!cancelled) (.interrupted "Task cancelled before operation access")

/-- `_step`. -/
def checkStep (step : String) : Except Error Unit :=
  ensure (step ≠ "" && step.utf8ByteSize ≤ 512)
    (.value "Logical step ID must contain 1..512 UTF-8 bytes")

/-- `_row`. -/
def row (l : Ledger) (step : String) (db : Db) : Except Error Operation :=
  require (db.operations (l.taskKey, step)) (.missing "Operation not found in this task")

/-- `_capacity`. -/
def capacity (env : Access) : Except Error Unit :=
  ensure env.room (.capacity "Temporal operation storage capacity reached")

/-- `_artifact`: the reference of a new artifact with the id `u`. -/
def artifact (env : Access) (u : Token) (value : Payload) : Except Error Ref := do
  ensure env.fits (.capacity "Temporal artifact exceeds per-result byte limit")
  pure ⟨u, value⟩

/-- `INSERT INTO temporal_artifacts`. -/
def store (l : Ledger) (artifacts : Table Token Artifact) (ref : Ref) : Table Token Artifact :=
  artifacts.set ref.id ⟨l.owner, l.task, ref.sha256, ref.sha256⟩

/-- `prepare`: the row of the operation, inserted if it is new. -/
def prepare (env : Access) (c : Caller) (l : Ledger) (step : String) (kind : Kind)
    (arguments : String) (db : Db) : Except Error (Db × Operation) := do
  checkStep step
  ensure kind.io (.value "Unknown operation kind")
  let fingerprint : Fingerprint := ⟨l.scope, kind, arguments⟩
  l.checkScope env c false db db
  match db.operations (l.taskKey, step) with
  | some old =>
    ensure (old.kind = kind && old.arguments = fingerprint)
      (.value "Logical step cannot be reused with different arguments")
    if old.state = .completed then
      pure (db, old)
    else
      l.checkScope env c true db db
      pure (db, old)
  | none =>
    l.checkScope env c true db db
    ensure env.countFree (.capacity "Temporal operation count limit reached")
    capacity env
    let new : Operation := { kind := kind, arguments := fingerprint, state := .prepared }
    pure ({ db with operations := db.operations.set (l.taskKey, step) new }, new)

/-- `claim`: starts a prepared operation with the fence `u`, or returns a completed one. -/
def claim (env : Access) (c : Caller) (l : Ledger) (step : String) (u : FenceId) (db : Db) :
    Except Error (Db × Operation) := do
  checkStep step
  l.checkScope env c false db db
  let row ← l.row step db
  if row.state = .completed then
    pure (db, row)
  else
    l.checkScope env c true db db
    ensure (row.state = .prepared)
      (.uncertain "Operation already started or rejected; inspect effects before recovery")
    let new := { row with state := .running, fence := some u }
    pure ({ db with operations := db.operations.set (l.taskKey, step) new }, new)

/-- A running operation with the given fence. -/
def running (fence : Option FenceId) (row : Operation) : Bool :=
  row.state = .running && fence.isSome && row.fence = fence

/-- `uncertain`. -/
def uncertain (env : Access) (c : Caller) (l : Ledger) (step : String) (fence : Option FenceId)
    (db : Db) : Except Error (Db × Unit) := do
  l.checkScope env c true db db
  ensure (db.operations.selects (l.taskKey, step) (running fence))
    (.permission "Operation result fence is stale")
  pure ({ db with
      operations := db.operations.update (l.taskKey, step) (running fence)
        fun row => { row with state := .uncertain } }, ())

/-- `reject`. -/
def reject (env : Access) (c : Caller) (l : Ledger) (step : String) (db : Db) :
    Except Error (Db × Unit) := do
  checkStep step
  l.checkScope env c true db db
  ensure (db.operations.selects (l.taskKey, step) (·.state = .prepared))
    (.permission "Only a prepared operation can be rejected without effects")
  pure ({ db with
      operations := db.operations.update (l.taskKey, step) (·.state = .prepared)
        fun row => { row with state := .rejectedNoEffect } }, ())

/-- `complete`: stores the result and the evidence under the ids `u` and `u'`. -/
def complete (env : Access) (c : Caller) (l : Ledger) (step : String) (fence : Option FenceId)
    (result evidence : Payload) (u u' : Token) (db : Db) : Except Error (Db × Ref) := do
  let resultRef ← artifact env u result
  let evidenceRef ← artifact env u' evidence
  l.checkScope env c true db db
  let row ← l.row step db
  ensure (row.state = .running && row.fence = fence)
    (.permission "Operation result fence is stale")
  capacity env
  let new := { row with
    state := .completed, resultRef := some resultRef, evidenceRef := some evidenceRef }
  pure ({ db with
      artifacts := l.store (l.store db.artifacts resultRef) evidenceRef
      operations := db.operations.set (l.taskKey, step) new }, resultRef)

/-- `load`. -/
def load (env : Access) (c : Caller) (l : Ledger) (ref : Ref) (seen : Db) :
    Except Error Payload := do
  l.checkScope env c false seen seen
  let row ← require ((seen.artifacts ref.id).filter fun row =>
    row.owner = l.owner && row.task = l.task) (.missing "Artifact not found in this task")
  ensure (row.sha256 = ref.sha256 && row.data = ref.sha256)
    (.value "Artifact integrity check failed")
  pure row.data

end Ledger

/-- `fence_operations`: what becomes of an operation of the task. -/
def fenced (row : Operation) : Operation :=
  { row with state := if row.state = .prepared then .rejectedNoEffect else .uncertain }

/-- `fence_operations`, for every task that `p` selects. -/
def fenceOperations (p : TaskKey → Bool) (operations : Table OpKey Operation) :
    Table OpKey Operation :=
  operations.updateWhere
    (fun k row => p k.1 && (row.state = .prepared || row.state = .running)) fenced

end Temporal

end PythonAI
