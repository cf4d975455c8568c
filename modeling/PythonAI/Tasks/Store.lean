import PythonAI.Library.Txn
import PythonAI.Tasks.Types

/-!
# `TaskStore`: the operations on tasks

Each operation is one transaction on `TaskDb`.  It takes what it reads outside the tables: the
clock, a fresh token, and (in `Access`) the outcome of the checks that other components make.
An operation that raises leaves the database as it was, with one exception that the source
makes on purpose: `claim` commits the mark `uncertain` before it raises, so that its outcome
`Claimed.refused` comes with a database.
-/

namespace PythonAI

open Library

/-- What a call of `TaskStore` finds outside the modelled tables. -/
structure Access where
  /-- no session of the owner is deleting or deleted -/
  active : Bool := true
  /-- `assert_claim_backend` -/
  claimBackend : Except Error Unit := .ok ()
  /-- the number of tasks is below `AGENT_TASK_LIMIT` -/
  countFree : Bool := true
  /-- the serialized value is within the limit of the operation -/
  fits : Bool := true
  /-- `capacity` finds room -/
  room : Bool := true

/-- `assert_owner_active`. -/
def Access.ownerActive (env : Access) : Except Error Unit :=
  ensure env.active (.permission "Conversation is deleting or deleted; execution refused")

/-- The duration of a task lease. -/
def leaseTerm : Time := 180

/-- The recoveries after which a task is not claimed again. -/
def recoveryLimit : ℕ := 3

/-- The outcome of a claim that did not roll back. -/
inductive Claimed
  /-- the task is terminal: `None` -/
  | finished
  /-- the caller owns the task -/
  | token (token : Token)
  /-- the exception raised after the commit -/
  | refused (error : Error)
  deriving DecidableEq, Repr

namespace TaskStore

/-- `capacity`. -/
def capacity (env : Access) : Except Error Unit :=
  ensure env.room (.capacity "Task storage capacity reached")

/-- The row `claim` inserts. -/
def newRow (goal : String) (messages : List Message) (episode : Option ℕ)
    (criteria : Option Criteria) : TaskRow :=
  { goal := goal
    criteria := criteria.getD { goal := some goal }
    state := .pending
    phase := .modelPending
    checkpoint := { messages := messages }
    episode := episode }

/-- Whether taking over the row counts as a recovery. -/
def recovery (row : TaskRow) : Bool := row.state = .running || row.reply.isSome

/-- The row after its claim with `token` at time `t`. -/
def takeOver (token : Token) (t : Time) (recoveries : ℕ) (row : TaskRow) : TaskRow :=
  { row with
    state := .running
    leaseOwner := some token
    leaseUntil := some (t + leaseTerm)
    attempts := row.attempts + 1
    recoveries := row.recoveries + recoveries }

/-- The row marked for a human, its lease columns kept. -/
def mark (row : TaskRow) : TaskRow := { row with state := .uncertain }

/-- `claim`: the lease is tested at `t₁` and granted at `t₂`. -/
def claim (env : Access) (owner : Owner) (key : TaskId) (goal : String) (messages : List Message)
    (episode : Option ℕ) (criteria : Option Criteria) (token : Token) (t₁ t₂ : Time)
    (db : TaskDb) : Except Error (TaskDb × Claimed) := do
  ensure (key ≠ "" && key.length ≤ 256) (.value "Task ID must contain 1..256 characters")
  env.ownerActive
  env.claimBackend
  match db.tasks (owner, key) with
  | none =>
    ensure env.countFree (.capacity "Task record capacity reached")
    ensure env.fits (.value "Task checkpoint exceeds 64 MiB")
    capacity env
    let row := takeOver token t₂ 0 (newRow goal messages episode criteria)
    pure ({ db with tasks := db.tasks.set (owner, key) row }, .token token)
  | some row =>
    if row.state.terminal then
      pure (db, .finished)
    else if row.leased t₁ then
      .error (.busy "Task is owned by an active worker")
    else if row.phase.started then
      -- Committed before the exception, so the mark survives it.
      pure ({ db with tasks := db.tasks.set (owner, key) (mark row) },
        .refused (.recovery
          "A tool may already have produced effects; human resolution is required"))
    else if row.state = .suspended ∨ row.state = .uncertain then
      .error (.recovery "Task requires a human answer or side-effect resolution")
    else if recoveryLimit ≤ row.recoveries then
      .error (.recovery "Task exceeded its recovery attempt limit")
    else
      let row' := takeOver token t₂ (recovery row).toNat row
      pure ({ db with tasks := db.tasks.set (owner, key) row' }, .token token)

/-- The row whose lease `renew` extends. -/
def renewable (token : Token) (t : Time) (row : TaskRow) : Bool :=
  row.heldBy token t && row.state = .running

/-- `renew`: the new end of the lease is computed at `t₁`, the old one tested with `t₂`. -/
def renew (owner : Owner) (key : TaskId) (token : Token) (t₁ t₂ : Time) (db : TaskDb) :
    TaskDb × Bool :=
  ({ db with
      tasks := db.tasks.update (owner, key) (renewable token t₂)
        fun row => { row with leaseUntil := some (t₁ + leaseTerm) } },
    db.tasks.selects (owner, key) (renewable token t₂))

/-- `INSERT INTO task_steps … ON CONFLICT DO UPDATE SET state, result`. -/
def putStep (steps : Table (TaskKey × String) StepRow) (k : TaskKey) (step : StepRecord) :
    Table (TaskKey × String) StepRow :=
  match steps (k, step.id) with
  | none => steps.set (k, step.id) step.row
  | some old =>
    steps.set (k, step.id) { old with state := step.row.state, result := step.row.result }

/-- The step a checkpoint records, if it names one. -/
def putSteps (steps : Table (TaskKey × String) StepRow) (k : TaskKey) :
    Option StepRecord → Table (TaskKey × String) StepRow
  | none => steps
  | some step => putStep steps k step

/-- `checkpoint`: saves the progress of the worker that holds the lease at `t`. -/
def checkpoint (env : Access) (owner : Owner) (key : TaskId) (token : Token) (phase : Phase)
    (data : Checkpoint) (step : Option StepRecord) (t : Time) (db : TaskDb) :
    Except Error (TaskDb × Unit) := do
  ensure env.fits (.value "Task checkpoint exceeds 64 MiB")
  env.ownerActive
  capacity env
  ensure (db.tasks.selects (owner, key) (renewable token t))
    (.busy "Task lease lost; refusing further execution")
  pure ({ db with
      tasks := db.tasks.update (owner, key) (renewable token t)
        fun row => { row with phase := phase, checkpoint := data }
      steps := putSteps db.steps (owner, key) step }, ())

/-- The verification `finish` records for a task that ends in `state`. -/
def quality (state : TaskState) (row : TaskRow) : Verification :=
  let evaluation := row.checkpoint.evaluation.or
    (row.checkpoint.skillResult.bind (·.verification))
  let verified := state = .completed
    && (!row.criteria.checks.isEmpty || evaluation.any (·.sourceEvidence))
    && evaluation.any (·.verified) && evaluation.any (!·.evidence.isEmpty)
  if verified then .verifiedCompleted else .unverified

/-- `finish`: the holder of the lease at `t` ends its work in `state`. -/
def finish (env : Access) (owner : Owner) (key : TaskId) (token : Token) (state : TaskState)
    (reply : Option String) (t : Time) (db : TaskDb) : Except Error (TaskDb × Unit) := do
  env.ownerActive
  capacity env
  ensure (db.tasks.selects (owner, key) (·.heldBy token t))
    (.busy "Task lease lost while finishing")
  pure ({ db with
      tasks := db.tasks.update (owner, key) (·.heldBy token t) fun row =>
        { row.release with state := state, reply := reply, verification := quality state row } },
    ())

/-- The checkpoint with the human's answer to the suspended call. -/
def answered (data : Checkpoint) (call answer : String) : Checkpoint :=
  { data with
    messages := data.messages ++ [.tool call answer]
    suspendedToolCallId := none }

/-- `answer`: a human answers a suspended task. -/
def answer (env : Access) (owner : Owner) (key : TaskId) (answer : String) (db : TaskDb) :
    Except Error (TaskDb × Unit) := do
  ensure env.fits (.value "Human answer exceeds 1 MiB")
  env.claimBackend
  let row ← require ((db.tasks (owner, key)).filter (·.state = .suspended))
    (.recovery "No suspended task in this scope")
  let call ← require row.checkpoint.suspendedToolCallId (.missing "suspended_tool_call_id")
  capacity env
  let row' := { row with
    state := .pending
    phase := .toolDone
    checkpoint := answered row.checkpoint call answer
    reply := none }
  pure ({ db with tasks := db.tasks.set (owner, key) row' }, ())

/-- The checkpoint with the observed result of an uncertain call. -/
def resolved (data : Checkpoint) (call result : String) : Checkpoint :=
  { data with
    messages := data.messages ++ [.tool call result]
    humanResolution := some (call, result) }

/-- `resolve`: a human states what an uncertain tool call did. -/
def resolve (env : Access) (owner : Owner) (key : TaskId) (callId result : String)
    (db : TaskDb) : Except Error (TaskDb × Unit) := do
  ensure env.fits (.value "Human resolution exceeds 1 MiB")
  env.claimBackend
  let row ← require
    ((db.tasks (owner, key)).filter fun row => row.state = .uncertain && row.phase = .toolStarted)
    (.recovery "No matching uncertain tool step in this scope")
  let step ← require ((db.steps ((owner, key), callId)).filter (·.state = .running))
    (.recovery "No matching uncertain tool step in this scope")
  capacity env
  let row' := { row.release with
    state := .pending
    phase := .toolDone
    checkpoint := resolved row.checkpoint callId result }
  let step' := { step with state := .resolvedByHuman, result := some result }
  pure ({ db with
      tasks := db.tasks.set (owner, key) row'
      steps := db.steps.set ((owner, key), callId) step' }, ())

/-- The row stopped with `reply`. -/
def stop (reply : String) (row : TaskRow) : TaskRow :=
  { row.release with state := .cancelled, reply := some reply }

/-- `cancel`: stops the task unless it is terminal. -/
def cancel (owner : Owner) (key : TaskId) (db : TaskDb) : TaskDb × Bool :=
  ({ db with tasks := db.tasks.update (owner, key) (!·.state.terminal) (stop "Task cancelled") },
    db.tasks.selects (owner, key) (!·.state.terminal))

/-- `cancel_session`: stops every task of the owner that is not terminal. -/
def cancelSession (owner : Owner) (t : Time) (db : TaskDb) : TaskDb :=
  { db with
    resets := db.resets.set owner t
    tasks := db.tasks.updateWhere (fun k row => k.1 = owner && !row.state.terminal)
      (stop "Session cleared") }

/-- A running row whose lease had expired at `t`. -/
def lapsed (t : Time) (row : TaskRow) : Bool :=
  row.state = .running && row.leaseUntil.any (· ≤ t)

/-- `mark_uncertain`: gives up a task whose lease has expired. -/
def markUncertain (owner : Owner) (key : TaskId) (t : Time) (db : TaskDb) : TaskDb :=
  { db with
    tasks := db.tasks.update (owner, key) (lapsed t)
      fun row => { row.release with state := .uncertain } }

/-- `bind_workspace`: records the worktree of a running task, once. -/
def bindWorkspace (env : Access) (owner : Owner) (key : TaskId) (token : Token)
    (repository storage : String) (db : TaskDb) : Except Error (TaskDb × Unit) := do
  ensure (db.tasks.selects (owner, key)
      fun row => row.state = .running && row.leaseOwner = some token)
    (.busy "Lost task lease")
  match db.workspaces (owner, key) with
  | none =>
    capacity env
    pure ({ db with workspaces := db.workspaces.set (owner, key) ⟨repository, storage⟩ }, ())
  | some _ => pure (db, ())

end TaskStore

end PythonAI
