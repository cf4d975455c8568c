import PythonAI.Temporal.Ledger

/-!
# Submissions, cancellation and publication

`Store` binds a task to a backend, hands it to a workflow and records how that ends.  A
cancellation (`request`) runs in the transaction that cancels the task: it cancels the submission,
fences the operations and records what has to be delivered.  `publication` journals the events of
a submission, and `retention` fences a task for erasure.
-/

namespace PythonAI

open Library

namespace Temporal

/-- `Settings`. -/
structure Settings where
  address : String
  /-- `namespace` -/
  space : String
  engine : Workflow := .bridge
  deriving DecidableEq, Repr

/-- `queue_for`. -/
def queueFor (host : String) (engine : Workflow) : String :=
  "pythonai-host-" ++ host ++ match engine with
    | .bridge => "-readonly-v1"
    | .steps => "-steps-readonly-v1"
    | .human => "-steps-readonly-v2"
    | .approval => "-steps-readonly-v3"

/-- `workflow_type`. -/
def workflowType (key : SubmissionId) (row : Submission) (db : Db) : Except Error Workflow :=
  match db.protocols key with
  | none => do
    ensure (row.queue = queueFor db.host .bridge)
      (.value "Missing execution protocol for non-legacy submission")
    pure .bridge
  | some engine => do
    ensure (row.queue = queueFor db.host engine)
      (.value "Execution protocol does not match its persisted queue")
    pure engine

/-- `Store.get`. -/
def get (key : SubmissionId) (owner : Option Owner) (db : Db) : Except Error Submission :=
  require ((db.submissions key).filter fun row => owner.all (row.owner = ·))
    (.missing "Temporal task not found in this scope")

/-- `assert_not_erased`. -/
def assertNotErased (k : TaskKey) (db : Db) : Except Error Unit :=
  ensure (db.erased k).isNone
    (.permission "Task was fenced for erasure; its ID cannot be reused")

/-! ### Publication -/

/-- `final_intent`: `INSERT OR IGNORE` of a pending finalization. -/
def finalIntent (key : SubmissionId) (row : Submission) (t : Table SubmissionId Bool) :
    Table SubmissionId Bool :=
  if row.scope.context.publication.isSome && (t key).isNone then t.set key false else t

/-- The states in which `append` takes an event. -/
def eventStates (terminal : Bool) : SubmissionState → Bool
  | .completed | .failed | .cancelled | .uncertain => terminal
  | .running => !terminal
  | _ => false

/-- The delivery of an event of kind `kind` to a publication. -/
def eventDelivery (kind : String) (p : Publication) : Delivery :=
  match p.delivery with
  | none => .local
  | some target => if target = "websocket" || kind = "end" then .pending else .local

/-- `append`: the caller holds `row` and its budget check gives `budget`. -/
def append (env : Access) (c : Caller) (key : SubmissionId) (row : Submission)
    (eventKey kind payload : String) (terminal : Bool) (budget : Except Error Unit) (db : Db) :
    Except Error (Db × Unit) := do
  ensure (c.owner = row.owner) (.permission "Event is outside this owner scope")
  let stopped : Except Error Bool := if terminal then .ok false else c.checkCancelled db
  let cancelled ← stopped
  ensure (!cancelled) (.interrupted "Event fenced by cancellation")
  let spent : Except Error Unit := if terminal then .ok () else budget
  spent
  ensure (eventKey ≠ "" && eventKey.length ≤ 256) (.value "Invalid event key")
  ensure (env.fits && kind.length ≤ 64) (.capacity "Temporal event frame exceeds limit")
  env.ownerActive
  let fenced := Error.permission "Event fenced by task or execution"
  let now ← require (db.submissions key) fenced
  let task ← require (db.task row.taskKey) fenced
  ensure (now.fence = row.fence && eventStates terminal now.state &&
    (terminal || task.state ≠ .cancelled && task.state ≠ .uncertain)) fenced
  match (db.events key).find? (·.key = eventKey) with
  | some old =>
    ensure (old.kind = kind && old.payload = payload)
      (.value "Event key reused with different content")
    pure (db, ())
  | none =>
    ensure env.room (.capacity "Temporal event journal full")
    let target ← require row.scope.context.publication (.missing "delivery")
    let event : Event := ⟨eventKey, kind, payload, eventDelivery kind target⟩
    pure ({ db with events := Function.update db.events key (db.events key ++ [event]) }, ())

/-- The last statement of `finalize`. -/
def finalized (key : SubmissionId) (db : Db) : Db :=
  { db with finalizations := db.finalizations.update key (fun _ => true) fun _ => true }

/-! ### Cancellation -/

/-- The submission states that a cancellation reaches. -/
def cancellable : SubmissionState → Bool
  | .pending | .dispatched | .running | .cancelled => true
  | _ => false

/-- `request` selects the submission `row`: its task is cancelled and is one of those `p`
selects. -/
def requested (p : TaskKey → Bool) (db : Db) (row : Submission) : Bool :=
  p row.taskKey && (db.task row.taskKey).any (·.state = .cancelled) && cancellable row.state

/-- `cancellation.request`, for the tasks that `p` selects. -/
def request (p : TaskKey → Bool) (db : Db) : Db :=
  { db with
    operations := fenceOperations (fun k => (db.submissionOf k).any (requested p db))
      db.operations
    submissions := db.submissions.updateWhere (fun _ row => requested p db row)
      fun row => { row with state := .cancelled }
    finalizations := fun key => (db.finalizations key).or
      (((db.submissions key).filter (requested p db)).bind fun row =>
        row.scope.context.publication.map fun _ => false)
    cancellations := fun key => (db.cancellations key).or
      (((db.submissions key).filter (requested p db)).map fun _ => .pending) }

/-! ### Submissions -/

namespace Store

/-- `bind`: `new_backend` gives `admitted`; `requested` is `none` for an unknown backend. -/
def bind (env : Access) (owner : Owner) (task : TaskId) (requested : Option Backend)
    (admitted : Except Error Backend) (db : Db) : Except Error (Db × Backend) := do
  ensure (task ≠ "" && task.length ≤ 256) (.value "Task ID must contain 1..256 characters")
  env.ownerActive
  assertNotErased (owner, task) db
  match db.bindings (owner, task) with
  | some backend => pure (db, backend)
  | none =>
    ensure requested.isSome (.value "Unknown task backend")
    ensure env.countFree (.value "Execution binding capacity reached")
    -- Existing work is never migrated.
    let chosen : Except Error Backend :=
      if (db.task (owner, task)).isSome then .ok .sqlite else admitted
    let backend ← chosen
    pure ({ db with bindings := db.bindings.set (owner, task) backend }, backend)

/-- The task row that `submit` inserts. -/
def newTask (latest : Message) (criteria : Criteria) (messages : List Message)
    (context : Context) : TaskRow :=
  { goal := (latest.content.take 16000).toString
    criteria := criteria
    state := .pending
    phase := .temporalPending
    checkpoint := { messages := messages }
    episode := context.publication.bind (·.episode) }

/-- `submit`, with the id `u`: `contract` is the contract of the task's budget, `authorized` the
outcome of the checks on file writes and `criteria` the acceptance contract of the goal. -/
def submit (env : Access) (owner : Owner) (task : TaskId) (messages : List Message)
    (context : Context) (role : String) (settings : Settings) (contract : Except Error Contract)
    (authorized : Except Error Unit) (criteria : Criteria) (u : SubmissionId) (db : Db) :
    Except Error (Db × SubmissionId) := do
  let contract ← contract
  let latest ← require (messages.reverse.find? (·.role = "user"))
    (.value "Temporal task requires a user input")
  ensure env.fits (.value "M0 Temporal input exceeds 1 MiB local storage limit")
  env.ownerActive
  assertNotErased (owner, task) db
  ensure (db.bindings (owner, task) = some .temporal) (.value "Task is not bound to Temporal")
  match db.forTask (owner, task) with
  | some old =>
    let row ← get old none db
    ensure (row.scope.input = latest) (.value "Task ID cannot be reused with different input")
    ensure ((db.contracts old).all (· = contract)) (.permission "Root budget contract changed")
    pure (db, old)
  | none =>
    authorized
    ensure env.room (.capacity "Task storage capacity reached")
    ensure env.countFree (.value "Task record capacity reached")
    ensure (db.task (owner, task)).isNone
      (.value "Legacy task cannot be resubmitted as Temporal")
    let row : Submission :=
      { owner := owner, task := task, scope := ⟨latest, context, role⟩, input := messages
        address := settings.address, space := settings.space
        queue := queueFor db.host settings.engine, state := .pending }
    pure ({ db with
        base := { db.base with
          tasks := db.base.tasks.set (owner, task) (newTask latest criteria messages context) }
        submissions := db.submissions.set u row
        forTask := db.forTask.set (owner, task) u
        protocols := db.protocols.set u settings.engine
        contracts := db.contracts.set u contract }, u)

/-- `dispatched`. -/
def dispatched (key : SubmissionId) (error : Option String) (db : Db) : Db :=
  { db with
    submissions := db.submissions.update key (·.state = .pending) fun row =>
      { row with
        attempts := row.attempts + 1
        lastError := error
        state := if error.isNone then .dispatched else row.state } }

/-- The submissions that no activity has started. -/
def queued (row : Submission) : Bool := row.state = .pending || row.state = .dispatched

/-- `claim`, with the fence `u`. -/
def claim (env : Access) (key : SubmissionId) (settings : Settings) (u : FenceId) (db : Db) :
    Except Error (Db × Submission) := do
  let row ← get key none db
  ensure (row.address = settings.address && row.space = settings.space &&
      row.queue = queueFor db.host .bridge)
    (.permission "Submission does not target this host/namespace")
  env.ownerActive
  ensure ((db.task row.taskKey).any (·.state ≠ .cancelled))
    (.permission "Task was cancelled or removed")
  ensure (db.submissions.selects key queued)
    (.runtime "Activity already started or cancelled; inspect effects before recovery")
  pure ({ db with
      submissions := db.submissions.update key queued fun row =>
        { row with state := .running, fence := some u } },
    { row with fence := some u })

/-- A running submission with the given fence. -/
def running (fence : Option FenceId) (row : Submission) : Bool :=
  row.state = .running && fence.isSome && row.fence = fence

/-- `finish`, up to the end of its transaction. -/
def finish (env : Access) (key : SubmissionId) (fence : Option FenceId)
    (state : SubmissionState) (result : Outcome) (db : Db) : Except Error (Db × Unit) := do
  ensure env.fits (.value "Temporal local result exceeds 2 MiB")
  let row ← get key none db
  env.ownerActive
  ensure ((db.task row.taskKey).any (·.state ≠ .cancelled))
    (.permission "Activity result fenced by task cancellation")
  ensure env.room (.value "Temporal result storage capacity reached")
  ensure (db.submissions.selects key (running fence))
    (.permission "Activity result fenced by cancellation or newer execution")
  pure ({ db with
      submissions := db.submissions.update key (running fence) fun row =>
        { row with state := state, result := some result }
      finalizations := finalIntent key row db.finalizations }, ())

/-- `cancel`. -/
def cancel (key : SubmissionId) (owner : Owner) (db : Db) : Except Error (Db × Unit) := do
  let row ← get key (some owner) db
  let db := { db with base := (TaskStore.cancel owner row.task db.base).1 }
  pure (request (· = (owner, row.task)) db, ())

/-- The submissions that have not ended. -/
def live (row : Submission) : Bool := queued row || row.state = .running

/-- `workflow_failed`. -/
def workflowFailed (key : SubmissionId) (owner : Owner) (error : String) (db : Db) :
    Except Error (Db × Unit) := do
  let row ← get key (some owner) db
  if db.submissions.selects key live then
    let k := (owner, row.task)
    pure ({ db with
        submissions := db.submissions.update key live fun row =>
          { row with state := .uncertain, lastError := some error }
        operations := fenceOperations (· = k) db.operations
        finalizations := finalIntent key row db.finalizations
        base := { db.base with
          tasks := db.base.tasks.update k (!·.state.terminal) fun task =>
            { task.release with
              state := .uncertain
              reply := some "Temporal execution ended; inspect checkpoint before recovery" } } },
      ())
  else pure (db, ())

/-- `workflow_closed`. -/
def workflowClosed (key : SubmissionId) (owner : Owner) (status : String) (db : Db) :
    Except Error (Db × Unit) :=
  if status = "CANCELED" then cancel key owner db else workflowFailed key owner status db

/-- `fail_budget_before_start`. -/
def failBudgetBeforeStart (key : SubmissionId) (owner : Owner) (db : Db) :
    Except Error (Db × Bool) := do
  let row ← get key (some owner) db
  let reply := "Error: Task deadline exhausted"
  let k := (owner, row.task)
  let db := { db with operations := fenceOperations (· = k) db.operations }
  if db.submissions.selects key queued then
    pure ({ db with
        submissions := db.submissions.update key queued fun row =>
          { row with
            state := .failed
            result := some (.reply reply row.input)
            lastError := some "BudgetExhausted" }
        base := { db.base with
          tasks := db.base.tasks.update k (·.state = .pending) fun task =>
            { task.release with state := .failed, reply := some reply } } }, true)
  else pure (db, false)

end Store

/-! ### Erasure -/

/-- `retention.prepare`: fences the task of a submission for erasure, with the fence `u`. -/
def prepareErasure (env : Access) (key : SubmissionId) (row : Submission) (reason : String)
    (u : FenceId) (db : Db) : Except Error (Db × Unit) := do
  ensure (reason ∈ ["session", "deleted_session", "retention"])
    (.value "Unsupported erasure reason")
  if (db.erasures key).isSome then
    pure (db, ())
  else
    ensure env.countFree (.capacity
      "Erasure tombstone capacity reached; fences are never evicted")
    ensure (db.erased row.taskKey).isNone (.integrity "temporal_erased_tasks.token")
    pure ({ db with
        erased := db.erased.set row.taskKey ()
        erasures := db.erasures.set key reason
        operations := fenceOperations (· = row.taskKey) db.operations
        submissions := db.submissions.update key (fun _ => true) fun row =>
          { row with state := .erasing, fence := some u }
        base := { db.base with
          tasks := db.base.tasks.update row.taskKey (fun _ => true) fun task =>
            { task.release with state := .cancelled, phase := .temporalErasing } } }, ())

end Temporal

end PythonAI
