import PythonAI.Library.Text
import PythonAI.Temporal.Store

/-!
# Continuations of a submission

A submission advances from cursor to cursor.  `StepStore.claim` starts the step of a cursor with a
fence, `commit` completes it and inserts the next one, `recover` completes a step whose boundary
was saved or takes back one whose operation was not started, and `human` consumes the answer of a
human.  All of them complete a step through `commitRow` (`_commit`).
-/

namespace PythonAI

open Library

namespace Temporal

/-- The phases of a snapshot. -/
def snapshotPhase : Phase → Bool
  | .temporalPending | .stepReady | .stepPreparing | .modelPending | .modelReceived
  | .toolStarted | .toolDone | .evaluationPending | .evaluationDone | .waitingUser
  | .waitingApproval => true
  | _ => false

/-- The task states of a snapshot. -/
def snapshotState : TaskState → Bool
  | .pending | .running | .completed | .failed | .suspended => true
  | _ => false

/-- `validate_snapshot`. -/
def validateSnapshot : Payload → Except Error Snapshot
  | .snapshot s => do
    ensure (snapshotPhase s.phase && snapshotState s.taskState)
      (.value "Invalid continuation snapshot")
    pure s
  | .json _ => .error (.value "Invalid continuation snapshot")

/-- `validate_cursor`. -/
def validateCursor (cursor : Cursor) : Except Error Cursor := do
  ensure (cursor.revision ≤ stepLimit) (.value "Invalid step cursor")
  pure cursor

/-! ### Human answers -/

namespace Decisions

/-- The time a human has to answer. -/
def answerTerm : Time := 300

/-- `create`: the wait for the answer that the cursor continues with. -/
def create (env : Access) (cursor : Cursor) (task : TaskRow) (t : Time) (db : Db) :
    Except Error Db := do
  Ledger.capacity env
  let call ← require (task.checkpoint.suspendedToolCallId.filter (· ≠ ""))
    (.value "Missing suspended tool call")
  let row ← get cursor.submission none db
  let engine ← workflowType cursor.submission row db
  ensure (engine = .human || engine = .approval)
    (.permission "Human waiting requires V2 or a later step protocol")
  let contract ← require (db.contracts cursor.submission)
    (.permission "Human waiting requires a pinned root deadline")
  let k := (cursor.submission, cursor.revision)
  ensure (db.answers k).isNone (.integrity "temporal_human_answers")
  let wait : HumanAnswer := { callId := call, expires := min (t + answerTerm) contract.deadline }
  pure { db with answers := db.answers.set k wait }

/-- The task states in which no answer is taken. -/
def closed : TaskState → Bool
  | .cancelled | .failed | .uncertain => true
  | _ => false

/-- `answer`: the wait is the newest one for the call, at `revision`. -/
def answer (env : Access) (key : SubmissionId) (owner : Owner) (callId answer : String)
    (revision : ℕ) (t : Time) (db : Db) : Except Error (Db × Unit) := do
  ensure (strip answer ≠ "" && env.fits)
    (.value "Human answer must contain text and fit within 1 MiB")
  let row ← get key (some owner) db
  let engine ← workflowType key row db
  ensure (engine = .human || engine = .approval)
    (.permission "Human answers require the step protocol")
  env.ownerActive
  let fenced := Error.permission "Human answer fenced by task state"
  ensure (row.state = .running || row.state = .completed) fenced
  let task ← require ((db.task (owner, row.task)).filter (!closed ·.state)) fenced
  let wait ← require ((db.answers (key, revision)).filter (·.callId = callId))
    (.permission "Answer does not match a persisted human wait")
  if (wait.state = .answered || wait.state = .consumed) && wait.answer = some answer then
    -- An identical retry creates no second event.
    pure (db, ())
  else
    ensure (wait.state = .waiting && t < wait.expires && task.state = .suspended)
      (.permission "Human wait expired or already decided")
    Ledger.capacity env
    let new := { wait with answer := some answer, state := .answered, delivery := .pending }
    pure ({ db with answers := db.answers.set (key, revision) new }, ())

end Decisions

/-! ### Steps -/

namespace StepStore

/-- `snapshot`. -/
def snapshot (task : TaskRow) : Except Error Snapshot :=
  validateSnapshot (.snapshot ⟨task.phase, task.checkpoint, task.state, task.reply⟩)

/-- `_put`: stores a snapshot under the id `u`. -/
def put (env : Access) (c : Caller) (l : Ledger) (value : Snapshot) (u : Token) (seen db : Db) :
    Except Error (Db × Ref) := do
  l.checkScope env c false seen db
  let ref ← Ledger.artifact env u (.snapshot value)
  Ledger.capacity env
  pure ({ db with artifacts := l.store db.artifacts ref }, ref)

/-- `bootstrap_claim`: starts a submission of the step protocol with the fence `u`. -/
def bootstrapClaim (env : Access) (key : SubmissionId) (settings : Settings) (u : FenceId)
    (db : Db) : Except Error (Db × Unit) := do
  let row ← get key none db
  let engine ← workflowType key row db
  ensure (engine ≠ .bridge) (.permission "Submission is not bound to the step protocol")
  ensure (row.address = settings.address && row.space = settings.space &&
      row.queue = queueFor db.host engine)
    (.permission "Step submission targets another host or namespace")
  env.ownerActive
  ensure ((db.task row.taskKey).any (·.state ≠ .cancelled))
    (.permission "Step task was cancelled or removed")
  if Store.queued row then
    let new := { row with state := .running, fence := some u }
    pure ({ db with submissions := db.submissions.set key new }, ())
  else
    ensure (scopeStates false row.state) (.uncertain "Step submission requires inspection")
    pure (db, ())

/-- The row of a new step. -/
def newRun (kind : Kind) (ref : Ref) : StepRun :=
  { nextKind := kind, stateRef := ref, status := .ready }

/-- `bootstrap`: the first cursor of the submission `key`. -/
def bootstrap (env : Access) (c : Caller) (l : Ledger) (key : SubmissionId) (u : Token)
    (db : Db) : Except Error (Db × Cursor) := do
  ensure (key = l.key) (.permission "Continuation is outside this task")
  l.checkScope env c false db db
  match db.stepRuns (key, 0) with
  | some old =>
    let _ ← l.load env c old.stateRef db
    pure (db, old.cursor key 0)
  | none =>
    let task ← require (db.task l.taskKey) (.missing l.task)
    ensure (task.state = .pending) (.permission "Cannot bootstrap a previously executed task")
    let value ← snapshot task
    let (db', ref) ← put env c l value u db db
    let run := newRun .model ref
    pure ({ db' with stepRuns := db'.stepRuns.set (key, 0) run }, run.cursor key 0)

/-- The outcome of `claim`. -/
inductive Claimed
  /-- the step starts with a fence -/
  | started (fence : FenceId)
  /-- the step is completed: the next cursor -/
  | cached (cursor : Cursor)
  deriving DecidableEq, Repr

/-- The output of a completed step. -/
def cached (env : Access) (c : Caller) (l : Ledger) (run : StepRun) (seen : Db) :
    Except Error Cursor := do
  let output ← require run.output (.value "Invalid step cursor")
  let result ← validateCursor output
  let _ ← l.load env c result.stateRef seen
  pure result

/-- The cursor is one of the ledger, and its snapshot is readable. -/
def checkCursor (env : Access) (c : Caller) (l : Ledger) (cursor : Cursor) (db : Db) :
    Except Error Unit := do
  ensure (cursor.submission = l.key) (.permission "Continuation is outside this task")
  let payload ← l.load env c cursor.stateRef db
  let _ ← validateSnapshot payload
  pure ()

/-- `claim`, with the fence `u`. -/
def claim (env : Access) (c : Caller) (l : Ledger) (cursor : Cursor) (u : FenceId) (db : Db) :
    Except Error (Db × Claimed) := do
  checkCursor env c l cursor db
  l.checkScope env c false db db
  let run ← stepRow db cursor
  if run.status = .completed then
    let result ← cached env c l run db
    pure (db, .cached result)
  else
    ensure (cursor.revision < stepLimit)
      (.value "Continuation step limit reached before execution")
    l.checkScope env c true db db
    ensure (run.status = .ready)
      (.uncertain "Step already started; use verified projection recovery")
    let new := { run with status := .running, fence := some u }
    pure ({ db with stepRuns := db.stepRuns.set (cursor.submission, cursor.revision) new },
      .started u)

/-- The task is at the boundary that the next step `kind` demands. -/
def checkBoundary (kind : Kind) (task : TaskRow) : Except Error Unit :=
  match kind with
  | .human => ensure (task.state = .suspended && task.phase = .waitingUser)
      (.permission "Human wait requires a confirmed suspension")
  | .finalize => ensure (task.state = .completed || task.state = .failed)
      (.permission "Cannot finalize a nonterminal task")
  | kind => do
    let mismatch := Error.permission "Continuation result does not match its saved boundary"
    ensure (task.state = .pending) mismatch
    let next ← nextKind task.phase task.checkpoint
    ensure (next = kind) mismatch

/-- The table after the step `(key, revision)`, which runs with `fence`, is completed with
`result`. -/
def advance (runs : Table (SubmissionId × ℕ) StepRun) (cursor result : Cursor)
    (fence : Option FenceId) : Table (SubmissionId × ℕ) StepRun :=
  (runs.set (result.submission, result.revision) (newRun result.nextKind result.stateRef)).update
    (cursor.submission, cursor.revision) (fun run => fence.isSome && run.fence = fence)
    fun run => { run with status := .completed, output := some result }

/-- `_commit`, storing the snapshot of `task` under the id `u`. -/
def commitRow (env : Access) (c : Caller) (l : Ledger) (cursor : Cursor)
    (fence : Option FenceId) (kind : Kind) (task : TaskRow) (u : Token) (t : Time)
    (seen db : Db) : Except Error (Db × Cursor) := do
  let run ← stepRow db cursor
  if run.status = .completed then
    let result ← cached env c l run seen
    pure (db, result)
  else
    ensure (run.status = .running && run.fence = fence)
      (.permission "Continuation result fence is stale")
    checkBoundary kind task
    ensure (cursor.revision + 1 ≤ stepLimit) (.value "Continuation step limit reached")
    let value ← snapshot task
    let (db₁, ref) ← put env c l value u seen db
    let result : Cursor := ⟨cursor.submission, cursor.revision + 1, kind, ref⟩
    let waiting : Except Error Db :=
      if kind = .human then Decisions.create env result task t db₁ else .ok db₁
    let db₂ ← waiting
    ensure (db₂.stepRuns (result.submission, result.revision)).isNone
      (.integrity "temporal_step_runs")
    pure ({ db₂ with stepRuns := advance db₂.stepRuns cursor result fence }, result)

/-- `commit`. -/
def commit (env : Access) (c : Caller) (l : Ledger) (cursor : Cursor) (fence : Option FenceId)
    (kind : Kind) (u : Token) (t : Time) (db : Db) : Except Error (Db × Cursor) := do
  ensure (cursor.submission = l.key) (.permission "Continuation is outside this task")
  l.checkScope env c false db db
  let task ← require (db.task l.taskKey) (.missing l.task)
  commitRow env c l cursor fence kind task u t db db

/-- The step id of the operation that a task in the given phase may have started. -/
def pendingOperation (phase : Phase) (saved : Checkpoint) : Except Error (Option String) :=
  match phase with
  | .modelPending => do
    let iteration ← require saved.iteration (.missing "iteration")
    pure (some ("model:" ++ toString iteration ++ ":attempt:" ++
      toString (saved.modelAttempt.getD 1)))
  | .evaluationPending => do
    let iteration ← require saved.iteration (.missing "iteration")
    pure (some ("evaluation:" ++ toString iteration ++ ":" ++
      toString (saved.evalRetries.getD 0)))
  | .toolStarted => .error (.uncertain "Tool or its completion hooks may have produced effects")
  | .stepPreparing => .error (.uncertain "Preparation hooks may have produced effects")
  | .temporalPending => .ok none
  | _ => .error (.uncertain "Unsupported recovery boundary")

/-- The task as `recover` gives it back. -/
def repend (task : TaskRow) : TaskRow := { task.release with state := .pending, reply := none }

/-- The database with the task given back. -/
def rependTask (k : TaskKey) (db : Db) : Db :=
  { db with base := { db.base with tasks := db.base.tasks.update k (fun _ => true) repend } }

/-- The phases of a saved boundary. -/
def boundary : Phase → Bool
  | .stepReady | .modelReceived | .toolDone | .evaluationDone => true
  | _ => false

/-- `recover`. -/
def recover (env : Access) (c : Caller) (l : Ledger) (cursor : Cursor) (u : Token) (t : Time)
    (db : Db) : Except Error (Db × Cursor) := do
  checkCursor env c l cursor db
  l.checkScope env c false db db
  let run ← stepRow db cursor
  if run.status = .completed then
    let result ← cached env c l run db
    pure (db, result)
  else if run.status = .ready then
    pure (db, cursor)
  else
    let task ← require (db.task l.taskKey) (.missing l.task)
    if task.state = .completed ∨ task.state = .failed then
      commitRow env c l cursor run.fence .finalize task u t db db
    else if task.state = .suspended ∧ task.phase = .waitingUser then
      commitRow env c l cursor run.fence .human task u t db db
    else
      ensure (task.state = .pending || task.state = .running)
        (.uncertain "Task requires human resolution")
      if boundary task.phase then
        let kind ← nextKind task.phase task.checkpoint
        commitRow env c l cursor run.fence kind { task with state := .pending } u t db
          (rependTask l.taskKey db)
      else
        let operation ← pendingOperation task.phase task.checkpoint
        ensure (operation.all fun step =>
            (db.operations (l.taskKey, step)).all (·.state = .prepared))
          (.uncertain "Operation or completion hooks may have executed")
        -- Invalidates the old activity before it can begin any model or tool call.
        let new := { run with status := .ready, fence := none }
        pure ({ rependTask l.taskKey db with
            stepRuns := db.stepRuns.set (cursor.submission, cursor.revision) new }, cursor)

/-- The task after the wait: the kind of the next step, the task, and the state of the answer. -/
def consume (answer : HumanAnswer) (task : TaskRow) (t : Time) :
    Except Error (Kind × TaskRow × AnswerState) :=
  if answer.expires ≤ t then
    .ok (.finalize,
      { task with state := .failed, reply := some "Error: Human answer wait expired" }, .expired)
  else if answer.state = .answered then do
    let call ← require task.checkpoint.suspendedToolCallId (.missing "suspended_tool_call_id")
    let saved := TaskStore.answered task.checkpoint call (answer.answer.getD "")
    let kind ← nextKind .toolDone saved
    pure (kind,
      { task with state := .pending, phase := .toolDone, checkpoint := saved, reply := none },
      .consumed)
  else .error (.permission "Human decision already consumed without a projection")

/-- `human`, with the fence `u` and the artifact id `u'`; the clock is read at `t₁`, then at
`t₂`. -/
def human (env : Access) (c : Caller) (l : Ledger) (cursor : Cursor) (u : FenceId) (u' : Token)
    (t₁ t₂ : Time) (db : Db) : Except Error (Db × Cursor × Time) := do
  ensure (cursor.nextKind = .human) (.permission "Not this task human cursor")
  checkCursor env c l cursor db
  l.checkScope env c false db db
  let run ← stepRow db cursor
  if run.status = .completed then
    let result ← cached env c l run db
    pure (db, result, 0)
  else
    let k := (cursor.submission, cursor.revision)
    let mismatch := Error.permission "Human wait no longer matches its task"
    let answer ← require (db.answers k) mismatch
    let task ← require (db.task l.taskKey) (.missing l.task)
    ensure (task.state = .suspended && task.phase = .waitingUser &&
      task.checkpoint.suspendedToolCallId = some answer.callId) mismatch
    if answer.state = .waiting ∧ t₁ < answer.expires then
      pure (db, cursor, answer.expires)
    else
      let (kind, task', state) ← consume answer task t₂
      Ledger.capacity env
      let started := { run with status := .running, fence := some u }
      let db₁ := { db with
        base := { db.base with tasks := db.base.tasks.set l.taskKey task' }
        stepRuns := db.stepRuns.set k started }
      let (db₂, result) ← commitRow env c l cursor (some u) kind task' u' t₂ db db₁
      pure ({ db₂ with
          answers := db₂.answers.update k (fun _ => true) fun answer =>
            { answer with state := state } }, result, 0)

end StepStore

end Temporal

end PythonAI
