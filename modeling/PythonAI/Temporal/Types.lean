import PythonAI.Tasks.Store

/-!
# The Temporal backend: the rows of its tables

The Temporal tables live in the task database.  A submission is a task handed to a workflow, the
operation ledger records each model, tool or evaluation call of a task, and the step runs are the
continuations of a submission.

A SHA-256 digest is taken as collision free: it is represented by the value it is the digest of.
Byte counts, which the digests determine, and the columns that no modelled function reads are
left out.  A `uuid4` is a number of the same supply as the lease tokens.
-/

namespace PythonAI

open Library

namespace Temporal

/-- `temporal_submissions.id`. -/
abbrev SubmissionId := Token

/-- The fence of a submission, an operation or a step. -/
abbrev FenceId := Token

/-- A resolved path. -/
abbrev Path := String

/-- `execution_bindings.backend`. -/
inductive Backend
  | sqlite | temporal
  deriving DecidableEq, Repr

/-- The workflow protocols, and the engines of their queues. -/
inductive Workflow
  /-- `PythonAIReadOnlyBridgeV1` -/
  | bridge
  /-- `AgentTaskWorkflowV1` -/
  | steps
  /-- `AgentTaskWorkflowV2` -/
  | human
  /-- `AgentTaskWorkflowV3` -/
  | approval
  deriving DecidableEq, Repr

/-- `context['publication']`. -/
structure Publication where
  episode : Option ℕ := none
  /-- the kind of `delivery`, if there is a target; `websocket` when the target names none -/
  delivery : Option String := none
  memoryDb : Option Path := none
  review : Bool := false
  deriving DecidableEq, Repr

/-- `temporal_submissions.context`. -/
structure Context where
  /-- `workspace`, resolved -/
  workspace : Path
  publication : Option Publication := none
  /-- the other fields -/
  rest : String := ""
  deriving DecidableEq, Repr

/-- The result of a submission. -/
inductive Outcome
  /-- `reply` and `messages` -/
  | reply (text : String) (messages : List Message)
  /-- `error_type` -/
  | error (type : String)
  deriving DecidableEq, Repr

/-- `temporal_submissions.state`. -/
inductive SubmissionState
  | pending | dispatched | running | completed | failed | uncertain | cancelled | erasing
  deriving DecidableEq, Repr

/-- The digest of the input, the context and the role of a submission. -/
structure Scope where
  /-- `input_digest`: the last user message -/
  input : Message
  context : Context
  role : String
  deriving DecidableEq, Repr

/-- A row of `temporal_submissions`. -/
structure Submission where
  owner : Owner
  /-- `task_id` -/
  task : TaskId
  /-- `input_digest`, `context` and `role` -/
  scope : Scope
  input : List Message
  address : String
  /-- `namespace` -/
  space : String
  queue : String
  state : SubmissionState
  fence : Option FenceId := none
  result : Option Outcome := none
  attempts : ℕ := 0
  lastError : Option String := none
  deriving DecidableEq, Repr

/-- The key of the task of a submission. -/
def Submission.taskKey (row : Submission) : TaskKey := (row.owner, row.task)

/-- A task, as a continuation is saved and restored from. -/
structure Snapshot where
  phase : Phase
  checkpoint : Checkpoint
  taskState : TaskState
  reply : Option String
  deriving DecidableEq, Repr

/-- The data of an artifact. -/
inductive Payload
  /-- a result or evidence of an operation -/
  | json (value : String)
  /-- the snapshot of a continuation -/
  | snapshot (value : Snapshot)
  deriving DecidableEq, Repr

/-- A reference to an artifact. -/
structure Ref where
  id : Token
  /-- `sha256` -/
  sha256 : Payload
  deriving DecidableEq, Repr

/-- A row of `temporal_artifacts`. -/
structure Artifact where
  owner : Owner
  /-- `task_id` -/
  task : TaskId
  /-- `sha256` -/
  sha256 : Payload
  data : Payload
  deriving DecidableEq, Repr

/-- `operation_ledger.state`. -/
inductive OpState
  | prepared | running | completed | uncertain | rejectedNoEffect
  deriving DecidableEq, Repr

/-- The states in which an operation has ended. -/
def OpState.final : OpState → Bool
  | completed | uncertain | rejectedNoEffect => true
  | _ => false

/-- The fingerprint of an operation: the digest of its scope, kind and arguments. -/
structure Fingerprint where
  /-- the digest of the scope -/
  scope : Scope
  kind : Kind
  /-- `arguments`, canonical -/
  arguments : String
  deriving DecidableEq, Repr

/-- A row of `operation_ledger`. -/
structure Operation where
  kind : Kind
  /-- `arguments_digest` -/
  arguments : Fingerprint
  state : OpState
  fence : Option FenceId := none
  resultRef : Option Ref := none
  evidenceRef : Option Ref := none
  deriving DecidableEq, Repr

/-- The primary key of `operation_ledger`: the task and the step id. -/
abbrev OpKey := TaskKey × String

/-- A cursor: the continuation an activity performs. -/
structure Cursor where
  /-- `submission_id` -/
  submission : SubmissionId
  revision : ℕ
  nextKind : Kind
  stateRef : Ref
  deriving DecidableEq, Repr

/-- `temporal_step_runs.status`. -/
inductive StepStatus
  | ready | running | completed
  deriving DecidableEq, Repr

/-- A row of `temporal_step_runs`. -/
structure StepRun where
  nextKind : Kind
  stateRef : Ref
  status : StepStatus
  fence : Option FenceId := none
  output : Option Cursor := none
  deriving DecidableEq, Repr

/-- The cursor of the row under `(key, revision)`. -/
def StepRun.cursor (run : StepRun) (key : SubmissionId) (revision : ℕ) : Cursor :=
  ⟨key, revision, run.nextKind, run.stateRef⟩

/-- `temporal_human_answers.state`. -/
inductive AnswerState
  | waiting | answered | consumed | expired
  deriving DecidableEq, Repr

/-- The delivery of a row of an outbox. -/
inductive Delivery
  | none | pending | sent | local | cancelled
  deriving DecidableEq, Repr

/-- A row of `temporal_human_answers`. -/
structure HumanAnswer where
  callId : String
  expires : Time
  answer : Option String := Option.none
  state : AnswerState := .waiting
  delivery : Delivery := .none
  deriving DecidableEq, Repr

/-- A row of `temporal_events`; its `seq` is its position in the journal of the submission. -/
structure Event where
  /-- `event_key` -/
  key : String
  kind : String
  payload : String
  delivery : Delivery
  deriving DecidableEq, Repr

/-- `temporal_budget_contracts.contract`. -/
structure Contract where
  deadline : Time
  /-- the other fields -/
  rest : String := ""
  deriving DecidableEq, Repr

/-- The task database with the tables of the Temporal backend. -/
structure Db where
  /-- the tables of `TaskStore` -/
  base : TaskDb
  /-- `temporal_host.token` -/
  host : String
  /-- `execution_bindings` -/
  bindings : Table TaskKey Backend
  /-- `temporal_submissions` -/
  submissions : Table SubmissionId Submission
  /-- the index of `temporal_submissions` on the owner and the task, which is unique -/
  forTask : Table TaskKey SubmissionId
  /-- `temporal_protocols` -/
  protocols : Table SubmissionId Workflow
  /-- `temporal_budget_contracts` -/
  contracts : Table SubmissionId Contract
  /-- `temporal_cancellations` -/
  cancellations : Table SubmissionId Delivery
  /-- `operation_ledger` -/
  operations : Table OpKey Operation
  /-- `temporal_artifacts` -/
  artifacts : Table Token Artifact
  /-- `temporal_step_runs` -/
  stepRuns : Table (SubmissionId × ℕ) StepRun
  /-- `temporal_human_answers` -/
  answers : Table (SubmissionId × ℕ) HumanAnswer
  /-- `temporal_events`, oldest first -/
  events : SubmissionId → List Event
  /-- `temporal_finalizations`: whether the finalization is completed -/
  finalizations : Table SubmissionId Bool
  /-- `temporal_erased_tasks` -/
  erased : Table TaskKey Unit
  /-- `temporal_erasures`: the reason -/
  erasures : Table SubmissionId String

/-- The database `Store` creates. -/
def Db.empty (host : String) : Db :=
  ⟨.empty, host, .empty, .empty, .empty, .empty, .empty, .empty, .empty, .empty, .empty, .empty,
    fun _ => [], .empty, .empty, .empty⟩

/-- The row of a task. -/
abbrev Db.task (db : Db) (k : TaskKey) : Option TaskRow := db.base.tasks k

/-- The row of the submission of a task. -/
def Db.submissionOf (db : Db) (k : TaskKey) : Option Submission :=
  (db.forTask k).bind db.submissions

end Temporal

end PythonAI
