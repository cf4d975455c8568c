import PythonAI.Tasks.Types

/-!
# Schedules: the rows of the scheduler database

The tables of `SchedulerStore`, with those that the Temporal schedules and the migration between
the two engines keep in the same database.

The due times are `isoformat` texts of UTC datetimes, whose textual order is the order of time:
they are represented by the instant.  A SHA-256 digest is represented by the value it is the
digest of.  The columns that no modelled function reads are left out.
-/

namespace PythonAI

open Library

namespace Scheduling

/-- `scheduled_jobs.id`. -/
abbrev JobId := Token

/-- `scheduled_jobs.job_type`. -/
inductive JobType
  | command | script | agent | skill | watch | maintenance | maintenanceSummary
  deriving DecidableEq, Repr

/-- `scheduled_jobs.execution_backend`. -/
inductive Backend
  | sqlite | temporal | transition
  deriving DecidableEq, Repr

/-- What a run or an occurrence ends with. -/
inductive Outcome
  | completed | failed | waiting | needsInput | uncertain | cancelled
  /-- the submission of an occurrence is being erased -/
  | erasing
  deriving DecidableEq, Repr

/-- The states in `{'failed','needs_input','uncertain'}`, whose error is evidence. -/
def Outcome.faulty : Outcome → Bool
  | failed | needsInput | uncertain => true
  | _ => false

/-- `scheduled_jobs.last_digest`. -/
inductive Digest
  /-- the digest of `state + '\n' + evidence` -/
  | lines (state : Outcome) (evidence : String)
  /-- the digest of `[state, evidence]` -/
  | pair (state : Outcome) (evidence : String)
  deriving DecidableEq, Repr

/-- The state a digest was taken of. -/
def Digest.state : Digest → Outcome
  | lines state _ | pair state _ => state

/-- A row of `scheduled_jobs`. -/
structure Job where
  name : String
  description : String := ""
  /-- `cron_expression` -/
  cron : String
  jobType : JobType
  /-- `job_payload` -/
  payload : String
  owner : Owner
  context : String
  ownerRole : String
  timezone : String
  timeout : Time
  maxRuns : ℕ
  runCount : ℕ := 0
  retryCount : ℕ := 0
  nextRunAt : Time
  /-- `is_enabled` -/
  enabled : Bool
  /-- `execution_backend` -/
  backend : Backend
  lastDigest : Option Digest := none
  /-- `history`: the last observations -/
  history : List (Outcome × String) := []
  deriving DecidableEq, Repr

/-- `scheduled_job_runs.status`. -/
inductive RunStatus
  | running
  | ended (state : Outcome)
  deriving DecidableEq, Repr

/-- A row of `scheduled_job_runs`. -/
structure Run where
  id : Token
  /-- `job_id` -/
  job : JobId
  status : RunStatus
  output : String := ""
  /-- `error_message` -/
  error : String := ""
  deriving DecidableEq, Repr

/-- A row of `scheduled_job_locks`. -/
structure Lock where
  lockedBy : Token
  /-- `expires_at` -/
  expires : Time
  deriving DecidableEq, Repr

/-- A row of `schedule_notifications`. -/
structure Notification where
  id : Token
  /-- `job_id` -/
  job : JobId
  owner : Owner
  state : Outcome
  output : String
  deriving DecidableEq, Repr

/-- Where a native schedule lives. -/
structure Place where
  address : String
  /-- `namespace` -/
  space : String
  queue : String
  deriving DecidableEq, Repr

/-- `temporal_schedule_bindings.overlap`. -/
inductive Overlap
  | skip | bufferOne
  deriving DecidableEq, Repr

/-- A row of `temporal_schedule_bindings`. -/
structure Binding where
  /-- `address`, `namespace` and `queue` -/
  place : Place
  overlap : Overlap := .skip
  cancelled : Bool := false
  /-- `revision`: the desired definition -/
  revision : ℕ := 1
  /-- `applied`: the definition the service has -/
  applied : ℕ := 0
  remoteDeleted : Bool := false
  enabled : Bool
  retired : Bool := false
  startAt : Option Time := none
  deriving DecidableEq, Repr

/-- `temporal_schedule_migrations.state`. -/
inductive MigrationState
  | staged | cuttingOver | activating | temporal | rollingBack | sqlite
  deriving DecidableEq, Repr

/-- A row of `temporal_schedule_migrations`. -/
structure MigrationRow where
  state : MigrationState
  snapshot : Job
  sourceDigest : Job
  barrier : Time
  fenceAt : Option Time := none
  nextRun : Option Time := none
  generation : ℕ := 1
  restoreEnabled : Bool
  deriving DecidableEq, Repr

/-- The two engines that execute occurrences. -/
inductive Engine
  | sqlite | temporal
  deriving DecidableEq, Repr

/-- A row of `schedule_occurrence_fences`. -/
structure SlotFence where
  /-- `job_id` -/
  job : JobId
  slot : Time
  engine : Engine
  deriving DecidableEq, Repr

/-- The id of the workflow of an occurrence: `remote_id(row) + '-' + suffix`. -/
structure WorkflowId where
  /-- the schedule the id starts with -/
  schedule : JobId
  /-- the text after it: the scheduled time -/
  suffix : String
  deriving DecidableEq, Repr

/-- `temporal_schedule_occurrences.state`. -/
inductive OccurrenceState
  | reserved | running
  | ended (state : Outcome)
  deriving DecidableEq, Repr

/-- The states in `('reserved','running')`. -/
def OccurrenceState.active : OccurrenceState → Bool
  | reserved | running => true
  | ended _ => false

/-- A row of `temporal_schedule_occurrences`; its `id` is the digest of the workflow id. -/
structure Occurrence where
  /-- `workflow_id` -/
  workflow : WorkflowId
  /-- `job_id` -/
  job : JobId
  /-- `submission_id` -/
  submission : Option Token := none
  state : OccurrenceState
  deadline : Time
  deriving DecidableEq, Repr

/-- The scheduler database. -/
structure Db where
  /-- `scheduled_jobs` -/
  jobs : Table JobId Job
  /-- `scheduled_job_runs`, in the order of insertion -/
  runs : List Run
  /-- `scheduled_job_locks` -/
  locks : Table JobId Lock
  /-- `schedule_notifications`, in the order of insertion -/
  notifications : List Notification
  /-- `temporal_schedule_bindings` -/
  bindings : Table JobId Binding
  /-- `temporal_schedule_migrations` -/
  migrations : Table JobId MigrationRow
  /-- `schedule_occurrence_fences` -/
  fences : List SlotFence
  /-- `temporal_schedule_occurrences` -/
  occurrences : List Occurrence

/-- A new database. -/
def Db.empty : Db := ⟨.empty, [], .empty, [], .empty, .empty, [], []⟩

/-- The run is unfinished and belongs to `job`. -/
def Run.runningOf (job : JobId) (r : Run) : Bool := r.job = job && r.status = .running

/-- `locked_by = token AND expires_at > t`. -/
def Lock.heldBy (token : Token) (t : Time) (l : Lock) : Bool := l.lockedBy = token && t < l.expires

/-- Some fence of the job holds the slot. -/
def Db.fenced (db : Db) (job : JobId) (slot : Time) : Bool :=
  db.fences.any fun f => f.job = job && f.slot = slot

theorem Run.runningOf_iff {job : JobId} {r : Run} :
    r.runningOf job = true ↔ r.job = job ∧ r.status = .running := by
  simp [runningOf]

theorem Lock.heldBy_iff {token : Token} {t : Time} {l : Lock} :
    l.heldBy token t = true ↔ l.lockedBy = token ∧ t < l.expires := by
  simp [heldBy]

end Scheduling

end PythonAI
