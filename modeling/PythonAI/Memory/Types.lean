import Mathlib.Data.Rat.Defs
import PythonAI.Library.Records
import PythonAI.Tasks.Types

/-!
# Memory: the rows of the memory database

A turn of the agent writes an *episode* (`episodes`) with its events (`episode_events`), and a
background review of the episode (`memory_jobs`) may save a *procedure* (`procedures`).

The columns that no modelled function reads are left out, and with them the tables of the semantic
memories; JSON columns are records of the fields the modelled functions read or write.
-/

namespace PythonAI

open Library

namespace Memory

/-- `episodes.status`. -/
inductive Status
  | running | verifiedCompleted | completed | rejected | needsReview | failed | deleted
  /-- another text -/
  | other (name : String)
  deriving DecidableEq, Repr

/-- The statuses in `("rejected", "needs_review", "failed")`. -/
def Status.negative : Status → Bool
  | rejected | needsReview | failed => true
  | _ => false

/-- The text of a status. -/
def Status.text : Status → String
  | running => "running"
  | verifiedCompleted => "verified_completed"
  | completed => "completed"
  | rejected => "rejected"
  | needsReview => "needs_review"
  | failed => "failed"
  | deleted => "deleted"
  | other name => name

/-- A row of `episodes`. -/
structure Episode where
  id : ℕ
  status : Status := .running
  summary : Option String := none
  deriving DecidableEq, Repr

/-- `episode_events.metadata`. -/
structure Metadata where
  name : Option String := none
  arguments : Option String := none
  memoryKind : Option String := none
  /-- `preservation`: `should_preserve` and `preservation_kind` -/
  preservation : Option (Bool × Option String) := none
  confidence : Option ℚ := none
  action : Option String := none
  reason : Option String := none
  procedureId : Option ℕ := none
  /-- `temporal_finalization` -/
  finalization : Option String := none
  deriving DecidableEq

/-- A row of `episode_events`. -/
structure EpisodeEvent where
  id : ℕ
  /-- `episode_id` -/
  episode : ℕ
  /-- `event_type` -/
  type : String
  role : Option String := none
  content : Option String := none
  metadata : Metadata := {}
  deriving DecidableEq

/-- A row of `procedures`. -/
structure Procedure where
  id : ℕ
  taskType : String
  contextPattern : String
  steps : List String
  confidence : ℚ
  successCount : ℕ
  failureCount : ℕ
  /-- `source_episode_id` -/
  sourceEpisode : ℕ
  /-- `updated_at` -/
  updated : Time
  /-- `last_success_at` -/
  lastSuccess : Option Time
  /-- `archived_at` -/
  archived : Option Time := none
  deriving DecidableEq

/-- `memory_jobs.status`. -/
inductive JobStatus
  | pending | processing | completed | failed | cancelled
  /-- another text -/
  | other (name : String)
  deriving DecidableEq, Repr

/-- A process, as the owner of a lease names it. -/
structure Process where
  /-- `owner_host` -/
  host : String
  /-- `owner_pid` -/
  pid : ℕ
  /-- `owner_started`: the marker of its start -/
  started : String
  deriving DecidableEq, Repr

/-- The columns of a lease. -/
structure Lease where
  /-- `lease_token` -/
  token : Token
  /-- `owner_host`, `owner_pid` and `owner_started` -/
  owner : Process
  /-- `heartbeat_at` -/
  heartbeat : Time
  /-- `lease_until` -/
  expires : Time
  deriving DecidableEq, Repr

/-- A row of `memory_jobs`. -/
structure Job where
  id : ℕ
  /-- `job_type` -/
  type : String
  /-- `episode_id` -/
  episode : Option ℕ
  status : JobStatus := .pending
  /-- `temporal_finalization` of `payload` -/
  finalization : Option String := none
  attempts : ℕ := 0
  lastError : Option String := none
  /-- `next_attempt_at` -/
  nextAttempt : Option Time := none
  /-- the columns of the lease, which are written together -/
  lease : Option Lease := none
  deriving DecidableEq, Repr

/-- A row of `memory_job_recoveries`. -/
structure Recovery where
  id : Token
  /-- `job_id` -/
  job : ℕ
  /-- `previous_token` -/
  previous : Option Token
  /-- `recovered_at` -/
  recovered : Time
  /-- `backup_path` -/
  backup : String
  reason : String
  deriving DecidableEq, Repr

/-- A row of `temporal_episode_finalizations`; the fingerprint is represented by what it is the
digest of. -/
structure Finalization where
  key : String
  /-- `episode_id` -/
  episode : ℕ
  fingerprint : ℕ × String × String × Bool
  /-- `job_id` -/
  job : Option ℕ
  deriving DecidableEq, Repr

/-- The memory database.  A row is appended with the next number of its table. -/
structure Db where
  episodes : List Episode := []
  /-- `episode_events` -/
  events : List EpisodeEvent := []
  procedures : List Procedure := []
  /-- `memory_jobs` -/
  jobs : List Job := []
  /-- `memory_job_recoveries` -/
  recoveries : List Recovery := []
  /-- `temporal_episode_finalizations` -/
  finalizations : List Finalization := []
  deriving DecidableEq

namespace Db

/-- The row of an episode. -/
def episode (db : Db) (id : ℕ) : Option Episode := Records.find Episode.id id db.episodes

/-- The row of a job. -/
def job (db : Db) (id : ℕ) : Option Job := Records.find Job.id id db.jobs

end Db

end Memory

end PythonAI
