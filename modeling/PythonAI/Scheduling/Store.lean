import Mathlib.Data.List.DropRight
import PythonAI.Library.Text
import PythonAI.Library.Txn
import PythonAI.Scheduling.Types

/-!
# `SchedulerStore`: claiming and completing the runs of a job

A job is due when its `next_run_at` has passed.  A worker claims the due slot: it takes the lock
of the job and starts a run, and it advances `next_run_at` only when it completes the run.  A
worker that is lost leaves the run `running`; the next claim marks it `uncertain`.

The rows of a migration between the two engines live in the same database, and `admit_legacy`
reserves the slot of a migrated job in the table of fences.
-/

namespace PythonAI

open Library

namespace Scheduling

/-- `croniter` and `zoneinfo`: the occurrences of a cron expression in a time zone. -/
structure Calendar where
  /-- `croniter.is_valid(expression)` -/
  valid : String → Bool
  /-- the first occurrence after an instant; an unknown zone raises -/
  next : String → String → Time → Except Error Time
  /-- it lies after the instant -/
  next_gt : ∀ {expression zone : String} {t u : Time}, next expression zone t = .ok u → t < u

/-- `next_time`. -/
def nextTime (cal : Calendar) (expression zone : String) (base : Time) : Except Error Time := do
  ensure (expression.length ≤ 128 && (words expression).length = 5 && cal.valid expression)
    (.value "Expected a five-field cron expression")
  cal.next expression zone base

theorem nextTime_gt {cal : Calendar} {expression zone : String} {base t : Time}
    (h : nextTime cal expression zone base = .ok t) : base < t := by
  simp only [nextTime, bind_eq_ok, ensure_eq_ok] at h
  obtain ⟨-, -, h⟩ := h
  exact cal.next_gt h

/-- `s[:n]`. -/
def cut (n : ℕ) (s : String) : String := String.ofList (s.toList.take n)

/-- The duration of the lock of a run. -/
def lockTerm : Time := 10

/-- The arguments of `add_job`. -/
structure JobSpec where
  name : String
  /-- `cron_expression` -/
  cron : String
  jobType : JobType
  /-- `job_payload`, serialized -/
  payload : String
  description : String := ""
  timezone : String := "Asia/Taipei"
  timeout : Time := 60
  maxRuns : ℕ := 1000
  /-- `execution_backend` -/
  backend : Backend := .sqlite

/-- The context and the role of the caller. -/
structure Caller where
  /-- `task_owner(context)` -/
  owner : Owner
  /-- the saved scope -/
  context : String
  /-- `current_role()` -/
  role : String := "admin"

/-- `validate_job`, at time `t`. -/
def validateJob (cal : Calendar) (name cron payload zone description : String) (timeout : Time)
    (maxRuns : ℕ) (t : Time) : Except Error Time := do
  ensure (1 ≤ name.length && name.length ≤ 200 && description.length ≤ 2000)
    (.value "Invalid name/payload")
  ensure (1 ≤ timeout && timeout ≤ 300 && 1 ≤ maxRuns && maxRuns ≤ 1000)
    (.value "Invalid timeout/max_runs")
  ensure (payload.utf8ByteSize ≤ 65536) (.value "Job payload exceeds 64 KiB")
  nextTime cal cron zone t

/-- The row `add_job` inserts. -/
def newJob (spec : JobSpec) (c : Caller) (due : Time) : Job :=
  { name := spec.name
    description := spec.description
    cron := spec.cron
    jobType := spec.jobType
    payload := spec.payload
    owner := c.owner
    context := c.context
    ownerRole := c.role
    timezone := spec.timezone
    timeout := spec.timeout
    maxRuns := spec.maxRuns
    nextRunAt := due
    enabled := spec.backend = .sqlite
    backend := spec.backend }

namespace Store

/-- `add_job`: `key` is a fresh id, and `room` whether fewer than 1000 jobs are stored. -/
def addJob (cal : Calendar) (spec : JobSpec) (c : Caller) (room : Bool) (key : JobId) (t : Time)
    (db : Db) : Except Error (Db × JobId) := do
  ensure (spec.backend ≠ .transition) (.value "Unknown schedule backend")
  let due ← validateJob cal spec.name spec.cron spec.payload spec.timezone spec.description
    spec.timeout spec.maxRuns t
  ensure room (.value "Schedule capacity reached")
  ensure (db.jobs key).isNone (.integrity "scheduled_jobs.id")
  pure ({ db with jobs := db.jobs.set key (newJob spec c due) }, key)

/-- The job belongs to `owner`. -/
def owned (owner : Owner) (row : Job) : Bool := row.owner = owner

/-- `disable`. -/
def disable (key : JobId) (owner : Owner) (db : Db) : Db × Bool :=
  if db.jobs.selects key (owned owner) then
    ({ db with
        jobs := db.jobs.update key (owned owner) fun row => { row with enabled := false }
        migrations := db.migrations.update key (fun _ => true) fun row =>
          { row with restoreEnabled := false }
        bindings := db.bindings.update key (fun _ => true) fun row =>
          { row with enabled := false, revision := row.revision + 1 } }, true)
  else (db, false)

/-- The row `get_due_jobs` selects at `t`. -/
def due (t : Time) (row : Job) : Bool := row.backend = .sqlite && row.enabled && row.nextRunAt ≤ t

/-- `renew`: the new end of the lock is computed at `t₁`, the old one tested with `t₂`. -/
def renew (key : JobId) (token : Token) (t₁ t₂ : Time) (db : Db) : Db × Bool :=
  ({ db with
      locks := db.locks.update key (·.heldBy token t₂) fun l => { l with expires := t₁ + lockTerm } },
    db.locks.selects key (·.heldBy token t₂))

/-- `alive`. -/
def alive (key : JobId) (token : Token) (t : Time) (db : Db) : Bool :=
  db.locks.selects key (·.heldBy token t) && db.jobs.selects key (·.enabled)

/-- `notify`. -/
def notify (u : Token) (key : JobId) (job : Job) (state : Outcome) (output : String) (db : Db) :
    Except Error Db := do
  ensure (db.notifications.length < 10000) (.value "Notification capacity reached")
  pure { db with
    notifications := db.notifications ++
      [{ id := u, job := key, owner := job.owner, state := state, output := cut 65536 output }] }

/-- `UPDATE scheduled_jobs SET is_enabled=0 WHERE id=?` -/
def stop (key : JobId) (db : Db) : Db :=
  { db with jobs := db.jobs.update key (fun _ => true) fun row => { row with enabled := false } }

/-- `admit_legacy`. -/
def admitLegacy (key : JobId) (row : Job) (db : Db) : Except Error (Db × Bool) :=
  match db.migrations key with
  | none => .ok (db, true)
  | some saved =>
    if saved.state = .sqlite ∨ saved.state = .staged then do
      ensure (db.fences.length < 100000) (.value "Occurrence fence capacity reached")
      if db.fenced key row.nextRunAt then pure (stop key db, false)
      else
        pure ({ db with fences := db.fences ++ [⟨key, row.nextRunAt, .sqlite⟩] }, true)
    else .ok (db, false)

/-- The run as the next claim leaves it when its worker was lost. -/
def lost (key : JobId) (r : Run) : Run :=
  if r.runningOf key then
    { r with status := .ended .uncertain, error := "Worker lost; side effects require human review" }
  else r

/-- The database with the unfinished runs of the job marked lost. -/
def lose (key : JobId) (db : Db) : Db := { db with runs := db.runs.map (lost key) }

/-- The lost run is not started again: the job is stopped and its owner notified. -/
def quarantine (u : Token) (key : JobId) (row : Job) (db : Db) : Except Error Db := do
  let db ← notify u key row .needsInput
    "Previous run is uncertain; inspect before creating a replacement job" (stop key db)
  pure { db with locks := db.locks.erase key }

/-- The database once the worker with `token` holds the lock until `t + 10` and `run` is started;
`again` if the run replaces a lost one. -/
def start (key : JobId) (token run : Token) (again : Bool) (t : Time) (db : Db) : Db :=
  { db with
    locks := db.locks.set key ⟨token, t + lockTerm⟩
    runs := db.runs ++ [{ id := run, job := key, status := .running }]
    jobs := db.jobs.update key (fun _ => again) fun row =>
      { row with retryCount := row.retryCount + 1 } }

/-- `claim_due` by a worker that has seen the job due at `seen`: the due time is tested at `t₁`,
the lock at `t₂`, and the new lock is granted at `t₃`. -/
def claimDue (key : JobId) (seen : Time) (token run note : Token) (t₁ t₂ t₃ : Time) (db : Db) :
    Except Error (Db × Option Token) :=
  match db.jobs key with
  | none => .ok (db, none)
  | some row =>
    if !due t₁ row || row.nextRunAt ≠ seen then .ok (db, none)
    else if (db.locks key).any fun l => t₂ < l.expires then .ok (db, none)
    else do
      let running := db.runs.any (·.runningOf key)
      let marked := if running then lose key db else db
      if running ∧ (row.jobType ≠ .watch ∨ 2 ≤ row.retryCount) then
        let db ← quarantine note key row marked
        pure (db, none)
      else
        ensure (marked.runs.length < 10000) (.value "Schedule run capacity reached")
        let (db, admitted) ← admitLegacy key row marked
        if admitted then pure (start key token run running t₃ db, some run)
        else pure (db, none)

/-- The outcome that counts: its state, its error and whether the run is retried. -/
structure Verdict where
  state : Outcome
  error : String
  safeRetry : Bool
  deriving DecidableEq, Repr

/-- What `complete` makes of the outcome a worker reports. -/
def verdict (row : Job) (state : Outcome) (error : String) : Verdict :=
  let safe := row.jobType = .watch && state = .failed && row.retryCount < 2
  if row.jobType = .watch then
    if state = .failed && !safe then
      ⟨.needsInput, "Watch retry limit reached; inspect before rescheduling. " ++ error, safe⟩
    else if row.maxRuns ≤ row.runCount + 1 && (state = .waiting || safe) then
      ⟨.needsInput,
        "Watch run limit reached without completion; inspect before rescheduling. " ++ error, false⟩
    else ⟨state, error, safe⟩
  else ⟨state, error, safe⟩

/-- `disabled`: the job is not run again. -/
def disabled (row : Job) (v : Verdict) : Bool :=
  row.maxRuns ≤ row.runCount + 1
    || (v.state = .needsInput || v.state = .uncertain || v.state = .cancelled)
    || (row.jobType = .watch && v.state = .completed)
    || (v.state = .failed && !v.safeRetry)

/-- `evidence`: the observation, with the error of a faulty outcome. -/
def evidence (v : Verdict) (text : String) : String :=
  text ++ if v.state.faulty then "\n" ++ cut 1000 v.error else ""

/-- The digest of a completed run. -/
def digest (v : Verdict) (text : String) : Digest := .lines v.state (evidence v text)

/-- The text of the notification. -/
def notice (v : Verdict) (text : String) : String :=
  strip (if v.error ≠ "" && v.state.faulty then cut 1000 v.error ++ "\n" ++ text else text)

/-- The owner is told of a digest that differs from the last one; a first `waiting` is quiet. -/
def meaningful (row : Job) (digest : Digest) (waiting : Bool) : Bool :=
  row.lastDigest ≠ some digest && (row.lastDigest ≠ none || !waiting)

/-- The last four observations. -/
def remember (history : List (Outcome × String)) (state : Outcome) (text : String) :
    List (Outcome × String) :=
  (history ++ [(state, cut 4096 text)]).rtake 4

/-- The row of the job after a completed run, next due at `due`. -/
def advance (row : Job) (v : Verdict) (text : String) (due : Time) : Job :=
  { row with
    nextRunAt := due
    runCount := row.runCount + 1
    retryCount := if v.safeRetry then row.retryCount + 1 else 0
    lastDigest := some (digest v text)
    history := remember row.history v.state text
    enabled := row.enabled && !disabled row v }

@[simp] theorem advance_backend {row : Job} {v : Verdict} {text : String} {due : Time} :
    (advance row v text due).backend = row.backend := rfl

@[simp] theorem advance_jobType {row : Job} {v : Verdict} {text : String} {due : Time} :
    (advance row v text due).jobType = row.jobType := rfl

/-- The run with its result. -/
def finished (run : Token) (v : Verdict) (text : String) (r : Run) : Run :=
  if r.id = run then
    { r with status := .ended v.state, output := text, error := cut 1000 v.error }
  else r

/-- `due`: when the job is run again, computed at `t`. -/
def nextDue (cal : Calendar) (row : Job) (v : Verdict) (t : Time) : Except Error Time :=
  if v.safeRetry then .ok (t + 30 * (row.retryCount + 1))
  else nextTime cal row.cron row.timezone t

/-- The owner is told of a meaningful change. -/
def tell (u : Token) (key : JobId) (row : Job) (v : Verdict) (text : String) (db : Db) :
    Except Error Db :=
  if meaningful row (digest v text) (v.state = .waiting) then
    notify u key row v.state (notice v text) db
  else .ok db

/-- What a completed run writes besides the notification. -/
def completed (key : JobId) (run : Token) (row : Job) (v : Verdict) (text : String) (due : Time)
    (db : Db) : Db :=
  { db with
    jobs := db.jobs.set key (advance row v text due)
    runs := db.runs.map (finished run v text)
    locks := db.locks.erase key }

/-- `complete`: the lock is tested at `t₁`, the next due time computed at `t₂`. -/
def complete (cal : Calendar) (key : JobId) (token run note : Token) (state : Outcome)
    (output error : String) (t₁ t₂ : Time) (db : Db) : Except Error (Db × Bool) :=
  if !db.locks.selects key (·.heldBy token t₁) then .ok (db, false)
  else do
    let row ← require (db.jobs key) (.type "'NoneType' object is not iterable")
    let text := cut 65536 output
    let v := verdict row state error
    let due ← nextDue cal row v t₂
    let db ← tell note key row v text db
    pure (completed key run row v text due db, true)

end Store

end Scheduling

end PythonAI
