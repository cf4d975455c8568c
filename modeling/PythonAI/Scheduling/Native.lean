import PythonAI.Scheduling.Times
import PythonAI.Temporal.Types

/-!
# `Schedules`: the schedules that Temporal executes

A native schedule is a row of `scheduled_jobs` with a binding.  The database is the authority:
`create` and `change` write the wanted definition, and `sync` reconciles the service with it.  The
service starts a workflow for each occurrence; its activities admit the occurrence (`prepare`),
submit its task, and end it (`finish`) with the result of the task or when it is stopped.

`admitNative` is the part of `prepare` that belongs to the migration between the two engines: it
reserves the instant of an occurrence of a migrated job.
-/

namespace PythonAI

open Library

namespace Scheduling

/-- The texts that the native schedules parse. -/
structure Formats where
  /-- the prompt of a job payload with no other key, of 1 to 8192 characters -/
  prompt : String → Option String
  /-- `utc`: the instant of an ISO 8601 text with an offset -/
  instant : String → Except Error Time
  /-- `state` and `summary` of the reply of a watch, which has no other key -/
  observation : String → Option (String × String)

/-- What an operation finds outside of the databases. -/
structure Env where
  /-- `Settings.load()` and the queue of the host -/
  place : Place
  /-- the role, the context and the workspace of the schedule still authorize its owner -/
  authority : Job → Bool
  /-- the same for the operator of a migration -/
  authorize : Job → Bool
  /-- `new_backend(owner,'temporal') == 'temporal'` -/
  admission : Owner → Bool

/-- The part of a workflow id that `admit_native` reads the instant of: what follows the last
slash, without the schedule's id. -/
def slotText (suffix : String) : String :=
  if '/' ∈ suffix.toList then
    String.ofList ((suffix.toList.reverse.takeWhile (· ≠ '/')).reverse.drop 33)
  else suffix

/-- `slot`, of a workflow id. -/
def Formats.slot (fm : Formats) (w : WorkflowId) : Except Error Time :=
  fm.instant (slotText w.suffix)

/-- A row that `_row` has read. -/
structure Reading where
  /-- the job's id -/
  key : JobId
  /-- the columns of `scheduled_jobs` -/
  job : Job
  /-- the columns of `temporal_schedule_bindings` -/
  binding : Binding
  deriving DecidableEq, Repr

/-- The actions of `change`. -/
inductive Action
  | update | pause | resume | cancel
  deriving DecidableEq, Repr

/-- The values of an `update`. -/
structure Values where
  cron : Option String := none
  timezone : Option String := none
  maxRuns : Option ℕ := none
  timeout : Option Time := none
  overlap : Option Overlap := none
  deriving DecidableEq, Repr

/-- What `finish` is called with. -/
structure Result where
  /-- the job -/
  key : JobId
  /-- the occurrence -/
  workflow : WorkflowId
  state : Outcome
  text : String
  error : String
  deriving DecidableEq, Repr

/-- The deterministic id of the task of an occurrence. -/
def taskOf (w : WorkflowId) : TaskId := "schedule-" ++ toString w.schedule ++ "-" ++ w.suffix

namespace Native

/-- `_row`. -/
def row (key : JobId) (db : Db) : Except Error (Job × Binding) := do
  let job ← require (db.jobs key) (.missing "Temporal schedule not found")
  let b ← require (db.bindings key) (.missing "Temporal schedule not found")
  pure (job, b)

/-- `get`. -/
def get (key : JobId) (c : Caller) (db : Db) : Except Error Reading := do
  let (job, b) ← row key db
  ensure (job.owner = c.owner) (.missing "Temporal schedule not found in this scope")
  pure ⟨key, job, b⟩

/-- `configuration`. -/
def configuration (env : Env) (place : Place) : Except Error Unit :=
  ensure (place = env.place) (.permission "Schedule connection/host configuration changed")

/-- `authority`. -/
def authority (env : Env) (job : Job) (place : Place) : Except Error Unit := do
  configuration env place
  ensure (env.authority job) (.permission "Schedule owner is no longer authorized")

/-- `create`, up to `add_job`. -/
def create (cal : Calendar) (fm : Formats) (env : Env) (spec : JobSpec) (c : Caller)
    (overlap : Overlap) (room : Bool) (key : JobId) (t : Time) (db : Db) :
    Except Error (Db × JobId) := do
  ensure (c.role = "admin") (.permission "Schedule management requires admin")
  ensure (spec.jobType = .agent || spec.jobType = .watch)
    (.value "Temporal schedules currently support read-only agent/watch")
  ensure (!(spec.jobType = .watch && overlap ≠ .skip))
    (.value "Use SKIP for watch; agent supports SKIP or BUFFER_ONE")
  let due ← validateJob cal spec.name spec.cron spec.payload spec.timezone "" spec.timeout
    spec.maxRuns t
  ensure (fm.prompt spec.payload).isSome (.value "Expected only a bounded prompt")
  ensure (env.admission c.owner) (.permission "Owner is outside the Temporal trial")
  authority env (newJob spec c due) env.place
  Store.addJob cal { spec with backend := .temporal } c room key t db

/-- `create`, from the saved context on. -/
def bind (env : Env) (key : JobId) (scope : String) (overlap : Overlap) (paused : Bool) (db : Db) :
    Except Error (Db × Unit) := do
  ensure (db.bindings key).isNone (.integrity "temporal_schedule_bindings.job_id")
  pure ({ db with
      jobs := db.jobs.update key (fun _ => true) fun job =>
        { job with enabled := false, context := scope }
      bindings := db.bindings.set key { place := env.place, overlap := overlap, enabled := !paused } },
    ())

/-- `editable`. -/
def editable (r : Reading) (db : Db) : Except Error Unit := do
  ensure ((db.migrations r.key).all (·.state = .temporal))
    (.permission "Use the migration CLI to manage this transition or SQLite job")
  ensure (!r.binding.retired) (.permission "Schedule has returned to SQLite")

/-- The job after a `change` that read `r`. -/
def changedJob (r : Reading) (v : Values) (due : Time) (job : Job) : Job :=
  { job with
    cron := v.cron.getD r.job.cron
    timezone := v.timezone.getD r.job.timezone
    maxRuns := v.maxRuns.getD r.job.maxRuns
    timeout := v.timeout.getD r.job.timeout
    nextRunAt := due }

/-- The binding after a `change` that read `r`. -/
def changedBinding (r : Reading) (action : Action) (v : Values) (b : Binding) : Binding :=
  { b with
    overlap := v.overlap.getD r.binding.overlap
    enabled := match action with
      | .pause | .cancel => false
      | .resume => true
      | .update => r.binding.enabled
    cancelled := action = .cancel
    revision := b.revision + 1 }

@[simp] theorem changedJob_backend {r : Reading} {v : Values} {due : Time} {job : Job} :
    (changedJob r v due job).backend = job.backend := rfl

@[simp] theorem changedJob_enabled {r : Reading} {v : Values} {due : Time} {job : Job} :
    (changedJob r v due job).enabled = job.enabled := rfl

@[simp] theorem changedJob_lastDigest {r : Reading} {v : Values} {due : Time} {job : Job} :
    (changedJob r v due job).lastDigest = job.lastDigest := rfl

@[simp] theorem changedBinding_revision {r : Reading} {action : Action} {v : Values}
    {b : Binding} : (changedBinding r action v b).revision = b.revision + 1 := rfl

/-- `change`, after `editable` accepted the row `r`: its transaction starts at `t`. -/
def change (cal : Calendar) (env : Env) (r : Reading) (c : Caller) (action : Action) (v : Values)
    (t : Time) (db : Db) : Except Error (Db × Unit) := do
  ensure (c.role = "admin") (.permission "Schedule management requires admin")
  ensure (action = .update || v = {}) (.value "Unsupported Schedule update")
  if r.binding.cancelled then
    ensure (action = .cancel) (.permission "Cancelled Schedule cannot be revived")
    pure (db, ())
  else
    let checked := if action = .resume || action = .update then
      authority env r.job r.binding.place else .ok ()
    checked
    let maximum := v.maxRuns.getD r.job.maxRuns
    let _ ← validateJob cal r.job.name (v.cron.getD r.job.cron) r.job.payload
      (v.timezone.getD r.job.timezone) "" (v.timeout.getD r.job.timeout) maximum t
    ensure (r.job.runCount ≤ maximum && !(action = .resume && maximum ≤ r.job.runCount))
      (.value "Schedule run limit already reached")
    ensure (!(r.job.jobType = .watch && v.overlap.getD r.binding.overlap ≠ .skip))
      (.value "Unsupported overlap policy")
    let (job, b) ← row r.key db
    ensure (b.revision = r.binding.revision && job.runCount = r.job.runCount)
      (.value "Schedule changed; reload before updating")
    let due ← nextTime cal (v.cron.getD r.job.cron) (v.timezone.getD r.job.timezone) t
    pure ({ db with
        jobs := db.jobs.set r.key (changedJob r v due job)
        bindings := db.bindings.set r.key (changedBinding r action v b) }, ())

/-- The last statement of `_sync`, for the row `r` it has reconciled. -/
def synced (r : Reading) (db : Db) : Db :=
  { db with
    bindings := db.bindings.update r.key (·.revision = r.binding.revision) fun b =>
      { b with
        applied := r.binding.revision
        remoteDeleted := r.binding.cancelled || r.binding.retired } }

/-! ### Occurrences -/

/-- `admit_native`. -/
def admitNative (fm : Formats) (key : JobId) (job : Job) (b : Binding) (w : WorkflowId)
    (existing : Bool) (db : Db) : Except Error (Db × Bool) :=
  if b.retired then .ok (db, false)
  else match db.migrations key with
  | none => .ok (db, true)
  | some saved =>
    if existing then .ok (db, saved.state = .temporal || saved.state = .rollingBack)
    else if saved.state ≠ .temporal ∨ b.enabled = false ∨ job.maxRuns ≤ job.runCount then
      .ok (db, false)
    else do
      let slot ← fm.slot w
      if slot < saved.barrier then pure (db, false)
      else
        ensure (db.fences.length < 100000) (.value "Occurrence fence capacity reached")
        if db.fenced key slot then pure (db, false)
        else pure ({ db with fences := db.fences ++ [⟨key, slot, .temporal⟩] }, true)

/-- The statements of `_prepare` that insert an occurrence. -/
def reserve (key : JobId) (job : Job) (w : WorkflowId) (t : Time) (db : Db) : Db :=
  { db with
    occurrences := db.occurrences ++
      [{ workflow := w, job := key, state := .reserved, deadline := t + job.timeout }]
    jobs := db.jobs.update key (fun _ => true) fun job => { job with runCount := job.runCount + 1 }
    bindings := db.bindings.update key (fun _ => job.maxRuns ≤ job.runCount + 1) fun b =>
      { b with enabled := false, revision := b.revision + 1 } }

/-- `_prepare`, up to the submission of the task: the deadline of the occurrence, or `none` for
`{'done': True}`. -/
def prepare (fm : Formats) (env : Env) (key : JobId) (w : WorkflowId) (t : Time) (db : Db) :
    Except Error (Db × Option Time) := do
  ensure (env.place.queue.length + 34 + w.suffix.length ≤ 1024) (.value "Invalid occurrence")
  let (job, b) ← row key db
  ensure (w.schedule = key) (.permission "Occurrence does not belong to Schedule")
  authority env job b.place
  ensure (env.admission job.owner) (.permission "Schedule trial admission stopped")
  let old := db.occurrences.find? (·.workflow = w)
  let (db, admitted) ← admitNative fm key job b w old.isSome db
  if admitted then
    ensure (!b.cancelled) (.permission "Schedule cancelled")
    match old with
    | some o => pure (db, some o.deadline)
    | none =>
      if b.enabled = false ∨ job.maxRuns ≤ job.runCount then pure (db, none)
      else
        ensure (db.occurrences.length < 10000) (.value "Schedule occurrence capacity reached")
        pure (reserve key job w t db, some (t + job.timeout))
  else pure (db, none)

/-- The occurrence with its submission, if it waits for one. -/
def started (w : WorkflowId) (id : Token) (o : Occurrence) : Occurrence :=
  if o.workflow = w ∧ o.state = .reserved then { o with submission := some id, state := .running }
  else o

/-- The last statement of `_prepare`. -/
def prepared (w : WorkflowId) (id : Token) (db : Db) : Db :=
  { db with occurrences := db.occurrences.map (started w id) }

/-- The states in which the task of an occurrence has ended. -/
def ended : Temporal.SubmissionState → Option Outcome
  | .completed => some .completed
  | .failed => some .failed
  | .cancelled => some .cancelled
  | .uncertain => some .uncertain
  | .erasing => some .erasing
  | _ => none

/-- The reply of a task. -/
def replyText : Option Temporal.Outcome → String
  | some (.reply text _) => cut 65536 text
  | _ => ""

/-- The observation of an occurrence, and its error. -/
def observe (fm : Formats) (job : Job) (state : Outcome) (text : String) :
    Outcome × String × String :=
  if job.jobType = .watch ∧ state = .completed then
    match fm.observation text with
    | some ("waiting", summary) => (.waiting, summary, "")
    | some ("completed", summary) => (.completed, summary, "")
    | some ("needs_input", summary) => (.needsInput, summary, "")
    | _ => (.needsInput, text, "Invalid watch observation")
  else (state, text, "")

/-- `_poll`, where `found` is the submission that `Store.get` and `Store.cancel` look up: the call
of `finish`, if it makes one. -/
def poll (fm : Formats) (env : Env) (key : JobId) (w : WorkflowId)
    (found : Except Error Temporal.Submission) (db : Db) : Except Error (Option Result) := do
  let (job, b) ← row key db
  ensure (db.occurrences.any fun o => o.workflow = w && o.job = key) (.missing "Unknown occurrence")
  if b.cancelled then pure none
  else
    let submission ← found
    if env.authority job = false ∨ b.place ≠ env.place then
      pure (some ⟨key, w, .needsInput, "", "Owner/workspace is no longer authorized"⟩)
    else match ended submission.state with
    | none => pure none
    | some state =>
      let seen := observe fm job state (replyText submission.result)
      pure (some ⟨key, w, seen.1, seen.2.1, seen.2.2⟩)

/-- `_stop`: the call of `finish`, if it makes one. -/
def stop (key : JobId) (w : WorkflowId) (db : Db) : Except Error (Option Result) := do
  let _ ← row key db
  if db.occurrences.any fun o => o.workflow = w && o.job = key && o.state.active then
    pure (some ⟨key, w, .cancelled, "", "Occurrence stopped; inspect before rescheduling"⟩)
  else pure none

/-- The state and the error that count: a watch that waits at its limit needs input. -/
def counted (job : Job) (r : Result) : Outcome × String :=
  if job.jobType = .watch ∧ r.state = .waiting ∧ job.maxRuns ≤ job.runCount then
    (.needsInput, "Watch run limit reached without completion")
  else (r.state, r.error)

/-- `evidence`. -/
def evidence (error text : String) : String := cut 65536 (strip (error ++ "\n" ++ text))

/-- `fingerprint`: a migrated job retains the digest of the SQLite engine. -/
def fingerprint (migrated : Bool) (state : Outcome) (error text : String) : Digest :=
  if migrated then .lines state (text ++ if state.faulty then "\n" ++ cut 1000 error else "")
  else .pair state (evidence error text)

/-- `stop`: the schedule is paused. -/
def stops (job : Job) (state : Outcome) : Bool :=
  !(state = .completed || state = .waiting) || (job.jobType = .watch && state = .completed)
    || job.maxRuns ≤ job.runCount

/-- The occurrence with its end, if it has none. -/
def closed (w : WorkflowId) (state : Outcome) (o : Occurrence) : Occurrence :=
  if o.workflow = w ∧ o.state.active then { o with state := .ended state } else o

/-- The owner is told of a meaningful change. -/
def report (u : Token) (key : JobId) (job : Job) (state : Outcome) (digest : Digest)
    (text : String) (db : Db) : Except Error Db :=
  if Store.meaningful job digest (state = .waiting) then Store.notify u key job state text db
  else .ok db

/-- The rows of the job after an occurrence that ended with `state`. -/
def consumed (key : JobId) (job : Job) (state : Outcome) (digest : Digest) (text : String)
    (db : Db) : Db :=
  { db with
    migrations := db.migrations.update key (fun _ => stops job state) fun saved =>
      { saved with restoreEnabled := false }
    jobs := db.jobs.update key (fun _ => true) fun job =>
      { job with lastDigest := some digest, history := Store.remember job.history state text }
    bindings := db.bindings.update key (fun _ => true) fun b =>
      { b with enabled := b.enabled && !stops job state, revision := b.revision + 1 } }

/-- `finish`. -/
def finish (u : Token) (r : Result) (db : Db) : Except Error (Db × Unit) := do
  let (job, b) ← row r.key db
  if db.occurrences.any fun o => o.workflow = r.workflow && o.state.active then
    if b.cancelled then
      pure ({ db with occurrences := db.occurrences.map (closed r.workflow r.state) }, ())
    else
      let state := (counted job r).1
      let error := (counted job r).2
      let digest := fingerprint (db.migrations r.key).isSome state error r.text
      let told ← report u r.key job state digest (evidence error r.text)
        { db with occurrences := db.occurrences.map (closed r.workflow state) }
      pure (consumed r.key job state digest r.text told, ())
  else pure (db, ())

end Native

end Scheduling

end PythonAI
