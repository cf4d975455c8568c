import PythonAI.Scheduling.Native

/-!
# `Migration`: moving a job between the two engines

An operator stages a SQLite job, cuts it over to Temporal and may roll it back.  `stage`,
`cutover` and `rollback` write an intent; `apply` performs it, and it may be restarted: it reads
the state of the migration and then, in transactions of their own, performs the steps that follow.
The remote calls between these transactions write nothing here.
-/

namespace PythonAI

open Library

namespace Scheduling

namespace Migration

/-- `authorize`. -/
def authorize (env : Env) (c : Caller) (job : Job) : Except Error Unit := do
  ensure (c.role = "admin" && job.owner = c.owner)
    (.permission "Schedule is not in this admin owner scope")
  ensure (env.authorize job) (.permission "Invalid schedule authority")

/-- `admission`. -/
def admission (env : Env) (job : Job) : Except Error Unit :=
  ensure (env.admission job.owner) (.permission "Owner is outside the Temporal trial")

/-- `supported`, at time `t`. -/
def supported (cal : Calendar) (fm : Formats) (job : Job) (t : Time) : Except Error Unit := do
  let _ ← validateJob cal job.name job.cron job.payload job.timezone job.description job.timeout
    job.maxRuns t
  ensure ((job.jobType = .agent || job.jobType = .watch) && (fm.prompt job.payload).isSome)
    (.value "Only the TP19 read-only agent/watch prompt contract can migrate")
  ensure (job.retryCount = 0) (.value "Drain the legacy retry before migration")
  ensure (job.runCount < job.maxRuns) (.value "Schedule run limit is exhausted")

/-- A run of the job is `running` or `uncertain`. -/
def unsettled (key : JobId) (r : Run) : Bool :=
  r.job = key && (r.status = .running || r.status = .ended .uncertain)

/-- `idle_legacy`, at time `t`. -/
def idleLegacy (key : JobId) (t : Time) (db : Db) : Except Error Unit := do
  ensure (!db.locks.selects key (t < ·.expires))
    (.runtime "Legacy lease is active; drain it before migration")
  ensure (!db.runs.any (unsettled key))
    (.runtime "Legacy run is active or uncertain; inspect before migration")

/-- `row`, for an operator. -/
def operatorRow (env : Env) (c : Caller) (key : JobId) (db : Db) : Except Error Job := do
  let job ← require (db.jobs key) (.missing "Schedule not found")
  authorize env c job
  pure job

/-- `row`, for `apply`. -/
def row (env : Env) (key : JobId) (db : Db) : Except Error (Job × Binding) := do
  let _ ← require (db.jobs key) (.missing "Schedule not found")
  let (job, b) ← Native.row key db
  Native.authority env job b.place
  pure (job, b)

/-- The binding of a staged job. -/
def stagedBinding (env : Env) (barrier : Time) : Option Binding → Binding
  | none => { place := env.place, enabled := false, startAt := some barrier }
  | some b =>
    { b with
      cancelled := false
      retired := false
      enabled := false
      startAt := some barrier
      revision := b.revision + 1 }

@[simp] theorem stagedBinding_enabled {env : Env} {barrier : Time} {old : Option Binding} :
    (stagedBinding env barrier old).enabled = false := by cases old <;> rfl

@[simp] theorem stagedBinding_revision {env : Env} {barrier : Time} {b : Binding} :
    (stagedBinding env barrier (some b)).revision = b.revision + 1 := rfl

/-- The migration of a staged job. -/
def stagedRow (job source : Job) (barrier : Time) (old : Option MigrationRow) : MigrationRow :=
  { state := .staged
    snapshot := job
    sourceDigest := source
    barrier := barrier
    generation := (old.map (·.generation + 1)).getD 1
    restoreEnabled := job.enabled }

@[simp] theorem stagedRow_state {job source : Job} {barrier : Time} {old : Option MigrationRow} :
    (stagedRow job source barrier old).state = .staged := rfl

@[simp] theorem stagedRow_barrier {job source : Job} {barrier : Time}
    {old : Option MigrationRow} : (stagedRow job source barrier old).barrier = barrier := rfl

@[simp] theorem stagedRow_restoreEnabled {job source : Job} {barrier : Time}
    {old : Option MigrationRow} :
    (stagedRow job source barrier old).restoreEnabled = job.enabled := rfl

/-- `stage`, at time `t`: `source` is what the digest of the preview was taken of. -/
def stage (cal : Calendar) (fm : Formats) (env : Env) (c : Caller) (key : JobId) (source : Job)
    (t : Time) (db : Db) : Except Error (Db × Unit) := do
  let job ← operatorRow env c key db
  supported cal fm job t
  admission env job
  ensure (job.backend = .sqlite && job = source)
    (.value "Legacy schedule changed; preview again")
  idleLegacy key t db
  let old := db.migrations key
  if old.any (fun saved => saved.state = .staged && saved.sourceDigest = source) then pure (db, ())
  else
    ensure (old.all fun saved => saved.state = .sqlite || saved.state = .staged)
      (.value "Migration is already active")
    let configured : Except Error Unit := if old.isSome then do
        let (_, b) ← Native.row key db
        Native.configuration env b.place
      else .ok ()
    configured
    pure ({ db with
        bindings := db.bindings.set key (stagedBinding env (t + 120) (db.bindings key))
        migrations := db.migrations.set key (stagedRow job source (t + 120) old) }, ())

/-- A job that no engine executes. -/
def fencedJob (job : Job) : Job := { job with backend := .transition, enabled := false }

@[simp] theorem fencedJob_backend {job : Job} : (fencedJob job).backend = .transition := rfl

@[simp] theorem fencedJob_enabled {job : Job} : (fencedJob job).enabled = false := rfl

@[simp] theorem fencedJob_lastDigest {job : Job} :
    (fencedJob job).lastDigest = job.lastDigest := rfl

/-- `cutover`, at time `t`. -/
def cutover (cal : Calendar) (fm : Formats) (env : Env) (c : Caller) (key : JobId) (t : Time)
    (db : Db) : Except Error (Db × Unit) := do
  let job ← operatorRow env c key db
  let saved ← require (db.migrations key) (.value "Stage the migration first")
  if saved.state = .cuttingOver ∨ saved.state = .activating ∨ saved.state = .temporal then
    pure (db, ())
  else
    ensure (saved.state = .staged && job = saved.sourceDigest)
      (.value "Legacy job changed; restage before cutover")
    idleLegacy key t db
    supported cal fm job t
    admission env job
    let barrier := max (t + 60) job.nextRunAt
    pure ({ db with
        jobs := db.jobs.set key (fencedJob job)
        migrations := db.migrations.set key
          { saved with state := .cuttingOver, barrier := barrier, fenceAt := some t }
        bindings := db.bindings.update key (fun _ => true) fun b =>
          { b with enabled := false, startAt := some barrier, revision := b.revision + 1 } }, ())

/-- A native schedule that is paused is not enabled again. -/
def pausedNative (key : JobId) (saved : MigrationRow) (db : Db) : Except Error Bool :=
  if saved.state = .temporal then do
    let (_, b) ← Native.row key db
    pure !b.enabled
  else .ok false

/-- `rollback`. -/
def rollback (env : Env) (c : Caller) (key : JobId) (db : Db) : Except Error (Db × Unit) := do
  let job ← operatorRow env c key db
  let saved ← require (db.migrations key) (.value "No migration exists")
  if saved.state = .rollingBack ∨ saved.state = .sqlite then pure (db, ())
  else
    let paused ← pausedNative key saved db
    pure ({ db with
        jobs := db.jobs.set key (fencedJob job)
        migrations := db.migrations.set key
          { saved with state := .rollingBack, restoreEnabled := saved.restoreEnabled && !paused }
        bindings := db.bindings.update key (fun _ => true) fun b =>
          { b with enabled := false, revision := b.revision + 1 } }, ())

/-! ### The transactions of `apply` -/

/-- What `apply` reads first. -/
def read (env : Env) (key : JobId) (db : Db) : Except Error MigrationRow := do
  let _ ← row env key db
  require (db.migrations key) (.value "No migration exists")

/-- `activating`: the schedule is enabled at the service, from a new barrier on. -/
def activating (env : Env) (key : JobId) (t : Time) (db : Db) : Except Error (Db × Unit) := do
  let (job, b) ← row env key db
  let latest ← require (db.migrations key) (.type "'NoneType' object is not subscriptable")
  ensure (latest.state = .activating) (.runtime "Migration state changed")
  let enabled := latest.restoreEnabled && job.runCount < job.maxRuns
  let admitted := if enabled then admission env job else .ok ()
  admitted
  let barrier := max latest.barrier (t + 60)
  pure ({ db with
      migrations := db.migrations.set key { latest with barrier := barrier }
      bindings := db.bindings.set key { b with
        startAt := some barrier
        enabled := enabled
        revision := b.revision + 1 } }, ())

/-- `temporal`: the service has the current definition. -/
def temporal (env : Env) (key : JobId) (db : Db) : Except Error (Db × Unit) := do
  let (_, b) ← row env key db
  let latest ← require (db.migrations key) (.type "'NoneType' object is not subscriptable")
  ensure (latest.state = .activating && b.applied = b.revision)
    (.runtime "Activation has not been reconciled")
  pure ({ db with migrations := db.migrations.set key { latest with state := .temporal } }, ())

/-- `cutting_over`: the job is handed to Temporal. -/
def cuttingOver (env : Env) (key : JobId) (saved : MigrationRow) (db : Db) :
    Except Error (Db × Unit) := do
  let (job, b) ← row env key db
  admission env job
  let latest ← require (db.migrations key) (.type "'NoneType' object is not subscriptable")
  ensure (latest.state = .cuttingOver && latest.generation = saved.generation)
    (.runtime "Migration state changed")
  Native.configuration env b.place
  pure ({ db with
      jobs := db.jobs.set key { job with backend := .temporal, enabled := false }
      migrations := db.migrations.set key { latest with state := .activating }
      bindings := db.bindings.set key { b with
        enabled := latest.restoreEnabled && job.runCount < job.maxRuns
        revision := b.revision + 1 } }, ())

/-- `drain`, as far as it reads this database: no occurrence is active or uncertain. -/
def drain (key : JobId) (db : Db) : Except Error Unit := do
  let _ ← Native.row key db
  ensure (!db.occurrences.any fun o => o.job = key && (o.state.active || o.state = .ended .uncertain))
    (.runtime "Temporal occurrence is active or uncertain; drain before rollback")

/-- `rolling_back`: the schedule is to be deleted at the service. -/
def retire (key : JobId) (db : Db) : Except Error (Db × Unit) := do
  let latest ← require (db.migrations key) (.type "'NoneType' object is not subscriptable")
  ensure (latest.state = .rollingBack) (.runtime "Migration state changed")
  pure ({ db with
      bindings := db.bindings.update key (fun _ => true) fun b =>
        { b with retired := true, revision := b.revision + 1 } }, ())

/-- The latest instant that either engine reserved for the job. -/
def lastSlot (key : JobId) (db : Db) : Option Time :=
  ((db.fences.filter (·.job = key)).map (·.slot)).max?

/-- The job as it returns to the SQLite engine, next due at `due`. -/
def restoredJob (job original : Job) (restore : Bool) (due : Time) : Job :=
  { job with
    backend := .sqlite
    enabled := restore && job.runCount < original.maxRuns
    nextRunAt := due
    cron := original.cron
    timezone := original.timezone
    timeout := original.timeout
    maxRuns := original.maxRuns }

@[simp] theorem restoredJob_backend {job original : Job} {restore : Bool} {due : Time} :
    (restoredJob job original restore due).backend = .sqlite := rfl

@[simp] theorem restoredJob_nextRunAt {job original : Job} {restore : Bool} {due : Time} :
    (restoredJob job original restore due).nextRunAt = due := rfl

/-- `sqlite`: the service has deleted the schedule. -/
def sqlite (zs : Zones) (env : Env) (key : JobId) (t : Time) (db : Db) :
    Except Error (Db × Unit) := do
  let latest ← require (db.migrations key) (.type "'NoneType' object is not subscriptable")
  ensure (latest.state = .rollingBack) (.runtime "Migration state changed")
  let (_, b) ← Native.row key db
  ensure (b.remoteDeleted && b.applied = b.revision)
    (.runtime "Schedule deletion has not been reconciled")
  let (job, _) ← row env key db
  let after := max t ((lastSlot key db).getD t)
  let found ← times zs latest.snapshot.cron latest.snapshot.timezone after 1
  let due ← require found.head? (.value "list index out of range")
  pure ({ db with
      jobs := db.jobs.set key (restoredJob job latest.snapshot latest.restoreEnabled due)
      migrations := db.migrations.set key
        { latest with state := .sqlite, nextRun := some due } }, ())

end Migration

end Scheduling

end PythonAI
