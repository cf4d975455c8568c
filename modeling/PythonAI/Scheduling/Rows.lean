import PythonAI.Scheduling.Transitions

/-!
# The rows of one job

Every transaction writes the rows of one job only.  `Db.rows` collects the rows of the job `k` from
all tables, and `Move` lists what a transaction can do to them, with what it has found.
`Host.move` is the inversion: a transaction moves the rows of its own job and leaves those of every
other job alone.  The properties of both engines are proved over `Move`.
-/

namespace PythonAI

open Library

namespace Scheduling

/-- The rows of one job. -/
@[ext]
structure Rows where
  /-- `scheduled_jobs` -/
  job : Option Job
  /-- `temporal_schedule_bindings` -/
  binding : Option Binding
  /-- `temporal_schedule_migrations` -/
  migration : Option MigrationRow
  /-- `scheduled_job_locks` -/
  lock : Option Lock
  /-- `scheduled_job_runs` -/
  runs : List Run
  /-- `schedule_occurrence_fences` -/
  fences : List SlotFence
  /-- `temporal_schedule_occurrences` -/
  occurrences : List Occurrence
  /-- `schedule_notifications` -/
  notes : List Notification
  /-- the occurrences admitted so far -/
  admitted : List Execution

/-- The rows of the job `k`; `admitted` are the occurrences of all jobs. -/
def Db.rows (db : Db) (k : JobId) (admitted : List Execution) : Rows where
  job := db.jobs k
  binding := db.bindings k
  migration := db.migrations k
  lock := db.locks k
  runs := db.runsOf k
  fences := db.fences.filter (·.job = k)
  occurrences := db.occurrences.filter (·.job = k)
  notes := db.notifications.filter (·.job = k)
  admitted := admitted.filter (·.job = k)

/-- The rows of the job `k`. -/
def Host.rows (h : Host) (k : JobId) : Rows := h.db.rows k h.admitted

namespace Rows

/-- An instant of the job is reserved. -/
def fenced (x : Rows) (slot : Time) : Bool := x.fences.any (·.slot = slot)

/-- A run of the job is unfinished. -/
def running (x : Rows) : Bool := x.runs.any (·.status = .running)

/-- A run of the job is `running` or `uncertain`. -/
def unsettled (x : Rows) : Bool :=
  x.runs.any fun r => r.status = .running || r.status = .ended .uncertain

/-- No row refers to the job. -/
structure Bare (x : Rows) : Prop where
  /-- no binding -/
  binding : x.binding = none
  /-- no migration -/
  migration : x.migration = none
  /-- no lock -/
  lock : x.lock = none
  /-- no occurrence was admitted -/
  admitted : x.admitted = []

end Rows

/-- The job is as `add_job` inserts it. -/
structure Job.Fresh (job : Job) : Prop where
  runCount : job.runCount = 0
  lastDigest : job.lastDigest = none
  /-- the SQLite engine runs it, or none does -/
  enabled : job.enabled = true → job.backend = .sqlite

/-- What the transaction `a` from `t` to `t'` can do to the rows `x` of the job `k`. -/
inductive Move (fm : Formats) (a : Act) (k : JobId) (t t' : Time) (x : Rows) : Rows → Prop
  | same : Move fm a k t t' x x
  | added (job : Job) (hnone : x.job = none) (hfresh : job.Fresh) :
      Move fm a k t t' x { x with job := some job }
  | disabled (job : Job) (hjob : x.job = some job) : Move fm a k t t' x { x with
      job := some { job with enabled := false }
      migration := x.migration.map fun saved => { saved with restoreEnabled := false }
      binding := x.binding.map fun b => { b with enabled := false, revision := b.revision + 1 } }
  | renewed (l : Lock) (expires : Time) (hlock : x.lock = some l) :
      Move fm a k t t' x { x with lock := some { l with expires := expires } }
  | quarantined (job : Job) (u : Token) (text : String) (hjob : x.job = some job)
      (hrun : x.running = true) : Move fm a k t t' x { x with
      job := some { job with enabled := false }
      runs := x.runs.map (Store.lost k)
      notes := x.notes ++ [⟨u, k, job.owner, .needsInput, text⟩]
      lock := none }
  /-- the due slot is reserved already -/
  | repeated (job : Job) (hjob : x.job = some job) (hmig : x.migration ≠ none) :
      Move fm a k t t' x { x with
        job := some { job with enabled := false }
        runs := x.runs.map (Store.lost k) }
  /-- the other engine executes the job -/
  | elsewhere : Move fm a k t t' x { x with runs := x.runs.map (Store.lost k) }
  | started (job : Job) (l : Lock) (run : Token) (fences : List SlotFence)
      (hjob : x.job = some job) (hon : job.enabled = true) (hsql : job.backend = .sqlite)
      (hdue : job.nextRunAt ≤ t')
      (hfences : x.migration = none ∧ fences = x.fences ∨
        ∃ saved, x.migration = some saved ∧ (saved.state = .sqlite ∨ saved.state = .staged) ∧
          x.fenced job.nextRunAt = false ∧ fences = x.fences ++ [⟨k, job.nextRunAt, .sqlite⟩]) :
      Move fm a k t t' x { x with
        job := some { job with
          retryCount := if x.running then job.retryCount + 1 else job.retryCount }
        runs := x.runs.map (Store.lost k) ++ [⟨run, k, .running, "", ""⟩]
        lock := some l
        fences := fences
        admitted := x.admitted ++ [⟨k, .sqlite, some job.nextRunAt⟩] }
  | completed (job : Job) (l : Lock) (run : Token) (state : Outcome) (text error : String)
      (due : Time) (extra : List Notification) (hact : ∃ c, a = .call c) (hlock : x.lock = some l)
      (hjob : x.job = some job) (hstate : state ≠ .erasing) (hdue : t < due)
      (hextra : ∀ n ∈ extra, n.job = k) : Move fm a k t t' x { x with
      job := some (Store.advance job (Store.verdict job state error) text due)
      runs := x.runs.map (Store.finished run (Store.verdict job state error) text)
      lock := none
      notes := x.notes ++ extra }
  | bound (job : Job) (b : Binding) (scope : String) (hjob : x.job = some job)
      (hback : job.backend = .temporal) (hmig : x.migration = none) (hnone : x.binding = none) :
      Move fm a k t t' x { x with
        job := some { job with enabled := false, context := scope }
        binding := some b }
  | changed (job : Job) (b : Binding) (r : Reading) (action : Action) (v : Values) (due : Time)
      (hjob : x.job = some job) (hb : x.binding = some b) (hcan : b.cancelled = false)
      (hen : r.binding.enabled = b.enabled)
      (hmig : ∀ saved, x.migration = some saved → saved.state = .temporal) :
      Move fm a k t t' x { x with
        job := some (Native.changedJob r v due job)
        binding := some (Native.changedBinding r action v b) }
  | synced (b : Binding) (applied : ℕ) (removed : Bool) (hb : x.binding = some b) :
      Move fm a k t t' x { x with
        binding := some { b with applied := applied, remoteDeleted := removed } }
  | reserved (job : Job) (b : Binding) (w : WorkflowId) (deadline : Time) (fences : List SlotFence)
      (hjob : x.job = some job) (hb : x.binding = some b) (hcan : b.cancelled = false)
      (hon : b.enabled = true) (hlt : job.runCount < job.maxRuns) (hw : w.schedule = k)
      (hnew : ∀ o ∈ x.occurrences, o.workflow ≠ w)
      (hfences : x.migration = none ∧ fences = x.fences ∨
        ∃ saved slot, x.migration = some saved ∧ saved.state = .temporal ∧
          fm.slot w = .ok slot ∧ saved.barrier ≤ slot ∧ x.fenced slot = false ∧
          fences = x.fences ++ [⟨k, slot, .temporal⟩]) :
      Move fm a k t t' x { x with
        job := some { job with runCount := job.runCount + 1 }
        binding := some (if job.maxRuns ≤ job.runCount + 1 then
          { b with enabled := false, revision := b.revision + 1 } else b)
        fences := fences
        occurrences := x.occurrences ++
          [{ workflow := w, job := k, state := .reserved, deadline := deadline }]
        admitted := x.admitted ++ [⟨k, .temporal, (fm.slot w).toOption⟩] }
  | begun (w : WorkflowId) (id : Token) (hact : a = .prepared w id) :
      Move fm a k t t' x { x with occurrences := x.occurrences.map (Native.started w id) }
  | closed (r : Result) (hact : a = .finish r) : Move fm a k t t' x { x with
      occurrences := x.occurrences.map (Native.closed r.workflow r.state) }
  | finished (job : Job) (b : Binding) (r : Result) (state : Outcome) (digest : Digest)
      (extra : List Notification) (hact : a = .finish r) (hkey : r.key = k) (hjob : x.job = some job)
      (hb : x.binding = some b) (hcan : b.cancelled = false)
      (hopen : ∃ o ∈ x.occurrences, o.workflow = r.workflow ∧ o.state.active = true)
      (hstate : state = (Native.counted job r).1) (hdigest : digest.state = state)
      (hextra : extra = [] ∨ ∃ u out, extra = [⟨u, k, job.owner, state, out⟩]) :
      Move fm a k t t' x { x with
        job := some { job with
          lastDigest := some digest, history := Store.remember job.history state r.text }
        binding := some
          { b with enabled := b.enabled && !Native.stops job state, revision := b.revision + 1 }
        migration := x.migration.map fun saved =>
          if Native.stops job state then { saved with restoreEnabled := false } else saved
        occurrences := x.occurrences.map (Native.closed r.workflow state)
        notes := x.notes ++ extra }
  | staged (job source : Job) (env : Env) (c : Caller) (t₁ : Time)
      (hact : a = .stage env c k source t₁) (hjob : x.job = some job)
      (hsql : job.backend = .sqlite) (hidle : x.unsettled = false) (ht : t ≤ t₁)
      (hmig : ∀ saved, x.migration = some saved → saved.state = .sqlite ∨ saved.state = .staged) :
      Move fm a k t t' x { x with
        binding := some (Migration.stagedBinding env (t₁ + 120) x.binding)
        migration := some (Migration.stagedRow job source (t₁ + 120) x.migration) }
  | cutover (job : Job) (saved : MigrationRow) (t₁ : Time) (hjob : x.job = some job)
      (hmig : x.migration = some saved) (hst : saved.state = .staged) (hidle : x.unsettled = false)
      (ht : t ≤ t₁) : Move fm a k t t' x { x with
        job := some (Migration.fencedJob job)
        migration := some { saved with
          state := .cuttingOver, barrier := max (t₁ + 60) job.nextRunAt, fenceAt := some t₁ }
        binding := x.binding.map fun b => { b with
          enabled := false
          startAt := some (max (t₁ + 60) job.nextRunAt)
          revision := b.revision + 1 } }
  | rolledBack (job : Job) (saved : MigrationRow) (paused : Bool) (hjob : x.job = some job)
      (hmig : x.migration = some saved) (hst : saved.state ≠ .rollingBack ∧ saved.state ≠ .sqlite) :
      Move fm a k t t' x { x with
        job := some (Migration.fencedJob job)
        migration := some
          { saved with state := .rollingBack, restoreEnabled := saved.restoreEnabled && !paused }
        binding := x.binding.map fun b =>
          { b with enabled := false, revision := b.revision + 1 } }
  | activating (b : Binding) (saved : MigrationRow) (enabled : Bool) (t₁ : Time)
      (hb : x.binding = some b) (hmig : x.migration = some saved) (hst : saved.state = .activating) :
      Move fm a k t t' x { x with
        migration := some { saved with barrier := max saved.barrier (t₁ + 60) }
        binding := some { b with
          startAt := some (max saved.barrier (t₁ + 60))
          enabled := enabled
          revision := b.revision + 1 } }
  | temporal (saved : MigrationRow) (hmig : x.migration = some saved)
      (hst : saved.state = .activating) :
      Move fm a k t t' x { x with migration := some { saved with state := .temporal } }
  | cuttingOver (job : Job) (b : Binding) (saved : MigrationRow) (enabled : Bool)
      (hjob : x.job = some job) (hb : x.binding = some b) (hmig : x.migration = some saved)
      (hst : saved.state = .cuttingOver) : Move fm a k t t' x { x with
        job := some { job with backend := .temporal, enabled := false }
        migration := some { saved with state := .activating }
        binding := some { b with enabled := enabled, revision := b.revision + 1 } }
  | retired (saved : MigrationRow) (hmig : x.migration = some saved)
      (hst : saved.state = .rollingBack) : Move fm a k t t' x { x with
        binding := x.binding.map fun b =>
          { b with retired := true, revision := b.revision + 1 } }
  | sqlite (job : Job) (saved : MigrationRow) (env : Env) (t₁ due : Time)
      (hact : a = .sqlite env k t₁) (hjob : x.job = some job)
      (hmig : x.migration = some saved) (hst : saved.state = .rollingBack) (hdue : t < due)
      (hlast : ∀ f ∈ x.fences, f.slot < due) : Move fm a k t t' x { x with
        job := some (Migration.restoredJob job saved.snapshot saved.restoreEnabled due)
        migration := some { saved with state := .sqlite, nextRun := some due } }

section

variable {db : Db} {k : JobId} {adm : List Execution}

theorem Db.rows_fenced {slot : Time} : (db.rows k adm).fenced slot = db.fenced k slot := by
  simp [Rows.fenced, Db.rows, Db.fenced, List.any_filter]

theorem Db.rows_running : (db.rows k adm).running = db.running k := by
  simp [Rows.running, Db.rows, Db.runsOf, Db.running, List.any_filter, Run.runningOf]

theorem Db.rows_unsettled : (db.rows k adm).unsettled = db.runs.any (Migration.unsettled k) := by
  simp only [Rows.unsettled, Db.rows, Db.runsOf, List.any_filter]
  rfl

end

end Scheduling

end PythonAI
