import PythonAI.Scheduling.Calls
import PythonAI.Scheduling.Migration
import PythonAI.Temporal.Calls

/-!
# One host: both engines, the operators and the two databases

SQLite workers, the activities of Temporal workflows, users who change their schedules and
operators who migrate them all share the scheduler database; the tasks of the native occurrences
are submitted to the task database.  `Host.lts` performs one transaction at a time under a clock
that does not go back.

Between its transactions a call remembers what it has read: `Held` lists what the calls in flight
hold.  A call may stop anywhere, and a transaction that is repeated starts from what was held.

`Host.admitted` records which engine admitted which occurrence; no operation reads it.
-/

namespace PythonAI

open Library

namespace Scheduling

/-- What a call in flight has read or written before its next transaction. -/
inductive Held
  /-- `create` has added the job -/
  | created (key : JobId)
  /-- `change` or `_sync` has read the row -/
  | read (r : Reading)
  /-- `editable` has accepted the row -/
  | editable (r : Reading)
  /-- `_prepare` has admitted the occurrence -/
  | prepared (key : JobId) (w : WorkflowId)
  /-- the task of the occurrence is submitted -/
  | submitted (w : WorkflowId) (id : Temporal.SubmissionId)
  /-- `_poll` or `_stop` calls `finish` -/
  | result (r : Result)
  /-- `apply` has read the migration -/
  | applying (key : JobId) (saved : MigrationRow)
  /-- `drain` has succeeded -/
  | drained (key : JobId)
  /-- the schedule is retired -/
  | retired (key : JobId)
  deriving DecidableEq, Repr

/-- An occurrence that an engine admitted: the SQLite engine by the start of a run, the Temporal
engine by a new row of an occurrence. -/
structure Execution where
  /-- the job -/
  job : JobId
  /-- the engine -/
  engine : Engine
  /-- the instant, if the id of the workflow gives one -/
  slot : Option Time
  deriving DecidableEq, Repr

/-- One transaction of a call. -/
inductive Act
  /-- a transaction of `SchedulerStore` -/
  | call (c : Call)
  /-- a transaction of the task database -/
  | task (o : Temporal.Op)
  | create (env : Env) (spec : JobSpec) (c : Caller) (overlap : Overlap) (room : Bool) (t : Time)
  | bind (env : Env) (key : JobId) (scope : String) (overlap : Overlap) (paused : Bool)
  | get (key : JobId) (c : Caller)
  | editable (r : Reading)
  | change (env : Env) (r : Reading) (c : Caller) (action : Action) (v : Values) (t : Time)
  | synced (r : Reading)
  | prepare (env : Env) (key : JobId) (w : WorkflowId) (t : Time)
  /-- `for_task` -/
  | forTask (key : JobId) (w : WorkflowId)
  /-- `submit`, with the id of the task of the occurrence -/
  | submit (key : JobId) (w : WorkflowId) (env : Access) (messages : List Message)
      (context : Temporal.Context) (role : String) (settings : Temporal.Settings)
      (contract : Except Error Temporal.Contract) (authorized : Except Error Unit)
      (criteria : Criteria)
  | prepared (w : WorkflowId) (id : Temporal.SubmissionId)
  | poll (env : Env) (key : JobId) (w : WorkflowId) (found : Except Error Temporal.Submission)
  | stop (key : JobId) (w : WorkflowId)
  | finish (r : Result)
  | stage (env : Env) (c : Caller) (key : JobId) (source : Job) (t : Time)
  | cutover (env : Env) (c : Caller) (key : JobId) (t : Time)
  | rollback (env : Env) (c : Caller) (key : JobId)
  | apply (env : Env) (key : JobId)
  | activating (env : Env) (key : JobId) (saved : MigrationRow) (t : Time)
  | temporal (env : Env) (key : JobId) (saved : MigrationRow)
  | cuttingOver (env : Env) (key : JobId) (saved : MigrationRow)
  | drain (key : JobId) (saved : MigrationRow)
  | retire (key : JobId)
  | sqlite (env : Env) (key : JobId) (t : Time)

/-- The databases, the clock and what the calls in flight hold. -/
structure Host where
  /-- the scheduler database, with the clock, the supply of ids and the workers -/
  sched : Sys
  /-- the task database -/
  tasks : Temporal.Sys
  /-- what the calls in flight hold -/
  held : List Held
  /-- the occurrences admitted so far -/
  admitted : List Execution

/-- The database `db'` has a row of the occurrence, and `db` has none. -/
def Db.inserts (db : Db) (w : WorkflowId) (db' : Db) : Bool :=
  !db.occurrences.any (·.workflow = w) && db'.occurrences.any (·.workflow = w)

namespace Act

/-- A transaction that only reads. -/
def holds {α : Type} (x : Except Error α) (f : α → List Held) (db : Db) :
    Except Error (Db × List Held) :=
  match x with
  | .ok y => .ok (db, f y)
  | .error e => .error e

/-- A transaction that writes. -/
def writes {α : Type} (x : Except Error (Db × α)) (f : α → List Held) :
    Except Error (Db × List Held) :=
  match x with
  | .ok (db, y) => .ok (db, f y)
  | .error e => .error e

/-- What a call holds after a transaction: an error ends it. -/
def kept : Except Error (Db × List Held) → List Held
  | .ok (_, new) => new
  | .error _ => []

/-- The owner of a job. -/
def ownerOf (key : JobId) (db : Db) : Owner := ((db.jobs key).map (·.owner)).getD ""

/-- The operation on the task database, if the transaction is one. -/
def taskOp (db : Db) : Act → Option Temporal.Op
  | task o => some o
  | submit key w env messages context role settings contract authorized criteria =>
    some (.submit env (ownerOf key db) (taskOf w) messages context role settings contract authorized
      criteria)
  | _ => none

/-- The transaction on the scheduler database, with the tokens from `u` on, and what its call holds
afterwards; `tasks` is the task database. -/
def attempt (zs : Zones) (fm : Formats) (u : Token) (tasks : Temporal.Sys) (db : Db) :
    Act → Except Error (Db × List Held)
  | call c => .ok (c.perform zs.toCalendar u db, [])
  | task _ => .ok (db, [])
  | create env spec c overlap room t =>
    writes (Native.create zs.toCalendar fm env spec c overlap room u t db) fun key => [.created key]
  | bind env key scope overlap paused =>
    writes (Native.bind env key scope overlap paused db) fun _ => []
  | get key c => holds (Native.get key c db) (fun r => [.read r]) db
  | editable r => holds (Native.editable r db) (fun _ => [.editable r]) db
  | change env r c action v t =>
    writes (Native.change zs.toCalendar env r c action v t db) fun _ => []
  | synced r => .ok (Native.synced r db, [])
  | prepare env key w t =>
    writes (Native.prepare fm env key w t db) fun deadline =>
      if deadline.isSome then [.prepared key w] else []
  | forTask key w =>
    .ok (db, ((tasks.db.forTask (ownerOf key db, taskOf w)).map (Held.submitted w)).toList)
  | submit key w env messages context role settings contract authorized criteria =>
    holds (Temporal.Store.submit env (ownerOf key db) (taskOf w) messages context role settings
      contract authorized criteria tasks.uuids tasks.db) (fun x => [.submitted w x.2]) db
  | prepared w id => .ok (Native.prepared w id db, [])
  | poll env key w found =>
    holds (Native.poll fm env key w found db) (fun r => (r.map Held.result).toList) db
  | stop key w => holds (Native.stop key w db) (fun r => (r.map Held.result).toList) db
  | finish r => writes (Native.finish u r db) fun _ => []
  | stage env c key source t =>
    writes (Migration.stage zs.toCalendar fm env c key source t db) fun _ => []
  | cutover env c key t => writes (Migration.cutover zs.toCalendar fm env c key t db) fun _ => []
  | rollback env c key => writes (Migration.rollback env c key db) fun _ => []
  | apply env key => holds (Migration.read env key db) (fun saved => [.applying key saved]) db
  | activating env key _ t => writes (Migration.activating env key t db) fun _ => []
  | temporal env key _ => writes (Migration.temporal env key db) fun _ => []
  | cuttingOver env key saved => writes (Migration.cuttingOver env key saved db) fun _ => []
  | drain key _ => holds (Migration.drain key db) (fun _ => [.drained key]) db
  | retire key => writes (Migration.retire key db) fun _ => [.retired key]
  | sqlite env key t => writes (Migration.sqlite zs env key t db) fun _ => []

/-- The scheduler database after the transaction. -/
def perform (zs : Zones) (fm : Formats) (u : Token) (tasks : Temporal.Sys) (db : Db) (a : Act) :
    Db :=
  settle db (a.attempt zs fm u tasks db)

/-- What the call holds in addition after the transaction. -/
def yields (zs : Zones) (fm : Formats) (u : Token) (tasks : Temporal.Sys) (db : Db) (a : Act) :
    List Held :=
  kept (a.attempt zs fm u tasks db)

/-- The workers that the transaction adds. -/
def granted (u : Token) (db : Db) : Act → List Worker
  | call c => c.granted u db
  | _ => []

/-- The occurrence that the transaction admits. -/
def admits (zs : Zones) (fm : Formats) (u : Token) (tasks : Temporal.Sys) (db : Db) (a : Act) :
    List Execution :=
  match a with
  | call (.claimDue key seen t₁ t₂ t₃) =>
    if ((Call.claimDue key seen t₁ t₂ t₃).granted u db).isEmpty then []
    else [⟨key, .sqlite, some seen⟩]
  | prepare _ key w _ =>
    if db.inserts w (a.perform zs fm u tasks db) then
      [⟨key, .temporal, (fm.slot w).toOption⟩]
    else []
  | _ => []

/-- The call holds what the transaction starts from. -/
def permitted (workers : List Worker) (held : List Held) : Act → Prop
  | call c => c.permitted workers ∧ c.reports
  | bind _ key _ _ _ => .created key ∈ held
  | editable r | synced r => .read r ∈ held
  | change _ r _ _ _ _ => .editable r ∈ held
  | forTask key w | submit key w _ _ _ _ _ _ _ _ => .prepared key w ∈ held
  | prepared w id => .submitted w id ∈ held
  | finish r => .result r ∈ held
  | activating _ key saved _ | temporal _ key saved =>
    .applying key saved ∈ held ∧ saved.state = .activating
  | cuttingOver _ key saved => .applying key saved ∈ held ∧ saved.state = .cuttingOver
  | drain key saved => .applying key saved ∈ held ∧ saved.state = .rollingBack
  | retire key => .drained key ∈ held
  | sqlite _ key _ => .retired key ∈ held
  | _ => True

/-- The clock values of the transaction lie between its ends. -/
def clocked (t t' : Time) : Act → Prop
  | call c => c.clocked t t'
  | create _ _ _ _ _ t₁ | change _ _ _ _ _ t₁ | prepare _ _ _ t₁ | stage _ _ _ _ t₁
  | cutover _ _ _ t₁ | activating _ _ _ t₁ | sqlite _ _ t₁ => t ≤ t₁ ∧ t₁ ≤ t'
  | _ => True

instance (ws : List Worker) (held : List Held) : (a : Act) → Decidable (a.permitted ws held)
  | call c => inferInstanceAs (Decidable (c.permitted ws ∧ c.reports))
  | bind .. | editable .. | change .. | synced .. | forTask .. | submit .. | prepared ..
  | finish .. | retire .. | sqlite .. => inferInstanceAs (Decidable (_ ∈ held))
  | activating .. | temporal .. | cuttingOver .. | drain .. =>
    inferInstanceAs (Decidable (_ ∧ _))
  | task .. | create .. | get .. | prepare .. | poll .. | stop .. | stage .. | cutover ..
  | rollback .. | apply .. => inferInstanceAs (Decidable True)

instance (t t' : Time) : (a : Act) → Decidable (a.clocked t t')
  | call c => inferInstanceAs (Decidable (c.clocked t t'))
  | create .. | change .. | prepare .. | stage .. | cutover .. | activating .. | sqlite .. =>
    inferInstanceAs (Decidable (_ ∧ _))
  | task .. | bind .. | get .. | editable .. | synced .. | forTask .. | submit .. | prepared ..
  | poll .. | stop .. | finish .. | rollback .. | apply .. | temporal .. | cuttingOver ..
  | drain .. | retire .. => inferInstanceAs (Decidable True)

end Act

namespace Host

/-- The scheduler database of the host. -/
abbrev db (h : Host) : Db := h.sched.db

/-- The state after the transaction `a`, which ends at `t`. -/
def after (zs : Zones) (fm : Formats) (h : Host) (a : Act) (t : Time) : Host where
  sched := ⟨a.perform zs fm h.sched.uuids h.tasks h.db, t, h.sched.uuids + 3,
    h.sched.workers ++ a.granted h.sched.uuids h.db⟩
  tasks := ((a.taskOp h.db).map h.tasks.after).getD h.tasks
  held := h.held ++ a.yields zs fm h.sched.uuids h.tasks h.db
  admitted := h.admitted ++ a.admits zs fm h.sched.uuids h.tasks h.db

/-- One transaction at a time. -/
def lts (zs : Zones) (fm : Formats) : Lts Host Act where
  step h a h' := ∃ t, h.sched.now ≤ t ∧ a.clocked h.sched.now t ∧
    a.permitted h.sched.workers h.held ∧ h' = h.after zs fm a t

/-- New databases, and no call in flight. -/
structure Initial (h : Host) : Prop where
  /-- the scheduler database -/
  db : h.db = .empty
  /-- no worker -/
  workers : h.sched.workers = []
  /-- the task database -/
  tasks : h.tasks.Initial
  /-- no call in flight -/
  held : h.held = []
  /-- no occurrence -/
  admitted : h.admitted = []

/-! ### Scripts -/

/-- The state after the script `fs`, which chooses each transaction and its end in the state that
it starts from. -/
def script (zs : Zones) (fm : Formats) (h : Host) : List (Host → Act × Time) → Host
  | [] => h
  | f :: fs => (h.after zs fm (f h).1 (f h).2).script zs fm fs

/-- The transactions of the script. -/
def acts (zs : Zones) (fm : Formats) (h : Host) : List (Host → Act × Time) → List Act
  | [] => []
  | f :: fs => (f h).1 :: (h.after zs fm (f h).1 (f h).2).acts zs fm fs

/-- Each transaction of the script may be performed. -/
def fits (zs : Zones) (fm : Formats) (h : Host) : List (Host → Act × Time) → Bool
  | [] => true
  | f :: fs => decide (h.sched.now ≤ (f h).2 ∧ (f h).1.clocked h.sched.now (f h).2 ∧
      (f h).1.permitted h.sched.workers h.held) && (h.after zs fm (f h).1 (f h).2).fits zs fm fs

/-- A script that fits is a run. -/
theorem run_script {zs : Zones} {fm : Formats} {h : Host} {fs : List (Host → Act × Time)}
    (hf : h.fits zs fm fs = true) : (lts zs fm).Run h (h.acts zs fm fs) (h.script zs fm fs) := by
  induction fs generalizing h with
  | nil => exact .nil h
  | cons f fs ih =>
    simp only [fits, Bool.and_eq_true, decide_eq_true_eq] at hf
    obtain ⟨⟨ht, hc, hp⟩, hf⟩ := hf
    exact .cons ⟨_, ht, hc, hp, rfl⟩ (ih hf)

end Host

/-! ### A host to run -/

namespace Sample

/-- The next midnight. -/
def midnight (t : Time) : Time := (t / 86400 + 1) * 86400

/-- Every cron expression is due at midnight, in a zone without offset. -/
def zs : Zones where
  valid _ := true
  next _ _ t := .ok (midnight t)
  next_gt h := by
    cases h
    rename_i t
    have h : t < 86400 * (t / 86400 + 1) := Nat.lt_mul_div_succ t (by decide)
    rwa [Nat.mul_comm] at h
  zone _ := .ok ⟨fun t => t, fun w _ => w.toNat⟩
  walls _ start i := .ok ((start / 86400 + 1 + i) * 86400)

/-- The text of a scheduled time has a character for each day. -/
def fm : Formats where
  prompt text := some text
  instant text := .ok (text.length * 86400)
  observation _ := none

/-- An operator whom everything is allowed. -/
def env : Env where
  place := ⟨"localhost:7233", "default", "queue"⟩
  authority _ := true
  authorize _ := true
  admission _ := true

/-- The owner of the job. -/
def caller : Caller := ⟨"owner", "{}", "admin"⟩

/-- A daily job. -/
def daily (jobType : JobType) : JobSpec where
  name := "job"
  cron := "0 0 * * *"
  jobType := jobType
  payload := "prompt"
  timezone := "UTC"

/-- New databases. -/
def host : Host := ⟨⟨.empty, 0, 1, []⟩, ⟨.empty "host", 0⟩, [], []⟩

theorem host_initial : host.Initial := ⟨rfl, rfl, ⟨"host", rfl⟩, rfl, rfl⟩

/-- The row of the job `1`. -/
def row (h : Host) : Job := (h.db.jobs 1).getD (newJob (daily .agent) caller 0)

/-- What `_row` reads of the job `1`. -/
def reading (h : Host) : Reading :=
  ⟨1, row h, (h.db.bindings 1).getD { place := env.place, enabled := false }⟩

/-- The migration of the job `1`. -/
def saved (h : Host) : MigrationRow :=
  (h.db.migrations 1).getD (Migration.stagedRow (row h) (row h) 0 none)

/-- The SQLite job `1` is added at `t`. -/
def added (jobType : JobType) (t : Time) : List (Host → Act × Time) :=
  [fun _ => (.call (.addJob (daily jobType) caller true t), t)]

/-- The job `1` is handed to Temporal at `t`. -/
def forward (t : Time) : List (Host → Act × Time) :=
  [fun h => (.stage env caller 1 (row h) t, t),
   fun _ => (.cutover env caller 1 t, t),
   fun _ => (.apply env 1, t),
   fun h => (.cuttingOver env 1 (saved h), t),
   fun _ => (.apply env 1, t),
   fun h => (.activating env 1 (saved h) t, t),
   fun _ => (.get 1 caller, t),
   fun h => (.synced (reading h), t),
   fun h => (.temporal env 1 (saved h), t)]

/-- The job `1` returns to SQLite at `t`. -/
def back (t : Time) : List (Host → Act × Time) :=
  [fun _ => (.rollback env caller 1, t),
   fun _ => (.apply env 1, t),
   fun h => (.drain 1 (saved h), t),
   fun _ => (.retire 1, t),
   fun _ => (.get 1 caller, t),
   fun h => (.synced (reading h), t),
   fun _ => (.sqlite env 1 t, t)]

/-- The owner changes the job `1` at `t`. -/
def changed (action : Action) (t : Time) : List (Host → Act × Time) :=
  [fun _ => (.get 1 caller, t),
   fun h => (.editable (reading h), t),
   fun h => (.change env (reading h) caller action {} t, t)]

end Sample

end Scheduling

end PythonAI
