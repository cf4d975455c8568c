import PythonAI.Library.Lts
import PythonAI.Scheduling.Steps

/-!
# The scheduler under any sequence of calls

Any number of workers look for due jobs, claim them, renew their locks and complete their runs, in
any order; a worker that crashes calls nothing more.  `Sys.lts` performs one transaction at a time
under a clock that does not go back.

`Effect` is what a call does to one job, and `Sys.Inv` relates the workers to the runs they
started: the lock of a job belongs to the worker of its last run, and no other run is unfinished.
-/

namespace PythonAI

open Library

namespace Scheduling

/-- A worker that has claimed a run. -/
structure Worker where
  /-- the job -/
  job : JobId
  /-- the token the worker proves its lock with -/
  token : Token
  /-- the run -/
  run : Token
  deriving DecidableEq, Repr

/-- A call of `SchedulerStore`. -/
inductive Call
  | addJob (spec : JobSpec) (c : Caller) (room : Bool) (t : Time)
  | disable (key : JobId) (owner : Owner)
  | claimDue (key : JobId) (seen t₁ t₂ t₃ : Time)
  | renew (w : Worker) (t₁ t₂ : Time)
  | alive (w : Worker) (t : Time)
  | complete (w : Worker) (state : Outcome) (output error : String) (t₁ t₂ : Time)

/-- The runs of a job, in the order they were started. -/
def Db.runsOf (db : Db) (k : JobId) : List Run := db.runs.filter (·.job = k)

namespace Call

/-- What a claim returns, with the tokens from `u` on. -/
def claimed (u : Token) (db : Db) (key : JobId) (seen t₁ t₂ t₃ : Time) :
    Except Error (Db × Option Token) :=
  Store.claimDue key seen u (u + 1) (u + 2) t₁ t₂ t₃ db

/-- The database after the call; the fresh ids are taken from `u` on. -/
def perform (cal : Calendar) (u : Token) (db : Db) : Call → Db
  | addJob spec c room t => settle db (Store.addJob cal spec c room u t db)
  | disable key owner => (Store.disable key owner db).1
  | claimDue key seen t₁ t₂ t₃ => settle db (claimed u db key seen t₁ t₂ t₃)
  | renew w t₁ t₂ => (Store.renew w.job w.token t₁ t₂ db).1
  | alive _ _ => db
  | complete w state output error t₁ t₂ =>
    settle db (Store.complete cal w.job w.token w.run u state output error t₁ t₂ db)

/-- The worker a claim makes. -/
def granted (u : Token) (db : Db) : Call → List Worker
  | claimDue key seen t₁ t₂ t₃ =>
    match claimed u db key seen t₁ t₂ t₃ with
    | .ok (_, some run) => [⟨key, u, run⟩]
    | _ => []
  | _ => []

/-- The run whose completion the call commits. -/
def commits (cal : Calendar) (u : Token) (db : Db) : Call → Option Token
  | complete w state output error t₁ t₂ =>
    match Store.complete cal w.job w.token w.run u state output error t₁ t₂ db with
    | .ok (_, true) => some w.run
    | _ => none
  | _ => none

/-- The claim finds a lost run of a watch, and starts another run in its place. -/
def restarts (db : Db) : Call → Bool
  | claimDue key seen t₁ t₂ _ => (db.jobs key).any fun row =>
      Store.due t₁ row && row.nextRunAt = seen && db.unlocked key t₂ && db.running key &&
        !row.exhausted && db.admits key row
  | _ => false

/-- A worker renews and completes only what it claimed. -/
def permitted (ws : List Worker) : Call → Prop
  | renew w _ _ | alive w _ | complete w _ _ _ _ _ => w ∈ ws
  | _ => True

/-- The state that a worker reports is one that its process can report. -/
def reports : Call → Prop
  | complete _ state _ _ _ _ => state ≠ .erasing
  | _ => True

/-- The clock values of the call fit a transaction that runs from `t` to `t'`. -/
def clocked (t t' : Time) : Call → Prop
  | addJob _ _ _ t₁ => t₁ ≤ t'
  | disable _ _ => True
  | claimDue _ _ t₁ t₂ t₃ => t ≤ t₁ ∧ t₁ ≤ t₂ ∧ t₂ ≤ t₃ ∧ t₃ ≤ t'
  | renew _ t₁ t₂ => t₁ ≤ t₂ ∧ t₂ ≤ t'
  | alive _ t₁ => t₁ ≤ t'
  | complete _ _ _ _ t₁ t₂ => t ≤ t₁ ∧ t₁ ≤ t₂ ∧ t₂ ≤ t'

instance (ws : List Worker) : (c : Call) → Decidable (c.permitted ws)
  | renew w _ _ | alive w _ | complete w _ _ _ _ _ => inferInstanceAs (Decidable (w ∈ ws))
  | addJob .. | disable .. | claimDue .. => inferInstanceAs (Decidable True)

instance : (c : Call) → Decidable c.reports
  | complete _ state _ _ _ _ => inferInstanceAs (Decidable (state ≠ .erasing))
  | addJob .. | disable .. | claimDue .. | renew .. | alive .. => inferInstanceAs (Decidable True)

instance (t t' : Time) : (c : Call) → Decidable (c.clocked t t')
  | addJob .. | alive .. => inferInstanceAs (Decidable (_ ≤ _))
  | disable .. => inferInstanceAs (Decidable True)
  | claimDue .. => inferInstanceAs (Decidable (_ ∧ _ ∧ _ ∧ _))
  | renew .. => inferInstanceAs (Decidable (_ ∧ _))
  | complete .. => inferInstanceAs (Decidable (_ ∧ _ ∧ _))

end Call

/-- The scheduler database with the clock, the supply of ids and the workers. -/
structure Sys where
  /-- the database -/
  db : Db
  /-- the clock -/
  now : Time
  /-- the next id; every id handed out so far is smaller -/
  uuids : Token
  /-- the workers that have claimed a run, crashed ones included -/
  workers : List Worker

namespace Sys

/-- No run was started yet, and the jobs are as `add_job` leaves them; the migrations, the fences
and the native schedules are arbitrary. -/
structure Initial (s : Sys) : Prop where
  /-- no run -/
  runs : s.db.runs = []
  /-- no lock -/
  locks : ∀ k, s.db.locks k = none
  /-- no worker -/
  workers : s.workers = []
  /-- the counters of every job -/
  jobs : ∀ k row, s.db.jobs k = some row → row.runCount = 0 ∧ row.retryCount = 0 ∧ 1 ≤ row.maxRuns

/-- One call, in a transaction that ends at `s'.now`. -/
def lts (cal : Calendar) : Lts Sys Call where
  step s c s' := s.now ≤ s'.now ∧ c.clocked s.now s'.now ∧ c.permitted s.workers ∧
    s'.db = c.perform cal s.uuids s.db ∧ s'.workers = s.workers ++ c.granted s.uuids s.db ∧
    s'.uuids = s.uuids + 3

variable {cal : Calendar} {s : Sys}

/-- The state after the call `c` in a transaction that ends at `t`. -/
def after (cal : Calendar) (s : Sys) (c : Call) (t : Time) : Sys :=
  ⟨c.perform cal s.uuids s.db, t, s.uuids + 3, s.workers ++ c.granted s.uuids s.db⟩

/-- The state after a list of calls, each with the end of its transaction. -/
def runs (cal : Calendar) (s : Sys) : List (Call × Time) → Sys
  | [] => s
  | (c, t) :: cs => (s.after cal c t).runs cal cs

/-- Each call of the list may be made, and its clock values fit its transaction. -/
def fits (cal : Calendar) (s : Sys) : List (Call × Time) → Bool
  | [] => true
  | (c, t) :: cs => decide (s.now ≤ t ∧ c.clocked s.now t ∧ c.permitted s.workers) &&
      (s.after cal c t).fits cal cs

theorem step_after {c : Call} {t : Time} (h : s.now ≤ t) (hc : c.clocked s.now t)
    (hp : c.permitted s.workers) : (lts cal).step s c (s.after cal c t) :=
  ⟨h, hc, hp, rfl, rfl, rfl⟩

/-- A list of calls that fits is a run. -/
theorem run_runs {cs : List (Call × Time)} {s : Sys} (h : s.fits cal cs = true) :
    (lts cal).Run s (cs.map (·.1)) (s.runs cal cs) := by
  induction cs generalizing s with
  | nil => exact .nil s
  | cons c cs ih =>
    simp only [fits, Bool.and_eq_true, decide_eq_true_eq] at h
    obtain ⟨⟨ht, hc, hp⟩, h⟩ := h
    exact .cons (step_after ht hc hp) (ih h)

end Sys

/-! ### A job to run -/

namespace Sample

/-- Every text is a cron expression that is due every minute. -/
def cal : Calendar where
  valid _ := true
  next _ _ t := .ok (t + 60)
  next_gt h := by cases h; exact Nat.lt_add_of_pos_right (by decide)

/-- A job that is due at once. -/
def job (jobType : JobType) (maxRuns : ℕ) : Job where
  name := "job"
  cron := "* * * * *"
  jobType := jobType
  payload := "{}"
  owner := "owner"
  context := "{}"
  ownerRole := "admin"
  timezone := "UTC"
  timeout := 60
  maxRuns := maxRuns
  nextRunAt := 0
  enabled := true
  backend := .sqlite

/-- The scheduler with the job `0`. -/
def start (row : Job) : Sys := ⟨{ Db.empty with jobs := Table.empty.set 0 row }, 0, 1, []⟩

theorem start_initial {row : Job} (hr : row.runCount = 0) (ht : row.retryCount = 0)
    (hm : 1 ≤ row.maxRuns) : (start row).Initial := by
  refine ⟨rfl, fun _ => rfl, rfl, fun k row' h => ?_⟩
  have h : (Table.empty.set 0 row : Table JobId Job) k = some row' := h
  rw [Table.set_apply] at h
  split_ifs at h
  · cases h; exact ⟨hr, ht, hm⟩
  · cases h

/-- A claim of the job `0` that is due at `seen`, at time `t`. -/
def claim (seen t : Time) : Call × Time := (.claimDue 0 seen t t t, t)

end Sample

/-! ### What a call does to one job -/

/-- Neither the runs, the lock nor the counters of the job change; it may be stopped or added. -/
structure Quiet (k : JobId) (db db' : Db) : Prop where
  /-- the runs -/
  runs : db'.runsOf k = db.runsOf k
  /-- the holder of the lock -/
  lock : (db'.locks k).map (·.lockedBy) = (db.locks k).map (·.lockedBy)
  /-- the row -/
  job : db'.jobs k = db.jobs k ∨
    (∃ row, db.jobs k = some row ∧ db'.jobs k = some { row with enabled := false }) ∨
    db.jobs k = none ∧ ∃ row, db'.jobs k = some row ∧ row.runCount = 0 ∧ row.retryCount = 0 ∧
      1 ≤ row.maxRuns
  /-- the state of the migration -/
  migration : (db'.migrations k).map (·.state) = (db.migrations k).map (·.state)

/-- What a call with the ids from `u` on does to the job `k`. -/
inductive Effect (cal : Calendar) (k : JobId) (u : Token) (c : Call) (db db' : Db) : Prop
  | quiet : Quiet k db db' → Effect cal k u c db db'
  | quarantined (row : Job) : db.jobs k = some row → row.enabled = true →
      db.running k = true → row.exhausted = true →
      db'.jobs k = some { row with enabled := false } →
      db'.runsOf k = (db.runsOf k).map (Store.lost k) → db'.locks k = none →
      db'.migrations k = db.migrations k → Effect cal k u c db db'
  | refused (row : Job) : db.jobs k = some row → row.enabled = true →
      (db.running k = true → row.exhausted = false) →
      db.admits k row = false →
      (db'.jobs k = some { row with enabled := false } ∨ db'.jobs k = db.jobs k ∧
        ∃ saved, db.migrations k = some saved ∧ ¬ (saved.state = .sqlite ∨ saved.state = .staged)) →
      db'.runsOf k = (db.runsOf k).map (Store.lost k) → db'.locks k = db.locks k →
      db'.migrations k = db.migrations k → Effect cal k u c db db'
  | started (row : Job) : db.jobs k = some row → row.enabled = true →
      (db.running k = true → row.exhausted = false) → db.admits k row = true →
      db'.jobs k = some { row with
        retryCount := if db.running k then row.retryCount + 1 else row.retryCount } →
      db'.runsOf k = (db.runsOf k).map (Store.lost k) ++ [⟨u + 1, k, .running, "", ""⟩] →
      (db'.locks k).map (·.lockedBy) = some u → db'.migrations k = db.migrations k →
      c.granted u db = [⟨k, u, u + 1⟩] → c.restarts db = db.running k →
      Effect cal k u c db db'
  | completed (w : Worker) (row : Job) (v : Store.Verdict) (state : Outcome) (text error : String)
      (due : Time) : w.job = k → c.commits cal u db = some w.run →
      (∀ ws, c.permitted ws → w ∈ ws) →
      (db.locks k).map (·.lockedBy) = some w.token → db.jobs k = some row →
      v = Store.verdict row state error → db'.jobs k = some (Store.advance row v text due) →
      db'.runsOf k = (db.runsOf k).map (Store.finished w.run v text) → db'.locks k = none →
      db'.migrations k = db.migrations k → Effect cal k u c db db'

namespace Quiet

theorem refl (k : JobId) (db : Db) : Quiet k db db := ⟨rfl, rfl, .inl rfl, rfl⟩

/-- A call changes only what belongs to its own job. -/
theorem of_eq {k : JobId} {db db' : Db} (hr : db'.runsOf k = db.runsOf k)
    (hl : db'.locks k = db.locks k) (hj : db'.jobs k = db.jobs k)
    (hm : db'.migrations k = db.migrations k) : Quiet k db db' :=
  ⟨hr, by rw [hl], .inl hj, by rw [hm]⟩

end Quiet

section

variable {cal : Calendar} {k key : JobId} {db db' : Db} {u : Token}

theorem Db.running_iff : db.running k = true ↔ ∃ r ∈ db.runsOf k, r.status = .running := by
  simp only [Db.running, Db.runsOf, List.any_eq_true, List.mem_filter, Run.runningOf_iff]
  constructor
  · rintro ⟨r, hr, hk, hs⟩; exact ⟨r, ⟨hr, by simpa using hk⟩, hs⟩
  · rintro ⟨r, ⟨hr, hk⟩, hs⟩; exact ⟨r, hr, by simpa using hk, hs⟩

theorem runsOf_map {f : Run → Run} {runs : List Run} (hf : ∀ r ∈ runs, (f r).job = r.job) :
    (runs.map f).filter (·.job = k) = (runs.filter (·.job = k)).map f := by
  rw [List.filter_map]
  congr 1
  refine List.filter_congr fun r hr => ?_
  simp [hf r hr]

theorem Store.lost_job (r : Run) : (lost key r).job = r.job := by
  unfold lost; split_ifs <;> rfl

theorem Store.lost_id (r : Run) : (lost key r).id = r.id := by
  unfold lost; split_ifs <;> rfl

theorem Store.finished_job {run : Token} {v : Store.Verdict} {text : String} (r : Run) :
    (finished run v text r).job = r.job := by
  unfold finished; split_ifs <;> rfl

theorem Store.finished_id {run : Token} {v : Store.Verdict} {text : String} (r : Run) :
    (finished run v text r).id = r.id := by
  unfold finished; split_ifs <;> rfl

theorem runsOf_lose : (Store.lose key db).runsOf k = (db.runsOf k).map (Store.lost key) :=
  runsOf_map fun r _ => Store.lost_job r

theorem runsOf_lose_of_ne (h : k ≠ key) : (Store.lose key db).runsOf k = db.runsOf k := by
  rw [runsOf_lose]
  refine (List.map_congr_left (g := id) fun r hr => ?_).trans (List.map_id _)
  have hk : r.job = k := by simpa [Db.runsOf] using (List.mem_filter.1 hr).2
  have hne : ¬ r.runningOf key = true := fun hrun => h (hk.symm.trans (Run.runningOf_iff.1 hrun).1)
  simp [Store.lost, hne]

/-- The job of a claim: what each case of `Claim` does to it. -/
theorem Store.Claim.effect {c : Call} {row : Job} {t : Time} {out : Option Token}
    (h : Claim k row u (u + 1) (u + 2) t db db' out) (hrow : db.jobs k = some row)
    (hen : row.enabled = true) (hg : out = some (u + 1) → c.granted u db = [⟨k, u, u + 1⟩])
    (hre : db.admits k row = true → (db.running k = true → row.exhausted = false) →
      c.restarts db = db.running k) :
    Effect cal k u c db db' := by
  cases h with
  | quarantined text hr hx =>
    exact .quarantined row hrow hen hr hx (by simp [stop, lose, hrow]) runsOf_lose (by simp) rfl
  | refused db' hx hadm =>
    have hno : db.admits k row = false := hadm.admits
    cases hadm with
    | repeated saved hm hs hf =>
      exact .refused row hrow hen hx hno (.inl (by simp [stop, lose, hrow])) runsOf_lose rfl rfl
    | elsewhere saved hm hs =>
      exact .refused row hrow hen hx hno (.inr ⟨rfl, saved, hm, hs⟩) runsOf_lose rfl rfl
  | started db₁ hx hadm =>
    have hyes : db.admits k row = true := hadm.admits
    have hfields : db₁.jobs = db.jobs ∧ db₁.runs = (lose k db).runs ∧
        db₁.migrations = db.migrations := by
      cases hadm with
      | unmigrated => exact ⟨rfl, rfl, rfl⟩
      | reserved => exact ⟨rfl, rfl, rfl⟩
    obtain ⟨hjobs, hruns, hmig⟩ := hfields
    refine .started row hrow hen hx hyes ?_ ?_ (by simp [start]) (by simp [start, hmig]) (hg rfl)
      (hre hyes hx)
    · cases db.running k <;> simp [start, hjobs, hrow]
    · have hl : (lose k db).runs.filter (·.job = k) = (db.runsOf k).map (lost k) := runsOf_lose
      simp only [Db.runsOf, start, hruns, List.filter_append, hl]
      simp

/-- A claim leaves the other jobs alone. -/
theorem Store.Claim.quiet {row : Job} {token run note : Token} {t : Time} {out : Option Token}
    (h : Claim key row token run note t db db' out) (hk : k ≠ key) : Quiet k db db' := by
  cases h with
  | quarantined text hr hx =>
    exact .of_eq (runsOf_lose_of_ne hk) (Table.erase_of_ne _ _ hk)
      (Table.update_of_ne _ _ _ _ hk) rfl
  | refused db' hx hadm =>
    cases hadm with
    | repeated =>
      exact .of_eq (runsOf_lose_of_ne hk) rfl (Table.update_of_ne _ _ _ _ hk) rfl
    | elsewhere => exact .of_eq (runsOf_lose_of_ne hk) rfl rfl rfl
  | started db₁ hx hadm =>
    have hfields : db₁.jobs = db.jobs ∧ db₁.runs = (lose key db).runs ∧ db₁.locks = db.locks ∧
        db₁.migrations = db.migrations := by
      cases hadm with
      | unmigrated => exact ⟨rfl, rfl, rfl, rfl⟩
      | reserved => exact ⟨rfl, rfl, rfl, rfl⟩
    obtain ⟨hjobs, hruns, hlocks, hmig⟩ := hfields
    refine .of_eq ?_ ?_ ?_ (by simp [start, hmig])
    · have hl : (lose key db).runs.filter (·.job = k) = db.runsOf k := runsOf_lose_of_ne hk
      simp only [Db.runsOf, start, hruns, List.filter_append, hl]
      simp [Ne.symm hk]
    · simp only [start, hlocks]; exact Table.set_of_ne _ _ _ hk
    · simp only [start, hjobs]; exact Table.update_of_ne _ _ _ _ hk

/-- What `add_job` writes. -/
theorem Store.addJob_ok {spec : JobSpec} {caller : Caller} {room : Bool} {t : Time} {out : JobId}
    (h : addJob cal spec caller room key t db = .ok (db', out)) :
    ∃ due, db' = { db with jobs := db.jobs.set key (newJob spec caller due) } ∧
      db.jobs key = none ∧ 1 ≤ spec.maxRuns ∧ spec.backend ≠ .transition := by
  simp only [addJob, validateJob, bind_eq_ok, ensure_eq_ok, pure_eq_ok, Prod.mk.injEq] at h
  obtain ⟨-, hb, due, ⟨-, -, -, hm, -, -, hdue⟩, -, -, -, hnone, rfl, rfl⟩ := h
  simp only [Bool.and_eq_true, decide_eq_true_eq] at hm
  exact ⟨due, rfl, by simpa using hnone, hm.1.2, by simpa using hb⟩

theorem disable_quiet {owner : Owner} (k : JobId) : Quiet k db (Store.disable key owner db).1 := by
  unfold Store.disable
  split_ifs with hs
  · refine ⟨rfl, rfl, ?_, ?_⟩
    · rcases Table.update_cases db.jobs key (Store.owned owner)
        (fun row => { row with enabled := false }) k with h | ⟨row, rfl, hr, -, h⟩
      · exact .inl h
      · exact .inr (.inl ⟨row, hr, h⟩)
    · rcases Table.update_cases db.migrations key (fun _ => true)
        (fun row => { row with restoreEnabled := false }) k with h | ⟨row, rfl, hr, -, h⟩
      · exact congrArg _ h
      · simp only [h, hr, Option.map_some]
  · exact .refl k db

theorem renew_quiet {token : Token} {t₁ t₂ : Time} (k : JobId) :
    Quiet k db (Store.renew key token t₁ t₂ db).1 := by
  refine ⟨rfl, ?_, .inl rfl, rfl⟩
  rcases Table.update_cases db.locks key (·.heldBy token t₂)
    (fun l => { l with expires := t₁ + lockTerm }) k with h | ⟨l, rfl, hl, -, h⟩
  · exact congrArg _ h
  · simp only [Store.renew, h, hl, Option.map_some]

/-- **What each call does to a job.**  The run a worker completes belongs to its job. -/
theorem Call.effect {c : Call} {ws : List Worker} (hc : c.permitted ws)
    (hown : ∀ w ∈ ws, ∀ r ∈ db.runs, r.id = w.run → r.job = w.job) (k : JobId) :
    Effect cal k u c db (c.perform cal u db) := by
  cases c with
  | addJob spec caller room t =>
    refine .quiet (settle_of (P := fun db' => Quiet k db db') (.refl k db) fun db' a h => ?_)
    obtain ⟨due, rfl, hnone, hm, -⟩ := Store.addJob_ok h
    refine ⟨rfl, rfl, ?_, rfl⟩
    by_cases hk : k = u
    · subst hk
      exact .inr (.inr ⟨hnone, _, Table.set_same .., rfl, rfl, hm⟩)
    · exact .inl (Table.set_of_ne _ _ _ hk)
  | disable key owner => exact .quiet (disable_quiet k)
  | claimDue key seen t₁ t₂ t₃ =>
    simp only [Call.perform]
    cases hres : Call.claimed u db key seen t₁ t₂ t₃ with
    | error e => exact .quiet (.refl k db)
    | ok x =>
      obtain ⟨db', out⟩ := x
      rw [settle_ok]
      rcases Store.claimDue_ok hres with ⟨rfl, -⟩ | ⟨row, hrow, hdue, hseen, hfree, hcl⟩
      · exact .quiet (.refl k db')
      by_cases hk : k = key
      · subst hk
        refine hcl.effect hrow ?_ (fun ho => ?_) fun hadm hx => ?_
        · simp only [Store.due, Bool.and_eq_true] at hdue
          exact hdue.1.2
        · simp [Call.granted, hres, ho]
        · cases hr : db.running k with
          | false => simp [Call.restarts, hrow, hr]
          | true => simp [Call.restarts, hrow, hdue, hseen, hfree, hr, hx hr, hadm]
      · exact .quiet (hcl.quiet hk)
  | renew w t₁ t₂ => exact .quiet (renew_quiet k)
  | alive w t => exact .quiet (.refl k db)
  | complete w state output error t₁ t₂ =>
    simp only [Call.perform]
    cases hres : Store.complete cal w.job w.token w.run u state output error t₁ t₂ db with
    | error e => exact .quiet (.refl k db)
    | ok x =>
      obtain ⟨db', done⟩ := x
      rw [settle_ok]
      rcases Store.complete_ok hres with ⟨-, rfl, -⟩ | ⟨row, due, extra, hl, hrow, -, rfl, rfl, -⟩
      · exact .quiet (.refl k db')
      have hruns : ∀ r ∈ db.runs, (Store.finished w.run (Store.verdict row state error)
          (cut 65536 output) r).job = r.job := fun r _ => Store.finished_job r
      by_cases hk : k = w.job
      · subst hk
        obtain ⟨l, hl, hheld⟩ := (Table.selects_eq_true _ _ _).1 hl
        refine .completed w row _ state (cut 65536 output) error due rfl
          (by simp [Call.commits, hres]) (fun _ h => h) ?_ hrow rfl ?_ (runsOf_map hruns)
          (by simp [Store.completed]) rfl
        · rw [hl, Option.map_some, (Lock.heldBy_iff.1 hheld).1]
        · simp [Store.completed]
      · refine .quiet (.of_eq ?_ (Table.erase_of_ne _ _ hk) (Table.set_of_ne _ _ _ hk) rfl)
        refine (runsOf_map hruns).trans ?_
        refine (List.map_congr_left (g := id) fun r hr => ?_).trans (List.map_id _)
        obtain ⟨hr, hj⟩ := List.mem_filter.1 hr
        have hne : r.id ≠ w.run := fun hid =>
          hk ((by simpa using hj : r.job = k).symm.trans (hown w hc r hr hid))
        simp [Store.finished, hne]

end

end Scheduling

end PythonAI
