import PythonAI.Library.Lts
import PythonAI.Tasks.Rows

/-!
# The task database under any sequence of calls

Workers and humans call `TaskStore` in any order.  `TaskSys` is the database with the clock and
the supply of tokens, and `TaskSys.lts` performs one call at a time: SQLite serializes the
transactions, and a worker that crashes simply calls nothing more.

A clock value read inside a transaction lies between the clock before and after it.  `renew` and
`mark_uncertain` read the clock before they wait for the database, so theirs is only bounded from
above.
-/

namespace PythonAI

open Library

/-- A call of a `TaskStore` operation, with what it reads outside the database. -/
inductive Call
  | claim (env : Access) (owner : Owner) (key : TaskId) (goal : String)
      (messages : List Message) (episode : Option ℕ) (criteria : Option Criteria) (t₁ t₂ : Time)
  | renew (owner : Owner) (key : TaskId) (token : Token) (t₁ t₂ : Time)
  | checkpoint (env : Access) (owner : Owner) (key : TaskId) (token : Token) (phase : Phase)
      (data : Checkpoint) (step : Option StepRecord) (t : Time)
  | finish (env : Access) (owner : Owner) (key : TaskId) (token : Token) (state : TaskState)
      (reply : Option String) (t : Time)
  | answer (env : Access) (owner : Owner) (key : TaskId) (text : String)
  | resolve (env : Access) (owner : Owner) (key : TaskId) (callId text : String)
  | cancel (owner : Owner) (key : TaskId)
  | cancelSession (owner : Owner) (t : Time)
  | markUncertain (owner : Owner) (key : TaskId) (t : Time)
  | bindWorkspace (env : Access) (owner : Owner) (key : TaskId) (token : Token)
      (repository storage : String)

namespace Call

/-- The database after the call; a claim hands out `token`. -/
def perform (token : Token) (db : TaskDb) : Call → TaskDb
  | claim env owner key goal messages episode criteria t₁ t₂ =>
    settle db (TaskStore.claim env owner key goal messages episode criteria token t₁ t₂ db)
  | renew owner key token t₁ t₂ => (TaskStore.renew owner key token t₁ t₂ db).1
  | checkpoint env owner key token phase data step t =>
    settle db (TaskStore.checkpoint env owner key token phase data step t db)
  | finish env owner key token state reply t =>
    settle db (TaskStore.finish env owner key token state reply t db)
  | answer env owner key text => settle db (TaskStore.answer env owner key text db)
  | resolve env owner key callId text =>
    settle db (TaskStore.resolve env owner key callId text db)
  | cancel owner key => (TaskStore.cancel owner key db).1
  | cancelSession owner t => TaskStore.cancelSession owner t db
  | markUncertain owner key t => TaskStore.markUncertain owner key t db
  | bindWorkspace env owner key token repository storage =>
    settle db (TaskStore.bindWorkspace env owner key token repository storage db)

/-- The clock values of the call fit a transaction that runs from `t` to `t'`. -/
def clocked (t t' : Time) : Call → Prop
  | claim _ _ _ _ _ _ _ t₁ t₂ => t ≤ t₁ ∧ t₁ ≤ t₂ ∧ t₂ ≤ t'
  | renew _ _ _ t₁ t₂ => t₁ ≤ t₂ ∧ t₂ ≤ t'
  | checkpoint _ _ _ _ _ _ _ t₁ | finish _ _ _ _ _ _ t₁ => t ≤ t₁ ∧ t₁ ≤ t'
  | markUncertain _ _ t₁ => t₁ ≤ t'
  | _ => True

instance (t t' : Time) : (c : Call) → Decidable (c.clocked t t')
  | claim .. => inferInstanceAs (Decidable (_ ∧ _ ∧ _))
  | renew .. | checkpoint .. | finish .. => inferInstanceAs (Decidable (_ ∧ _))
  | markUncertain .. => inferInstanceAs (Decidable (_ ≤ _))
  | answer .. | resolve .. | cancel .. | cancelSession .. | bindWorkspace .. =>
    inferInstanceAs (Decidable True)

/-- The calls a human makes. -/
def human : Call → Bool
  | answer .. | resolve .. | cancel .. | cancelSession .. => true
  | _ => false

variable {c : Call} {u : Token} {db : TaskDb} {t t' : Time}

/-- Every call of a worker changes each task row by a `WorkerStep`. -/
theorem workerStep (hh : c.human = false) (hc : c.clocked t t') (k : TaskKey) :
    WorkerStep u t t' (db.tasks k) ((c.perform u db).tasks k) := by
  cases c with
  | claim env owner key goal messages episode criteria t₁ t₂ =>
    exact settle_of (P := fun db' => WorkerStep u t t' (db.tasks k) (db'.tasks k)) (.same _)
      fun db' a h => TaskStore.claim_workerStep hc.1 hc.2.1 hc.2.2 h k
  | renew owner key token t₁ t₂ => exact TaskStore.renew_workerStep hc.1 hc.2 k
  | checkpoint env owner key token phase data step t₁ =>
    exact settle_of (P := fun db' => WorkerStep u t t' (db.tasks k) (db'.tasks k)) (.same _)
      fun db' a h => TaskStore.checkpoint_workerStep hc.1 hc.2 h k
  | finish env owner key token state reply t₁ =>
    exact settle_of (P := fun db' => WorkerStep u t t' (db.tasks k) (db'.tasks k)) (.same _)
      fun db' a h => TaskStore.finish_workerStep hc.1 hc.2 h k
  | markUncertain owner key t₁ => exact TaskStore.markUncertain_workerStep hc k
  | bindWorkspace env owner key token repository storage =>
    exact settle_of (P := fun db' => WorkerStep u t t' (db.tasks k) (db'.tasks k)) (.same _)
      fun db' a h => TaskStore.bindWorkspace_workerStep h k
  | answer | resolve | cancel | cancelSession => cases hh

/-- Every call of a human changes each task row by a `HumanStep`. -/
theorem humanStep (hh : c.human = true) (k : TaskKey) :
    HumanStep (db.tasks k) ((c.perform u db).tasks k) := by
  cases c with
  | answer env owner key text =>
    exact settle_of (P := fun db' => HumanStep (db.tasks k) (db'.tasks k)) (.same _)
      fun db' a h => TaskStore.answer_humanStep h k
  | resolve env owner key callId text =>
    exact settle_of (P := fun db' => HumanStep (db.tasks k) (db'.tasks k)) (.same _)
      fun db' a h => TaskStore.resolve_humanStep h k
  | cancel owner key => exact TaskStore.cancel_humanStep k
  | cancelSession owner t₁ => exact TaskStore.cancelSession_humanStep k
  | claim | renew | checkpoint | finish | markUncertain | bindWorkspace => cases hh

/-- **Every call changes each task row by a `RowStep`.** -/
theorem rowStep (hc : c.clocked t t') (k : TaskKey) :
    RowStep u t t' (db.tasks k) ((c.perform u db).tasks k) := by
  cases hh : c.human with
  | true => exact .human (humanStep hh k)
  | false => exact .worker (workerStep hh hc k)

/-! ### The end of a task, whatever the clocks -/

/-- A terminal row has no holder. -/
def Unheld (r : Option TaskRow) : Prop :=
  ∀ row, r = some row → row.state.terminal = true → row.leaseOwner = none

/-- A row without a holder stays so, and does not change if it is terminal. -/
def Ends (r r' : Option TaskRow) : Prop :=
  Unheld r → Unheld r' ∧ ∀ row, r = some row → row.state.terminal = true → r' = some row

theorem Ends.refl (r : Option TaskRow) : Ends r r := fun h => ⟨h, fun _ hr _ => hr⟩

/-- A row that is open, and that becomes open or loses its holder. -/
theorem Ends.of_open {row row' : TaskRow} (ho : row.state.terminal = false)
    (h : row'.state.terminal = true → row'.leaseOwner = none) : Ends (some row) (some row') := by
  refine fun _ => ⟨fun r hr => ?_, fun r hr hterm => ?_⟩
  · cases hr
    exact h
  · cases hr
    rw [ho] at hterm
    cases hterm

/-- A new row that is open. -/
theorem Ends.of_none {row' : TaskRow} (ho : row'.state.terminal = false) :
    Ends none (some row') := by
  refine fun _ => ⟨fun r hr hterm => ?_, fun r hr => nomatch hr⟩
  cases hr
  rw [ho] at hterm
  cases hterm

/-- **A terminal row never changes**, also when the clocks of the calls do not fit. -/
theorem ends (c : Call) (u : Token) (db : TaskDb) (k : TaskKey) :
    Ends (db.tasks k) ((c.perform u db).tasks k) := by
  have hrun : ∀ {row : TaskRow}, row.state = .running → row.state.terminal = false := fun h => by
    rw [h]; rfl
  cases c with
  | claim env owner key goal messages episode criteria t₁ t₂ =>
    refine settle_of (P := fun db' : TaskDb => Ends (db.tasks k) (db'.tasks k)) (.refl _) fun db' a h => ?_
    rcases TaskStore.claim_ok h with ⟨row, -, -, hdb, -⟩ | ⟨hrow, -, rfl⟩ |
      ⟨row, hrow, hopen, -, -, -, rfl⟩ | ⟨row, hrow, hopen, -, -, -, -, -, -, rfl⟩
    · rw [hdb]; exact .refl _
    · exact TaskStore.set_cases Ends.refl (hrow ▸ Ends.of_none rfl) k
    · exact TaskStore.set_cases Ends.refl (hrow ▸ Ends.of_open hopen (fun h => by cases h)) k
    · exact TaskStore.set_cases Ends.refl (hrow ▸ Ends.of_open hopen (fun h => by cases h)) k
  | renew owner key token t₁ t₂ =>
    refine TaskStore.update_cases Ends.refl (fun row hp => ?_) k
    simp only [TaskStore.renewable, Bool.and_eq_true, decide_eq_true_eq] at hp
    exact .of_open (hrun hp.2) fun h => by rw [hrun hp.2] at h; cases h
  | checkpoint env owner key token phase data step t =>
    refine settle_of (P := fun db' : TaskDb => Ends (db.tasks k) (db'.tasks k)) (.refl _) fun db' a h => ?_
    obtain ⟨-, rfl⟩ := TaskStore.checkpoint_ok h
    refine TaskStore.update_cases Ends.refl (fun row hp => ?_) k
    simp only [TaskStore.renewable, Bool.and_eq_true, decide_eq_true_eq] at hp
    exact .of_open (hrun hp.2) fun h => by rw [hrun hp.2] at h; cases h
  | finish env owner key token state reply t =>
    refine settle_of (P := fun db' : TaskDb => Ends (db.tasks k) (db'.tasks k)) (.refl _) fun db' a h => ?_
    obtain ⟨-, rfl⟩ := TaskStore.finish_ok h
    refine TaskStore.update_cases Ends.refl
      (fun row hp hu => ⟨fun r hr _ => ?_, fun r hr ht => ?_⟩) k
    · cases hr
      rfl
    · -- a holder cannot finish a terminal row
      cases hr
      have hnone := hu row rfl ht
      rw [(TaskRow.heldBy_iff.1 hp).1] at hnone
      cases hnone
  | answer env owner key text =>
    refine settle_of (P := fun db' : TaskDb => Ends (db.tasks k) (db'.tasks k)) (.refl _) fun db' a h => ?_
    obtain ⟨row, call, hrow, hsus, -, rfl⟩ := TaskStore.answer_ok h
    exact TaskStore.set_cases Ends.refl (hrow ▸ Ends.of_open (by rw [hsus]; rfl) (fun h => by cases h)) k
  | resolve env owner key callId text =>
    refine settle_of (P := fun db' : TaskDb => Ends (db.tasks k) (db'.tasks k)) (.refl _) fun db' a h => ?_
    obtain ⟨row, step, hrow, hunc, -, -, -, rfl⟩ := TaskStore.resolve_ok h
    exact TaskStore.set_cases Ends.refl (hrow ▸ Ends.of_open (by rw [hunc]; rfl) (fun h => by cases h)) k
  | cancel owner key =>
    refine TaskStore.update_cases Ends.refl (fun row hp => ?_) k
    exact .of_open (by simpa using hp) fun _ => rfl
  | cancelSession owner t =>
    rcases db.tasks.updateWhere_cases (TaskStore.stop "Session cleared")
        (fun k row => k.1 = owner && !row.state.terminal) k with hs | ⟨row, hrow, hp, hs⟩
    · simp only [perform, TaskStore.cancelSession]
      rw [hs]
      exact .refl _
    · simp only [perform, TaskStore.cancelSession]
      rw [hs, hrow]
      rw [Bool.and_eq_true] at hp
      exact .of_open (by simpa using hp.2) fun _ => rfl
  | markUncertain owner key t =>
    refine TaskStore.update_cases Ends.refl (fun row hp => ?_) k
    simp only [TaskStore.lapsed, Bool.and_eq_true, decide_eq_true_eq] at hp
    exact .of_open (hrun hp.1) fun h => by cases h
  | bindWorkspace env owner key token repository storage =>
    refine settle_of (P := fun db' : TaskDb => Ends (db.tasks k) (db'.tasks k)) (.refl _) fun db' a h => ?_
    rw [(TaskStore.bindWorkspace_ok h).1]
    exact .refl _

end Call

/-- The task database with the clock and the supply of tokens. -/
structure TaskSys where
  /-- the database -/
  db : TaskDb
  /-- the clock -/
  now : Time
  /-- the next token; every token handed out so far is smaller -/
  uuids : Token

namespace TaskSys

/-- A new database. -/
def Initial (s : TaskSys) : Prop := s.db = .empty

/-- One call, in a transaction that ends at `s'.now`. -/
def lts : Lts TaskSys Call where
  step s c s' := s.now ≤ s'.now ∧ c.clocked s.now s'.now ∧
    s'.db = c.perform s.uuids s.db ∧ s'.uuids = s.uuids + 1

/-- The state after the call `c` in a transaction that ends at `t`. -/
def after (s : TaskSys) (c : Call) (t : Time) : TaskSys := ⟨c.perform s.uuids s.db, t, s.uuids + 1⟩

/-- The state after a list of calls, each with the end of its transaction. -/
def runs (s : TaskSys) : List (Call × Time) → TaskSys
  | [] => s
  | (c, t) :: cs => (s.after c t).runs cs

/-- The clock values of a list of calls fit their transactions. -/
def Timed (t : Time) : List (Call × Time) → Prop
  | [] => True
  | (c, t') :: cs => t ≤ t' ∧ c.clocked t t' ∧ Timed t' cs

/-- Whether a list of calls is timed can be computed. -/
def decTimed : (t : Time) → (cs : List (Call × Time)) → Decidable (Timed t cs)
  | _, [] => inferInstanceAs (Decidable True)
  | t, (c, t') :: cs =>
    have := decTimed t' cs
    inferInstanceAs (Decidable (t ≤ t' ∧ c.clocked t t' ∧ Timed t' cs))

instance (t : Time) (cs : List (Call × Time)) : Decidable (Timed t cs) := decTimed t cs

variable {s s' : TaskSys} {c : Call}

theorem step_after {t : Time} (h : s.now ≤ t) (hc : c.clocked s.now t) :
    lts.step s c (s.after c t) :=
  ⟨h, hc, rfl, rfl⟩

/-- A timed list of calls is a run. -/
theorem run_runs {cs : List (Call × Time)} {s : TaskSys} (h : Timed s.now cs) :
    lts.Run s (cs.map (·.1)) (s.runs cs) := by
  induction cs generalizing s with
  | nil => exact .nil s
  | cons c cs ih =>
    obtain ⟨ht, hc, h⟩ := h
    exact .cons (step_after ht hc) (ih h)

theorem rowStep (h : lts.step s c s') (k : TaskKey) :
    RowStep s.uuids s.now s'.now (s.db.tasks k) (s'.db.tasks k) := by
  obtain ⟨-, hc, hdb, -⟩ := h
  rw [hdb]; exact Call.rowStep hc k

theorem now_le (h : lts.step s c s') : s.now ≤ s'.now := h.1

theorem uuids_lt (h : lts.step s c s') : s.uuids < s'.uuids := by
  rw [h.2.2.2]; exact Nat.lt_succ_self _

end TaskSys

end PythonAI
