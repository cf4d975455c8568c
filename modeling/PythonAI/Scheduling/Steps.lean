import PythonAI.Scheduling.Store

/-!
# What claiming and completing a run can do

`claimDue_ok` and `complete_ok` say once what the two transactions write.  The invariants of the
following modules are derived from them; no proof unfolds `claimDue` or `complete` again.
-/

namespace PythonAI

open Library

namespace Scheduling

/-- Nobody holds the lock of the job at `t`. -/
def Db.unlocked (db : Db) (key : JobId) (t : Time) : Bool :=
  (db.locks key).all fun l => !decide (t < l.expires)

/-- A run of the job is unfinished. -/
def Db.running (db : Db) (key : JobId) : Bool := db.runs.any (·.runningOf key)

/-- `admit_legacy` lets the engine take the due slot of `row`. -/
def Db.admits (db : Db) (key : JobId) (row : Job) : Bool :=
  match db.migrations key with
  | none => true
  | some saved => (saved.state = .sqlite || saved.state = .staged) && !db.fenced key row.nextRunAt

/-- The lost run of the job is not replaced. -/
def Job.exhausted (row : Job) : Bool := row.jobType ≠ .watch || 2 ≤ row.retryCount

namespace Store

variable {cal : Calendar} {db db' : Db} {key : JobId} {row : Job} {seen t₁ t₂ t₃ : Time}
  {token run note : Token} {out : Option Token}

theorem lost_not_running (r : Run) : (lost key r).runningOf key = false := by
  unfold lost
  split_ifs with h
  · simp [Run.runningOf]
  · simpa using h

theorem lose_of_not_running (h : db.running key = false) : lose key db = db := by
  have hmap : db.runs.map (lost key) = db.runs := by
    refine List.map_congr_left (g := id) (fun r hr => ?_) |>.trans (List.map_id _)
    have hr' : ¬ r.runningOf key = true := List.any_eq_false.1 h r hr
    simp [lost, hr']
  simp [lose, hmap]

/-- What `notify` writes. -/
theorem notify_ok {u : Token} {state : Outcome} {text : String}
    (h : notify u key row state text db = .ok db') :
    db' = { db with
      notifications := db.notifications ++ [⟨u, key, row.owner, state, cut 65536 text⟩] } := by
  simp only [notify, bind_eq_ok, ensure_eq_ok, pure_eq_ok] at h
  obtain ⟨-, -, rfl⟩ := h
  rfl

/-- What `quarantine` writes. -/
theorem quarantine_ok {u : Token} (h : quarantine u key row db = .ok db') :
    ∃ text, db' = { stop key db with
      notifications := db.notifications ++ [⟨u, key, row.owner, .needsInput, text⟩]
      locks := db.locks.erase key } := by
  simp only [quarantine, bind_eq_ok, pure_eq_ok] at h
  obtain ⟨db₁, h₁, rfl⟩ := h
  rw [notify_ok h₁]
  exact ⟨_, rfl⟩

/-- The three outcomes of `admit_legacy`: there is no migration to ask, the slot is reserved, or
the claim is refused, and where the slot was reserved before the job is stopped. -/
inductive Admission (key : JobId) (row : Job) (db : Db) : Db → Bool → Prop
  | unmigrated : db.migrations key = none → Admission key row db db true
  | reserved (saved : MigrationRow) : db.migrations key = some saved →
      saved.state = .sqlite ∨ saved.state = .staged → db.fenced key row.nextRunAt = false →
      Admission key row db
        { db with fences := db.fences ++ [⟨key, row.nextRunAt, .sqlite⟩] } true
  | repeated (saved : MigrationRow) : db.migrations key = some saved →
      saved.state = .sqlite ∨ saved.state = .staged → db.fenced key row.nextRunAt = true →
      Admission key row db (stop key db) false
  | elsewhere (saved : MigrationRow) : db.migrations key = some saved →
      ¬ (saved.state = .sqlite ∨ saved.state = .staged) → Admission key row db db false

theorem admitLegacy_ok {b : Bool} (h : admitLegacy key row db = .ok (db', b)) :
    Admission key row db db' b := by
  unfold admitLegacy at h
  cases hm : db.migrations key with
  | none =>
    rw [hm] at h; cases h
    exact .unmigrated hm
  | some saved =>
    simp only [hm] at h
    split_ifs at h with hs hf
    · simp only [bind_eq_ok, pure_eq_ok] at h
      obtain ⟨-, -, h⟩ := h
      cases h
      exact .repeated saved hm hs hf
    · simp only [bind_eq_ok, pure_eq_ok] at h
      obtain ⟨-, -, h⟩ := h
      cases h
      exact .reserved saved hm hs (by simpa using hf)
    · cases h
      exact .elsewhere saved hm hs

/-- A claim is admitted exactly when `admits` says so. -/
theorem Admission.admits {b : Bool} (h : Admission key row db db' b) : db.admits key row = b := by
  cases h with
  | unmigrated hm => simp [Db.admits, hm]
  | reserved saved hm hs hf => rcases hs with hs | hs <;> simp [Db.admits, hm, hs, hf]
  | repeated saved hm hs hf => simp [Db.admits, hm, hf]
  | elsewhere saved hm hs =>
    simp only [not_or] at hs
    simp [Db.admits, hm, hs.1, hs.2]

/-- The four things `claim_due` can do to the due slot `row.nextRunAt` of an unlocked job. -/
inductive Claim (key : JobId) (row : Job) (token run note : Token) (t : Time) (db : Db) :
    Db → Option Token → Prop
  | quarantined (text : String) : db.running key = true → row.exhausted = true →
      Claim key row token run note t db
        { stop key (lose key db) with
          notifications := db.notifications ++ [⟨note, key, row.owner, .needsInput, text⟩]
          locks := db.locks.erase key } none
  | refused (db' : Db) : (db.running key = true → row.exhausted = false) →
      Admission key row (lose key db) db' false → Claim key row token run note t db db' none
  | started (db' : Db) : (db.running key = true → row.exhausted = false) →
      Admission key row (lose key db) db' true →
      Claim key row token run note t db (start key token run (db.running key) t db') (some run)

/-- **What `claim_due` writes**: nothing, or one of the cases of `Claim` for a due job that nobody
holds. -/
theorem claimDue_ok (h : claimDue key seen token run note t₁ t₂ t₃ db = .ok (db', out)) :
    db' = db ∧ out = none ∨
      ∃ row, db.jobs key = some row ∧ due t₁ row = true ∧ row.nextRunAt = seen ∧
        db.unlocked key t₂ = true ∧ Claim key row token run note t₃ db db' out := by
  unfold claimDue at h
  cases hrow : db.jobs key with
  | none =>
    rw [hrow] at h; cases h
    exact .inl ⟨rfl, rfl⟩
  | some row =>
    simp only [hrow] at h
    by_cases hdue : (!due t₁ row || decide (row.nextRunAt ≠ seen)) = true
    · rw [if_pos hdue] at h; cases h
      exact .inl ⟨rfl, rfl⟩
    by_cases hlock : ((db.locks key).any fun l => decide (t₂ < l.expires)) = true
    · rw [if_neg hdue, if_pos hlock] at h; cases h
      exact .inl ⟨rfl, rfl⟩
    have hmark : (if db.runs.any (·.runningOf key) then lose key db else db) = lose key db := by
      by_cases hr : db.running key = true
      · exact if_pos hr
      · exact (if_neg hr).trans (lose_of_not_running (by simpa using hr)).symm
    rw [if_neg hdue, if_neg hlock, hmark] at h
    simp only [Bool.or_eq_true, Bool.not_eq_true', decide_eq_true_eq, not_or, Bool.not_eq_false,
      not_not] at hdue
    refine .inr ⟨row, rfl, hdue.1, hdue.2, ?_, ?_⟩
    · simpa [Db.unlocked, Option.all_eq_true, Option.any_eq_true] using hlock
    by_cases hr : db.runs.any (·.runningOf key) = true ∧ (row.jobType ≠ .watch ∨ 2 ≤ row.retryCount)
    · rw [if_pos hr] at h
      simp only [bind_eq_ok, pure_eq_ok] at h
      obtain ⟨db₁, h₁, h⟩ := h
      cases h
      obtain ⟨text, rfl⟩ := quarantine_ok h₁
      exact .quarantined text hr.1 (by simpa [Job.exhausted] using hr.2)
    · have hex : db.running key = true → row.exhausted = false := fun hrun => by
        simpa [Job.exhausted] using not_and.1 hr hrun
      rw [if_neg hr] at h
      simp only [bind_eq_ok, ensure_eq_ok] at h
      obtain ⟨-, -, ⟨db₁, b⟩, hadm, h⟩ := h
      cases b with
      | true =>
        cases h
        exact .started db₁ hex (admitLegacy_ok hadm)
      | false =>
        cases h
        exact .refused _ hex (admitLegacy_ok hadm)

/-- The next due time is later than the completion. -/
theorem nextDue_lt {v : Verdict} {t due : Time} (h : nextDue cal row v t = .ok due) : t < due := by
  unfold nextDue at h
  split_ifs at h with hs
  · cases h; exact Nat.lt_add_of_pos_right (Nat.mul_pos (by decide) (Nat.succ_pos _))
  · exact nextTime_gt h

/-- What `tell` writes. -/
theorem tell_ok {v : Verdict} {text : String} (h : tell note key row v text db = .ok db') :
    ∃ extra, db' = { db with notifications := db.notifications ++ extra } ∧
      (meaningful row (digest v text) (v.state = .waiting) = true →
        ∃ out, extra = [⟨note, key, row.owner, v.state, out⟩]) ∧
      (extra = [] ∨ ∃ out, extra = [⟨note, key, row.owner, v.state, out⟩]) := by
  unfold tell at h
  split_ifs at h with hm
  · exact ⟨_, notify_ok h, fun _ => ⟨_, rfl⟩, .inr ⟨_, rfl⟩⟩
  · cases h
    exact ⟨[], by simp, fun h => absurd h hm, .inl rfl⟩

/-- **What `complete` writes**: nothing unless the token holds the unexpired lock, and then the
job's next due time, the run's result and, of a digest that is `meaningful`, the notification. -/
theorem complete_ok {state : Outcome} {output error : String} {done : Bool}
    (h : complete cal key token run note state output error t₁ t₂ db = .ok (db', done)) :
    db.locks.selects key (·.heldBy token t₁) = false ∧ db' = db ∧ done = false ∨
      ∃ row due extra, db.locks.selects key (·.heldBy token t₁) = true ∧ db.jobs key = some row ∧
        nextDue cal row (verdict row state error) t₂ = .ok due ∧ done = true ∧
        db' = completed key run row (verdict row state error) (cut 65536 output) due
          { db with notifications := db.notifications ++ extra } ∧
        (meaningful row (digest (verdict row state error) (cut 65536 output))
            ((verdict row state error).state = .waiting) = true →
          ∃ text, extra = [⟨note, key, row.owner, (verdict row state error).state, text⟩]) ∧
        (extra = [] ∨
          ∃ text, extra = [⟨note, key, row.owner, (verdict row state error).state, text⟩]) := by
  unfold complete at h
  by_cases hl : db.locks.selects key (·.heldBy token t₁) = true
  · rw [if_neg (by simpa using hl)] at h
    simp only [bind_eq_ok, require_eq_ok, pure_eq_ok, Prod.mk.injEq] at h
    obtain ⟨row, hrow, due, hdue, told, htold, rfl, rfl⟩ := h
    obtain ⟨extra, rfl, hextra⟩ := tell_ok htold
    exact .inr ⟨row, due, extra, hl, hrow, hdue, rfl, rfl, hextra⟩
  · rw [if_pos (by simpa using hl)] at h
    cases h
    exact .inl ⟨by simpa using hl, rfl, rfl⟩

/-- Without the unexpired lock `complete` returns `False` and writes nothing. -/
theorem complete_of_not_held {state : Outcome} {output error : String}
    (h : db.locks.selects key (·.heldBy token t₁) = false) :
    complete cal key token run note state output error t₁ t₂ db = .ok (db, false) := by
  simp [complete, h]

end Store

end Scheduling

end PythonAI
