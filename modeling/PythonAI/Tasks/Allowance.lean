import PythonAI.Tasks.Lease

/-!
# The recovery allowance of a task

`claim` counts the claims that follow a crash or an error, and refuses a task once it has counted
three.  It tests the counter before it decides whether the claim at hand is one of them, so that a
task that a human has answered is refused too.

* `TaskSys.recoveryClaims_le` : at most three claims ever follow a crash or an error;
* `TaskSys.recovery_allowance` : **the counter counts these claims only, and the claim after an
  accepted answer succeeds exactly if fewer than three of them went before**.
-/

namespace PythonAI

open Library

variable {u : Token} {db : TaskDb} {k : TaskKey} {c : Call} {t : Time}

/-- The exception of a task whose allowance is used up. -/
def TaskStore.allowanceExceeded : Error := .recovery "Task exceeded its recovery attempt limit"

/-- The recoveries that are counted in a row. -/
def spent (r : Option TaskRow) : ℕ := (r.map (·.recoveries)).getD 0

@[simp] theorem spent_some {row : TaskRow} : spent (some row) = row.recoveries := rfl

namespace Call

/-- The call is a claim of the task `k`. -/
def claimsTask (k : TaskKey) : Call → Bool
  | claim _ owner key .. => (owner, key) = k
  | _ => false

/-- The call takes the task `k` over after a crash, or after an error that has requeued it. -/
def recovers (u : Token) (db : TaskDb) (k : TaskKey) : Call → Bool
  | claim env owner key goal messages episode criteria t₁ t₂ =>
    (owner, key) = k && (db.tasks k).any TaskStore.recovery &&
      match TaskStore.claim env owner key goal messages episode criteria u t₁ t₂ db with
      | .ok (_, .token _) => true
      | _ => false
  | _ => false

/-- The answer of a human is accepted. -/
def answersTask (db : TaskDb) (k : TaskKey) : Call → Bool
  | answer env owner key text => (owner, key) = k && (TaskStore.answer env owner key text db).isOk
  | _ => false

end Call

/-! ### Calls that do not claim -/

/-- What a call can do to the row of a task that it does not claim, whatever the clocks. -/
inductive OtherStep : Option TaskRow → Option TaskRow → Prop
  | same (r : Option TaskRow) : OtherStep r r
  | renewed (row : TaskRow) (token : Token) {t : Time} (hheld : TaskStore.renewable token t row = true)
      (u : Option Time) : OtherStep (some row) (some { row with leaseUntil := u })
  | saved (row : TaskRow) (token : Token) {t : Time} (hheld : TaskStore.renewable token t row = true)
      (phase : Phase) (data : Checkpoint) :
      OtherStep (some row) (some { row with phase := phase, checkpoint := data })
  | finished (row : TaskRow) (token : Token) {t : Time} (hheld : row.heldBy token t = true)
      (state : TaskState) (reply : Option String) :
      OtherStep (some row) (some { row.release with
        state := state, reply := reply, verification := TaskStore.quality state row })
  | lapsed (row : TaskRow) (hrun : row.state = .running) :
      OtherStep (some row) (some { row.release with state := .uncertain })
  | human {r r' : Option TaskRow} (h : HumanStep r r') : OtherStep r r'

/-- **A call that does not claim the task** changes its row by an `OtherStep`. -/
theorem Call.otherStep (u : Token) (db : TaskDb) (hc : c.claimsTask k = false) :
    OtherStep (db.tasks k) ((c.perform u db).tasks k) := by
  cases hh : c.human with
  | true => exact .human (humanStep hh k)
  | false =>
    cases c with
    | claim env owner key goal messages episode criteria t₁ t₂ =>
      have hk : k ≠ (owner, key) := Ne.symm (of_decide_eq_false hc)
      refine settle_of (P := fun d : TaskDb => OtherStep (db.tasks k) (d.tasks k)) (.same _)
        fun d out hclaim => ?_
      rcases TaskStore.claim_ok hclaim with ⟨row, -, -, rfl, -⟩ | ⟨-, -, rfl⟩ |
        ⟨row, -, -, -, -, -, rfl⟩ | ⟨row, -, -, -, -, -, -, -, -, rfl⟩
      · exact .same _
      all_goals
        dsimp only
        rw [Table.set_of_ne _ _ _ hk]
        exact .same _
    | renew owner key token t₁ t₂ =>
      exact TaskStore.update_cases .same (fun row hp => .renewed row token hp _) k
    | checkpoint env owner key token phase data step t =>
      refine settle_of (P := fun d : TaskDb => OtherStep (db.tasks k) (d.tasks k)) (.same _)
        fun d a h => ?_
      obtain ⟨-, rfl⟩ := TaskStore.checkpoint_ok h
      exact TaskStore.update_cases .same (fun row hp => .saved row token hp phase data) k
    | finish env owner key token state reply t =>
      refine settle_of (P := fun d : TaskDb => OtherStep (db.tasks k) (d.tasks k)) (.same _)
        fun d a h => ?_
      obtain ⟨-, rfl⟩ := TaskStore.finish_ok h
      exact TaskStore.update_cases .same (fun row hp => .finished row token hp state reply) k
    | markUncertain owner key t =>
      refine TaskStore.update_cases .same (fun row hp => .lapsed row ?_) k
      simp only [TaskStore.lapsed, Bool.and_eq_true, decide_eq_true_eq] at hp
      exact hp.1
    | bindWorkspace env owner key token repository storage =>
      refine settle_of (P := fun d : TaskDb => OtherStep (db.tasks k) (d.tasks k)) (.same _)
        fun d a h => ?_
      rw [(TaskStore.bindWorkspace_ok h).1]
      exact .same _
    | answer | resolve | cancel | cancelSession => cases hh

variable {r r' : Option TaskRow}

theorem OtherStep.spent (h : OtherStep r r') : spent r' = spent r := by
  cases h with
  | human h => cases h <;> rfl
  | _ => rfl

/-- A suspended row has no lease. -/
def Idle (r : Option TaskRow) : Prop :=
  ∀ row, r = some row → row.state = .suspended → row.leaseOwner = none ∧ row.leaseUntil = none

theorem OtherStep.idle (h : OtherStep r r') (hr : Idle r) : Idle r' := by
  intro row' hrow' hs
  cases h with
  | same => exact hr row' hrow' hs
  | renewed row token hheld =>
    cases hrow'
    rw [(TaskStore.renewable_iff.1 hheld).2] at hs
    cases hs
  | saved row token hheld =>
    cases hrow'
    rw [(TaskStore.renewable_iff.1 hheld).2] at hs
    cases hs
  | finished | lapsed =>
    cases hrow'
    exact ⟨rfl, rfl⟩
  | human h =>
    cases h with
    | same => exact hr row' hrow' hs
    | answered | resolved | stopped =>
      cases hrow'
      cases hs

/-- The row waits for a worker without a lease, or was cancelled meanwhile. -/
def Waiting (r : Option TaskRow) : Prop :=
  ∃ row, r = some row ∧ row.leaseOwner = none ∧ row.leaseUntil = none ∧
    (row.state = .pending ∧ row.phase = .toolDone ∧ row.reply = none ∨ row.state = .cancelled)

/-- Only a claim changes a row that waits, apart from its end. -/
theorem OtherStep.waiting (h : OtherStep r r') (hr : Waiting r) : Waiting r' := by
  obtain ⟨row, rfl, hown, huntil, hs⟩ := hr
  have hstate : row.state = .pending ∨ row.state = .cancelled := hs.imp_left And.left
  cases h with
  | same => exact ⟨row, rfl, hown, huntil, hs⟩
  | renewed _ token hheld =>
    rw [(TaskRow.heldBy_iff.1 (TaskStore.renewable_iff.1 hheld).1).1] at hown
    cases hown
  | saved _ token hheld =>
    rw [(TaskRow.heldBy_iff.1 (TaskStore.renewable_iff.1 hheld).1).1] at hown
    cases hown
  | finished _ token hheld =>
    rw [(TaskRow.heldBy_iff.1 hheld).1] at hown
    cases hown
  | lapsed _ hrun => rcases hstate with hs | hs <;> rw [hrun] at hs <;> cases hs
  | human h =>
    cases h with
    | same => exact ⟨row, rfl, hown, huntil, hs⟩
    | answered _ call text hsus => rcases hstate with hs | hs <;> rw [hsus] at hs <;> cases hs
    | resolved _ call text hunc => rcases hstate with hs | hs <;> rw [hunc] at hs <;> cases hs
    | stopped => exact ⟨_, rfl, rfl, rfl, .inr rfl⟩

/-! ### Claims -/

/-- **What a claim does to the row of its task**: it counts the recovery that it is. -/
theorem Call.claim_row (u : Token) (db : TaskDb) (hc : c.claimsTask k = true) :
    spent ((c.perform u db).tasks k) = spent (db.tasks k) + (c.recovers u db k).toNat ∧
      (c.recovers u db k = true → spent (db.tasks k) < recoveryLimit) ∧
      (Idle (db.tasks k) → Idle ((c.perform u db).tasks k)) := by
  cases c with
  | claim env owner key goal messages episode criteria t₁ t₂ =>
    have hk : (owner, key) = k := of_decide_eq_true hc
    subst hk
    cases hclaim : TaskStore.claim env owner key goal messages episode criteria u t₁ t₂ db with
    | error e =>
      have hno : (claim env owner key goal messages episode criteria t₁ t₂).recovers u db (owner, key) =
          false := by simp [recovers, hclaim]
      rw [hno, perform, hclaim]
      exact ⟨rfl, (fun h => by cases h), id⟩
    | ok out =>
      obtain ⟨db', out⟩ := out
      rw [perform, hclaim, settle_ok]
      rcases TaskStore.claim_ok hclaim with ⟨row, hrow, -, rfl, rfl⟩ | ⟨hrow, rfl, rfl⟩ |
        ⟨row, hrow, -, -, -, ⟨e, rfl⟩, rfl⟩ | ⟨row, hrow, -, -, -, -, -, hlt, rfl, rfl⟩
      · refine ⟨?_, ?_, id⟩ <;> simp [recovers, hclaim]
      · refine ⟨?_, ?_, fun _ row hrow hs => ?_⟩
        · simp [recovers, hrow, spent, TaskStore.takeOver, TaskStore.newRow]
        · simp [recovers, hrow]
        · simp only [Table.set_same, Option.some.injEq] at hrow
          subst hrow
          cases hs
      · refine ⟨?_, ?_, fun _ row hrow hs => ?_⟩
        · simp [recovers, hclaim, hrow, TaskStore.mark]
        · simp [recovers, hclaim]
        · simp only [Table.set_same, Option.some.injEq] at hrow
          subst hrow
          cases hs
      · refine ⟨?_, fun _ => hrow ▸ hlt, fun _ row hrow hs => ?_⟩
        · simp [recovers, hclaim, hrow, TaskStore.takeOver]
        · simp only [Table.set_same, Option.some.injEq] at hrow
          subst hrow
          cases hs
  | _ => cases hc

/-- What is counted has found a row that is open, after a crash or an error. -/
theorem Call.recovers_row (h : c.recovers u db k = true) : ∃ row, db.tasks k = some row ∧
    row.state.terminal = false ∧ TaskStore.recovery row = true := by
  cases c with
  | claim env owner key goal messages episode criteria t₁ t₂ =>
    simp only [recovers, Bool.and_eq_true, decide_eq_true_eq] at h
    obtain ⟨⟨rfl, hrec⟩, htoken⟩ := h
    split at htoken
    case h_1 db' token hclaim =>
      rcases TaskStore.claim_ok hclaim with ⟨-, -, -, -, hout⟩ | ⟨hrow, -, -⟩ |
        ⟨row, hrow, hopen, -, -, -, -⟩ | ⟨row, hrow, hopen, -, -, -, -, -, -, -⟩
      · cases hout
      · rw [hrow] at hrec
        cases hrec
      all_goals
        rw [hrow] at hrec
        exact ⟨row, hrow, hopen, hrec⟩
    case h_2 => cases htoken
  | _ => cases h

theorem Call.recovers_claims (h : c.recovers u db k = true) : c.claimsTask k = true := by
  cases c with
  | claim =>
    simp only [recovers, Bool.and_eq_true] at h
    exact h.1.1
  | _ => cases h

/-- A call counts the recovery that it is. -/
theorem Call.spent_perform (c : Call) (u : Token) (db : TaskDb) (k : TaskKey) :
    spent ((c.perform u db).tasks k) = spent (db.tasks k) + (c.recovers u db k).toNat ∧
      (c.recovers u db k = true → spent (db.tasks k) < recoveryLimit) := by
  cases hc : c.claimsTask k with
  | true =>
    obtain ⟨hspent, hlt, -⟩ := Call.claim_row u db hc
    exact ⟨hspent, hlt⟩
  | false =>
    have hno : c.recovers u db k = false := by
      by_contra hr
      rw [Call.recovers_claims (Bool.not_eq_false _ ▸ hr)] at hc
      cases hc
    rw [hno]
    exact ⟨(Call.otherStep u db hc).spent, nofun⟩

theorem Call.idle_perform (c : Call) (u : Token) (db : TaskDb) (k : TaskKey)
    (h : Idle (db.tasks k)) : Idle ((c.perform u db).tasks k) := by
  cases hc : c.claimsTask k with
  | true => exact (Call.claim_row u db hc).2.2 h
  | false => exact (Call.otherStep u db hc).idle h

/-- After an accepted answer the row waits. -/
theorem Call.waiting_perform (h : c.answersTask db k = true) (hi : Idle (db.tasks k)) :
    Waiting ((c.perform u db).tasks k) := by
  cases c with
  | answer env owner key text =>
    simp only [answersTask, Bool.and_eq_true, decide_eq_true_eq] at h
    obtain ⟨rfl, hok⟩ := h
    obtain ⟨⟨db', out⟩, hanswer⟩ := isOk_iff.1 hok
    rw [perform, hanswer, settle_ok]
    obtain ⟨row, call, hrow, hsus, -, rfl⟩ := TaskStore.answer_ok hanswer
    obtain ⟨hown, huntil⟩ := hi row hrow hsus
    exact ⟨_, Table.set_same .., hown, huntil, .inl ⟨rfl, rfl, rfl⟩⟩
  | _ => cases h

/-! ### Runs -/

namespace TaskSys

variable {s : TaskSys}

/-- The number of calls of a run that take the task over after a crash or an error. -/
def recoveryClaims (k : TaskKey) (s : TaskSys) : List (Call × Time) → ℕ
  | [] => 0
  | (c, t) :: cs => (c.recovers s.uuids s.db k).toNat + recoveryClaims k (s.after c t) cs

theorem runs_append (s : TaskSys) (cs ds : List (Call × Time)) :
    s.runs (cs ++ ds) = (s.runs cs).runs ds := by
  induction cs generalizing s with
  | nil => rfl
  | cons c cs ih => exact ih _

theorem recoveryClaims_append (s : TaskSys) (cs ds : List (Call × Time)) :
    recoveryClaims k s (cs ++ ds) = recoveryClaims k s cs + recoveryClaims k (s.runs cs) ds := by
  induction cs generalizing s with
  | nil => exact (Nat.zero_add _).symm
  | cons c cs ih =>
    rw [List.cons_append, recoveryClaims, recoveryClaims, ih, Nat.add_assoc]
    rfl

/-- The counter of a row counts the recoveries of the run, and stays within the limit. -/
theorem spent_runs (cs : List (Call × Time)) (hle : spent (s.db.tasks k) ≤ recoveryLimit) :
    spent ((s.runs cs).db.tasks k) = spent (s.db.tasks k) + recoveryClaims k s cs ∧
      spent ((s.runs cs).db.tasks k) ≤ recoveryLimit := by
  induction cs generalizing s with
  | nil => exact ⟨rfl, hle⟩
  | cons c cs ih =>
    obtain ⟨call, t⟩ := c
    obtain ⟨hspent, hlt⟩ := Call.spent_perform call s.uuids s.db k
    have hle' : spent ((s.after call t).db.tasks k) ≤ recoveryLimit := by
      refine (Nat.le_of_eq hspent).trans ?_
      cases hr : call.recovers s.uuids s.db k with
      | true => exact hlt hr
      | false => exact hle
    obtain ⟨hrest, hbound⟩ := ih hle'
    refine ⟨?_, hbound⟩
    rw [runs, hrest, recoveryClaims, ← Nat.add_assoc]
    exact congrArg (· + _) hspent

theorem idle_runs {cs : List (Call × Time)} (h : Idle (s.db.tasks k)) :
    Idle ((s.runs cs).db.tasks k) := by
  induction cs generalizing s with
  | nil => exact h
  | cons c cs ih => exact ih (Call.idle_perform c.1 s.uuids s.db k h)

theorem waiting_runs {cs : List (Call × Time)} (h : Waiting (s.db.tasks k))
    (hc : ∀ c ∈ cs, c.1.claimsTask k = false) : Waiting ((s.runs cs).db.tasks k) := by
  induction cs generalizing s with
  | nil => exact h
  | cons c cs ih =>
    refine ih ?_ fun d hd => hc d (List.mem_cons_of_mem _ hd)
    exact (Call.otherStep s.uuids s.db (hc c List.mem_cons_self)).waiting h

/-- The human has answered the task, and nobody has claimed it since. -/
def AnsweredIn (k : TaskKey) (s : TaskSys) (cs : List (Call × Time)) : Prop :=
  ∃ before a t after, cs = before ++ (a, t) :: after ∧
    a.answersTask (s.runs before).db k = true ∧ ∀ d ∈ after, d.1.claimsTask k = false

theorem AnsweredIn.waiting {cs : List (Call × Time)} (h : AnsweredIn k s cs)
    (hi : Idle (s.db.tasks k)) : Waiting ((s.runs cs).db.tasks k) := by
  obtain ⟨before, a, t, after, rfl, ha, hafter⟩ := h
  rw [runs_append]
  change Waiting ((((s.runs before).after a t).runs after).db.tasks k)
  exact waiting_runs (Call.waiting_perform ha (idle_runs hi)) hafter

/-- A claim of a task that waits depends on its counter. -/
theorem claim_waiting {env : Access} {row : TaskRow} {goal : String} {messages : List Message}
    {episode : Option ℕ} {criteria : Option Criteria} {t₁ t₂ : Time} (hadmits : Admits env k)
    (hrow : db.tasks k = some row) (hs : row.state = .pending) (hphase : row.phase = .toolDone)
    (huntil : row.leaseUntil = none) :
    (recoveryLimit ≤ row.recoveries →
      TaskStore.claim env k.1 k.2 goal messages episode criteria u t₁ t₂ db =
        .error TaskStore.allowanceExceeded) ∧
    (row.recoveries < recoveryLimit → ∃ db',
      TaskStore.claim env k.1 k.2 goal messages episode criteria u t₁ t₂ db =
        .ok (db', .token u)) := by
  have hleased : row.leased t₁ = false := by rw [TaskRow.leased, huntil]; rfl
  have hstarted : row.phase.started = false := by rw [hphase]; rfl
  simp only [TaskStore.claim, hadmits.key, ensure_true, Access.ownerActive, hadmits.active,
    hadmits.backend, hrow, hleased, hstarted, hs, reduceCtorEq, or_self, if_false,
    Bool.false_eq_true]
  constructor
  · intro hle
    rw [if_pos hle]
    rfl
  · intro hlt
    rw [if_neg (Nat.not_le.2 hlt)]
    exact ⟨_, rfl⟩

/-- **The recovery allowance.**  In every run from a new database at most three claims of a task
follow a crash or an error requeue; a claim that follows a yield or an accepted answer is none of
them; and the claim after an accepted answer is refused for its allowance exactly if three claims
before it were, and takes the task over otherwise. -/
theorem recovery_allowance (hs : s.Initial) (cs : List (Call × Time)) (k : TaskKey) :
    recoveryClaims k s cs ≤ recoveryLimit ∧
    (∀ c t row, (s.runs cs).db.tasks k = some row → row.state = .pending → row.reply = none →
      recoveryClaims k s (cs ++ [(c, t)]) = recoveryClaims k s cs) ∧
    (AnsweredIn k s cs →
      (∀ c t, recoveryClaims k s (cs ++ [(c, t)]) = recoveryClaims k s cs) ∧
      ∀ env goal messages episode criteria u t₁ t₂, Admits env k →
        (∃ row, (s.runs cs).db.tasks k = some row ∧ row.state.terminal = false) →
        (TaskStore.claim env k.1 k.2 goal messages episode criteria u t₁ t₂ (s.runs cs).db =
            .error TaskStore.allowanceExceeded ↔ recoveryLimit ≤ recoveryClaims k s cs) ∧
        ((∃ db', TaskStore.claim env k.1 k.2 goal messages episode criteria u t₁ t₂ (s.runs cs).db =
            .ok (db', .token u)) ↔ recoveryClaims k s cs < recoveryLimit)) := by
  have hempty : s.db.tasks k = none := by rw [hs]; rfl
  have hspent : spent (s.db.tasks k) = 0 := by rw [hempty]; rfl
  have hidle : Idle (s.db.tasks k) := by
    intro row hrow
    rw [hempty] at hrow
    cases hrow
  have hle : spent (s.db.tasks k) ≤ recoveryLimit := by omega
  obtain ⟨hcount, hbound⟩ := spent_runs cs hle
  rw [hspent, Nat.zero_add] at hcount
  -- a row that is pending without a reply, or cancelled, is not recovered
  have hfresh : ∀ c t row, (s.runs cs).db.tasks k = some row →
      row.state = .pending ∧ row.reply = none ∨ row.state = .cancelled →
      recoveryClaims k s (cs ++ [(c, t)]) = recoveryClaims k s cs := by
    intro c t row hrow hstate
    have hno : c.recovers (s.runs cs).uuids (s.runs cs).db k = false := by
      by_contra hr
      obtain ⟨row', hrow', hopen, hrec⟩ := Call.recovers_row (Bool.not_eq_false _ ▸ hr)
      rw [hrow] at hrow'
      obtain rfl := Option.some.inj hrow'
      rcases hstate with ⟨hpend, hreply⟩ | hcancel
      · simp [TaskStore.recovery, hpend, hreply] at hrec
      · rw [hcancel] at hopen
        cases hopen
    rw [recoveryClaims_append, recoveryClaims, recoveryClaims, hno]
    rfl
  refine ⟨hcount ▸ hbound, fun c t row hrow hpend hreply => hfresh c t row hrow (.inl ⟨hpend, hreply⟩),
    fun hanswered => ⟨fun c t => ?_, ?_⟩⟩
  · obtain ⟨row, hrow, -, -, hstate⟩ := hanswered.waiting hidle
    exact hfresh c t row hrow (hstate.imp_left fun h => ⟨h.1, h.2.2⟩)
  · intro env goal messages episode criteria u t₁ t₂ hadmits hopen
    obtain ⟨row, hrow, -, huntil, hstate⟩ := hanswered.waiting hidle
    obtain ⟨row', hrow', hterminal⟩ := hopen
    rw [hrow] at hrow'
    obtain rfl := Option.some.inj hrow'
    obtain ⟨hpend, hphase, -⟩ : row.state = .pending ∧ row.phase = .toolDone ∧ row.reply = none := by
      refine hstate.resolve_right fun hcancel => ?_
      rw [hcancel] at hterminal
      cases hterminal
    rw [hrow, spent_some] at hcount
    obtain ⟨hrefuse, htake⟩ := claim_waiting hadmits hrow hpend hphase huntil
    rw [hcount] at hrefuse htake
    by_cases hle : recoveryLimit ≤ recoveryClaims k s cs
    · rw [hrefuse hle]
      exact ⟨iff_of_true rfl hle, iff_of_false nofun (Nat.not_lt.2 hle)⟩
    · obtain ⟨db', hdb'⟩ := htake (Nat.lt_of_not_le hle)
      rw [hdb']
      exact ⟨iff_of_false nofun hle, iff_of_true ⟨db', rfl⟩ (Nat.lt_of_not_le hle)⟩

/-- A new database. -/
def fresh : TaskSys := ⟨.empty, 0, 0⟩

/-- Workers that fail, each after its claim. -/
def failures (n : ℕ) : List (Call × Time) :=
  (List.range n).flatMap fun i => [(claimAt 0, 0),
    (.finish {} "owner" "task" (2 * i) .pending (some "error") 0, 0)]

/-- After `n` failures a worker asks the human. -/
def question (n : ℕ) : List (Call × Time) :=
  failures n ++ [(claimAt 0, 0),
    (.checkpoint {} "owner" "task" (2 * n) .waitingUser
      { messages := [], suspendedToolCallId := some "call" } none 0, 0),
    (.finish {} "owner" "task" (2 * n) .suspended (some "question") 0, 0)]

/-- The human answers. -/
def reply (n : ℕ) : List (Call × Time) :=
  question n ++ [(.answer {} "owner" "task" "yes", 0)]

theorem reply_answered {n : ℕ} (h : (Call.answer {} "owner" "task" "yes").answersTask
    (fresh.runs (question n)).db ("owner", "task") = true) :
    AnsweredIn ("owner", "task") fresh (reply n) := by
  refine ⟨question n, .answer {} "owner" "task" "yes", 0, [], ?_, h, ?_⟩
  · rw [reply]
  · intro d hd
    cases hd

/-- After three failures the answer is accepted, and the claim that follows it is refused. -/
theorem allowance_refuses_answer :
    AnsweredIn ("owner", "task") fresh (reply 3) ∧ Admits {} ("owner", "task") ∧
    (∃ row, (fresh.runs (reply 3)).db.tasks ("owner", "task") = some row ∧
      row.state.terminal = false ∧ row.leased 0 = false) ∧
    TaskStore.claim {} "owner" "task" "goal" [] none none 10 0 0 (fresh.runs (reply 3)).db =
      .error TaskStore.allowanceExceeded :=
  ⟨reply_answered (by decide), ⟨by decide, rfl, rfl⟩, ⟨_, rfl, rfl, rfl⟩, by rfl⟩

/-- After two failures the claim that follows the answer takes the task over. -/
theorem recovery_allowance_reply :
    ∃ db', TaskStore.claim {} "owner" "task" "goal" [] none none 8 0 0
      (fresh.runs (reply 2)).db = .ok (db', .token 8) :=
  (((recovery_allowance (s := fresh) rfl (reply 2) ("owner", "task")).2.2
    (reply_answered (by decide))).2 {} "goal" [] none none 8 0 0 ⟨by decide, rfl, rfl⟩
    ⟨_, rfl, rfl⟩).2.2 (by decide)

end TaskSys

end PythonAI
