import PythonAI.Temporal.Operations

/-!
# Cancellation is a local fence

Whoever cancels a task, the task is `cancelled` without a lease, and no operation changes that
(`Op.stays_ended`).  Every entry point that acts for the task checks its state inside its own
transaction, so that from then on all of them raise (`Op.acts_open`).

* `Sys.cancellation_fences` : **what a cancellation leaves, and what no operation undoes in any
  later run**: the states of the task and of its submission, and the rows of the ledger;
* `Sys.uncertain_not_cancelled` : a submission that was `uncertain` before is not among them.
-/

namespace PythonAI

open Library

namespace Temporal

variable {o : Op} {u : Token} {db db' : Db} {s s' : Sys} {k : TaskKey}

/-! ### The task -/

/-- The task is cancelled, and nobody holds its lease. -/
def Ended (r : Option TaskRow) : Prop :=
  ∃ row, r = some row ∧ row.state = .cancelled ∧ row.leaseOwner = none

/-- A cancelled task stays cancelled. -/
def Stays (r r' : Option TaskRow) : Prop := Ended r → Ended r'

theorem Stays.refl (r : Option TaskRow) : Stays r r := id

/-- A row that is not cancelled may become anything. -/
theorem Stays.of_ne {row : TaskRow} {r' : Option TaskRow} (h : row.state ≠ .cancelled) :
    Stays (some row) r' := by
  rintro ⟨row', hrow, hstate, -⟩
  cases hrow
  exact absurd hstate h

/-- A row that is leased may become anything. -/
theorem Stays.of_held {row : TaskRow} {r' : Option TaskRow} {token : Token}
    (h : row.leaseOwner = some token) : Stays (some row) r' := by
  rintro ⟨row', hrow, -, hfree⟩
  cases hrow
  rw [h] at hfree; cases hfree

theorem Stays.of_none {r' : Option TaskRow} : Stays none r' := by
  rintro ⟨row, hrow, -⟩
  cases hrow

theorem Stays.of_ended {r r' : Option TaskRow} (h : Ended r') : Stays r r' := fun _ => h

theorem not_terminal_ne {row : TaskRow} (h : row.state.terminal = false) :
    row.state ≠ .cancelled := by
  intro hc
  rw [hc] at h; cases h

theorem renewable_held {row : TaskRow} {token : Token} {t : Time}
    (h : TaskStore.renewable token t row = true) : row.leaseOwner = some token := by
  simp only [TaskStore.renewable, Bool.and_eq_true] at h
  exact (TaskRow.heldBy_iff.1 h.1).1

/-- No call of `TaskStore` brings a cancelled task back. -/
theorem Call.stays (call : Call) (db : TaskDb) (k : TaskKey) :
    Stays (db.tasks k) ((call.perform u db).tasks k) := by
  cases call with
  | claim env owner key goal messages episode criteria t₁ t₂ =>
    refine settle_of (P := fun db' : TaskDb => Stays (db.tasks k) (db'.tasks k)) (.refl _)
      fun db' a h => ?_
    rcases TaskStore.claim_ok h with ⟨row, -, -, hdb, -⟩ | ⟨hrow, -, rfl⟩ |
      ⟨row, hrow, hopen, -, -, -, rfl⟩ | ⟨row, hrow, hopen, -, -, -, -, -, -, rfl⟩
    · rw [hdb]; exact .refl _
    · exact TaskStore.set_cases .refl (hrow ▸ .of_none) k
    · exact TaskStore.set_cases .refl (hrow ▸ .of_ne (not_terminal_ne hopen)) k
    · exact TaskStore.set_cases .refl (hrow ▸ .of_ne (not_terminal_ne hopen)) k
  | renew owner key token t₁ t₂ =>
    exact TaskStore.update_cases .refl (fun row hp => .of_held (renewable_held hp)) k
  | checkpoint env owner key token phase data step t =>
    refine settle_of (P := fun db' : TaskDb => Stays (db.tasks k) (db'.tasks k)) (.refl _)
      fun db' a h => ?_
    obtain ⟨-, rfl⟩ := TaskStore.checkpoint_ok h
    exact TaskStore.update_cases .refl (fun row hp => .of_held (renewable_held hp)) k
  | finish env owner key token state reply t =>
    refine settle_of (P := fun db' : TaskDb => Stays (db.tasks k) (db'.tasks k)) (.refl _)
      fun db' a h => ?_
    obtain ⟨-, rfl⟩ := TaskStore.finish_ok h
    exact TaskStore.update_cases .refl
      (fun row hp => .of_held (TaskRow.heldBy_iff.1 hp).1) k
  | answer env owner key text =>
    refine settle_of (P := fun db' : TaskDb => Stays (db.tasks k) (db'.tasks k)) (.refl _)
      fun db' a h => ?_
    obtain ⟨row, call, hrow, hsus, -, rfl⟩ := TaskStore.answer_ok h
    exact TaskStore.set_cases .refl (hrow ▸ .of_ne (by rw [hsus]; intro h; cases h)) k
  | resolve env owner key callId text =>
    refine settle_of (P := fun db' : TaskDb => Stays (db.tasks k) (db'.tasks k)) (.refl _)
      fun db' a h => ?_
    obtain ⟨row, step, hrow, hunc, -, -, -, rfl⟩ := TaskStore.resolve_ok h
    exact TaskStore.set_cases .refl (hrow ▸ .of_ne (by rw [hunc]; intro h; cases h)) k
  | cancel owner key =>
    exact TaskStore.update_cases .refl
      (fun row hp => .of_ne (not_terminal_ne (by simpa using hp))) k
  | cancelSession owner t =>
    show Stays (db.tasks k) (db.tasks.updateWhere
      (fun k row => k.1 = owner && !row.state.terminal) (TaskStore.stop "Session cleared") k)
    rcases db.tasks.updateWhere_cases (TaskStore.stop "Session cleared")
      (fun k row => k.1 = owner && !row.state.terminal) k with hs | ⟨row, hrow, hp, hs⟩
    · rw [hs]; exact .refl _
    · rw [Bool.and_eq_true] at hp
      rw [hs, hrow]
      exact .of_ne (not_terminal_ne (by simpa using hp.2))
  | markUncertain owner key t =>
    refine TaskStore.update_cases .refl (fun row hp => .of_ne ?_) k
    simp only [TaskStore.lapsed, Bool.and_eq_true, decide_eq_true_eq] at hp
    rw [hp.1]; intro h; cases h
  | bindWorkspace env owner key token repository storage =>
    refine settle_of (P := fun db' : TaskDb => Stays (db.tasks k) (db'.tasks k)) (.refl _)
      fun db' a h => ?_
    rw [(TaskStore.bindWorkspace_ok h).1]; exact .refl _

theorem performTask_base (call : Call) (db : Db) :
    (performTask u db call).base = call.perform u db.base := by
  cases call <;> rfl

/-- A ledger in scope is not one of a cancelled task. -/
theorem Ledger.InScope.not_ended {c : Caller} {l : Ledger} {active : Bool}
    (h : InScope c l active db) : ¬ Ended (db.task l.taskKey) := by
  obtain ⟨row, hrow, hne⟩ := h.not_cancelled
  rintro ⟨row', hrow', hstate, -⟩
  rw [hrow] at hrow'; cases hrow'
  exact hne hstate

/-- A write to the task of a ledger in scope. -/
theorem Ledger.InScope.stays {c : Caller} {l : Ledger} {active : Bool} {db₁ : Db}
    (h : InScope c l active db) (hother : k ≠ l.taskKey → db₁.task k = db.task k) :
    Stays (db.task k) (db₁.task k) := by
  by_cases hk : k = l.taskKey
  · subst hk
    exact fun hend => absurd hend h.not_ended
  · rw [hother hk]; exact .refl _

/-- **No operation brings a cancelled task back.** -/
theorem Op.stays (h : o.attempt u db = .ok db') (k : TaskKey) :
    Stays (db.task k) (db'.task k) := by
  cases o with
  | task call =>
    cases h
    show Stays (db.base.tasks k) ((performTask u db call).base.tasks k)
    rw [performTask_base]
    exact Call.stays call db.base k
  | bind env owner task requested admitted =>
    obtain ⟨out, h⟩ := outcome_eq_ok.1 h
    obtain ⟨bindings, rfl⟩ := Store.bind_ok h
    exact .refl _
  | submit env owner task messages context role settings contract authorized criteria =>
    obtain ⟨out, h⟩ := outcome_eq_ok.1 h
    obtain rfl | ⟨row, new, contracts, protocols, -, hnone, rfl⟩ := Store.submit_ok h
    · exact .refl _
    · replace hnone : db.base.tasks row.taskKey = none := hnone
      exact TaskStore.set_cases .refl (hnone ▸ .of_none) k
  | dispatched key error =>
    cases h
    exact .refl _
  | claim env key settings =>
    obtain ⟨out, h⟩ := outcome_eq_ok.1 h
    obtain ⟨row, -, -, rfl⟩ := Store.claim_ok h
    exact .refl _
  | finish env key fence state result =>
    obtain ⟨out, h⟩ := outcome_eq_ok.1 h
    obtain ⟨row, -, -, rfl⟩ := Store.finish_ok h
    exact .refl _
  | cancel key owner =>
    obtain ⟨out, h⟩ := outcome_eq_ok.1 h
    obtain ⟨row, -, -, rfl⟩ := Store.cancel_ok h
    exact Call.stays (u := u) (.cancel owner row.task) db.base k
  | workflowFailed key owner error =>
    obtain ⟨out, h⟩ := outcome_eq_ok.1 h
    obtain rfl | ⟨k', reply, row, rfl⟩ := Store.workflowFailed_ok h
    · exact .refl _
    · exact TaskStore.update_cases .refl
        (fun row hp => .of_ne (not_terminal_ne (by simpa using hp))) k
  | failBudgetBeforeStart key owner =>
    obtain ⟨out, h⟩ := outcome_eq_ok.1 h
    obtain ⟨k', rfl | ⟨result, reply, rfl⟩⟩ := Store.failBudgetBeforeStart_ok h
    · exact .refl _
    · refine TaskStore.update_cases .refl (fun task hp => .of_ne ?_) k
      rw [show task.state = .pending by simpa using hp]; intro h; cases h
  | prepare env c l step kind arguments =>
    obtain ⟨out, h⟩ := outcome_eq_ok.1 h
    obtain ⟨-, -, ⟨-, rfl, -⟩ | ⟨-, -, rfl, rfl⟩⟩ := Ledger.prepare_ok h <;> exact .refl _
  | start env c l step =>
    obtain ⟨out, h⟩ := outcome_eq_ok.1 h
    obtain ⟨-, -, ⟨-, -, rfl⟩ | ⟨row, -, -, -, rfl, rfl⟩⟩ := Ledger.claim_ok h <;> exact .refl _
  | uncertain env c l step fence =>
    obtain ⟨out, h⟩ := outcome_eq_ok.1 h
    obtain ⟨-, -, rfl⟩ := Ledger.uncertain_ok h
    exact .refl _
  | reject env c l step =>
    obtain ⟨out, h⟩ := outcome_eq_ok.1 h
    obtain ⟨-, -, rfl⟩ := Ledger.reject_ok h
    exact .refl _
  | complete env c l step fence result evidence =>
    obtain ⟨out, h⟩ := outcome_eq_ok.1 h
    obtain ⟨-, -, row, -, -, -, -, rfl⟩ := Ledger.complete_ok h
    exact .refl _
  | bootstrapClaim env key settings =>
    obtain ⟨out, h⟩ := outcome_eq_ok.1 h
    obtain ⟨row, -, -, rfl | ⟨-, rfl⟩⟩ := StepStore.bootstrapClaim_ok h <;> exact .refl _
  | bootstrap env c l key =>
    obtain ⟨out, h⟩ := outcome_eq_ok.1 h
    obtain ⟨rfl, -, ⟨-, -, -, rfl⟩ | ⟨value, -, -, -, rfl⟩⟩ := StepStore.bootstrap_ok h <;>
      exact .refl _
  | claimStep env c l cursor =>
    obtain ⟨out, h⟩ := outcome_eq_ok.1 h
    obtain ⟨-, -, run, -, ⟨-, rfl, -⟩ | ⟨-, -, rfl⟩⟩ := StepStore.claim_ok h <;> exact .refl _
  | commit env c l cursor fence kind t =>
    obtain ⟨out, h⟩ := outcome_eq_ok.1 h
    obtain ⟨-, -, run, -, ⟨-, rfl, -⟩ | ⟨value, hdone⟩⟩ := StepStore.commit_ok h
    · exact .refl _
    · obtain ⟨answers, rfl⟩ := hdone.db_eq
      exact .refl _
  | recover env c l cursor t =>
    obtain ⟨out, h⟩ := outcome_eq_ok.1 h
    obtain ⟨-, hscope, run, -, ⟨-, rfl, -⟩ | ⟨-, rfl, -⟩ | ⟨value, db₁, hdb₁, hdone⟩ |
      ⟨task, operation, -, -, -, -, -, rfl⟩⟩ := StepStore.recover_ok h
    · exact .refl _
    · exact .refl _
    · obtain ⟨answers, rfl⟩ := hdone.db_eq
      rcases hdb₁ with rfl | rfl
      · exact .refl _
      · exact hscope.stays fun hk => Table.update_of_ne _ _ _ _ hk
    · exact hscope.stays fun hk => Table.update_of_ne _ _ _ _ hk
  | human env c l cursor t₁ t₂ =>
    obtain ⟨out, h⟩ := outcome_eq_ok.1 h
    obtain ⟨-, -, hscope, run, -, ⟨-, rfl, -⟩ | ⟨-, rfl, -⟩ | ⟨task, task', value, db₁, db₂,
      answers, -, -, -, -, -, rfl, hdone, rfl⟩⟩ := StepStore.human_ok h
    · exact .refl _
    · exact .refl _
    · obtain ⟨answers, rfl⟩ := hdone.db_eq
      exact hscope.stays fun hk => Table.set_of_ne _ _ _ hk
  | answer env key owner callId text revision t =>
    obtain ⟨out, h⟩ := outcome_eq_ok.1 h
    obtain ⟨-, answers, rfl⟩ := Decisions.answer_ok h
    exact .refl _
  | append env c key row eventKey kind payload terminal budget =>
    obtain ⟨out, h⟩ := outcome_eq_ok.1 h
    obtain ⟨-, events, rfl⟩ := append_ok h
    exact .refl _
  | finalized key =>
    cases h
    exact .refl _
  | erase env key reason =>
    simp only [Op.attempt, bind_eq_ok, outcome_eq_ok] at h
    obtain ⟨row, -, out, h⟩ := h
    obtain rfl | ⟨erased, erasures, rfl⟩ := prepareErasure_ok h
    · exact .refl _
    · exact TaskStore.update_cases .refl (fun task _ => .of_ended ⟨_, rfl, rfl, rfl⟩) k

/-! ### The entry points -/

/-- The operation acts for the task `k`: it starts or ends its submission, uses its ledger or its
steps, answers it, or publishes an event that is not terminal. -/
def Op.acts (db : Db) (k : TaskKey) : Op → Prop
  | .claim _ key _ | .finish _ key _ _ _ | .bootstrapClaim _ key _ | .answer _ key _ _ _ _ _ =>
    ∃ row, db.submissions key = some row ∧ row.taskKey = k
  | .prepare _ _ l _ _ _ | .start _ _ l _ | .uncertain _ _ l _ _ | .reject _ _ l _
  | .complete _ _ l _ _ _ _ | .bootstrap _ _ l _ | .claimStep _ _ l _ | .commit _ _ l _ _ _ _
  | .recover _ _ l _ _ | .human _ _ l _ _ _ => l.taskKey = k
  | .append _ _ _ row _ _ _ terminal _ => row.taskKey = k ∧ terminal = false
  | _ => False

/-- **Whatever acts for a task finds it, and finds it not cancelled.** -/
theorem Op.acts_found (h : o.attempt u db = .ok db') (ha : o.acts db k) :
    ∃ task, db.task k = some task ∧ task.state ≠ .cancelled := by
  -- The submission that the operation read is the one of the task.
  have sub : ∀ {key : SubmissionId} {row : Submission}, db.submissions key = some row →
      (∃ row, db.submissions key = some row ∧ row.taskKey = k) →
      (∃ task, db.task row.taskKey = some task ∧ task.state ≠ .cancelled) →
      ∃ task, db.task k = some task ∧ task.state ≠ .cancelled := by
    rintro key row hrow ⟨row', hrow', rfl⟩ htask
    rw [hrow] at hrow'; cases hrow'
    exact htask
  cases o with
  | claim env key settings =>
    obtain ⟨out, h⟩ := outcome_eq_ok.1 h
    obtain ⟨row, hrow, htask, -⟩ := Store.claim_ok h
    exact sub hrow ha htask
  | finish env key fence state result =>
    obtain ⟨out, h⟩ := outcome_eq_ok.1 h
    obtain ⟨row, hrow, htask, -⟩ := Store.finish_ok h
    exact sub hrow ha htask
  | bootstrapClaim env key settings =>
    obtain ⟨out, h⟩ := outcome_eq_ok.1 h
    obtain ⟨row, hrow, htask, -⟩ := StepStore.bootstrapClaim_ok h
    exact sub hrow ha htask
  | answer env key owner callId text revision t =>
    obtain ⟨out, h⟩ := outcome_eq_ok.1 h
    obtain ⟨⟨row, task, hrow, -, htask, hne⟩, -⟩ := Decisions.answer_ok h
    exact sub hrow ha ⟨task, htask, hne⟩
  | prepare env c l step kind arguments =>
    obtain ⟨out, h⟩ := outcome_eq_ok.1 h
    exact ha ▸ (Ledger.prepare_ok h).1.not_cancelled
  | start env c l step =>
    obtain ⟨out, h⟩ := outcome_eq_ok.1 h
    exact ha ▸ (Ledger.claim_ok h).1.not_cancelled
  | uncertain env c l step fence =>
    obtain ⟨out, h⟩ := outcome_eq_ok.1 h
    exact ha ▸ (Ledger.uncertain_ok h).1.not_cancelled
  | reject env c l step =>
    obtain ⟨out, h⟩ := outcome_eq_ok.1 h
    exact ha ▸ (Ledger.reject_ok h).1.not_cancelled
  | complete env c l step fence result evidence =>
    obtain ⟨out, h⟩ := outcome_eq_ok.1 h
    exact ha ▸ (Ledger.complete_ok h).1.not_cancelled
  | bootstrap env c l key =>
    obtain ⟨out, h⟩ := outcome_eq_ok.1 h
    exact ha ▸ (StepStore.bootstrap_ok h).2.1.not_cancelled
  | claimStep env c l cursor =>
    obtain ⟨out, h⟩ := outcome_eq_ok.1 h
    exact ha ▸ (StepStore.claim_ok h).2.1.not_cancelled
  | commit env c l cursor fence kind t =>
    obtain ⟨out, h⟩ := outcome_eq_ok.1 h
    exact ha ▸ (StepStore.commit_ok h).2.1.not_cancelled
  | recover env c l cursor t =>
    obtain ⟨out, h⟩ := outcome_eq_ok.1 h
    exact ha ▸ (StepStore.recover_ok h).2.1.not_cancelled
  | human env c l cursor t₁ t₂ =>
    obtain ⟨out, h⟩ := outcome_eq_ok.1 h
    exact ha ▸ (StepStore.human_ok h).2.2.1.not_cancelled
  | append env c key row eventKey kind payload terminal budget =>
    obtain ⟨out, h⟩ := outcome_eq_ok.1 h
    obtain ⟨rfl, hterminal⟩ := ha
    exact (append_ok h).1 hterminal
  | task | bind | submit | dispatched | cancel | workflowFailed | failBudgetBeforeStart
  | finalized | erase => exact ha.elim

theorem Op.acts_open (h : o.attempt u db = .ok db') (ha : o.acts db k) : ¬ Ended (db.task k) := by
  obtain ⟨task, htask, hne⟩ := Op.acts_found h ha
  rintro ⟨task', htask', hstate, -⟩
  rw [htask] at htask'; cases htask'
  exact hne hstate

/-! ### The cancellation -/

/-- The operation cancels the task `k`: `TaskStore.cancel`, `cancel_session` or `Store.cancel`. -/
def Op.cancels (db : Db) (k : TaskKey) : Op → Prop
  | .task (.cancel owner key) => (owner, key) = k
  | .task (.cancelSession owner _) => k.1 = owner
  | .cancel key owner => ∃ row, db.submissions key = some row ∧ row.owner = owner ∧ row.taskKey = k
  | _ => False

theorem stop_ended (reply : String) (row : TaskRow) : Ended (some (TaskStore.stop reply row)) :=
  ⟨_, rfl, rfl, rfl⟩

/-- **A cancellation of an open task** stops the task and requests the cancellation of its
submission in the same transaction. -/
theorem Op.cancels_attempt (h : o.cancels db k) {row : TaskRow} (hrow : db.task k = some row)
    (hopen : row.state.terminal = false) :
    ∃ p base, o.attempt u db = .ok (request p { db with base := base }) ∧ p k = true ∧
      Ended (base.tasks k) := by
  replace hrow : db.base.tasks k = some row := hrow
  have hsel : (!row.state.terminal) = true := by rw [hopen]; rfl
  have cancel : ∀ owner key, (owner, key) = k →
      Ended ((TaskStore.cancel owner key db.base).1.tasks k) := by
    rintro owner key rfl
    show Ended (Table.update _ _ _ _ _)
    rw [Table.update_of_selects _ _ _ _ hrow hsel]
    exact stop_ended ..
  cases o with
  | task call =>
    cases call with
    | cancel owner key => exact ⟨_, _, rfl, decide_eq_true h.symm, cancel owner key h⟩
    | cancelSession owner t =>
      have howner : k.1 = owner := h
      refine ⟨_, _, rfl, decide_eq_true howner, ?_⟩
      show Ended ((db.base.tasks.updateWhere (fun k row => k.1 = owner && !row.state.terminal)
        (TaskStore.stop "Session cleared")) k)
      rw [Table.updateWhere_apply, hrow, Option.map_some, hsel, decide_eq_true howner]
      exact stop_ended ..
    | _ => exact h.elim
  | cancel key owner =>
    obtain ⟨sub, hsub, rfl, rfl⟩ := h
    refine ⟨(· = (sub.owner, sub.task)), _, ?_, decide_eq_true rfl, cancel sub.owner sub.task rfl⟩
    have hget : get key (some sub.owner) db = .ok sub := by
      rw [get, require_eq_ok, Option.filter_eq_some_iff]
      exact ⟨hsub, by simp⟩
    show outcome (Store.cancel key sub.owner db) = _
    rw [Store.cancel, hget]
    rfl
  | _ => exact h.elim

variable (db) in
/-- What a request does for the submission of a cancelled task. -/
theorem request_fences {p : TaskKey → Bool} {key : SubmissionId} {sub : Submission}
    (hsub : db.submissions key = some sub) (hof : db.submissionOf sub.taskKey = some sub)
    (hp : p sub.taskKey = true) (hend : Ended (db.task sub.taskKey))
    (hcan : cancellable sub.state = true) :
    (request p db).submissions key = some { sub with state := .cancelled } ∧
      ∀ step, (request p db).operations (sub.taskKey, step) =
        (db.operations (sub.taskKey, step)).map fun op =>
          if op.state = .prepared || op.state = .running then fenced op else op := by
  have hreq : requested p db sub = true := by
    obtain ⟨row, hrow, hstate, -⟩ := hend
    simp [requested, hp, hcan, hrow, hstate]
  refine ⟨?_, fun step => ?_⟩
  · show (db.submissions.updateWhere (fun _ row => requested p db row) _) key = _
    rw [Table.updateWhere_apply, hsub, Option.map_some, hreq]; rfl
  · show (fenceOperations (fun k => (db.submissionOf k).any (requested p db)) db.operations)
      (sub.taskKey, step) = _
    rw [fenceOperations, Table.updateWhere_apply]
    simp only [hof, Option.any_some, hreq, Bool.true_and]

/-- A halted submission stays what it is, unless a retention job fences it for erasure. -/
theorem Sys.halted_stays {os : List Op} (h : Sys.lts.Run s os s') (hi : Indexed s)
    {key : SubmissionId} {sub : Submission} (hsub : s.db.submissions key = some sub)
    (hh : sub.state.halted = true) :
    ∃ sub', s'.db.submissions key = some sub' ∧
      (sub'.state = sub.state ∨ sub'.state = .erasing ∧ ∃ o ∈ os, o.erases = true) := by
  induction h generalizing sub with
  | nil => exact ⟨sub, hsub, .inl rfl⟩
  | cons hst hrun ih =>
    obtain ⟨sub₁, hsub₁, hkept⟩ := hi.kept hst hsub
    rcases hkept.halted hh with hsame | ⟨herase, herasing⟩
    · obtain ⟨sub₂, hsub₂, hlast⟩ := ih (hi.step hst) hsub₁ (hsame ▸ hh)
      refine ⟨sub₂, hsub₂, ?_⟩
      rcases hlast with hlast | ⟨hlast, o, ho, he⟩
      · exact .inl (hlast.trans hsame)
      · exact .inr ⟨hlast, o, List.mem_cons_of_mem _ ho, he⟩
    · obtain ⟨sub₂, hsub₂, hlast⟩ := ih (hi.step hst) hsub₁ (by rw [herasing]; rfl)
      refine ⟨sub₂, hsub₂, .inr ⟨?_, _, List.mem_cons_self, herase⟩⟩
      rcases hlast with hlast | ⟨hlast, -⟩
      · exact hlast.trans herasing
      · exact hlast

theorem Sys.ended_stays {os : List Op} (h : Sys.lts.Run s os s') (hend : Ended (s.db.task k)) :
    Ended (s'.db.task k) := by
  refine h.preserves (P := fun s => Ended (s.db.task k)) (fun s o s' hs hst => ?_) hend
  cases hst
  exact commit_of (P := fun db : Db => Ended (db.task k)) hs fun db' hok => Op.stays hok k hs

/-- **Cancellation is a total local fence.**  A cancellation of a task that is not terminal leaves
the task cancelled, and its submission too if that was pending, dispatched, running or cancelled;
then each operation of the task that was prepared is rejected and each running one is uncertain.
From then on, in every run, the task stays cancelled, a cancelled submission stays cancelled unless
it is fenced for erasure, and every operation that acts for the task raises and changes nothing. -/
theorem Sys.cancellation_fences (h : Sys.lts.Reachable Sys.Initial s) (hst : Sys.lts.step s o s')
    (ho : o.cancels s.db k) {row : TaskRow} (hrow : s.db.task k = some row)
    (hopen : row.state.terminal = false) :
    (∃ row', s'.db.task k = some row' ∧ row'.state = .cancelled) ∧
    (∀ key sub, s.db.submissions key = some sub → sub.taskKey = k →
      cancellable sub.state = true →
      s'.db.submissions key = some { sub with state := .cancelled } ∧
      ∀ step op, s.db.operations (k, step) = some op →
        (op.state = .prepared →
          s'.db.operations (k, step) = some { op with state := .rejectedNoEffect }) ∧
        (op.state = .running →
          s'.db.operations (k, step) = some { op with state := .uncertain })) ∧
    ∀ os s₂, Sys.lts.Run s' os s₂ →
      (∃ row₂, s₂.db.task k = some row₂ ∧ row₂.state = .cancelled) ∧
      (∀ key sub, s'.db.submissions key = some sub → sub.state = .cancelled →
        ∃ sub₂, s₂.db.submissions key = some sub₂ ∧ (sub₂.state = .cancelled ∨
          sub₂.state = .erasing ∧ ∃ o ∈ os, o.erases = true)) ∧
      ∀ (o₂ : Op) (u : Token), o₂.acts s₂.db k →
        (∃ e, o₂.attempt u s₂.db = .error e) ∧ o₂.perform u s₂.db = s₂.db := by
  have hi := indexed_reachable h
  obtain ⟨p, base, hok, hp, hend⟩ :=
    Op.cancels_attempt (u := s.uuids) ho hrow hopen
  have hdb : s'.db = request p { s.db with base := base } := by
    cases hst
    show commit s.db (o.attempt s.uuids s.db) = _
    rw [hok]; rfl
  have hend' : Ended (s'.db.task k) := by rw [hdb]; exact hend
  refine ⟨?_, fun key sub hsub hkey hcan => ?_, fun os s₂ hrun => ⟨?_, ?_, ?_⟩⟩
  · obtain ⟨row', hrow', hstate, -⟩ := hend'
    exact ⟨row', hrow', hstate⟩
  · subst hkey
    have hof : s.db.submissionOf sub.taskKey = some sub := by
      rw [Db.submissionOf, hi.named key sub hsub]; exact hsub
    obtain ⟨hcancelled, hops⟩ := request_fences { s.db with base := base } hsub hof hp hend hcan
    rw [hdb]
    refine ⟨hcancelled, fun step op hop => ?_⟩
    have hmap := hops step
    rw [hop, Option.map_some] at hmap
    refine ⟨fun hstate => ?_, fun hstate => ?_⟩
    · rw [hmap, if_pos (by simp [hstate]), fenced, if_pos hstate]
    · rw [hmap, if_pos (by simp [hstate]), fenced, if_neg (by rw [hstate]; intro h; cases h)]
  · obtain ⟨row₂, hrow₂, hstate, -⟩ := Sys.ended_stays hrun hend'
    exact ⟨row₂, hrow₂, hstate⟩
  · intro key sub hsub hstate
    obtain ⟨sub₂, hsub₂, hlast⟩ := Sys.halted_stays hrun (hi.step hst) hsub (by rw [hstate]; rfl)
    rw [hstate] at hlast
    exact ⟨sub₂, hsub₂, hlast⟩
  · intro o₂ u hacts
    have hended := Sys.ended_stays hrun hend'
    cases hr : o₂.attempt u s₂.db with
    | error e => exact ⟨⟨e, rfl⟩, by rw [Op.perform, hr]; rfl⟩
    | ok db' => exact absurd hended (Op.acts_open hr hacts)

namespace Sample

/-- A task with a running submission and a prepared model call. -/
def prepared : List Op :=
  opening ++ [.prepare {} caller ledger "model:1:attempt:1" .model "{}"]

/-- The prepared model call. -/
def preparedRow : Operation :=
  { kind := .model, arguments := ⟨ledger.scope, .model, "{}"⟩, state := .prepared }

theorem preparedRow_stored :
    (start.runs prepared).db.operations (("o", "t"), "model:1:attempt:1") = some preparedRow := by
  decide

end Sample

/-- The cancellation of a task with a running submission and a prepared model call. -/
theorem Sys.cancellation_fences_prepared :
    ((Sample.start.runs Sample.prepared).after (.cancel 2 "o")).db.operations
        (("o", "t"), "model:1:attempt:1") =
      some { Sample.preparedRow with state := .rejectedNoEffect } ∧
    (Op.start {} Sample.caller Sample.ledger "model:1:attempt:1").perform 30
        ((Sample.start.runs Sample.prepared).after (.cancel 2 "o")).db =
      ((Sample.start.runs Sample.prepared).after (.cancel 2 "o")).db := by
  have hopen : ((Sample.start.runs Sample.prepared).db.task ("o", "t")).map (·.state.terminal) =
      some false := by
    decide
  obtain ⟨row, hrow, hterm⟩ := Option.map_eq_some_iff.1 hopen
  have hsub : ((Sample.start.runs Sample.prepared).db.submissions 2).map
      (fun sub => (sub.owner, sub.task, sub.state)) = some ("o", "t", .running) := by
    decide
  obtain ⟨sub, hsub, hfields⟩ := Option.map_eq_some_iff.1 hsub
  simp only [Prod.mk.injEq] at hfields
  obtain ⟨howner, htask, hstate⟩ := hfields
  have hkey : sub.taskKey = ("o", "t") := by rw [Submission.taskKey, howner, htask]
  obtain ⟨-, hfenced, hlater⟩ := Sys.cancellation_fences (Sample.reachable Sample.prepared)
    (Sys.step_after _ (.cancel 2 "o")) ⟨sub, hsub, howner, hkey⟩ hrow hterm
  exact ⟨((hfenced 2 sub hsub hkey (by rw [hstate]; rfl)).2 _ _ Sample.preparedRow_stored).1 rfl,
    ((hlater [] _ (.nil _)).2.2 (.start {} Sample.caller Sample.ledger "model:1:attempt:1") 30
      rfl).2⟩

/-- A workflow that failed leaves its submission and its task uncertain; the cancellation of that
task does not reach the submission. -/
theorem Sys.uncertain_not_cancelled :
    let s := Sample.start.runs (Sample.opening ++ [.workflowFailed 2 "o" "TERMINATED"])
    let o := Op.task (.cancel "o" "t")
    Sys.lts.Reachable Sys.Initial s ∧ Sys.lts.step s o (s.after o) ∧
    o.cancels s.db ("o", "t") ∧ s.db.bindings ("o", "t") = some .temporal ∧
    (s.db.task ("o", "t")).map (·.state) = some .uncertain ∧
    ((s.after o).db.task ("o", "t")).map (·.state) = some .cancelled ∧
    ((s.after o).db.submissions 2).map (fun sub => (sub.taskKey, sub.state)) =
      some (("o", "t"), .uncertain) :=
  ⟨Sample.reachable _, rfl, rfl, by decide, by decide, by decide,
    by decide⟩

end Temporal

end PythonAI
