import PythonAI.Temporal.Submissions

/-!
# What has ended stays as it is

* `RowStep.unchanged` : a submission that has ended keeps its state, its result and its fence, until
  it is fenced for erasure;
* `Op.publishes` : the journal of a submission only grows at its end, by `append`, and a
  finalization that is recorded is only changed by `finalized`.
-/

namespace PythonAI

open Library

namespace Temporal

variable {o : Op} {u : Token} {db db' : Db} {key : SubmissionId} {row row' : Submission}

/-- `'final:'+str(VERSION)`, the key of the final event. -/
def finalKey : String := "final:1"

/-! ### Submissions that have ended -/

/-- The state, the result and the fence are the same. -/
structure Settled (row row' : Submission) : Prop where
  state : row'.state = row.state
  result : row'.result = row.result
  fence : row'.fence = row.fence

theorem Settled.refl (row : Submission) : Settled row row := ⟨rfl, rfl, rfl⟩

/-- **A submission that has ended stays as it is**, until it is fenced for erasure. -/
theorem RowStep.unchanged (h : RowStep o row row') (hend : Store.live row = false) :
    Settled row row' ∨ o.erases = true ∧ row'.state = .erasing := by
  cases h with
  | same => exact .inl (.refl row)
  | moved _ hlive => rw [hend] at hlive; cases hlive
  | cancelled h =>
    refine .inl ⟨?_, rfl, rfl⟩
    cases hs : row.state <;> simp [hs, cancellable, Store.live, Store.queued] at h hend ⊢
  | erased u h => exact .inr ⟨h, rfl⟩

/-- What has ended does not run again. -/
theorem RowStep.ended (h : RowStep o row row') (hend : Store.live row = false) :
    Store.live row' = false := by
  rcases h.unchanged hend with hsame | ⟨-, herasing⟩
  · rw [Store.live, Store.queued] at hend ⊢
    rw [hsame.state]
    exact hend
  · rw [Store.live, Store.queued, herasing]; rfl

theorem eventStates_ended (h : eventStates true row.state = true) : Store.live row = false := by
  rw [Store.live, Store.queued]
  cases hs : row.state <;> simp [hs, eventStates] at h ⊢

theorem eventStates_running (h : eventStates false row.state = true) :
    Store.live row = true := by
  rw [Store.live, Store.queued]
  cases hs : row.state <;> simp [hs, eventStates] at h ⊢

/-! ### The journal -/

/-- The submission under `key` takes an event of a caller that holds `row`. -/
def Takes (db : Db) (key : SubmissionId) (row : Submission) (terminal : Bool) : Prop :=
  ∃ now, db.submissions key = some now ∧ now.fence = row.fence ∧
    eventStates terminal now.state = true

/-- **Inversion of `append`.**  It finds the event in the journal, or adds it at the end. -/
theorem append_journal {env : Access} {c : Caller} {eventKey kind payload : String}
    {terminal : Bool} {budget : Except Error Unit} {out : Unit}
    (h : append env c key row eventKey kind payload terminal budget db = .ok (db', out)) :
    Takes db key row terminal ∧
      ((db' = db ∧ ∃ e ∈ db.events key, e.key = eventKey ∧ e.kind = kind ∧ e.payload = payload) ∨
        (∀ e ∈ db.events key, e.key ≠ eventKey) ∧
          ∃ target, row.scope.context.publication = some target ∧
            db' = { db with events := Function.update db.events key (db.events key ++
              [⟨eventKey, kind, payload, eventDelivery kind target⟩]) }) := by
  simp only [append, bind_eq_ok, require_eq_ok, ensure_eq_ok, Bool.and_eq_true,
    decide_eq_true_eq] at h
  obtain ⟨-, -, cancelled, -, -, -, -, -, -, -, -, -, -, -, now, hnow, task, -, -,
    ⟨⟨hfence, hstate⟩, -⟩, h⟩ := h
  refine ⟨⟨now, hnow, hfence, hstate⟩, ?_⟩
  split at h
  next old hold =>
    simp only [bind_eq_ok, ensure_eq_ok, pure_eq_ok, Prod.mk.injEq, Bool.and_eq_true,
      decide_eq_true_eq] at h
    obtain ⟨-, ⟨hkind, hpayload⟩, rfl, -⟩ := h
    exact .inl ⟨rfl, old, List.mem_of_find?_eq_some hold, by simpa using List.find?_some hold,
      hkind, hpayload⟩
  next hnone =>
    simp only [bind_eq_ok, require_eq_ok, pure_eq_ok, Prod.mk.injEq] at h
    obtain ⟨-, -, target, htarget, rfl, -⟩ := h
    exact .inr ⟨fun e he => by simpa using List.find?_eq_none.1 hnone e he, target, htarget, rfl⟩

/-- The finalization is what it was, or is recorded as pending. -/
def Intends (r r' : Option Bool) : Prop := r' = r ∨ r = none ∧ r' = some false

theorem Intends.or (r : Option Bool) (p : Option Submission) :
    Intends r (r.or (p.bind fun row => row.scope.context.publication.map fun _ => false)) := by
  cases r with
  | some b => exact .inl rfl
  | none =>
    cases p with
    | none => exact .inl rfl
    | some row =>
      show Intends none (row.scope.context.publication.map fun _ => false)
      cases row.scope.context.publication with
      | none => exact .inl rfl
      | some target => exact .inr ⟨rfl, rfl⟩

theorem finalIntent_intends (key : SubmissionId) (row : Submission) (t : Table SubmissionId Bool)
    (k : SubmissionId) : Intends (t k) (finalIntent key row t k) := by
  unfold finalIntent
  split_ifs with hnew
  · simp only [Bool.and_eq_true, Option.isNone_iff_eq_none] at hnew
    rw [Table.set_apply]
    split_ifs with hk
    · rw [hk]; exact .inr ⟨hnew.2, rfl⟩
    · exact .inl rfl
  · exact .inl rfl

/-- The operation adds the event `e` to the journal of `key`. -/
inductive Adds : Op → Db → SubmissionId → Event → Prop
  | intro {db : Db} {key : SubmissionId} {row : Submission} (env : Access) (c : Caller)
      (eventKey kind payload : String) (terminal : Bool) (budget : Except Error Unit)
      (target : Publication) (htakes : Takes db key row terminal)
      (hnew : ∀ e ∈ db.events key, e.key ≠ eventKey)
      (htarget : row.scope.context.publication = some target) :
      Adds (.append env c key row eventKey kind payload terminal budget) db key
        ⟨eventKey, kind, payload, eventDelivery kind target⟩

/-- What an operation does to the journals and the finalizations. -/
inductive Publishes (o : Op) (db db' : Db) : Prop
  /-- it records finalizations as pending -/
  | intends (hevents : db'.events = db.events)
      (hfinal : ∀ k, Intends (db.finalizations k) (db'.finalizations k))
  /-- it adds an event -/
  | adds (key : SubmissionId) (e : Event) (hadds : Adds o db key e)
      (hevents : db'.events = Function.update db.events key (db.events key ++ [e]))
      (hsubs : db'.submissions = db.submissions) (hfinal : db'.finalizations = db.finalizations)
  /-- it completes a finalization -/
  | finalized (key : SubmissionId) (ho : o = .finalized key) (hevents : db'.events = db.events)
      (hfinal : ∀ k, k ≠ key → db'.finalizations k = db.finalizations k)

theorem Publishes.quiet (hevents : db'.events = db.events)
    (hfinal : db'.finalizations = db.finalizations) : Publishes o db db' :=
  .intends hevents fun k => .inl (congrFun hfinal k)

theorem performTask_events (u : Token) (db : Db) (call : Call) :
    (performTask u db call).events = db.events := by
  cases call <;> rfl

theorem performTask_finalizations (u : Token) (db : Db) (call : Call) (k : SubmissionId) :
    Intends (db.finalizations k) ((performTask u db call).finalizations k) := by
  cases call with
  | cancel | cancelSession => exact .or _ _
  | _ => exact .inl rfl

/-- **What an operation does to the journals and the finalizations.** -/
theorem Op.publishes (h : o.attempt u db = .ok db') : Publishes o db db' := by
  cases o with
  | append env c key row eventKey kind payload terminal budget =>
    obtain ⟨out, h⟩ := outcome_eq_ok.1 h
    obtain ⟨htakes, ⟨rfl, -⟩ | ⟨hnew, target, htarget, rfl⟩⟩ := append_journal h
    · exact .quiet rfl rfl
    · exact .adds key _ (.intro env c eventKey kind payload terminal budget target htakes hnew
        htarget) rfl rfl rfl
  | task call =>
    cases h
    exact .intends (performTask_events u db call) (performTask_finalizations u db call)
  | bind env owner task requested admitted =>
    obtain ⟨out, h⟩ := outcome_eq_ok.1 h
    obtain ⟨bindings, rfl⟩ := Store.bind_ok h
    exact .quiet rfl rfl
  | submit env owner task messages context role settings contract authorized criteria =>
    obtain ⟨out, h⟩ := outcome_eq_ok.1 h
    obtain rfl | ⟨row, new, contracts, protocols, -, -, rfl⟩ := Store.submit_ok h <;>
      exact .quiet rfl rfl
  | dispatched key error =>
    cases h
    exact .quiet rfl rfl
  | finalized key =>
    cases h
    exact .finalized key rfl rfl fun k hk => Table.update_of_ne _ _ _ _ hk
  | claim env key settings =>
    obtain ⟨out, h⟩ := outcome_eq_ok.1 h
    obtain ⟨row, -, -, rfl⟩ := Store.claim_ok h
    exact .quiet rfl rfl
  | finish env key fence state result =>
    obtain ⟨out, h⟩ := outcome_eq_ok.1 h
    obtain ⟨row, -, -, rfl⟩ := Store.finish_ok h
    exact .intends rfl (finalIntent_intends key row db.finalizations)
  | cancel key owner =>
    obtain ⟨out, h⟩ := outcome_eq_ok.1 h
    obtain ⟨row, -, -, rfl⟩ := Store.cancel_ok h
    exact .intends rfl fun k => .or _ _
  | workflowFailed key owner error =>
    obtain ⟨out, h⟩ := outcome_eq_ok.1 h
    obtain rfl | ⟨k, reply, row, rfl⟩ := Store.workflowFailed_ok h
    · exact .quiet rfl rfl
    · exact .intends rfl (finalIntent_intends key row db.finalizations)
  | failBudgetBeforeStart key owner =>
    obtain ⟨out, h⟩ := outcome_eq_ok.1 h
    obtain ⟨k, rfl | ⟨result, reply, rfl⟩⟩ := Store.failBudgetBeforeStart_ok h <;> exact .quiet rfl rfl
  | prepare env c l step kind arguments =>
    obtain ⟨out, h⟩ := outcome_eq_ok.1 h
    obtain ⟨-, -, ⟨-, rfl, -⟩ | ⟨-, -, rfl, rfl⟩⟩ := Ledger.prepare_ok h <;> exact .quiet rfl rfl
  | start env c l step =>
    obtain ⟨out, h⟩ := outcome_eq_ok.1 h
    obtain ⟨-, -, ⟨-, -, rfl⟩ | ⟨row, -, -, -, rfl, rfl⟩⟩ := Ledger.claim_ok h <;> exact .quiet rfl rfl
  | uncertain env c l step fence =>
    obtain ⟨out, h⟩ := outcome_eq_ok.1 h
    obtain ⟨-, -, rfl⟩ := Ledger.uncertain_ok h
    exact .quiet rfl rfl
  | reject env c l step =>
    obtain ⟨out, h⟩ := outcome_eq_ok.1 h
    obtain ⟨-, -, rfl⟩ := Ledger.reject_ok h
    exact .quiet rfl rfl
  | complete env c l step fence result evidence =>
    obtain ⟨out, h⟩ := outcome_eq_ok.1 h
    obtain ⟨-, -, row, -, -, -, -, rfl⟩ := Ledger.complete_ok h
    exact .quiet rfl rfl
  | bootstrapClaim env key settings =>
    obtain ⟨out, h⟩ := outcome_eq_ok.1 h
    obtain ⟨row, -, -, rfl | ⟨-, rfl⟩⟩ := StepStore.bootstrapClaim_ok h <;> exact .quiet rfl rfl
  | bootstrap env c l key =>
    obtain ⟨out, h⟩ := outcome_eq_ok.1 h
    obtain ⟨rfl, -, ⟨-, -, -, rfl⟩ | ⟨value, -, -, -, rfl⟩⟩ := StepStore.bootstrap_ok h <;>
      exact .quiet rfl rfl
  | claimStep env c l cursor =>
    obtain ⟨out, h⟩ := outcome_eq_ok.1 h
    obtain ⟨-, -, run, -, ⟨-, rfl, -⟩ | ⟨-, -, rfl⟩⟩ := StepStore.claim_ok h <;> exact .quiet rfl rfl
  | commit env c l cursor fence kind t =>
    obtain ⟨out, h⟩ := outcome_eq_ok.1 h
    obtain ⟨-, -, run, -, ⟨-, rfl, -⟩ | ⟨value, hdone⟩⟩ := StepStore.commit_ok h
    · exact .quiet rfl rfl
    · obtain ⟨answers, rfl⟩ := hdone.db_eq
      exact .quiet rfl rfl
  | recover env c l cursor t =>
    obtain ⟨out, h⟩ := outcome_eq_ok.1 h
    obtain ⟨-, -, run, -, ⟨-, rfl, -⟩ | ⟨-, rfl, -⟩ | ⟨value, db₁, hdb₁, hdone⟩ |
      ⟨task, operation, -, -, -, -, -, rfl⟩⟩ := StepStore.recover_ok h
    · exact .quiet rfl rfl
    · exact .quiet rfl rfl
    · obtain ⟨answers, rfl⟩ := hdone.db_eq
      rcases hdb₁ with rfl | rfl <;> exact .quiet rfl rfl
    · exact .quiet rfl rfl
  | human env c l cursor t₁ t₂ =>
    obtain ⟨out, h⟩ := outcome_eq_ok.1 h
    obtain ⟨-, -, -, run, -, ⟨-, rfl, -⟩ | ⟨-, rfl, -⟩ | ⟨task, task', value, db₁, db₂,
      answers, -, -, -, -, -, rfl, hdone, rfl⟩⟩ := StepStore.human_ok h
    · exact .quiet rfl rfl
    · exact .quiet rfl rfl
    · obtain ⟨answers, rfl⟩ := hdone.db_eq
      exact .quiet rfl rfl
  | answer env key owner callId text revision t =>
    obtain ⟨out, h⟩ := outcome_eq_ok.1 h
    obtain ⟨-, answers, rfl⟩ := Decisions.answer_ok h
    exact .quiet rfl rfl
  | erase env key reason =>
    simp only [Op.attempt, bind_eq_ok, outcome_eq_ok] at h
    obtain ⟨row, -, out, h⟩ := h
    obtain rfl | ⟨erased, erasures, rfl⟩ := prepareErasure_ok h <;> exact .quiet rfl rfl

/-- What a step does to the journals and the finalizations. -/
theorem Sys.publishes (s : Sys) (o : Op) : Publishes o s.db (s.after o).db :=
  commit_of (P := fun db : Db => Publishes o s.db db) (.quiet rfl rfl) fun _ hok =>
    Op.publishes hok

end Temporal

end PythonAI
