import PythonAI.Temporal.Calls

/-!
# The submissions under any sequence of operations

A submission keeps its owner, its task and its scope for ever, and the index on the owner and the
task names exactly the submission of the task.
-/

namespace PythonAI

open Library

namespace Temporal

/-- The operation fences a task for erasure. -/
def Op.erases : Op → Bool
  | erase .. => true
  | _ => false

/-- The states in which a submission is cancelled or fenced for erasure. -/
def SubmissionState.halted : SubmissionState → Bool
  | cancelled | erasing => true
  | _ => false

/-- What an operation keeps of a submission. -/
structure Kept (o : Op) (row row' : Submission) : Prop where
  /-- its owner and its task -/
  taskKey : row'.taskKey = row.taskKey
  /-- its input, context and role -/
  scope : row'.scope = row.scope
  /-- that it is cancelled, unless it is fenced for erasure -/
  halted : row.state.halted = true →
    row'.state = row.state ∨ o.erases = true ∧ row'.state = .erasing

/-- An operation keeps the submissions, and adds none. -/
def Keeps (o : Op) (t t' : Table SubmissionId Submission) : Prop :=
  ∀ key, (t key = none ∧ t' key = none) ∨
    ∃ row row', t key = some row ∧ t' key = some row' ∧ Kept o row row'

/-- `RowStep o row row'` : the operation `o` turns the submission `row` into `row'`. -/
inductive RowStep (o : Op) (row : Submission) : Submission → Prop
  | same : RowStep o row row
  /-- a submission that has not ended goes on or ends -/
  | moved (row' : Submission) (h : Store.live row = true) (hkey : row'.taskKey = row.taskKey)
      (hscope : row'.scope = row.scope) : RowStep o row row'
  | cancelled (h : cancellable row.state = true) : RowStep o row { row with state := .cancelled }
  | erased (u : FenceId) (h : o.erases = true) :
      RowStep o row { row with state := .erasing, fence := some u }

/-- Each submission makes a step, and none is added. -/
def Moves (o : Op) (t t' : Table SubmissionId Submission) : Prop :=
  ∀ key, (t key = none ∧ t' key = none) ∨
    ∃ row row', t key = some row ∧ t' key = some row' ∧ RowStep o row row'

variable {o : Op} {u : Token} {db db' : Db} {t : Table SubmissionId Submission}

theorem Kept.refl (o : Op) (row : Submission) : Kept o row row := ⟨rfl, rfl, fun _ => .inl rfl⟩

theorem Moves.refl (o : Op) (t : Table SubmissionId Submission) : Moves o t t := by
  intro key
  cases ht : t key with
  | none => exact .inl ⟨rfl, rfl⟩
  | some row => exact .inr ⟨row, row, rfl, rfl, .same⟩

theorem moves_updateWhere {p : SubmissionId → Submission → Bool} {f : Submission → Submission}
    (h : ∀ key row, p key row = true → RowStep o row (f row)) : Moves o t (t.updateWhere p f) := by
  intro key
  rcases t.updateWhere_cases f p key with hs | ⟨row, hrow, hp, hs⟩
  · rw [hs]; exact Moves.refl o t key
  · exact .inr ⟨row, f row, hrow, hs, h key row hp⟩

theorem moves_update {key : SubmissionId} {p : Submission → Bool} {f : Submission → Submission}
    (h : ∀ row, p row = true → RowStep o row (f row)) : Moves o t (t.update key p f) := by
  intro key'
  rcases t.update_cases key p f key' with hs | ⟨row, -, hrow, hp, hs⟩
  · rw [hs]; exact Moves.refl o t key'
  · exact .inr ⟨row, f row, hrow, hs, h row hp⟩

theorem moves_set {key : SubmissionId} {row row' : Submission} (hrow : t key = some row)
    (h : RowStep o row row') : Moves o t (t.set key row') := by
  intro key'
  by_cases hk : key' = key
  · subst hk
    exact .inr ⟨row, row', hrow, Table.set_same .., h⟩
  · rw [Table.set_of_ne _ _ _ hk]; exact Moves.refl o t key'

theorem queued_live {row : Submission} (h : Store.queued row = true) : Store.live row = true := by
  rw [Store.live, h]; rfl

theorem running_live {fence : Option FenceId} {row : Submission}
    (h : Store.running fence row = true) : Store.live row = true := by
  simp only [Store.running, Bool.and_eq_true, decide_eq_true_eq] at h
  rw [Store.live, decide_eq_true h.1.1, Bool.or_true]

theorem request_moves (p : TaskKey → Bool) (base : TaskDb) :
    Moves o db.submissions (request p { db with base := base }).submissions :=
  moves_updateWhere fun _ row hp => by
    simp only [requested, Bool.and_eq_true] at hp
    exact .cancelled hp.2

theorem live_not_halted {row : Submission} (h : Store.live row = true) :
    row.state.halted = false := by
  simp only [Store.live, Store.queued, Bool.or_eq_true, decide_eq_true_eq] at h
  rcases h with (h | h) | h <;> rw [h] <;> rfl

/-- A step keeps what identifies the submission. -/
theorem RowStep.kept {row row' : Submission} (h : RowStep o row row') : Kept o row row' := by
  cases h with
  | same => exact .refl o row
  | moved _ hlive hkey hscope =>
    exact ⟨hkey, hscope, fun hc => by rw [live_not_halted hlive] at hc; cases hc⟩
  | cancelled h =>
    refine ⟨rfl, rfl, fun hh => ?_⟩
    cases hs : row.state <;> simp [hs, SubmissionState.halted, cancellable] at hh h ⊢
  | erased u h => exact ⟨rfl, rfl, fun _ => .inr ⟨h, rfl⟩⟩

theorem Moves.keeps {t' : Table SubmissionId Submission} (h : Moves o t t') : Keeps o t t' := by
  intro key
  rcases h key with hnone | ⟨row, row', hrow, hrow', hstep⟩
  · exact .inl hnone
  · exact .inr ⟨row, row', hrow, hrow', hstep.kept⟩

/-- **Every operation moves the submissions**, except `submit`, which adds one. -/
theorem Op.moves (h : o.attempt u db = .ok db') :
    (db'.forTask = db.forTask ∧ Moves o db.submissions db'.submissions) ∨
    (∃ row, db.forTask row.taskKey = none ∧ db'.forTask = db.forTask.set row.taskKey u ∧
      db'.submissions = db.submissions.set u row) := by
  cases o with
  | task call =>
    cases h
    left
    cases call with
    | cancel owner key => exact ⟨rfl, request_moves _ _⟩
    | cancelSession owner t => exact ⟨rfl, request_moves _ _⟩
    | _ => exact ⟨rfl, .refl _ _⟩
  | bind env owner task requested admitted =>
    obtain ⟨out, h⟩ := outcome_eq_ok.1 h
    obtain ⟨bindings, rfl⟩ := Store.bind_ok h
    exact .inl ⟨rfl, .refl _ _⟩
  | submit env owner task messages context role settings contract authorized criteria =>
    obtain ⟨out, h⟩ := outcome_eq_ok.1 h
    obtain rfl | ⟨row, new, contracts, protocols, hfree, -, rfl⟩ := Store.submit_ok h
    · exact .inl ⟨rfl, .refl _ _⟩
    · exact .inr ⟨row, hfree, rfl, rfl⟩
  | dispatched key error =>
    cases h
    refine .inl ⟨rfl, moves_update fun row hp => .moved _ ?_ rfl rfl⟩
    exact queued_live (by rw [Store.queued, hp]; rfl)
  | claim env key settings =>
    obtain ⟨out, h⟩ := outcome_eq_ok.1 h
    obtain ⟨row, -, -, rfl⟩ := Store.claim_ok h
    exact .inl ⟨rfl, moves_update fun row hp => .moved _ (queued_live hp) rfl rfl⟩
  | finish env key fence state result =>
    obtain ⟨out, h⟩ := outcome_eq_ok.1 h
    obtain ⟨row, -, -, rfl⟩ := Store.finish_ok h
    exact .inl ⟨rfl, moves_update fun row hp => .moved _ (running_live hp) rfl rfl⟩
  | cancel key owner =>
    obtain ⟨out, h⟩ := outcome_eq_ok.1 h
    obtain ⟨row, -, -, rfl⟩ := Store.cancel_ok h
    exact .inl ⟨rfl, request_moves _ _⟩
  | workflowFailed key owner error =>
    obtain ⟨out, h⟩ := outcome_eq_ok.1 h
    left
    obtain rfl | ⟨k, reply, row, rfl⟩ := Store.workflowFailed_ok h
    · exact ⟨rfl, .refl _ _⟩
    · exact ⟨rfl, moves_update fun row hp => .moved _ hp rfl rfl⟩
  | failBudgetBeforeStart key owner =>
    obtain ⟨out, h⟩ := outcome_eq_ok.1 h
    left
    obtain ⟨k, rfl | ⟨result, reply, rfl⟩⟩ := Store.failBudgetBeforeStart_ok h
    · exact ⟨rfl, .refl _ _⟩
    · exact ⟨rfl, moves_update fun row hp => .moved _ (queued_live hp) rfl rfl⟩
  | prepare env c l step kind arguments =>
    obtain ⟨out, h⟩ := outcome_eq_ok.1 h
    obtain ⟨-, -, ⟨-, rfl, -⟩ | ⟨-, -, rfl, rfl⟩⟩ := Ledger.prepare_ok h <;>
      exact .inl ⟨rfl, .refl _ _⟩
  | start env c l step =>
    obtain ⟨out, h⟩ := outcome_eq_ok.1 h
    obtain ⟨-, -, ⟨-, -, rfl⟩ | ⟨row, -, -, -, rfl, rfl⟩⟩ := Ledger.claim_ok h <;>
      exact .inl ⟨rfl, .refl _ _⟩
  | uncertain env c l step fence =>
    obtain ⟨out, h⟩ := outcome_eq_ok.1 h
    obtain ⟨-, -, rfl⟩ := Ledger.uncertain_ok h
    exact .inl ⟨rfl, .refl _ _⟩
  | reject env c l step =>
    obtain ⟨out, h⟩ := outcome_eq_ok.1 h
    obtain ⟨-, -, rfl⟩ := Ledger.reject_ok h
    exact .inl ⟨rfl, .refl _ _⟩
  | complete env c l step fence result evidence =>
    obtain ⟨out, h⟩ := outcome_eq_ok.1 h
    obtain ⟨-, -, row, -, -, -, -, rfl⟩ := Ledger.complete_ok h
    exact .inl ⟨rfl, .refl _ _⟩
  | bootstrapClaim env key settings =>
    obtain ⟨out, h⟩ := outcome_eq_ok.1 h
    obtain ⟨row, hrow, -, rfl | ⟨hq, rfl⟩⟩ := StepStore.bootstrapClaim_ok h
    · exact .inl ⟨rfl, .refl _ _⟩
    · exact .inl ⟨rfl, moves_set hrow (.moved _ (queued_live hq) rfl rfl)⟩
  | bootstrap env c l key =>
    obtain ⟨out, h⟩ := outcome_eq_ok.1 h
    obtain ⟨rfl, -, ⟨-, -, -, rfl⟩ | ⟨value, -, -, -, rfl⟩⟩ := StepStore.bootstrap_ok h <;>
      exact .inl ⟨rfl, .refl _ _⟩
  | claimStep env c l cursor =>
    obtain ⟨out, h⟩ := outcome_eq_ok.1 h
    obtain ⟨-, -, run, -, ⟨-, rfl, -⟩ | ⟨-, -, rfl⟩⟩ := StepStore.claim_ok h <;>
      exact .inl ⟨rfl, .refl _ _⟩
  | commit env c l cursor fence kind t =>
    obtain ⟨out, h⟩ := outcome_eq_ok.1 h
    obtain ⟨-, -, run, -, ⟨-, rfl, -⟩ | ⟨value, hdone⟩⟩ := StepStore.commit_ok h
    · exact .inl ⟨rfl, .refl _ _⟩
    · obtain ⟨answers, rfl⟩ := hdone.db_eq
      exact .inl ⟨rfl, .refl _ _⟩
  | recover env c l cursor t =>
    obtain ⟨out, h⟩ := outcome_eq_ok.1 h
    obtain ⟨-, -, run, -, ⟨-, rfl, -⟩ | ⟨-, rfl, -⟩ | ⟨value, db₁, hdb₁, hdone⟩ |
      ⟨task, operation, -, -, -, -, -, rfl⟩⟩ := StepStore.recover_ok h
    · exact .inl ⟨rfl, .refl _ _⟩
    · exact .inl ⟨rfl, .refl _ _⟩
    · obtain ⟨answers, rfl⟩ := hdone.db_eq
      rcases hdb₁ with rfl | rfl <;> exact .inl ⟨rfl, .refl _ _⟩
    · exact .inl ⟨rfl, .refl _ _⟩
  | human env c l cursor t₁ t₂ =>
    obtain ⟨out, h⟩ := outcome_eq_ok.1 h
    obtain ⟨-, -, -, run, -, ⟨-, rfl, -⟩ | ⟨-, rfl, -⟩ | ⟨task, task', value, db₁, db₂,
      answers, -, -, -, -, -, rfl, hdone, rfl⟩⟩ := StepStore.human_ok h
    · exact .inl ⟨rfl, .refl _ _⟩
    · exact .inl ⟨rfl, .refl _ _⟩
    · obtain ⟨answers, rfl⟩ := hdone.db_eq
      exact .inl ⟨rfl, .refl _ _⟩
  | answer env key owner callId text revision t =>
    obtain ⟨out, h⟩ := outcome_eq_ok.1 h
    obtain ⟨-, answers, rfl⟩ := Decisions.answer_ok h
    exact .inl ⟨rfl, .refl _ _⟩
  | append env c key row eventKey kind payload terminal budget =>
    obtain ⟨out, h⟩ := outcome_eq_ok.1 h
    obtain ⟨-, events, rfl⟩ := append_ok h
    exact .inl ⟨rfl, .refl _ _⟩
  | finalized key =>
    cases h
    exact .inl ⟨rfl, .refl _ _⟩
  | erase env key reason =>
    simp only [Op.attempt, bind_eq_ok, outcome_eq_ok] at h
    obtain ⟨row, -, out, h⟩ := h
    left
    obtain rfl | ⟨erased, erasures, rfl⟩ := prepareErasure_ok h
    · exact ⟨rfl, .refl _ _⟩
    · exact ⟨rfl, moves_update fun row _ => .erased _ rfl⟩

/-- **Every operation keeps the submissions**, except `submit`, which adds one. -/
theorem Op.keeps (h : o.attempt u db = .ok db') :
    (db'.forTask = db.forTask ∧ Keeps o db.submissions db'.submissions) ∨
    (∃ row, db.forTask row.taskKey = none ∧ db'.forTask = db.forTask.set row.taskKey u ∧
      db'.submissions = db.submissions.set u row) := by
  rcases Op.moves h with ⟨hindex, hmoves⟩ | hnew
  · exact .inl ⟨hindex, hmoves.keeps⟩
  · exact .inr hnew

/-- The index names exactly the submission of a task, and the ids were drawn. -/
structure Indexed (s : Sys) : Prop where
  /-- the index names the submission of its task -/
  named : ∀ key row, s.db.submissions key = some row → s.db.forTask row.taskKey = some key
  /-- the index names submissions of the task -/
  names : ∀ k key, s.db.forTask k = some key →
    ∃ row, s.db.submissions key = some row ∧ row.taskKey = k
  /-- the ids of submissions were drawn -/
  drawn : ∀ key row, s.db.submissions key = some row → key < s.uuids

variable {s s' : Sys}

theorem Indexed.initial (h : s.Initial) : Indexed s := by
  obtain ⟨host, h⟩ := h
  refine ⟨fun key row hrow => ?_, fun k key hk => ?_, fun key row hrow => ?_⟩
  · rw [h] at hrow; cases hrow
  · rw [h] at hk; cases hk
  · rw [h] at hrow; cases hrow

theorem Indexed.step (hs : Indexed s) (h : Sys.lts.step s o s') : Indexed s' := by
  cases h
  show Indexed ⟨commit s.db (o.attempt s.uuids s.db), s.uuids + 2⟩
  have hlater : Indexed ⟨s.db, s.uuids + 2⟩ :=
    ⟨hs.named, hs.names, fun key row hrow => Nat.lt_add_right 2 (hs.drawn key row hrow)⟩
  refine commit_of (P := fun db => Indexed ⟨db, s.uuids + 2⟩) hlater fun db' hok => ?_
  rcases Op.keeps hok with ⟨hindex, hkeeps⟩ | ⟨row, hfree, hindex, hsubs⟩
  · have hback : ∀ key row', db'.submissions key = some row' →
        ∃ row, s.db.submissions key = some row ∧ row'.taskKey = row.taskKey := by
      intro key row' hrow'
      rcases hkeeps key with ⟨-, hnone⟩ | ⟨row, row'', hrow, hrow'', hkept⟩
      · rw [hnone] at hrow'; cases hrow'
      · rw [hrow''] at hrow'; cases hrow'
        exact ⟨row, hrow, hkept.taskKey⟩
    refine ⟨fun key row' hrow' => ?_, fun k key hk => ?_, fun key row' hrow' => ?_⟩
    · obtain ⟨row, hrow, hkey⟩ := hback key row' hrow'
      show db'.forTask row'.taskKey = some key
      rw [hindex, hkey]; exact hs.named key row hrow
    · obtain ⟨row, hrow, hkey⟩ := hs.names k key (hindex ▸ hk)
      rcases hkeeps key with ⟨hnone, -⟩ | ⟨row₁, row₂, hrow₁, hrow₂, hkept⟩
      · rw [hrow] at hnone; cases hnone
      · rw [hrow] at hrow₁; cases hrow₁
        exact ⟨row₂, hrow₂, hkept.taskKey.trans hkey⟩
    · obtain ⟨row, hrow, -⟩ := hback key row' hrow'
      exact hlater.drawn key row hrow
  · refine ⟨fun key row' hrow' => ?_, fun k key hk => ?_, fun key row' hrow' => ?_⟩
    · show db'.forTask row'.taskKey = some key
      replace hrow' : db'.submissions key = some row' := hrow'
      rw [hsubs, Table.set_apply] at hrow'
      rw [hindex, Table.set_apply]
      split_ifs at hrow' with hkey
      · cases hrow'
        rw [if_pos rfl, hkey]
      · have hnamed := hs.named key row' hrow'
        rw [if_neg (fun he => by rw [he, hfree] at hnamed; cases hnamed)]
        exact hnamed
    · replace hk : db'.forTask k = some key := hk
      show ∃ row, db'.submissions key = some row ∧ row.taskKey = k
      rw [hindex, Table.set_apply] at hk
      rw [hsubs, Table.set_apply]
      split_ifs at hk with hkey
      · cases hk
        exact ⟨row, if_pos rfl, hkey.symm⟩
      · obtain ⟨row', hrow', hk'⟩ := hs.names k key hk
        have hlt := hs.drawn key row' hrow'
        exact ⟨row', by rw [if_neg hlt.ne]; exact hrow', hk'⟩
    · replace hrow' : db'.submissions key = some row' := hrow'
      show key < s.uuids + 2
      rw [hsubs, Table.set_apply] at hrow'
      split_ifs at hrow' with hkey
      · rw [hkey]; exact Nat.lt_add_of_pos_right (by decide)
      · exact hlater.drawn key row' hrow'

/-- A submission is there for ever, and each operation makes one step of it. -/
theorem Indexed.moved (hs : Indexed s) (h : Sys.lts.step s o s') {key : SubmissionId}
    {row : Submission} (hrow : s.db.submissions key = some row) :
    ∃ row', s'.db.submissions key = some row' ∧ RowStep o row row' := by
  cases h
  show ∃ row', (commit s.db (o.attempt s.uuids s.db)).submissions key = some row' ∧
    RowStep o row row'
  refine commit_of (P := fun db : Db => ∃ row', db.submissions key = some row' ∧
    RowStep o row row') ⟨row, hrow, .same⟩ fun db' hok => ?_
  rcases Op.moves hok with ⟨-, hmoves⟩ | ⟨new, -, -, hsubs⟩
  · rcases hmoves key with ⟨hnone, -⟩ | ⟨row₁, row₂, hrow₁, hrow₂, hstep⟩
    · rw [hrow] at hnone; cases hnone
    · rw [hrow] at hrow₁; cases hrow₁
      exact ⟨row₂, hrow₂, hstep⟩
  · have hlt := hs.drawn key row hrow
    refine ⟨row, ?_, .same⟩
    rw [hsubs, Table.set_of_ne _ _ _ hlt.ne]
    exact hrow

/-- A submission keeps its owner, its task and its scope. -/
theorem Indexed.kept (hs : Indexed s) (h : Sys.lts.step s o s') {key : SubmissionId}
    {row : Submission} (hrow : s.db.submissions key = some row) :
    ∃ row', s'.db.submissions key = some row' ∧ Kept o row row' := by
  obtain ⟨row', hrow', hstep⟩ := hs.moved h hrow
  exact ⟨row', hrow', hstep.kept⟩

/-- The index names the same submission of a task for ever. -/
theorem Indexed.forTask_kept (hs : Indexed s) (h : Sys.lts.step s o s') {k : TaskKey}
    {key : SubmissionId} (hk : s.db.forTask k = some key) : s'.db.forTask k = some key := by
  obtain ⟨row, hrow, rfl⟩ := hs.names k key hk
  obtain ⟨row', hrow', hkept⟩ := hs.kept h hrow
  rw [← hkept.taskKey]
  exact (hs.step h).named key row' hrow'

theorem indexed_reachable (h : Sys.lts.Reachable Sys.Initial s) : Indexed s :=
  h.invariant (fun _ => .initial) fun _ _ _ hs hst => hs.step hst

end Temporal

end PythonAI
