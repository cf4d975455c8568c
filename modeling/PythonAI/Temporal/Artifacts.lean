import PythonAI.Temporal.Submissions

/-!
# Artifacts are never lost

An artifact is written once and never changed.  Hence the result and the evidence of a completed
operation, and the snapshot of every step, can be read whenever the scope check passes.
-/

namespace PythonAI

open Library

namespace Temporal

open Ledger (Stored)

variable {u : Token} {db db' : Db} {s s' : Sys} {o : Op}

theorem store_same {l : Ledger} {t : Table Token Artifact} {ref : Ref} :
    l.store t ref ref.id = some ⟨l.owner, l.task, ref.sha256, ref.sha256⟩ :=
  Table.set_same ..

theorem store_of_ne {l : Ledger} {t : Table Token Artifact} {ref : Ref} {id : Token}
    (h : id ≠ ref.id) : l.store t ref id = t id :=
  Table.set_of_ne _ _ _ h

/-- An effect keeps the artifacts and adds those it draws. -/
theorem Effect.artifacts (h : Effect o u db db') {id : Token} :
    (id < u → db'.artifacts id = db.artifacts id) ∧
    (∀ a, db'.artifacts id = some a → db.artifacts id = some a ∨ id < u + 2) := by
  -- A single artifact with a drawn id.
  have one : ∀ {l : Ledger} {value : Payload} {v : Token}, v = u ∨ v = u + 1 →
      db'.artifacts = l.store db.artifacts ⟨v, value⟩ →
      (id < u → db'.artifacts id = db.artifacts id) ∧
      (∀ a, db'.artifacts id = some a → db.artifacts id = some a ∨ id < u + 2) := by
    intro l value v hv harts
    rw [harts]
    by_cases hid : id = v
    · subst hid
      refine ⟨fun hlt => ?_, fun a _ => .inr ?_⟩
      · rcases hv with rfl | rfl
        · exact absurd hlt (Nat.lt_irrefl _)
        · exact absurd hlt (Nat.not_lt.2 (Nat.le_succ _))
      · rcases hv with rfl | rfl
        · exact Nat.lt_add_of_pos_right (by decide)
        · exact Nat.lt_succ_self _
    · rw [store_of_ne hid]
      exact ⟨fun _ => rfl, fun a ha => .inl ha⟩
  cases h with
  | ledger _ harts _ | step _ _ _ _ _ _ harts _ =>
    rw [harts]; exact ⟨fun _ => rfl, fun a ha => .inl ha⟩
  | completed l step row result evidence _ _ harts _ _ =>
    rw [harts]
    by_cases h₁ : id = u + 1
    · subst h₁
      exact ⟨fun hlt => absurd hlt (Nat.not_lt.2 (Nat.le_succ _)),
        fun a _ => .inr (Nat.lt_succ_self _)⟩
    · rw [store_of_ne h₁]
      by_cases h₂ : id = u
      · subst h₂
        exact ⟨fun hlt => absurd hlt (Nat.lt_irrefl _),
          fun a _ => .inr (Nat.lt_add_of_pos_right (by decide))⟩
      · rw [store_of_ne h₂]
        exact ⟨fun _ => rfl, fun a ha => .inl ha⟩
  | bootstrap c l value _ _ _ harts _ _ => exact one (.inl rfl) harts
  | commit c l cursor fence run kind value v hv _ _ _ _ _ _ _ _ _ harts _ => exact one hv harts

/-- What can be read in a reachable state. -/
structure Intact (s : Sys) : Prop where
  /-- the ids of artifacts were drawn -/
  drawn : ∀ id a, s.db.artifacts id = some a → id < s.uuids
  /-- a completed operation has its result and its evidence -/
  results : ∀ k row, s.db.operations k = some row → row.state = .completed →
    ∃ result evidence, row.resultRef = some result ∧ row.evidenceRef = some evidence ∧
      Stored s.db k.1 result ∧ Stored s.db k.1 evidence
  /-- a step has its snapshot -/
  snapshots : ∀ key revision run, s.db.stepRuns (key, revision) = some run →
    ∃ row value, s.db.submissions key = some row ∧ run.stateRef.sha256 = .snapshot value ∧
      validateSnapshot (.snapshot value) = .ok value ∧ Stored s.db row.taskKey run.stateRef

theorem Intact.initial (h : s.Initial) : Intact s := by
  obtain ⟨host, h⟩ := h
  refine ⟨fun id a ha => ?_, fun k row hrow => ?_, fun key revision run hrun => ?_⟩
  · rw [h] at ha; cases ha
  · rw [h] at hrow; cases hrow
  · rw [h] at hrun; cases hrun

/-- A stored artifact stays stored. -/
theorem Effect.stored (h : Effect o u db db') (hdrawn : ∀ id a, db.artifacts id = some a → id < u)
    {k : TaskKey} {ref : Ref} (href : Stored db k ref) : Stored db' k ref :=
  (h.artifacts.1 (hdrawn _ _ href)).trans href

/-- A row that an effect leaves completed was completed before, or the effect completed it. -/
theorem OpStep.completed_of {k : OpKey} {r r' : Option Operation} (h : OpStep o u db k r r') {row : Operation}
    (hr : r' = some row) (hc : row.state = .completed) : r = some row := by
  cases h with
  | same => exact hr
  | prepared row' hp => cases hr; rw [hp.state] at hc; cases hc
  | claimed row' => cases hr; cases hc
  | uncertain row' => cases hr; cases hc
  | rejected row' => cases hr; cases hc

/-- What a step is after a commit: the completed one, the next one, or an old one. -/
theorem advance_cases {runs : Table (SubmissionId × ℕ) StepRun} {cursor result : Cursor}
    {fence : Option FenceId} {k : SubmissionId × ℕ} {run : StepRun}
    (h : StepStore.advance runs cursor result fence k = some run) :
    (∃ old, runs k = some old ∧ old.stateRef = run.stateRef ∧ old.nextKind = run.nextKind) ∨
    (k = (result.submission, result.revision) ∧ run.stateRef = result.stateRef ∧
      run.nextKind = result.nextKind) := by
  rw [StepStore.advance, Table.update_apply, Option.map_eq_some_iff] at h
  obtain ⟨old, hold, hrun⟩ := h
  have hsame : old.stateRef = run.stateRef ∧ old.nextKind = run.nextKind := by
    split_ifs at hrun <;> rw [← hrun] <;> exact ⟨rfl, rfl⟩
  rw [Table.set_apply] at hold
  split_ifs at hold with hk
  · cases hold
    exact .inr ⟨hk, hsame.1.symm, hsame.2.symm⟩
  · exact .inl ⟨old, hold, hsame⟩

theorem Intact.step (hi : Indexed s) (hs : Intact s) (h : Sys.lts.step s o s') : Intact s' := by
  have hkept : ∀ key row, s.db.submissions key = some row →
      ∃ row', s'.db.submissions key = some row' ∧ Kept o row row' := fun _ _ hrow => hi.kept h hrow
  cases h
  cases hok : o.attempt s.uuids s.db with
  | error e =>
    have hdb : s.after o = ⟨s.db, s.uuids + 2⟩ := by simp [Sys.after, Op.perform, hok]
    rw [hdb]
    exact ⟨fun id a ha => Nat.lt_add_right 2 (hs.drawn id a ha), hs.results, hs.snapshots⟩
  | ok db' =>
    have hdb : s.after o = ⟨db', s.uuids + 2⟩ := by simp [Sys.after, Op.perform, hok]
    rw [hdb] at hkept ⊢
    have heff := Op.effect hok
    -- The submission of a step and the artifact of its old snapshot are still there.
    have hold : ∀ {key : SubmissionId} {revision : ℕ} {run run' : StepRun},
        s.db.stepRuns (key, revision) = some run → run.stateRef = run'.stateRef →
        ∃ row value, db'.submissions key = some row ∧ run'.stateRef.sha256 = .snapshot value ∧
          validateSnapshot (.snapshot value) = .ok value ∧
          Stored db' row.taskKey run'.stateRef := by
      intro key revision run run' hrun href
      obtain ⟨row, value, hrow, hsha, hvalid, hstored⟩ := hs.snapshots key revision run hrun
      obtain ⟨row', hrow', hkeep⟩ := hkept key row hrow
      refine ⟨row', value, hrow', href ▸ hsha, hvalid, ?_⟩
      rw [hkeep.taskKey, ← href]
      exact heff.stored hs.drawn hstored
    -- The snapshot that the operation stored for the submission of the ledger.
    have hnew : ∀ {c : Caller} {l : Ledger} {value : Snapshot} {v : Token},
        Ledger.InScope c l false s.db → validateSnapshot (.snapshot value) = .ok value →
        db'.artifacts = l.store s.db.artifacts ⟨v, .snapshot value⟩ →
        ∃ row value', db'.submissions l.key = some row ∧
          Payload.snapshot value = .snapshot value' ∧
          validateSnapshot (.snapshot value') = .ok value' ∧
          Stored db' row.taskKey ⟨v, .snapshot value⟩ := by
      intro c l value v hscope hvalid harts
      obtain ⟨row, hrow, hkey, -⟩ := hscope.submission
      obtain ⟨row', hrow', hkeep⟩ := hkept l.key row hrow
      refine ⟨row', value, hrow', rfl, hvalid, ?_⟩
      rw [hkeep.taskKey, hkey, Stored, harts]
      exact store_same
    refine ⟨fun id a ha => ?_, fun k row hrow hc => ?_, fun key revision run hrun => ?_⟩
    · rcases heff.artifacts.2 a ha with hold | hlt
      · exact Nat.lt_add_right 2 (hs.drawn id a hold)
      · exact hlt
    · have hback : s.db.operations k = some row →
          ∃ result evidence, row.resultRef = some result ∧ row.evidenceRef = some evidence ∧
            Stored db' k.1 result ∧ Stored db' k.1 evidence := by
        intro hrow
        obtain ⟨result, evidence, hr, he, hsr, hse⟩ := hs.results k row hrow hc
        exact ⟨result, evidence, hr, he, heff.stored hs.drawn hsr, heff.stored hs.drawn hse⟩
      replace hrow : db'.operations k = some row := hrow
      cases heff with
      | ledger hops => exact hback ((hops k).completed_of hrow hc)
      | completed l step row₀ result evidence hrow₀ _ harts hops _ =>
        rw [hops, Table.set_apply] at hrow
        split_ifs at hrow with hk
        · cases hrow
          refine ⟨_, _, rfl, rfl, ?_, ?_⟩
          · rw [hk, Stored, harts, store_of_ne (Nat.succ_ne_self _).symm]
            exact store_same
          · rw [hk, Stored, harts]
            exact store_same
        · exact hback hrow
      | bootstrap _ _ _ _ _ _ _ hops _ | step _ _ _ _ _ hops _ _
      | commit _ _ _ _ _ _ _ _ _ _ _ _ _ _ _ _ _ hops _ _ =>
        exact hback (hops ▸ hrow)
    · replace hrun : db'.stepRuns (key, revision) = some run := hrun
      cases heff with
      | ledger _ _ hruns => exact hold (hruns ▸ hrun) rfl
      | completed _ _ _ _ _ _ _ _ _ hruns => exact hold (hruns ▸ hrun) rfl
      | bootstrap c l value hscope hfree hvalid harts _ hruns =>
        rw [hruns, Table.set_apply] at hrun
        split_ifs at hrun with hk
        · cases hrun; cases hk
          exact hnew hscope hvalid harts
        · exact hold hrun rfl
      | step k run₀ run₁ hrun₀ hrun₁ _ _ hruns =>
        rw [hruns, Table.set_apply] at hrun
        split_ifs at hrun with hk
        · cases hrun; cases hk
          rcases hrun₁ with ⟨-, rfl⟩ | ⟨-, rfl⟩ <;> exact hold hrun₀ rfl
        · exact hold hrun rfl
      | commit c l cursor fence run₀ kind value v _ hscope hkey hrun₀ _ _ _ _ hvalid _ harts hruns =>
        rw [hruns] at hrun
        rcases advance_cases hrun with ⟨old, hold', href, -⟩ | ⟨hk, href, -⟩
        · rw [Table.set_apply] at hold'
          split_ifs at hold' with hk
          · cases hold'; cases hk
            exact hold hrun₀ href
          · exact hold hold' href
        · cases hk
          rw [href, hkey]
          exact hnew hscope hvalid harts

theorem intact_reachable (h : Sys.lts.Reachable Sys.Initial s) : Intact s :=
  (h.invariant (I := fun s => Indexed s ∧ Intact s) (fun _ h₀ => ⟨.initial h₀, .initial h₀⟩)
    fun _ _ _ hs hst => ⟨hs.1.step hst, hs.2.step hs.1 hst⟩).2

end Temporal

end PythonAI
