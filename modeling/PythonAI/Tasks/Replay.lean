import PythonAI.Tasks.Lease

/-!
# No blind replay

A row whose phase is `tool_started` or `skill_started` may have produced effects.  `claim` hands
out no token for it: it marks the row `uncertain`, and the mark stays until a human resolves the
call or cancels the task.  A terminal row never changes again.

* `TaskSys.no_blind_replay` : the three facts, for every reachable row and every later run.  The
  mark goes only by `resolve` of a running step or by a cancellation (`TaskSys.marked_stays`).
-/

namespace PythonAI

open Library

/-- The row is marked for a human: an effect may have begun, and nobody knows. -/
def TaskRow.Marked (row : TaskRow) : Prop := row.state = .uncertain ∧ row.phase.started = true

section Steps

variable {u : Token} {t t' : Time} {row : TaskRow} {r' : Option TaskRow}

/-- The holder of an unexpired lease is a worker of a running row. -/
theorem RowInv.running_of_heldBy {token : Token} {t₁ : Time} (hr : RowInv u t row) (h : t ≤ t₁)
    (hheld : row.heldBy token t₁ = true) : row.state = .running :=
  hr.running (TaskRow.leased_anti h (TaskRow.heldBy_iff.1 hheld).2)

/-- No worker changes a terminal row. -/
theorem WorkerStep.eq_of_terminal (h : WorkerStep u t t' (some row) r') (hr : RowInv u t row)
    (hterm : row.state.terminal = true) : r' = some row := by
  have hrun : row.state ≠ .running := fun h => by rw [h] at hterm; cases hterm
  cases h with
  | same => rfl
  | claimed _ _ _ _ hopen => rw [hterm] at hopen; cases hopen
  | marked _ _ _ hopen => rw [hterm] at hopen; cases hopen
  | renewed _ token _ _ hheld => exact absurd (TaskStore.renewable_iff.1 hheld).2 hrun
  | saved _ token _ _ hheld => exact absurd (TaskStore.renewable_iff.1 hheld).2 hrun
  | finished _ token h₁ _ hheld => exact absurd (hr.running_of_heldBy h₁ hheld) hrun
  | lapsed _ _ hlapsed =>
    simp only [TaskStore.lapsed, Bool.and_eq_true, decide_eq_true_eq] at hlapsed
    exact absurd hlapsed.1 hrun

/-- No human changes a terminal row. -/
theorem HumanStep.eq_of_terminal (h : HumanStep (some row) r')
    (hterm : row.state.terminal = true) : r' = some row := by
  cases h with
  | same => rfl
  | answered _ _ _ hsus => rw [hsus] at hterm; cases hterm
  | resolved _ _ _ hunc => rw [hunc] at hterm; cases hterm
  | stopped _ _ hopen => rw [hterm] at hopen; cases hopen

/-- **No operation changes a terminal row.** -/
theorem RowStep.eq_of_terminal (h : RowStep u t t' (some row) r') (hr : RowInv u t row)
    (hterm : row.state.terminal = true) : r' = some row := by
  cases h with
  | worker h => exact h.eq_of_terminal hr hterm
  | human h => exact h.eq_of_terminal hterm

/-- No worker changes a marked row. -/
theorem WorkerStep.eq_of_marked (h : WorkerStep u t t' (some row) r') (hr : RowInv u t row)
    (hm : row.Marked) : r' = some row := by
  have hrun : row.state ≠ .running := fun h => by rw [hm.1] at h; cases h
  cases h with
  | same => rfl
  | claimed _ _ _ _ _ _ hphase => rw [hm.2] at hphase; cases hphase
  | marked => rw [TaskStore.mark, ← hm.1]
  | renewed _ token _ _ hheld => exact absurd (TaskStore.renewable_iff.1 hheld).2 hrun
  | saved _ token _ _ hheld => exact absurd (TaskStore.renewable_iff.1 hheld).2 hrun
  | finished _ token h₁ _ hheld => exact absurd (hr.running_of_heldBy h₁ hheld) hrun
  | lapsed _ _ hlapsed =>
    simp only [TaskStore.lapsed, Bool.and_eq_true, decide_eq_true_eq] at hlapsed
    exact absurd hlapsed.1 hrun

end Steps

/-- A claim hands out a token only for an open row whose phase has started nothing. -/
theorem TaskStore.open_of_token {env : Access} {owner : Owner} {key : TaskId} {goal : String}
    {messages : List Message} {episode : Option ℕ} {criteria : Option Criteria} {u token : Token}
    {t₁ t₂ : Time} {db db' : TaskDb} {row : TaskRow}
    (h : claim env owner key goal messages episode criteria u t₁ t₂ db = .ok (db', .token token))
    (hrow : db.tasks (owner, key) = some row) :
    row.state.terminal = false ∧ row.phase.started = false := by
  rcases claim_ok h with ⟨-, -, -, -, hout⟩ | ⟨hnone, -, -⟩ | ⟨-, -, -, -, -, ⟨e, hout⟩, -⟩ |
    ⟨row', hrow', hopen, -, hphase, -⟩
  · cases hout
  · rw [hrow] at hnone; cases hnone
  · cases hout
  · rw [hrow] at hrow'; cases hrow'
    exact ⟨hopen, hphase⟩

namespace Call

/-- The call cancels the task `k`. -/
def stops (k : TaskKey) : Call → Prop
  | cancel owner key => (owner, key) = k
  | cancelSession owner _ => owner = k.1
  | _ => False

variable {c : Call} {u : Token} {db : TaskDb} {t t' : Time} {k : TaskKey} {row : TaskRow}

/-- **A marked row is left only through `resolve`, or by stopping the task.** -/
theorem perform_of_marked (hc : c.clocked t t') (hrow : db.tasks k = some row)
    (hr : RowInv u t row) (hm : row.Marked) :
    (c.perform u db).tasks k = some row ∨
    (c.stops k ∧ ∃ reply, (c.perform u db).tasks k = some (TaskStore.stop reply row)) ∨
    ∃ env callId text db', c = resolve env k.1 k.2 callId text ∧
      TaskStore.resolve env k.1 k.2 callId text db = .ok (db', ()) := by
  have hopen : row.state.terminal = false := by rw [hm.1]; rfl
  cases c with
  | answer env owner key text =>
    left
    refine settle_of (P := fun x : TaskDb => x.tasks k = some row) hrow fun db' a h => ?_
    obtain ⟨row', call, hrow', hsus, -, rfl⟩ := TaskStore.answer_ok h
    by_cases hk : k = (owner, key)
    · subst hk
      rw [hrow] at hrow'; cases hrow'
      rw [hm.1] at hsus; cases hsus
    · exact (Table.set_of_ne _ _ _ hk).trans hrow
  | resolve env owner key callId text =>
    cases hres : TaskStore.resolve env owner key callId text db with
    | error e => left; simpa [perform, hres] using hrow
    | ok x =>
      by_cases hk : k = (owner, key)
      · subst hk; exact .inr (.inr ⟨env, callId, text, x.1, rfl, hres⟩)
      · left
        obtain ⟨row', step, -, -, -, -, -, hdb⟩ := TaskStore.resolve_ok hres
        simp only [perform, hres]
        show x.1.tasks k = _
        rw [hdb]
        exact (Table.set_of_ne _ _ _ hk).trans hrow
  | cancel owner key =>
    by_cases hk : k = (owner, key)
    · subst hk
      exact .inr (.inl ⟨rfl, "Task cancelled", by simp [perform, TaskStore.cancel, hrow, hopen]⟩)
    · exact .inl ((Table.update_of_ne _ _ _ _ hk).trans hrow)
  | cancelSession owner t₁ =>
    by_cases hk : owner = k.1
    · exact .inr (.inl ⟨hk, "Session cleared",
        by simp [perform, TaskStore.cancelSession, hrow, hopen, hk]⟩)
    · left
      have : ¬ k.1 = owner := fun h => hk h.symm
      simp [perform, TaskStore.cancelSession, hrow, this]
  | claim | renew | checkpoint | finish | markUncertain | bindWorkspace =>
    left
    have h : WorkerStep u t t' (db.tasks k) _ := workerStep rfl hc k
    rw [hrow] at h
    exact h.eq_of_marked hr hm

end Call

namespace TaskSys

variable {s s' : TaskSys} {k : TaskKey} {row : TaskRow}

/-- A terminal row stays what it is in every later state. -/
theorem terminal_stays {ls : List Call} (hi : Inv s) (hrow : s.db.tasks k = some row)
    (hterm : row.state.terminal = true) (hrun : lts.Run s ls s') : s'.db.tasks k = some row := by
  refine hrun.preserves_under (I := Inv) (P := fun s => s.db.tasks k = some row)
    (fun _ _ _ => inv_step) (fun a c b ha hP hst => ?_) hi hrow
  have h := rowStep hst k
  rw [hP] at h
  exact h.eq_of_terminal (ha k row hP) hterm

/-- A run in which a human resolves the marked row `row` of the task `k`: the call is a running
step of the task, its result is appended as one tool message, and the step is recorded. -/
def Resolution (s : TaskSys) (k : TaskKey) (row : TaskRow) (ls : List Call) : Prop :=
  ∃ ls₁ env callId text ls₂ t t' step,
    ls = ls₁ ++ .resolve env k.1 k.2 callId text :: ls₂ ∧
    lts.Run s ls₁ t ∧ lts.step t (.resolve env k.1 k.2 callId text) t' ∧
    t.db.tasks k = some row ∧ row.phase = .toolStarted ∧
    t.db.steps (k, callId) = some step ∧ step.state = .running ∧
    t'.db.steps (k, callId) =
      some { step with state := .resolvedByHuman, result := some text } ∧
    t'.db.tasks k = some { row.release with
      state := .pending
      phase := .toolDone
      checkpoint := { row.checkpoint with
        messages := row.checkpoint.messages ++ [.tool callId text]
        humanResolution := some (callId, text) } }

/-- **The mark survives.**  In every later state the row is the same, or the task was stopped,
or a human resolved it. -/
theorem marked_stays {ls : List Call} (hi : Inv s) (hrow : s.db.tasks k = some row)
    (hm : row.Marked) (hrun : lts.Run s ls s') :
    s'.db.tasks k = some row ∨
    (∃ row', s'.db.tasks k = some row' ∧ row'.state.terminal = true ∧ ∃ c ∈ ls, c.stops k) ∨
    Resolution s k row ls := by
  by_cases hlost : s'.db.tasks k = some row
  · exact .inl hlost
  right
  obtain ⟨ls₁, c, ls₂, t, t', rfl, h₁, ⟨ht, hrowt⟩, hst, hq, h₂⟩ :=
    hrun.exists_step_of_lost (P := fun s => Inv s ∧ s.db.tasks k = some row)
      (Q := fun s c s' => ¬ s'.db.tasks k = some row) ⟨hi, hrow⟩ (fun h => hlost h.2)
      (fun a c b ha hst => by
        by_cases hb : b.db.tasks k = some row
        · exact .inl ⟨inv_step ha.1 hst, hb⟩
        · exact .inr hb)
  have hdb : t'.db = c.perform t.uuids t.db := hst.2.2.1
  rcases Call.perform_of_marked hst.2.1 hrowt (ht k row hrowt) hm with hsame |
      ⟨hstop, reply, hstopped⟩ | ⟨env, callId, text, db', rfl, hres⟩
  · exact absurd (hdb ▸ hsame) hq
  · refine .inl ⟨TaskStore.stop reply row, ?_, rfl, c, by simp, hstop⟩
    exact terminal_stays (inv_step ht hst) (hdb ▸ hstopped) rfl h₂
  · right
    obtain ⟨row', step, hrow', -, hphase, hstep, hrunning, rfl⟩ := TaskStore.resolve_ok hres
    rw [hrowt] at hrow'; cases hrow'
    refine ⟨ls₁, env, callId, text, ls₂, t, t', step, rfl, h₁, hst, hrowt, hphase, hstep,
      hrunning, ?_, ?_⟩
    · rw [hdb]; simp [Call.perform, hres]
    · rw [hdb]; simp [Call.perform, hres, TaskStore.resolved]

section Claims

variable {env : Access} {goal : String} {messages : List Message} {episode : Option ℕ}
  {criteria : Option Criteria} {u : Token} {t₁ t₂ : Time} {db : TaskDb}

/-- A claim that is admitted returns `None` on a terminal row. -/
theorem claim_terminal (hadmits : Admits env k) (hrow : db.tasks k = some row)
    (hterm : row.state.terminal = true) :
    TaskStore.claim env k.1 k.2 goal messages episode criteria u t₁ t₂ db = .ok (db, .finished) := by
  simp only [TaskStore.claim, hadmits.key, ensure_true, Access.ownerActive, hadmits.active,
    hadmits.backend, hrow, hterm, if_true]
  rfl

/-- A claim that is admitted marks an open row that has started something and is not leased. -/
theorem claim_started (hadmits : Admits env k) (hrow : db.tasks k = some row)
    (hopen : row.state.terminal = false) (hfree : row.leased t₁ = false)
    (hphase : row.phase.started = true) :
    ∃ e, TaskStore.claim env k.1 k.2 goal messages episode criteria u t₁ t₂ db =
      .ok ({ db with tasks := db.tasks.set k (TaskStore.mark row) }, .refused e) := by
  simp only [TaskStore.claim, hadmits.key, ensure_true, Access.ownerActive, hadmits.active,
    hadmits.backend, hrow, hopen, hfree, hphase, Bool.false_eq_true, if_false, if_true]
  exact ⟨_, rfl⟩

end Claims

/-- **No blind replay, and terminal states are final.**  For every row of a reachable state:

* in phase `tool_started` or `skill_started`, a claim that does not roll back hands out no token:
  on a terminal row it returns `None` and changes nothing, on an open row without an unexpired
  lease it marks the row `uncertain` and raises (under an unexpired lease it rolls back); and it
  does so whenever the tests that are not about the row pass;
* a marked row stays the same until the task is stopped or a human resolves a running step of
  it, which appends exactly one tool message, and only after such a resolution does a claim hand
  out a token again;
* a terminal row stays the same for ever. -/
theorem no_blind_replay (hs : lts.Reachable Initial s) (hrow : s.db.tasks k = some row) :
    (row.phase.started = true →
      ∀ env goal messages episode criteria t₁ t₂,
        let claim :=
          TaskStore.claim env k.1 k.2 goal messages episode criteria s.uuids t₁ t₂ s.db
        (∀ db' out, claim = .ok (db', out) →
          (row.state.terminal = true ∧ out = .finished ∧ db' = s.db) ∨
          (row.state.terminal = false ∧ row.leased t₁ = false ∧ (∃ e, out = .refused e) ∧
            db'.tasks k = some { row with state := .uncertain })) ∧
        (Admits env k →
          (row.state.terminal = true → claim = .ok (s.db, .finished)) ∧
          (row.state.terminal = false → row.leased t₁ = false → ∃ db' e,
            claim = .ok (db', .refused e) ∧
              db'.tasks k = some { row with state := .uncertain }))) ∧
    (row.Marked → ∀ ls s', lts.Run s ls s' →
      (s'.db.tasks k = some row ∨
        (∃ row', s'.db.tasks k = some row' ∧ row'.state.terminal = true ∧ ∃ c ∈ ls, c.stops k) ∨
        Resolution s k row ls) ∧
      ∀ env goal messages episode criteria t₁ t₂ db' token,
        TaskStore.claim env k.1 k.2 goal messages episode criteria s'.uuids t₁ t₂ s'.db =
          .ok (db', .token token) → Resolution s k row ls) ∧
    (row.state.terminal = true → ∀ ls s', lts.Run s ls s' → s'.db.tasks k = some row) := by
  have hi := inv_reachable hs
  refine ⟨?_, ?_, fun hterm ls s' hrun => terminal_stays hi hrow hterm hrun⟩
  · intro hphase env goal messages episode criteria t₁ t₂ claim
    refine ⟨fun db' out hclaim => ?_, fun hadmits => ⟨claim_terminal hadmits hrow,
      fun hopen hfree => ?_⟩⟩
    case refine_2 =>
      obtain ⟨e, hclaim⟩ := claim_started hadmits hrow hopen hfree hphase
      exact ⟨_, e, hclaim, Table.set_same ..⟩
    rcases TaskStore.claim_ok hclaim with ⟨row', hrow', hterm, hdb, hout⟩ | ⟨hnone, -, -⟩ |
      ⟨row', hrow', hopen, hfree, -, hout, rfl⟩ | ⟨row', hrow', -, -, hphase', -⟩
    · rw [hrow] at hrow'; cases hrow'
      exact .inl ⟨hterm, hout, hdb⟩
    · rw [hrow] at hnone; cases hnone
    · rw [hrow] at hrow'; cases hrow'
      exact .inr ⟨hopen, hfree, hout, Table.set_same ..⟩
    · rw [hrow] at hrow'; cases hrow'
      rw [hphase] at hphase'; cases hphase'
  · intro hm ls s' hrun
    have hstays := marked_stays hi hrow hm hrun
    refine ⟨hstays, ?_⟩
    intro env goal messages episode criteria t₁ t₂ db' token hclaim
    rcases hstays with hsame | ⟨row', hrow', hterm, -⟩ | hres
    · have := (TaskStore.open_of_token hclaim hsame).2
      rw [hm.2] at this; cases this
    · have := (TaskStore.open_of_token hclaim hrow').1
      rw [hterm] at this; cases this
    · exact hres

/-- A worker claims the task, starts a tool and saves that. -/
def startedRun : List (Call × Time) :=
  [(claimAt 0, 0),
    (.checkpoint {} "owner" "task" 0 .toolStarted { messages := [] }
      (some ⟨"call", { name := "write_file", input := "", state := .running }⟩) 1, 1)]

/-- A claim of a row in phase `tool_started` need not make it uncertain: a cancelled row stays
cancelled, and a row under an unexpired lease stays running. -/
theorem started_not_uncertain :
    let s := (TaskSys.mk .empty 0 0).runs startedRun
    let s' := s.after (.cancel "owner" "task") 2
    lts.Reachable Initial s ∧ lts.Reachable Initial s' ∧
    (s.db.tasks ("owner", "task")).map (·.phase) = some .toolStarted ∧
    (s'.db.tasks ("owner", "task")).map (·.phase) = some .toolStarted ∧
    (((claimAt 100).perform s.uuids s.db).tasks ("owner", "task")).map (·.state) =
      some .running ∧
    (((claimAt 200).perform s'.uuids s'.db).tasks ("owner", "task")).map (·.state) =
      some .cancelled := by
  have hs : lts.Reachable Initial ((TaskSys.mk .empty 0 0).runs startedRun) :=
    Lts.Reachable.run (.of_init (s := TaskSys.mk .empty 0 0) rfl) (run_runs (by decide))
  exact ⟨hs, hs.step (step_after (t := 2) (by decide) (by decide)), by decide, by decide,
    by decide, by decide⟩

/-- The row that a claim marks after the lease of `startedRun` has expired. -/
def markedRow : TaskRow where
  goal := "goal"
  criteria := { goal := some "goal" }
  state := .uncertain
  phase := .toolStarted
  checkpoint := { messages := [] }
  leaseOwner := some 0
  leaseUntil := some 180
  attempts := 1

/-- The marked task of `startedRun` is claimed again after a resolution. -/
theorem no_blind_replay_resolved :
    let s := ((TaskSys.mk .empty 0 0).runs startedRun).after (claimAt 200) 200
    Resolution s ("owner", "task") markedRow [.resolve {} "owner" "task" "call" "written"] := by
  intro s
  have hs : lts.Reachable Initial s :=
    .step (.run (.of_init (s := TaskSys.mk .empty 0 0) rfl) (run_runs (by decide)))
      (step_after (t := 200) (by decide) (by decide))
  have hrow : s.db.tasks ("owner", "task") = some markedRow := rfl
  exact ((no_blind_replay hs hrow).2.1 ⟨rfl, rfl⟩ _ _
    (.single (step_after (t := 201) (by decide) (by decide)))).2
    {} "goal" [] none none 202 202 _ 4 rfl

end TaskSys

end PythonAI
