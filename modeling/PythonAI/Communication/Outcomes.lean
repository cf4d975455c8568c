import PythonAI.Communication.Steps

/-!
# The outcome of a command

The status of a job while processes run `process_next` and `background_run` and anybody calls the
store.

* `Worker.Host.Overwrites` : a result is reported for a failed job, or a failure for a completed one;
* `Worker.Host.settled` : **the outcome of a command is final** in the runs without such a report,
  and every such report changes it;
* `Worker.Host.settled_late` : a run in which the reply to a completed command cannot be queued, and
  the handler of that exception reports the command as failed.
-/

namespace PythonAI

open Library

namespace Communication

/-- The outcomes of a command. -/
def Status.final : Status → Bool
  | completed | failed | cancelled => true
  | _ => false

/-- What a call does to the status of a job that has an outcome, in an active conversation. -/
theorem Shift.of_final {o : Op} {j j' : Job} (h : Shift .active o j j')
    (hf : j.status.final = true) :
    j'.status = j.status ∨
      (j.status = .failed ∧ j'.status = .completed ∧ ∃ r, o = .completeCommand j.id r) ∨
      (j.status = .completed ∧ j'.status = .failed ∧ ∃ e, o = .failCommand j.id e) ∨
      ∃ s t, o = .eraseSession s t ∧ j.within s = true ∧ j'.status = .deleted := by
  have hno : ∀ s, s.final = false → j.status ≠ s := fun s hs he => by
    rw [he, hs] at hf
    cases hf
  cases h with
  | kept | released => exact .inl rfl
  | recovered _ _ hs => rcases hs with hs | hs <;> exact absurd hs (hno _ rfl)
  | marked _ hs => rcases hs with hs | hs <;> exact absurd hs (hno _ rfl)
  | completed result ho =>
    show reported j.status .completed = _ ∨ _
    cases hs : j.status with
    | completed => exact .inl rfl
    | failed => exact .inr (.inl ⟨rfl, by simp [reported, Status.marked], result, ho⟩)
    | cancelled => exact .inl rfl
    | pending | running | suspended | recoveryRequired | cancelRequested | deleted =>
      exact absurd hs (hno _ rfl)
  | failed error ho =>
    show reported j.status .failed = _ ∨ _
    cases hs : j.status with
    | completed => exact .inr (.inr (.inl ⟨rfl, by simp [reported, Status.marked], error, ho⟩))
    | failed => exact .inl rfl
    | cancelled => exact .inl rfl
    | pending | running | suspended | recoveryRequired | cancelRequested | deleted =>
      exact absurd hs (hno _ rfl)
  | dropped _ hl => cases hl
  | cancelled _ _ hs => rcases hs with hs | hs | hs <;> exact absurd hs (hno _ rfl)
  | cleared _ _ hs => rcases hs with hs | hs | hs | hs <;> exact absurd hs (hno _ rfl)
  | suspended _ _ _ _ hs => rcases hs with hs | hs <;> exact absurd hs (hno _ rfl)
  | forgotten _ _ _ hs => exact absurd hs (hno _ rfl)
  | erased s t ho hs => exact .inr (.inr (.inr ⟨s, t, ho, hs, rfl⟩))

namespace Worker

namespace Host

variable {owner : Command → Owner} {h h' : Host} {a : Act} {id : CommandId} {j : Job}

/-! ### A report for a job that has an outcome -/

variable (owner) in
/-- The step reports a result for a failed job, or a failure for a completed one, in an active
conversation. -/
def Overwrites (h : Host) (a : Act) : Prop :=
  ∃ id j, h.db.job id = some j ∧ h.db.lifecycle j.command = .active ∧
    ((j.status = .failed ∧ ∃ r, h.effect owner a = some (.store (.completeCommand id r))) ∨
      j.status = .completed ∧ ∃ e, h.effect owner a = some (.store (.failCommand id e)))

/-- A step keeps the outcome of a job, but by an overwriting report or by an erasure. -/
theorem final_step (hf : h.db.Filed) (hst : (lts owner).step h a h')
    (hno : ¬ h.Overwrites owner a) (hj : h.db.job id = some j)
    (hl : h.db.lifecycle j.command = .active) (hfin : j.status.final = true) :
    ∃ j', h'.db.job id = some j' ∧ (h'.db.lifecycle j'.command = .active → j'.status = j.status) := by
  rw [step_db hst]
  obtain ⟨j', hj', hs⟩ := storeAfter_shift (e := h.effect owner a) hj
  refine ⟨j', hj', fun hl' => ?_⟩
  rcases hs with rfl | ⟨o, he, hs⟩
  · rfl
  rw [hl] at hs
  rcases hs.of_final hfin with heq | ⟨hfailed, -, r, ho⟩ | ⟨hcompleted, -, r, ho⟩ | ⟨s, t, ho, hw, hd⟩
  · exact heq
  · rw [id_of_job hj] at ho
    exact absurd ⟨id, j, hj, hl, .inl ⟨hfailed, r, by rw [he, ho]⟩⟩ hno
  · rw [id_of_job hj] at ho
    exact absurd ⟨id, j, hj, hl, .inr ⟨hcompleted, r, by rw [he, ho]⟩⟩ hno
  · -- the erasure leaves the conversation deleted
    subst ho
    have hscope := scope_of_within hw (hf.session id j hj)
    rw [he] at hj' hl'
    rcases erase_cases s t (hscope ▸ hf.state id j hj) with hsame | hdone
    · rw [show storeAfter h.db (some (.store (.eraseSession s t))) = h.db from hsame, hj] at hj'
      cases hj'
      rfl
    · rw [Db.lifecycle, hs.session.2, hscope, show (storeAfter h.db
        (some (.store (.eraseSession s t)))).states s = some .deleted from hdone] at hl'
      cases hl'

/-- A conversation that is active after a step was active before it. -/
theorem active_before {j' : Job} (hf : h.db.Filed) (hst : (lts owner).step h a h')
    (hj : h.db.job id = some j) (hj' : h'.db.job id = some j')
    (hl : h'.db.lifecycle j'.command = .active) : h.db.lifecycle j.command = .active := by
  obtain ⟨j'', hj'', hs⟩ := storeAfter_shift (e := h.effect owner a) hj
  rw [← step_db hst, hj'] at hj''
  cases hj''
  have hscope : j'.command.scope = j.command.scope := by
    rcases hs with rfl | ⟨o, -, hs⟩
    · rfl
    · exact hs.session.2
  obtain ⟨l, hl₀⟩ := Option.isSome_iff_exists.1 (hf.state id j hj)
  obtain ⟨l', hl', hrank⟩ := storeAfter_advances h.db (h.effect owner a) _ l hl₀
  rw [Db.lifecycle, hscope, step_db hst, hl'] at hl
  rw [Db.lifecycle, hl₀]
  have hzero : l'.rank = 0 := by
    rw [show l' = .active from hl]
    rfl
  cases l
  · rfl
  · exact absurd hrank (by rw [hzero]; decide)
  · exact absurd hrank (by rw [hzero]; decide)

/-- A report in an active conversation. -/
theorem updateCommand_active {db : Db} (status : Status) (result error : Option String)
    (hj : db.job id = some j) (hl : db.lifecycle j.command = .active) :
    (updateCommand id status result error db).job id =
      some { j with
        status := reported j.status status, resultText := result.or j.resultText
        lastError := error } := by
  have hupdate : updateCommand id status result error db =
      db.updateJobs (·.id = id) fun j =>
        { j with
          status := reported j.status status
          resultText := result.or j.resultText
          lastError := error } := by
    rw [updateCommand, hj, Option.map_some, hl]
  rw [hupdate, job_updateJobs ?_ hj, if_pos (decide_eq_true (id_of_job hj))]
  exact fun _ => rfl

/-- An overwriting report turns one outcome into another. -/
theorem overwritten (hst : (lts owner).step h a h') (ho : h.Overwrites owner a) :
    ∃ id j j', h.db.job id = some j ∧ h'.db.job id = some j' ∧
      (j.status = .failed ∧ j'.status = .completed ∨ j.status = .completed ∧ j'.status = .failed) := by
  obtain ⟨id, j, hj, hl, ⟨hs, r, he⟩ | ⟨hs, r, he⟩⟩ := ho
  · have hrow := updateCommand_active .completed (some r) none hj hl
    refine ⟨id, j, _, hj, (by rw [step_db hst, he]; exact hrow), .inl ⟨hs, ?_⟩⟩
    simp [hs, reported, Status.marked]
  · have hrow := updateCommand_active .failed none (some r) hj hl
    refine ⟨id, j, _, hj, (by rw [step_db hst, he]; exact hrow), .inr ⟨hs, ?_⟩⟩
    simp [hs, reported, Status.marked]

/-- **The outcome of a command is final** in an active conversation, in every run in which no
result is reported for a failed job and no failure for a completed one; each such report turns one
outcome into the other. -/
theorem settled (hr : (lts owner).Reachable Initial h) :
    (∀ as h', ((lts owner).restrict fun h a => ¬ h.Overwrites owner a).Run h as h' →
      ∀ id j j', h.db.job id = some j → h'.db.job id = some j' → j.status.final = true →
        h'.db.lifecycle j'.command = .active → j'.status = j.status) ∧
      ∀ a h', (lts owner).step h a h' → h.Overwrites owner a →
        ∃ id j j', h.db.job id = some j ∧ h'.db.job id = some j' ∧
          (j.status = .failed ∧ j'.status = .completed ∨
            j.status = .completed ∧ j'.status = .failed) := by
  refine ⟨fun as h' hrun id j j' hj hj' hfin hl => ?_, fun a h' hst ho => overwritten hst ho⟩
  have hkeep := hrun.preserves_under (I := fun h => h.db.Filed)
    (P := fun h' => ∃ j', h'.db.job id = some j' ∧
      (h'.db.lifecycle j'.command = .active → j'.status = j.status))
    (fun _ _ _ hf hst => filed_step hf hst.1)
    (fun h₁ a h₂ hf ⟨j₁, hj₁, hs₁⟩ hst => by
      obtain ⟨j₂, hj₂, -⟩ := storeAfter_shift (e := h₁.effect owner a) hj₁
      rw [← step_db hst.1] at hj₂
      refine ⟨j₂, hj₂, fun hl₂ => ?_⟩
      have hl₁ := active_before hf hst.1 hj₁ hj₂ hl₂
      have hfin₁ : j₁.status.final = true := by rw [hs₁ hl₁, hfin]
      obtain ⟨j₃, hj₃, hs₃⟩ := final_step hf hst.1 hst.2 hj₁ hl₁ hfin₁
      rw [hj₂] at hj₃
      cases hj₃
      rw [hs₃ hl₂, hs₁ hl₁])
    (filed hr) ⟨j, hj, fun _ => rfl⟩
  obtain ⟨j'', hj'', hs⟩ := hkeep
  rw [hj'] at hj''
  cases hj''
  exact hs hl

/-- The host before anything happens. -/
def new : Host := ⟨.empty, .empty, 0, fun _ => .idle, [], fun _ => 0, []⟩

theorem new_initial : Initial new := ⟨rfl, rfl, fun _ => rfl, rfl, rfl⟩

/-- A message arrives, is taken by the poller, answered by a thread, and completed. -/
def answeredActs : List Act :=
  [.op (.ingest { command := ⟨"t:1", "t", "chat", "ann", "hi", "default", "", none⟩ } none ""),
    .poll 0 .recover, .poll 0 (.pick 4), .poll 0 .take, .poll 0 (.dispatch none "" 0), .run 0 .go,
    .run 0 (.turn (.reply "done")), .run 0 .go, .run 0 .go, .run 0 .go]

/-- The state in which the reply to that message is to be sent. -/
def answered : Host := answeredActs.foldl (act fun _ => "") new

theorem answered_reachable : (lts fun _ => "").Reachable Initial answered :=
  ⟨new, answeredActs, new_initial, run_foldl _ _⟩

/-- The environment leaves no room for a delivery. -/
def crowded : Environment := fun name => if name = "COMM_DELIVERY_BYTES" then some (some 1) else none

theorem settled_late : ∃ h h' a j j', (lts fun _ => "").Reachable Initial h ∧
    (lts fun _ => "").step h a h' ∧ h.db.job "t:1" = some j ∧ h'.db.job "t:1" = some j' ∧
      h'.db.lifecycle j'.command = .active ∧ j.status = .completed ∧ j'.status = .failed := by
  have hrow : ∀ (h : Host) s, ((h.db.job "t:1").map Job.status) = some s →
      ∃ j, h.db.job "t:1" = some j ∧ j.status = s := fun h s hs => Option.map_eq_some_iff.1 hs
  obtain ⟨j, hj, hs⟩ := hrow (answered.act (fun _ => "") (.run 0 (.notify { env := crowded })))
    .completed (by decide)
  obtain ⟨j', hj', hs'⟩ := hrow ((answered.act (fun _ => "")
    (.run 0 (.notify { env := crowded }))).act (fun _ => "") (.run 0 .go)) .failed (by decide)
  have hactive : ((answered.act (fun _ => "") (.run 0 (.notify { env := crowded }))).act
      (fun _ => "") (.run 0 .go)).db.states ⟨"t", "ann", "default", "t:chat"⟩ = some .active := by
    decide
  have hscope : ((((answered.act (fun _ => "") (.run 0 (.notify { env := crowded }))).act
      (fun _ => "") (.run 0 .go)).db.job "t:1").map fun j => j.command.scope) =
        some ⟨"t", "ann", "default", "t:chat"⟩ := by decide
  rw [hj', Option.map_some] at hscope
  refine ⟨_, _, .run 0 .go, j, j', answered_reachable.step rfl, rfl, hj, hj', ?_, hs, hs'⟩
  rw [Db.lifecycle, Option.some.inj hscope, hactive]
  rfl

/-- The operation reports an outcome. -/
def reports : Option Effect → Bool
  | some (.store (.completeCommand ..)) | some (.store (.failCommand ..)) => true
  | _ => false

theorem not_overwrites (hr : reports (h.effect owner a) = false) : ¬ h.Overwrites owner a := by
  rintro ⟨id, j, -, -, ⟨-, r, he⟩ | ⟨-, r, he⟩⟩ <;> rw [he] at hr <;> cases hr

theorem settled_sample : ((answered.act (fun _ => "") (.run 0 (.notify {}))).db.job "t:1").map
    Job.status = some .completed := by
  obtain ⟨j, hj, hs⟩ := Option.map_eq_some_iff.1 (show (answered.db.job "t:1").map Job.status =
    some .completed by decide)
  obtain ⟨j', hj', hscope⟩ := Option.map_eq_some_iff.1 (show ((answered.act (fun _ => "")
    (.run 0 (.notify {}))).db.job "t:1").map (fun j => j.command.scope) =
      some ⟨"t", "ann", "default", "t:chat"⟩ by decide)
  have hactive : (answered.act (fun _ => "") (.run 0 (.notify {}))).db.states
      ⟨"t", "ann", "default", "t:chat"⟩ = some .active := by decide
  have hkept := (settled answered_reachable).1 [.run 0 (.notify {})] _
    (.single ⟨rfl, not_overwrites (by decide)⟩) "t:1" j j' hj hj' (by rw [hs]; rfl)
    (by rw [Db.lifecycle, hscope, hactive]; rfl)
  rw [hj', Option.map_some, hkept, hs]

end Host

end Worker

end Communication

end PythonAI
