import PythonAI.Communication.Outcomes

/-!
# What recovery reports

`recover_tasks` reads a task that is terminal, cancels the job first if the task is cancelled, and
then reports the end of the job.

* `Worker.Host.Reports` : a poller is about to report the end of a job, whose task is in a state;
* `Worker.Host.recovered` : **recovery reports the outcome of the task** in the runs in which every
  job whose task is cancelled is pending, running or suspended, or has a recorded cancellation, when
  recovery cancels it;
* `Worker.Host.recovered_required` : a run in which a job that requires recovery is reported as
  completed because its task was cancelled.
-/

namespace PythonAI

open Library

namespace Communication

namespace Worker

/-- How a job ends whose task is in the terminal state `s`. -/
def outcome : TaskState → Status
  | .failed => .failed
  | .cancelled => .cancelled
  | _ => .completed

/-- The command whose end a poller is about to report, with the state of its task. -/
def Poller.report : Poller → Option (Command × TaskState)
  | ending c st _ _ => if st = .cancelled then none else some (c, st)
  | completing c _ _ => some (c, .cancelled)
  | _ => none

namespace Host

variable {owner : Command → Owner} {h h' : Host} {a : Act} {w : ℕ} {id : CommandId} {j : Job}
  {c : Command} {st : TaskState}

/-- The poller `w` is about to report the end of the command `c`, whose task it has found in the
state `st`. -/
def Reports (h : Host) (w : ℕ) (c : Command) (st : TaskState) : Prop :=
  (h.pollers w).report = some (c, st)

/-- A step by which recovery cancels the job of a cancelled task finds the job pending, running or
suspended, or marked; or its conversation is not active. -/
def Cancels (h : Host) : Act → Bool
  | .poll w (.write _) =>
    match h.pollers w with
    | .ending c .cancelled _ _ => (h.db.job c.id).any fun j =>
        h.db.lifecycle j.command ≠ .active || j.status = .pending || j.status = .running ||
          j.status = .suspended || j.status.marked
    | _ => true
  | _ => true

theorem report_cases (hr : h.Reports w c st) :
    (∃ reply rest, h.pollers w = .ending c st reply rest ∧ st ≠ .cancelled) ∨
      ∃ reply rest, h.pollers w = .completing c reply rest ∧ st = .cancelled := by
  unfold Reports at hr
  cases hp : h.pollers w with
  | ending c' st' reply rest =>
    rw [hp, Poller.report] at hr
    split_ifs at hr with hs
    cases hr
    exact .inl ⟨reply, rest, rfl, hs⟩
  | completing c' reply rest =>
    rw [hp, Poller.report] at hr
    cases hr
    exact .inr ⟨reply, rest, rfl, rfl⟩
  | _ => rw [hp] at hr; cases hr

theorem cancels_job {t : Time} {reply : String} {rest : List Command}
    (hc : h.Cancels (.poll w (.write t)) = true)
    (hp : h.pollers w = .ending c .cancelled reply rest) :
    ∃ j, h.db.job c.id = some j ∧ (h.db.lifecycle j.command = .active →
      j.status = .pending ∨ j.status = .running ∨ j.status = .suspended ∨
        j.status.marked = true) := by
  rw [Cancels, hp] at hc
  obtain ⟨j, hj, hs⟩ := (Option.any_eq_true _ _).1 hc
  refine ⟨j, hj, fun hl => ?_⟩
  simpa [hl, or_assoc] using hs

/-! ### What recovery relies on -/

/-- A step changes a task as one call does, or not at all. -/
theorem tasks_step (hst : (lts owner).step h a h') (k : TaskKey) :
    Call.Ends (h.tasks.tasks k) (h'.tasks.tasks k) := by
  rw [hst]
  show Call.Ends _ ((tasksAfter h.uuids h.tasks (h.effect owner a)).tasks k)
  cases h.effect owner a with
  | none => exact .refl _
  | some e =>
    cases e with
    | task call => exact call.ends h.uuids h.tasks k
    | store | claim | finish => exact .refl _

/-- A recorded cancellation of a job in an active conversation outlives every step. -/
theorem marked_step (hf : h.db.Filed) (hst : (lts owner).step h a h') (hj : h.db.job id = some j)
    (hm : h.db.lifecycle j.command = .active → j.status.marked = true) :
    ∃ j', h'.db.job id = some j' ∧
      (h'.db.lifecycle j'.command = .active → j'.status.marked = true) := by
  obtain ⟨j', hj', hs⟩ := storeAfter_shift (e := h.effect owner a) hj
  rw [← step_db hst] at hj'
  refine ⟨j', hj', fun hl' => ?_⟩
  have hl := active_before hf hst hj hj' hl'
  rcases hs with rfl | ⟨o, he, hs⟩
  · exact hm hl
  rcases hs.of_marked (hm hl) with (heq | heq) | ⟨heq, s, t, rfl, hw⟩
  · rw [heq]
    exact hm hl
  · rw [heq]
    rfl
  · -- the erasure leaves the conversation deleted
    have hscope := scope_of_within hw (hf.session id j hj)
    rw [step_db hst, he] at hj' hl'
    rcases erase_cases s t (hscope ▸ hf.state id j hj) with hsame | hdone
    · rw [show storeAfter h.db (some (.store (.eraseSession s t))) = h.db from hsame, hj] at hj'
      cases hj'
      exact hm hl
    · rw [Db.lifecycle, hs.session.2, hscope, show (storeAfter h.db
        (some (.store (.eraseSession s t)))).states s = some .deleted from hdone] at hl'
      cases hl'

variable (owner) in
/-- What a poller inside `recover_tasks` knows. -/
structure Recovers (h : Host) : Prop where
  /-- the jobs are filed -/
  filed : h.db.Filed
  /-- a terminal task has no holder -/
  unheld : ∀ k, Call.Unheld (h.tasks.tasks k)
  /-- the task of a job that is to end is terminal -/
  ending : ∀ w c st reply rest, h.pollers w = .ending c st reply rest →
    st.terminal = true ∧ ∃ row, h.tasks.tasks (owner c, c.id) = some row ∧ row.state = st
  /-- the task of a job that was cancelled is cancelled, and the cancellation is recorded -/
  completing : ∀ w c reply rest, h.pollers w = .completing c reply rest →
    (∃ row, h.tasks.tasks (owner c, c.id) = some row ∧ row.state = .cancelled) ∧
      ∃ j, h.db.job c.id = some j ∧
        (h.db.lifecycle j.command = .active → j.status.marked = true)

theorem Initial.recovers (h₀ : h.Initial) : h.Recovers owner := by
  refine ⟨?_, fun k row hrow => ?_, fun w c st reply rest hp => ?_, fun w c reply rest hp => ?_⟩
  · rw [h₀.db]
    exact ⟨fun id j hj => (nomatch hj), fun k s hs => (nomatch hs), fun id j hj => (nomatch hj)⟩
  · rw [h₀.tasks] at hrow
    cases hrow
  · rw [h₀.pollers] at hp
    cases hp
  · rw [h₀.pollers] at hp
    cases hp

/-- A terminal task is the same after a step. -/
theorem task_stays (hr : h.Recovers owner) (hst : (lts owner).step h a h') (hterm : st.terminal = true)
    (hrow : ∃ row, h.tasks.tasks (owner c, c.id) = some row ∧ row.state = st) :
    ∃ row, h'.tasks.tasks (owner c, c.id) = some row ∧ row.state = st := by
  obtain ⟨row, hrow, hs⟩ := hrow
  exact ⟨row, (tasks_step hst _ (hr.unheld _)).2 row hrow (hs ▸ hterm), hs⟩

/-- Cancelling a job that is pending, running or suspended records it. -/
theorem cancel_marks {db : Db} (hj : db.job id = some j) (hs : j.status = .pending ∨
    j.status = .running ∨ j.status = .suspended ∨ j.status.marked = true) :
    ∃ j', (cancelCommand id none db).1.job id = some j' ∧ j'.status.marked = true := by
  refine ⟨_, job_updateJobs (fun _ => rfl) hj, ?_⟩
  by_cases hc : cancellable id none j = true
  · rw [if_pos hc]
    show (if j.status = .running then Status.cancelRequested else .cancelled).marked = true
    split_ifs <;> rfl
  · rw [if_neg hc]
    have hid := id_of_job hj
    rcases hs with hs | hs | hs | hs
    · exact absurd (by simp [cancellable, hid, ownerFilter, hs]) hc
    · exact absurd (by simp [cancellable, hid, ownerFilter, hs]) hc
    · exact absurd (by simp [cancellable, hid, ownerFilter, hs]) hc
    · exact hs

/-- A poller that finds a task terminal has read it. -/
theorem Polled.ending {p : Poller} {x : PollAct} {reply : String} {rest : List Command}
    (hp : Polled owner h w p x (.ending c st reply rest)) :
    p = .ending c st reply rest ∨
      st.terminal = true ∧ ∃ row, h.tasks.tasks (owner c, c.id) = some row ∧ row.state = st := by
  generalize hq : Poller.ending c st reply rest = q at hp
  cases hp with
  | inspected c' rest' t =>
    rcases inspected_cases c' rest' t (h.tasks.tasks (owner c', c'.id)) with heq | heq |
      ⟨row, hrow, -, ⟨hterm, reply', heq⟩ | ⟨-, heq⟩ | ⟨-, -, -, heq | ⟨s, call, reply', heq⟩⟩⟩ <;>
      rw [heq] at hq <;> cases hq
    exact .inr ⟨hterm, row, hrow, rfl⟩
  | replied _ _ rest' =>
    rcases proceed_cases rest' with heq | ⟨r, heq⟩ <;> rw [heq] at hq <;> cases hq
  | stayed => exact .inl rfl
  | _ => cases hq

/-- A poller that is to complete a job has cancelled it. -/
theorem Polled.completing {p : Poller} {x : PollAct} {reply : String} {rest : List Command}
    (hp : Polled owner h w p x (.completing c reply rest)) :
    p = .completing c reply rest ∨ (∃ t, x = .write t) ∧ p = .ending c .cancelled reply rest := by
  generalize hq : Poller.completing c reply rest = q at hp
  cases hp with
  | inspected c' rest' t =>
    rcases inspected_cases c' rest' t (h.tasks.tasks (owner c', c'.id)) with heq | heq |
      ⟨row, hrow, -, ⟨hterm, reply', heq⟩ | ⟨-, heq⟩ | ⟨-, -, -, heq | ⟨s, call, reply', heq⟩⟩⟩ <;>
      rw [heq] at hq <;> cases hq
  | replied _ _ rest' =>
    rcases proceed_cases rest' with heq | ⟨r, heq⟩ <;> rw [heq] at hq <;> cases hq
  | cancelled c' reply' rest' t =>
    cases hq
    exact .inr ⟨⟨t, rfl⟩, rfl⟩
  | stayed => exact .inl rfl
  | _ => cases hq

theorem Recovers.step (hr : h.Recovers owner) (hst : (lts owner).step h a h')
    (hc : h.Cancels a = true) : h'.Recovers owner := by
  refine ⟨filed_step hr.filed hst, fun k => (tasks_step hst k (hr.unheld k)).1,
    fun w c st reply rest hp' => ?_, fun w c reply rest hp' => ?_⟩
  · have hbefore : st.terminal = true ∧
        ∃ row, h.tasks.tasks (owner c, c.id) = some row ∧ row.state = st := by
      rcases pollers_step hst w with heq | heq | ⟨x, rfl, hpolled⟩
      · exact hr.ending w c st reply rest (heq ▸ hp')
      · rw [hp'] at heq
        cases heq
      · rw [hp'] at hpolled
        rcases hpolled.ending with hp | hread
        · exact hr.ending w c st reply rest hp
        · exact hread
    exact ⟨hbefore.1, task_stays hr hst hbefore.1 hbefore.2⟩
  · have hkept : h.pollers w = .completing c reply rest →
        (∃ row, h'.tasks.tasks (owner c, c.id) = some row ∧ row.state = .cancelled) ∧
          ∃ j, h'.db.job c.id = some j ∧
            (h'.db.lifecycle j.command = .active → j.status.marked = true) := fun hp => by
      obtain ⟨hrow, j, hj, hm⟩ := hr.completing w c reply rest hp
      exact ⟨task_stays hr hst rfl hrow, marked_step hr.filed hst hj hm⟩
    rcases pollers_step hst w with heq | heq | ⟨x, rfl, hpolled⟩
    · exact hkept (heq ▸ hp')
    · rw [hp'] at heq
      cases heq
    · rw [hp'] at hpolled
      rcases hpolled.completing with hp | ⟨⟨t, rfl⟩, hp⟩
      · exact hkept hp
      · obtain ⟨-, hrow⟩ := hr.ending w c .cancelled reply rest hp
        refine ⟨task_stays hr hst rfl hrow, ?_⟩
        obtain ⟨j, hj, hs⟩ := cancels_job hc hp
        have hdb : h'.db = (cancelCommand c.id none h.db).1 := by
          rw [step_db hst]
          show storeAfter h.db (h.pollEffect owner (h.pollers w) _) = _
          rw [hp]
          rfl
        by_cases hl : h.db.lifecycle j.command = .active
        · obtain ⟨j', hj', hm⟩ := cancel_marks hj (hs hl)
          exact ⟨j', hdb ▸ hj', fun _ => hm⟩
        · obtain ⟨j', hj', -⟩ := storeAfter_shift (e := h.effect owner (.poll w (.write t))) hj
          rw [← step_db hst] at hj'
          exact ⟨j', hj', fun hl' => absurd (active_before hr.filed hst hj hj' hl') hl⟩

/-- **Recovery reports the outcome of the task.**  In a run in which every job of a cancelled task
is open or marked when recovery cancels it, recovery reports the end of a job only if its task is
terminal, and the job ends, in an active conversation, as the task did: a recorded cancellation may
turn that into cancelled. -/
theorem recovered (hr : ((lts owner).restrict fun h a => h.Cancels a = true).Reachable Initial h)
    (hrep : h.Reports w c st) {t : Time} (hst : (lts owner).step h (.poll w (.write t)) h') :
    (st.terminal = true ∧ ∃ row, h.tasks.tasks (owner c, c.id) = some row ∧ row.state = st) ∧
      ∀ j, h.db.job c.id = some j → h.db.lifecycle j.command = .active →
        ∃ j', h'.db.job c.id = some j' ∧
          (j'.status = outcome st ∨ j.status.marked = true ∧ j'.status = .cancelled) := by
  have hi : h.Recovers owner := hr.invariant (fun _ h₀ => h₀.recovers) fun _ _ _ hi hst =>
    hi.step hst.1 hst.2
  rcases report_cases hrep with ⟨reply, rest, hp, hne⟩ | ⟨reply, rest, hp, rfl⟩
  · have hend := hi.ending w c st reply rest hp
    refine ⟨hend, fun j hj hl => ?_⟩
    have hreport : ∀ status result error,
        h'.db = updateCommand c.id status result error h.db → (∃ j', h'.db.job c.id = some j' ∧
          j'.status = reported j.status status) := fun status result error hdb =>
      ⟨_, by rw [hdb]; exact updateCommand_active status result error hj hl, rfl⟩
    have hreported : ∀ status, status = .completed ∨ status = .failed →
        reported j.status status = status ∨
          j.status.marked = true ∧ reported j.status status = .cancelled := fun status hs => by
      by_cases hm : j.status.marked = true
      · rcases hs with rfl | rfl <;> exact .inr ⟨hm, by simp [reported, hm]⟩
      · exact .inl (by simp [reported, hm])
    have hdb : h'.db = storeAfter h.db (h.pollEffect owner (.ending c st reply rest) (.write t)) := by
      rw [step_db hst, effect, hp]
    cases st with
    | failed =>
      obtain ⟨j', hj', hs⟩ := hreport .failed none (some reply) hdb
      exact ⟨j', hj', by rw [hs]; exact hreported .failed (.inr rfl)⟩
    | completed =>
      obtain ⟨j', hj', hs⟩ := hreport .completed (some reply) none hdb
      exact ⟨j', hj', by rw [hs]; exact hreported .completed (.inl rfl)⟩
    | cancelled => exact absurd rfl hne
    | pending | running | suspended | uncertain => exact absurd hend.1 (by decide)
  · obtain ⟨hrow, j₀, hj₀, hm⟩ := hi.completing w c reply rest hp
    refine ⟨⟨rfl, hrow⟩, fun j hj hl => ?_⟩
    rw [hj₀] at hj
    cases hj
    have hdb : h'.db = updateCommand c.id .completed (some reply) none h.db := by
      rw [step_db hst, effect, hp]
      rfl
    refine ⟨_, by rw [hdb]; exact updateCommand_active .completed (some reply) none hj₀ hl, .inl ?_⟩
    simp [reported, hm hl, outcome]

/-- A message whose task is cancelled by a human while its worker is dead. -/
def stoppedActs : List Act :=
  [.op (.ingest { command := ⟨"t:1", "t", "chat", "ann", "hi", "default", "", none⟩ } none ""),
    .poll 0 .recover, .poll 0 (.pick 4), .poll 0 .take, .poll 0 (.dispatch none "" 0), .run 0 .go,
    .task (.claim {} "" "t:1" "hi" [] none none 0 0), .crash 0, .task (.cancel "" "t:1"),
    .poll 0 .recover, .poll 0 (.inspect 1000), .poll 0 (.write 1000)]

/-- The state in which recovery is about to report that. -/
def stopped : Host := stoppedActs.foldl (act fun _ => "") new

/-- The command of that message. -/
def stoppedCommand : Command := ⟨"t:1", "t", "chat", "ann", "hi", "default", "t:chat", none⟩

theorem recovered_sample : ∃ j', (stopped.act (fun _ => "") (.poll 0 (.write 1000))).db.job "t:1" =
    some j' ∧ j'.status = .cancelled := by
  have hr : ((lts fun _ => "").restrict fun h a => h.Cancels a = true).Reachable Initial stopped :=
    ⟨new, stoppedActs, new_initial, run_meets (rfl)⟩
  have hrep : stopped.Reports 0 stoppedCommand .cancelled := by
    show (stopped.pollers 0).report = _
    rfl
  obtain ⟨j, hj, hcommand⟩ := Option.map_eq_some_iff.1
    (show (stopped.db.job "t:1").map Job.command = some stoppedCommand by decide)
  have hactive : stopped.db.lifecycle stoppedCommand = .active := by decide
  obtain ⟨j', hj', hs⟩ := (recovered hr hrep rfl).2 j hj (hcommand ▸ hactive)
  exact ⟨j', hj', hs.elim id And.right⟩

/-- The same, but the worker died inside a tool, and recovery has marked the job. -/
def requiredActs : List Act :=
  [.op (.ingest { command := ⟨"t:1", "t", "chat", "ann", "hi", "default", "", none⟩ } none ""),
    .poll 0 .recover, .poll 0 (.pick 4), .poll 0 .take, .poll 0 (.dispatch none "" 0), .run 0 .go,
    .task (.claim {} "" "t:1" "hi" [] none none 0 0),
    .task (.checkpoint {} "" "t:1" 6 .toolStarted { messages := [] } none 1), .crash 0,
    .poll 0 .recover, .poll 0 (.inspect 1000), .poll 0 (.write 1000), .poll 0 (.write 1000),
    .poll 0 (.pick 4), .task (.cancel "" "t:1"), .poll 0 .recover, .poll 0 (.inspect 1001),
    .poll 0 (.write 1001)]

/-- The state in which recovery is about to report that. -/
def required : Host := requiredActs.foldl (act fun _ => "") new

theorem recovered_required : ∃ h h' c j j', (lts fun _ => "").Reachable Initial h ∧
    h.Reports 0 c .cancelled ∧ (lts fun _ => "").step h (.poll 0 (.write 1001)) h' ∧
      h.db.lifecycle j.command = .active ∧ h.db.job c.id = some j ∧ h'.db.job c.id = some j' ∧
        j.status.marked = false ∧ j'.status = .completed := by
  obtain ⟨j, hj, hrow⟩ := Option.map_eq_some_iff.1 (show (required.db.job "t:1").map
    (fun j => (j.command, j.status.marked)) = some (stoppedCommand, false) by decide)
  obtain ⟨j', hj', hs⟩ := Option.map_eq_some_iff.1 (show ((required.act (fun _ => "")
    (.poll 0 (.write 1001))).db.job "t:1").map Job.status = some .completed by decide)
  have hactive : required.db.lifecycle stoppedCommand = .active := by decide
  rw [Prod.mk.injEq] at hrow
  refine ⟨required, _, stoppedCommand, j, j', ⟨new, requiredActs, new_initial, run_foldl _ _⟩, ?_,
    rfl, hrow.1 ▸ hactive, hj, hj', hrow.2, hs⟩
  show (required.pollers 0).report = _
  decide

end Host

end Worker

end Communication

end PythonAI
