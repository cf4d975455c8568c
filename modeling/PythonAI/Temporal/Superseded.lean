import PythonAI.Library.Fence
import PythonAI.Temporal.Operations

/-!
# Activities that a recovery superseded

An activity runs its step with a fence, and its cancellation check asks inside every scope check
whether the step still has that fence.  `recover` makes a running step ready again only while the
operation that the activity was about to start is absent or prepared; from then on the step never
has that fence again, so that the old activity starts nothing (`Sys.superseded`).
-/

namespace PythonAI

open Library

namespace Temporal

variable {o : Op} {u : Token} {db db' : Db} {s s' : Sys} {env : Access} {c : Caller} {l : Ledger}
  {cursor : Cursor} {k : OpKey}

/-! ### The fence of a step -/

/-- The fence of a step. -/
def Db.stepFence (db : Db) (key : SubmissionId × ℕ) : Option FenceId :=
  (db.stepRuns key).bind (·.fence)

/-- A commit leaves the fence of the step and gives the next one none. -/
theorem advance_fence {runs : Table (SubmissionId × ℕ) StepRun} {result : Cursor}
    {fence : Option FenceId} (key : SubmissionId × ℕ) :
    (StepStore.advance runs cursor result fence key).bind (·.fence) =
      if key = (result.submission, result.revision) then none else (runs key).bind (·.fence) := by
  have hupdate : (StepStore.advance runs cursor result fence key).bind (·.fence) =
      ((runs.set (result.submission, result.revision)
        (StepStore.newRun result.nextKind result.stateRef)) key).bind (·.fence) := by
    rw [StepStore.advance, Table.update_apply, Option.bind_map]
    congr 1
    funext run
    simp only [Function.comp]
    split_ifs <;> rfl
  rw [hupdate, Table.set_apply]
  split_ifs
  · rfl
  · rfl

/-- An effect keeps the fence of a step, drops it, or makes the token it draws the fence. -/
theorem Effect.stepFence (h : Effect o u db db') (key : SubmissionId × ℕ) :
    db'.stepFence key = db.stepFence key ∨ db'.stepFence key = none ∨
      db'.stepFence key = some u := by
  have set : ∀ {key' : SubmissionId × ℕ} {run : StepRun},
      db'.stepRuns = db.stepRuns.set key' run → run.fence = none ∨ run.fence = some u →
      db'.stepFence key = db.stepFence key ∨ db'.stepFence key = none ∨
        db'.stepFence key = some u := by
    intro key' run hruns hfence
    rw [Db.stepFence, Db.stepFence, hruns, Table.set_apply]
    split_ifs
    · exact .inr hfence
    · exact .inl rfl
  cases h with
  | ledger _ _ hruns | completed _ _ _ _ _ _ _ _ _ hruns =>
    exact .inl (by rw [Db.stepFence, Db.stepFence, hruns])
  | bootstrap _ _ _ _ _ _ _ _ hruns => exact set hruns (.inl rfl)
  | step key' run run' _ hrun' _ _ hruns =>
    rcases hrun' with ⟨-, rfl⟩ | ⟨-, rfl⟩
    · exact set hruns (.inr rfl)
    · exact set hruns (.inl rfl)
  | commit _ _ cursor fence run kind value v _ _ _ hrun _ hfence _ _ _ _ _ hruns =>
    rw [Db.stepFence, Db.stepFence, hruns, advance_fence, Table.set_apply]
    split_ifs with hnext hkey
    · exact .inr (.inl rfl)
    · subst hkey
      rw [hrun]
      rcases hfence with ⟨-, hfence⟩ | hfence
      · exact .inl hfence.symm
      · exact .inr (.inr hfence)
    · exact .inl rfl

/-- The step `key` is held with the fence of its activity. -/
def Sys.stepFence (key : SubmissionId × ℕ) : Fence Sys.lts where
  holder s := s.db.stepFence key
  supply s := s.uuids
  moves := by
    rintro s o s' ⟨⟩
    refine ⟨Nat.le_add_right _ _, ?_⟩
    refine commit_of (P := fun db : Db => db.stepFence key = s.db.stepFence key ∨
      db.stepFence key = none ∨ db.stepFence key = some s.uuids ∧ s.uuids < s.uuids + 2)
      (.inl rfl) fun db' hok => ?_
    rcases (Op.effect hok).stepFence key with hkeep | hdrop | htake
    · exact .inl hkeep
    · exact .inr (.inl hdrop)
    · exact .inr (.inr ⟨htake, Nat.lt_add_of_pos_right (by decide)⟩)

/-- The fence of a step was drawn. -/
theorem stepFence_lt (h : Sys.lts.Reachable Sys.Initial s) {key : SubmissionId × ℕ}
    {f : FenceId} (hf : s.db.stepFence key = some f) : f < s.uuids := by
  refine (Sys.stepFence key).below (fun s h₀ f hf => ?_) h f hf
  obtain ⟨host, h₀⟩ := h₀
  replace hf : s.db.stepFence key = some f := hf
  rw [h₀] at hf; cases hf

/-! ### Callers -/

/-- The caller runs the step of the cursor with a fence below `v`. -/
def Caller.Superseded (c : Caller) (cursor : Cursor) (v : Token) : Prop :=
  ∃ cursor' f, c.step = some (cursor', f) ∧ cursor'.submission = cursor.submission ∧
    cursor'.revision = cursor.revision ∧ f < v

/-- The step of a caller that is not cancelled still has its fence. -/
theorem Caller.fence_of (h : c.checkCancelled db = .ok false) {f : FenceId}
    (hstep : c.step = some (cursor, f)) :
    db.stepFence (cursor.submission, cursor.revision) = some f := by
  unfold Caller.checkCancelled at h
  split_ifs at h with hc
  · cases h
  · simp only [hstep, current, bind_eq_ok, pure_eq_ok] at h
    obtain ⟨running, ⟨run, hrun, rfl⟩, hrunning⟩ := h
    simp only [Bool.not_eq_false', Bool.and_eq_true, decide_eq_true_eq] at hrunning
    rw [Db.stepFence, (StepStore.stepRow_ok hrun).2.1]
    exact hrunning.2

/-- Where no token below `v` holds the step, a superseded caller fails its cancellation check. -/
theorem Caller.Superseded.stopped {v : Token} (h : c.Superseded cursor v)
    (hv : (Sys.stepFence (cursor.submission, cursor.revision)).AtLeast v s) :
    c.checkCancelled s.db ≠ .ok false := by
  obtain ⟨cursor', f, hstep, hsub, hrev, hlt⟩ := h
  intro hcan
  have hf := Caller.fence_of hcan hstep
  rw [hsub, hrev] at hf
  exact absurd (hv f hf) (Nat.not_le.2 hlt)

theorem prepare_stopped {step arguments : String} {kind : Kind}
    (h : c.checkCancelled db ≠ .ok false) :
    ∃ e, l.prepare env c step kind arguments db = .error e := by
  cases hr : l.prepare env c step kind arguments db with
  | error e => exact ⟨e, rfl⟩
  | ok out => exact absurd (Ledger.prepare_ok hr).2.1 h

theorem claim_stopped {step : String} (h : c.checkCancelled db ≠ .ok false) :
    ∃ e, l.claim env c step u db = .error e := by
  cases hr : l.claim env c step u db with
  | error e => exact ⟨e, rfl⟩
  | ok out => exact absurd (Ledger.claim_ok hr).2.1 h

/-! ### Starting an operation -/

/-- An operation that was absent or prepared and is not any more was started or rejected, by
nobody that fails its cancellation check. -/
theorem OpChange.started {r r' : Option Operation} (h : OpChange o u db k r r')
    (hr : Unstarted r) (hr' : ¬ Unstarted r') :
    (∀ c, o.caller = some c → c.checkCancelled db = .ok false) ∧
      (o.starts k db ∨ ∃ row, r' = some row ∧ row.state = .rejectedNoEffect) := by
  cases h with
  | completed row h => rw [hr row rfl] at h; cases h
  | step h =>
    cases h with
    | same => exact absurd hr hr'
    | prepared row h => exact absurd (fun row' h' => by cases h'; exact h.state) hr'
    | claimed row h hstart =>
      refine ⟨?_, .inl hstart⟩
      obtain ⟨env, c, l, step, rfl, -, hcan⟩ := hstart
      rintro c' ⟨⟩
      exact hcan
    | uncertain row h => rw [hr row rfl] at h; cases h
    | rejected row h hcan => exact ⟨hcan, .inr ⟨_, rfl, rfl⟩⟩

/-- Once an operation was started or rejected, `claim` starts it no more. -/
theorem claim_of_started {step : String} {row : Operation}
    (hk : ¬ Unstarted (db.operations (l.taskKey, step)))
    (h : l.claim env c step u db = .ok (db', row)) : row.state = .completed ∧ db' = db := by
  obtain ⟨-, -, ⟨-, hdone, rfl⟩ | ⟨old, hold, hprep, -⟩⟩ := Ledger.claim_ok h
  · exact ⟨hdone, rfl⟩
  · exact absurd (fun row' h' => by rw [hold] at h'; cases h'; exact hprep) hk

/-! ### Who is refused as uncertain -/

/-- The exception is not `OperationUncertain`. -/
def Error.Certain (e : Error) : Prop := ∀ m, e ≠ .uncertain m

theorem checkScope_certain {active : Bool} {seen : Db} :
    Raises Error.Certain (l.checkScope env c active seen db) := by
  have hrow : ∀ {cursor}, Raises Error.Certain (stepRow seen cursor) := fun {cursor} =>
    .bind (.ensure nofun) fun _ _ => .require nofun
  have hcheck : Raises Error.Certain (c.checkCancelled seen) := by
    unfold Caller.checkCancelled current
    refine .ite (fun _ => .ok _) fun _ => ?_
    split
    · exact .ok _
    · exact .bind (.bind hrow fun _ _ => .ok _) fun _ _ => .ok _
  exact .bind (.ensure nofun) fun _ _ => .bind (.ensure nofun) fun _ _ =>
    .bind (.require nofun) fun _ _ => .bind (.ensure nofun) fun _ _ =>
    .bind (.ensure nofun) fun _ _ => .bind (.ensure nofun) fun _ _ =>
    .bind (.ensure nofun) fun _ _ => .bind (.ensure nofun) fun _ _ =>
    .bind (.ensure nofun) fun _ _ => .bind hcheck fun _ _ => .ensure nofun

/-- `claim` refuses nobody as uncertain while the operation is absent or prepared. -/
theorem claim_certain {step : String} (hk : Unstarted (db.operations (l.taskKey, step))) :
    Raises Error.Certain (l.claim env c step u db) := by
  refine .bind (.ensure nofun) fun _ _ => .bind checkScope_certain fun _ _ =>
    .bind (.require nofun) fun row hrow => .ite (fun _ => .ok _) fun _ =>
    .bind checkScope_certain fun _ _ => ?_
  rw [Ledger.row, require_eq_ok] at hrow
  rw [decide_eq_true (hk row hrow)]
  exact .ok _

/-- `StepStore.claim` refuses nobody as uncertain while the step is ready. -/
theorem claimStep_certain {run : StepRun}
    (hrun : db.stepRuns (cursor.submission, cursor.revision) = some run)
    (hready : run.status = .ready) :
    Raises Error.Certain (StepStore.claim env c l cursor u db) := by
  have hload : Raises Error.Certain (l.load env c cursor.stateRef db) :=
    .bind checkScope_certain fun _ _ => .bind (.require nofun) fun _ _ =>
      .bind (.ensure nofun) fun _ _ => .ok _
  have hvalid : ∀ payload, Raises Error.Certain (validateSnapshot payload) := by
    intro payload
    cases payload with
    | json value => exact .error nofun
    | snapshot value => exact .bind (.ensure nofun) fun _ _ => .ok _
  refine .bind (.bind (.ensure nofun) fun _ _ => .bind hload fun _ _ =>
    .bind (hvalid _) fun _ _ => .ok _) fun _ _ => .bind checkScope_certain fun _ _ =>
    .bind (.bind (.ensure nofun) fun _ _ => .require nofun) fun run' hrun' => ?_
  obtain ⟨-, hrow, -⟩ := StepStore.stepRow_ok hrun'
  rw [hrun] at hrow; cases hrow
  refine .ite (fun hdone => by rw [hready] at hdone; cases hdone) fun _ =>
    .bind (.ensure nofun) fun _ _ => .bind checkScope_certain fun _ _ => ?_
  rw [decide_eq_true hready]
  exact .ok _

/-! ### After a recovery -/

/-- `recover` turned the running step of the cursor into a ready one. -/
structure Reset (s s' : Sys) (cursor : Cursor) (run : StepRun) : Prop where
  /-- the step was running -/
  before : s.db.stepRuns (cursor.submission, cursor.revision) = some run ∧ run.status = .running
  /-- the step is ready -/
  after : ∃ run', s'.db.stepRuns (cursor.submission, cursor.revision) = some run' ∧
    run'.status = .ready

/-- What such a recovery found: the operation that the task may have started is absent or only
prepared, and the step has no fence any more. -/
theorem Reset.found {run : StepRun} {t : Time} (hreset : Reset s s' cursor run)
    (h : Sys.lts.step s (.recover env c l cursor t) s') :
    s'.db.stepFence (cursor.submission, cursor.revision) = none ∧
    ∃ task operation, s.db.task l.taskKey = some task ∧
      StepStore.pendingOperation task.phase task.checkpoint = .ok operation ∧
      ∀ step, operation = some step → Unstarted (s'.db.operations (l.taskKey, step)) := by
  obtain ⟨⟨hrun, hrunning⟩, run', hrun', hready⟩ := hreset
  cases h
  have hdb : (s.after (.recover env c l cursor t)).db =
      commit s.db (outcome (StepStore.recover env c l cursor s.uuids t s.db)) := rfl
  cases hr : StepStore.recover env c l cursor s.uuids t s.db with
  | error e =>
    rw [hdb, hr] at hrun'
    replace hrun' : s.db.stepRuns (cursor.submission, cursor.revision) = some run' := hrun'
    rw [hrun] at hrun'; cases hrun'
    rw [hrunning] at hready; cases hready
  | ok x =>
    obtain ⟨db', out⟩ := x
    rw [hr] at hdb
    replace hdb : (s.after (.recover env c l cursor t)).db = db' := hdb
    rw [hdb] at hrun' ⊢
    obtain ⟨-, -, run₀, hrow, hcases⟩ := StepStore.recover_ok hr
    have hsame := (StepStore.stepRow_ok hrow).2.1
    rw [hrun] at hsame; cases hsame
    rcases hcases with ⟨hd, -⟩ | ⟨hd, -⟩ | ⟨value, db₁, hdb₁, hdone⟩ |
      ⟨task, operation, -, -, htask, hop, hall, rfl⟩
    · rw [hrunning] at hd; cases hd
    · rw [hrunning] at hd; cases hd
    · -- A commit leaves the step completed, or running when it has no fence.
      exfalso
      obtain ⟨answers, rfl⟩ := hdone.db_eq
      replace hrun' : StepStore.advance db₁.stepRuns cursor out run.fence
        (cursor.submission, cursor.revision) = some run' := hrun'
      have hold : db₁.stepRuns (cursor.submission, cursor.revision) = some run := by
        rcases hdb₁ with rfl | rfl <;> exact hrun
      obtain ⟨kind, rfl⟩ := hdone.out_eq
      rw [StepStore.advance, Table.update_same, Table.set_of_ne _ _ _ (by simp), hold,
        Option.map_some, Option.some.injEq] at hrun'
      rw [← hrun'] at hready
      split_ifs at hready
      rw [hrunning] at hready; cases hready
    · refine ⟨?_, task, operation, htask, hop, fun step hstep row hrow => ?_⟩
      · show (Table.set _ _ _ _).bind _ = _
        rw [Table.set_same]; rfl
      · exact hall step hstep row hrow

/-- **A superseded activity starts nothing.**  Let a recovery make the running step of a cursor
ready again.  The fence that the step had was drawn before, and no later `prepare` or `claim` by a
caller that runs this step with a fence drawn before succeeds.  The operation that the task may
have started is absent or prepared then.  While it is so, neither `claim` nor, on a ready step,
`StepStore.claim` refuses anybody as uncertain; what makes it otherwise is a `claim` or a rejection
that no such caller makes; and from then on no `claim` starts it again. -/
theorem Sys.superseded (h : Sys.lts.Reachable Sys.Initial s) {run : StepRun} {t : Time}
    (hrec : Sys.lts.step s (.recover env c l cursor t) s') (hreset : Reset s s' cursor run) :
    (∀ f, run.fence = some f → f < s'.uuids) ∧
    (∀ os s₂, Sys.lts.Run s' os s₂ → ∀ c₀ : Caller, c₀.Superseded cursor s'.uuids →
      ∀ (env₀ : Access) (l₀ : Ledger) (step : String) (kind : Kind) (arguments : String)
        (u : Token),
        (∃ e, l₀.prepare env₀ c₀ step kind arguments s₂.db = .error e) ∧
        ∃ e, l₀.claim env₀ c₀ step u s₂.db = .error e) ∧
    (∀ os s₂, Sys.lts.Run s' os s₂ → ∀ run₂,
      s₂.db.stepRuns (cursor.submission, cursor.revision) = some run₂ → run₂.status = .ready →
      ∀ (env₀ : Access) (c₀ : Caller) (l₀ : Ledger) (cursor₀ : Cursor) (u : Token),
        cursor₀.submission = cursor.submission → cursor₀.revision = cursor.revision →
        Raises Error.Certain (StepStore.claim env₀ c₀ l₀ cursor₀ u s₂.db)) ∧
    ∃ task operation, s.db.task l.taskKey = some task ∧
      StepStore.pendingOperation task.phase task.checkpoint = .ok operation ∧
      ∀ step, operation = some step → Unstarted (s'.db.operations (l.taskKey, step)) ∧
        ∀ os s₂, Sys.lts.Run s' os s₂ →
          (Unstarted (s₂.db.operations (l.taskKey, step)) →
            ∀ (env₀ : Access) (c₀ : Caller) (l₀ : Ledger) (u : Token), l₀.taskKey = l.taskKey →
              Raises Error.Certain (l₀.claim env₀ c₀ step u s₂.db)) ∧
          (¬ Unstarted (s₂.db.operations (l.taskKey, step)) →
            (∃ os₁ o os₂ t₁ t₂, os = os₁ ++ o :: os₂ ∧ Sys.lts.Run s' os₁ t₁ ∧
              Unstarted (t₁.db.operations (l.taskKey, step)) ∧ Sys.lts.step t₁ o t₂ ∧
              Sys.lts.Run t₂ os₂ s₂ ∧
              (∀ c₀, o.caller = some c₀ → ¬ c₀.Superseded cursor s'.uuids) ∧
              (o.starts (l.taskKey, step) t₁.db ∨
                ∃ row, t₂.db.operations (l.taskKey, step) = some row ∧
                  row.state = .rejectedNoEffect)) ∧
            ∀ os' s₃, Sys.lts.Run s₂ os' s₃ →
              ∀ (env₀ : Access) (c₀ : Caller) (l₀ : Ledger) (u : Token) (db' : Db)
                (row : Operation), l₀.taskKey = l.taskKey →
                l₀.claim env₀ c₀ step u s₃.db = .ok (db', row) →
                row.state = .completed ∧ db' = s₃.db) := by
  obtain ⟨hnone, task, operation, htask, hop, hunstarted⟩ := hreset.found hrec
  -- From the recovery on, only tokens drawn later are fences of the step.
  have hfence : ∀ {os s₂}, Sys.lts.Run s' os s₂ →
      (Sys.stepFence (cursor.submission, cursor.revision)).AtLeast s'.uuids s₂ := by
    intro os s₂ hrun
    refine Fence.stale hrun le_rfl fun f hf => ?_
    replace hf : s'.db.stepFence (cursor.submission, cursor.revision) = some f := hf
    rw [hnone] at hf; cases hf
  refine ⟨fun f hf => ?_, fun os s₂ hrun c₀ hc₀ env₀ l₀ step kind arguments u => ?_,
    fun os s₂ hrun run₂ hrun₂ hready env₀ c₀ l₀ cursor₀ u hsub hrev => ?_,
    task, operation, htask, hop, fun step hstep => ⟨hunstarted step hstep,
      fun os s₂ hrun => ⟨fun hk env₀ c₀ l₀ u hkey => ?_, fun hk => ⟨?_, ?_⟩⟩⟩⟩
  · have hheld : s.db.stepFence (cursor.submission, cursor.revision) = some f := by
      rw [Db.stepFence, hreset.before.1]; exact hf
    have hdrawn := stepFence_lt h hheld
    cases hrec
    exact Nat.lt_add_right 2 hdrawn
  · have hcan := hc₀.stopped (hfence hrun)
    exact ⟨prepare_stopped hcan, claim_stopped hcan⟩
  · exact claimStep_certain (by rw [hsub, hrev]; exact hrun₂) hready
  · exact claim_certain (by rw [hkey]; exact hk)
  · obtain ⟨os₁, o, os₂, t₁, t₂, hos, h₁, ht₁, hst, ht₂, h₂⟩ := hrun.exists_step_of_lost
      (P := fun s => Unstarted (s.db.operations (l.taskKey, step)))
      (Q := fun _ _ s => ¬ Unstarted (s.db.operations (l.taskKey, step)))
      (hunstarted step hstep) hk fun _ _ _ _ _ => Classical.em _
    obtain ⟨hcan, hstart⟩ := (Sys.change hst (l.taskKey, step)).started ht₁ ht₂
    exact ⟨os₁, o, os₂, t₁, t₂, hos, h₁, ht₁, hst, h₂,
      fun c₀ hc₀ hsup => hsup.stopped (hfence h₁) (hcan c₀ hc₀), hstart⟩
  · intro os' s₃ hrun' env₀ c₀ l₀ u db' row hkey hclaim
    refine claim_of_started ?_ hclaim
    rw [hkey]
    exact hrun'.preserves (P := fun s => ¬ Unstarted (s.db.operations (l.taskKey, step)))
      (fun _ _ _ hs hst hk => hs ((Sys.change hst (l.taskKey, step)).unstarted hk)) hk

namespace Sample

/-- The task while an activity is about to call the model. -/
def modelPending : Checkpoint := { messages := [input], iteration := some 1 }

/-- The activity that runs the first step with the fence `f`. -/
def activity (f : FenceId) : Caller := { caller with step := some (Sample.cursor, f) }

/-- An activity claims the first step and prepares its model call. -/
def preparing : List Op :=
  opening ++
    [.claimStep {} caller ledger Sample.cursor,
      .task (.claim {} "o" "t" "go" [] none none 0 0),
      .task (.checkpoint {} "o" "t" 10 .modelPending modelPending none 1),
      .prepare {} (activity 8) ledger "model:1:attempt:1" .model "{}"]

/-- The recovery of the first step. -/
def recovery : Op := .recover {} caller ledger Sample.cursor 2

/-- The step that the recovery makes ready again. -/
def running : StepRun :=
  { nextKind := .model, stateRef := Sample.cursor.stateRef, status := .running, fence := some 8 }

theorem reset :
    Reset (start.runs preparing) ((start.runs preparing).after recovery) Sample.cursor running :=
  ⟨⟨by decide, rfl⟩, { running with status := .ready, fence := none },
    by decide, rfl⟩

end Sample

/-- After the recovery and the claim of another activity, the first activity cannot start the
model call, and the other one is not refused as uncertain. -/
theorem Sys.superseded_model :
    let s := ((Sample.start.runs Sample.preparing).after Sample.recovery).after
      (.claimStep {} Sample.caller Sample.ledger Sample.cursor)
    (∃ e, Sample.ledger.claim {} (Sample.activity 8) "model:1:attempt:1" 30 s.db = .error e) ∧
    Raises Error.Certain
      (Sample.ledger.claim {} (Sample.activity 18) "model:1:attempt:1" 30 s.db) := by
  have hrun := Lts.Run.single (Sys.step_after
    ((Sample.start.runs Sample.preparing).after Sample.recovery)
    (.claimStep {} Sample.caller Sample.ledger Sample.cursor))
  obtain ⟨-, hold, -, task, operation, htask, hop, hall⟩ :=
    Sys.superseded (Sample.reachable Sample.preparing) (Sys.step_after _ Sample.recovery)
      Sample.reset
  refine ⟨(hold _ _ hrun (Sample.activity 8) ⟨Sample.cursor, 8, rfl, rfl, rfl, by decide⟩ {}
    Sample.ledger "model:1:attempt:1" .model "{}" 30).2, ?_⟩
  have hoperation : operation = some "model:1:attempt:1" := by
    have hphase : ((Sample.start.runs Sample.preparing).db.task Sample.ledger.taskKey).map
        (fun task => StepStore.pendingOperation task.phase task.checkpoint) =
          some (.ok (some "model:1:attempt:1")) := by
      decide
    rw [htask, Option.map_some, hop] at hphase
    cases hphase
    rfl
  refine ((hall _ hoperation).2 _ _ hrun).1 (fun row hrow => ?_) {} _ _ 30 rfl
  have hprepared : ((((Sample.start.runs Sample.preparing).after Sample.recovery).after
      (.claimStep {} Sample.caller Sample.ledger Sample.cursor)).db.operations
        (Sample.ledger.taskKey, "model:1:attempt:1")).map (·.state) = some .prepared := by
    decide
  rw [hrow] at hprepared
  exact Option.some.inj hprepared

end Temporal

end PythonAI
