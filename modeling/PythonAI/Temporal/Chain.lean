import PythonAI.Library.Chain
import PythonAI.Temporal.Artifacts

/-!
# The continuations of a submission form a chain

`bootstrap` inserts the step `0`, and a step is completed together with the insertion of the next
one.  Whoever calls `claim`, `commit`, `recover` or `human`, in whatever order and with whatever
fence, the steps of a submission are `0 … n`, each completed one names the next one as its output,
and only the last one is ready or running (`Sys.continuation_chain`).  A step is completed in
`_commit`, which writes to a running row only; a completed row is answered with its output.
-/

namespace PythonAI

open Library

namespace Temporal

/-- The steps of a submission as a chain: a step is open until it is completed, and then it names
the next cursor. -/
def stepChain (key : SubmissionId) : Chain StepRun Cursor where
  isOpen run := run.status ≠ .completed
  names run cursor := run.status = .completed ∧ run.output = some cursor
  link revision run := run.cursor key revision
  closed h hopen := hopen h.1

/-- The steps of a submission. -/
def Db.steps (db : Db) (key : SubmissionId) : ℕ → Option StepRun := fun r => db.stepRuns (key, r)

/-- A running step has a fence. -/
def Fenced (db : Db) : Prop :=
  ∀ k run, db.stepRuns k = some run → run.status = .running → run.fence.isSome = true

variable {u : Token} {db db' : Db} {s s' : Sys} {o : Op} {key : SubmissionId}

/-! ### Growth -/

theorem set_steps (t : Table (SubmissionId × ℕ) StepRun) (k : SubmissionId × ℕ) (run : StepRun)
    (key : SubmissionId) :
    (fun r => t.set k run (key, r)) =
      if key = k.1 then Function.update (fun r => t (key, r)) k.2 (some run)
      else fun r => t (key, r) := by
  obtain ⟨key', revision⟩ := k
  split_ifs with hkey
  · subst hkey
    funext r
    by_cases hr : r = revision
    · subst hr; simp
    · rw [Table.set_of_ne _ _ _ (by simpa using hr), Function.update_of_ne hr]
  · funext r
    exact Table.set_of_ne _ _ _ fun h => hkey (congrArg Prod.fst h)

/-- A commit completes the step of the cursor and adds the next one. -/
theorem advance_steps (t : Table (SubmissionId × ℕ) StepRun) (cursor : Cursor) (run : StepRun)
    {fence : Option FenceId} (kind : Kind) (ref : Ref) (hfence : fence.isSome = true)
    (key : SubmissionId) :
    (fun r => StepStore.advance
        (t.set (cursor.submission, cursor.revision)
          { run with status := .running, fence := fence })
        cursor ⟨cursor.submission, cursor.revision + 1, kind, ref⟩ fence (key, r)) =
      if key = cursor.submission then
        Function.update (Function.update (fun r => t (key, r)) (cursor.revision + 1)
          (some (StepStore.newRun kind ref))) cursor.revision
          (some { run with
            status := .completed
            fence := fence
            output := some ⟨cursor.submission, cursor.revision + 1, kind, ref⟩ })
      else fun r => t (key, r) := by
  split_ifs with hkey
  · subst hkey
    funext r
    rw [StepStore.advance, Table.update_apply]
    by_cases hr : r = cursor.revision
    · subst hr
      rw [Table.set_of_ne _ _ _ (by simp), Table.set_same, Function.update_self]
      simp [hfence]
    · rw [Function.update_of_ne hr]
      by_cases hr' : r = cursor.revision + 1
      · subst hr'
        simp
      · rw [Function.update_of_ne hr', Table.set_of_ne _ _ _ (by simpa using hr'),
          Table.set_of_ne _ _ _ (by simpa using hr)]
        simp [hr]
  · funext r
    have hne : ∀ r', (key, r) ≠ (cursor.submission, r') := fun r' h =>
      hkey (congrArg Prod.fst h)
    rw [StepStore.advance, Table.update_of_ne _ _ _ _ (hne _), Table.set_of_ne _ _ _ (hne _),
      Table.set_of_ne _ _ _ (hne _)]

/-- **Every operation grows the chain of every submission.** -/
theorem Effect.grows (h : Effect o u db db') (hfenced : Fenced db) (key : SubmissionId) :
    (stepChain key).Grows (db.steps key) (db'.steps key) := by
  show (stepChain key).Grows (fun r => db.stepRuns (key, r)) (fun r => db'.stepRuns (key, r))
  cases h with
  | ledger _ _ hruns | completed _ _ _ _ _ _ _ _ _ hruns =>
    rw [hruns]
    exact .same
  | bootstrap c l value hscope hfree hvalid _ _ hruns =>
    rw [hruns, set_steps]
    split_ifs with hkey
    · subst hkey
      exact .start _ hfree nofun
    · exact .same
  | step k run run' hrun hrun' _ _ hruns =>
    rw [hruns, set_steps]
    split_ifs with hkey
    · subst hkey
      rcases hrun' with ⟨hready, rfl⟩ | ⟨hrunning, rfl⟩
      · refine .rewrite k.2 run _ hrun (fun hc => ?_) nofun rfl
        rw [hready] at hc; cases hc
      · refine .rewrite k.2 run _ hrun (fun hc => ?_) nofun rfl
        rw [hrunning] at hc; cases hc
    · exact .same
  | commit c l cursor fence run kind value v hv hscope hkey hrun hopen hfence hlimit hfree hvalid _
      _ hruns =>
    have hsome : fence.isSome = true := by
      rcases hfence with ⟨hstatus, rfl⟩ | rfl
      · exact hfenced _ run hrun hstatus
      · rfl
    rw [hruns, advance_steps _ _ _ _ _ hsome]
    split_ifs with hsub
    · subst hsub
      exact .extend cursor.revision run _ _ hrun hopen ⟨rfl, rfl⟩ rfl nofun
    · exact .same

/-- What holds of the steps of a reachable state. -/
structure Chained (s : Sys) : Prop where
  /-- running steps have fences -/
  fenced : Fenced s.db
  /-- revisions are within the limit -/
  limit : ∀ key r run, s.db.stepRuns (key, r) = some run → r ≤ stepLimit
  /-- the steps of every submission are a chain -/
  wf : ∀ key, (stepChain key).Wf (s.db.steps key)

theorem Chained.initial (h : s.Initial) : Chained s := by
  obtain ⟨host, h⟩ := h
  refine ⟨fun k run hrun => ?_, fun key r run hrun => ?_, fun key => .inl fun r => ?_⟩
  · rw [h] at hrun; cases hrun
  · rw [h] at hrun; cases hrun
  · rw [h]; rfl

/-- The rows that an effect writes are fenced and within the limit. -/
theorem Effect.chained (h : Effect o u db db') (hfenced : Fenced db)
    (hlimit : ∀ key r run, db.stepRuns (key, r) = some run → r ≤ stepLimit) :
    Fenced db' ∧ ∀ key r run, db'.stepRuns (key, r) = some run → r ≤ stepLimit := by
  cases h with
  | ledger _ _ hruns | completed _ _ _ _ _ _ _ _ _ hruns =>
    rw [Fenced, hruns]; exact ⟨hfenced, hlimit⟩
  | bootstrap c l value _ _ _ _ _ hruns =>
    rw [Fenced, hruns]
    refine ⟨fun k run hrun hr => ?_, fun key r run hrun => ?_⟩
    · rw [Table.set_apply] at hrun
      split_ifs at hrun
      · cases hrun; cases hr
      · exact hfenced k run hrun hr
    · rw [Table.set_apply] at hrun
      split_ifs at hrun with hk
      · cases hk; exact Nat.zero_le _
      · exact hlimit key r run hrun
  | step k₀ run₀ run₁ hrun₀ hrun₁ _ _ hruns =>
    rw [Fenced, hruns]
    refine ⟨fun k run hrun hr => ?_, fun key r run hrun => ?_⟩
    · rw [Table.set_apply] at hrun
      split_ifs at hrun
      · cases hrun
        rcases hrun₁ with ⟨-, rfl⟩ | ⟨-, rfl⟩
        · rfl
        · cases hr
      · exact hfenced k run hrun hr
    · rw [Table.set_apply] at hrun
      split_ifs at hrun with hk
      · cases hk; exact hlimit key r run₀ hrun₀
      · exact hlimit key r run hrun
  | commit c l cursor fence run₀ kind value v _ _ _ hrun₀ _ hfence hbound _ _ _ _ hruns =>
    have hsome : fence.isSome = true := by
      rcases hfence with ⟨hstatus, rfl⟩ | rfl
      · exact hfenced _ run₀ hrun₀ hstatus
      · rfl
    have hrow := fun key r => (congrFun hruns (key, r)).trans
      (congrFun (advance_steps _ cursor run₀ kind _ hsome key) r)
    refine ⟨fun k run hrun hr => ?_, fun key r run hrun => ?_⟩
    · obtain ⟨key, r⟩ := k
      rw [hrow] at hrun
      split_ifs at hrun with hkey
      · by_cases h₁ : r = cursor.revision
        · subst h₁
          rw [Function.update_self] at hrun
          cases hrun; cases hr
        · rw [Function.update_of_ne h₁] at hrun
          by_cases h₂ : r = cursor.revision + 1
          · subst h₂
            rw [Function.update_self] at hrun
            cases hrun; cases hr
          · rw [Function.update_of_ne h₂] at hrun
            exact hfenced _ run hrun hr
      · exact hfenced _ run hrun hr
    · rw [hrow] at hrun
      split_ifs at hrun with hkey
      · by_cases h₁ : r = cursor.revision
        · omega
        · rw [Function.update_of_ne h₁] at hrun
          by_cases h₂ : r = cursor.revision + 1
          · omega
          · rw [Function.update_of_ne h₂] at hrun
            exact hlimit key r run hrun
      · exact hlimit key r run hrun

/-- One operation grows every chain. -/
theorem Sys.grows (hs : Chained s) (h : Sys.lts.step s o s') (key : SubmissionId) :
    (stepChain key).Grows (s.db.steps key) (s'.db.steps key) := by
  cases h
  exact commit_of (P := fun db : Db => (stepChain key).Grows (s.db.steps key) (db.steps key)) .same
    fun db' hok => (Op.effect hok).grows hs.fenced key

theorem Chained.step (hs : Chained s) (h : Sys.lts.step s o s') : Chained s' := by
  have hwf := fun key => (Sys.grows hs h key).wf (hs.wf key)
  cases h
  have hrows : Fenced (commit s.db (o.attempt s.uuids s.db)) ∧ ∀ key r run,
      (commit s.db (o.attempt s.uuids s.db)).stepRuns (key, r) = some run → r ≤ stepLimit :=
    commit_of (P := fun db : Db => Fenced db ∧ ∀ key r run,
        db.stepRuns (key, r) = some run → r ≤ stepLimit) ⟨hs.fenced, hs.limit⟩
      fun db' hok => (Op.effect hok).chained hs.fenced hs.limit
  exact ⟨hrows.1, hrows.2, hwf⟩

theorem chained_reachable (h : Sys.lts.Reachable Sys.Initial s) : Chained s :=
  h.invariant (fun _ => .initial) fun _ _ _ hs hst => hs.step hst

/-- A completed step never changes. -/
theorem Sys.completed_stays {ls : List Op} {r : ℕ} {run : StepRun} (hs : Chained s)
    (hrun : s.db.stepRuns (key, r) = some run) (hdone : run.status = .completed)
    (h : Sys.lts.Run s ls s') : s'.db.stepRuns (key, r) = some run :=
  h.preserves_under (I := Chained) (P := fun s => s.db.stepRuns (key, r) = some run)
    (fun _ _ _ hs hst => hs.step hst)
    (fun _ _ _ hs hrun hst => (Sys.grows hs hst key).closed (hs.wf key) hrun fun h => h hdone)
    hs hrun

/-- The links of a chain within the table of the steps. -/
theorem Chained.linked (hs : Chained s) {r : ℕ} {run : StepRun}
    (hrun : s.db.stepRuns (key, r) = some run) (hdone : run.status = .completed) :
    ∃ next, s.db.stepRuns (key, r + 1) = some next ∧
      run.output = some (next.cursor key (r + 1)) := by
  rcases hs.wf key with hnone | ⟨n, hn⟩
  · have hfree : s.db.stepRuns (key, r) = none := hnone r
    rw [hrun] at hfree; cases hfree
  · have hle : r ≤ n := (hn.range r).1 (by
      show (s.db.stepRuns (key, r)).isSome = true
      rw [hrun]; rfl)
    have hne : r ≠ n := by
      rintro rfl
      obtain ⟨head, hhead, hopen⟩ := hn.head
      replace hhead : s.db.stepRuns (key, r) = some head := hhead
      rw [hrun] at hhead; cases hhead
      exact hopen hdone
    obtain ⟨run', next, hrun', hnext, -, hout⟩ := hn.next r (by omega)
    replace hrun' : s.db.stepRuns (key, r) = some run' := hrun'
    rw [hrun] at hrun'; cases hrun'
    exact ⟨next, hnext, hout⟩

/-! ### Replay -/

/-- The ledger is the one of the submission `key`, and its scope check passes. -/
def Admitted (env : Access) (c : Caller) (l : Ledger) (key : SubmissionId) (db : Db) : Prop :=
  key = l.key ∧ l.checkScope env c false db db = .ok ()

section

variable {env : Access} {c : Caller} {l : Ledger} {cursor : Cursor} {v v' : Token} {t t' : Time}

theorem StepStore.checkCursor_admitted {x : Unit}
    (h : StepStore.checkCursor env c l cursor db = .ok x) :
    Admitted env c l cursor.submission db := by
  simp only [StepStore.checkCursor, Ledger.load, bind_eq_ok, ensure_eq_ok,
    decide_eq_true_eq] at h
  obtain ⟨-, hkey, payload, ⟨x, hscope, -⟩, -⟩ := h
  exact ⟨hkey, hscope⟩

theorem StepStore.claim_admitted {y : Db × StepStore.Claimed}
    (h : StepStore.claim env c l cursor v db = .ok y) : Admitted env c l cursor.submission db := by
  simp only [StepStore.claim, bind_eq_ok] at h
  obtain ⟨x, hcursor, -⟩ := h
  exact checkCursor_admitted hcursor

theorem StepStore.commit_admitted {fence : Option FenceId} {kind : Kind} {y : Db × Cursor}
    (h : StepStore.commit env c l cursor fence kind v t db = .ok y) :
    Admitted env c l cursor.submission db := by
  simp only [StepStore.commit, bind_eq_ok, ensure_eq_ok, decide_eq_true_eq] at h
  obtain ⟨-, hkey, x, hscope, -⟩ := h
  exact ⟨hkey, hscope⟩

theorem StepStore.recover_admitted {y : Db × Cursor}
    (h : StepStore.recover env c l cursor v t db = .ok y) :
    Admitted env c l cursor.submission db := by
  simp only [StepStore.recover, bind_eq_ok] at h
  obtain ⟨x, hcursor, -⟩ := h
  exact checkCursor_admitted hcursor

theorem StepStore.human_admitted {y : Db × Cursor × Time}
    (h : StepStore.human env c l cursor v v' t t' db = .ok y) :
    cursor.nextKind = .human ∧ Admitted env c l cursor.submission db := by
  simp only [StepStore.human, bind_eq_ok, ensure_eq_ok, decide_eq_true_eq] at h
  obtain ⟨-, hkind, x, hcursor, -⟩ := h
  exact ⟨hkind, checkCursor_admitted hcursor⟩

variable {r : ℕ} {run next : StepRun}

/-- The cursor of a row finds the row. -/
theorem Chained.stepRow (hs : Chained s) (hrun : s.db.stepRuns (key, r) = some run) :
    stepRow s.db (run.cursor key r) = .ok run := by
  simp only [Temporal.stepRow, StepRun.cursor, bind_eq_ok, ensure_eq_ok, decide_eq_true_eq,
    require_eq_ok, Option.filter_eq_some_iff, Bool.and_eq_true]
  exact ⟨(), decide_eq_true (hs.limit key r run hrun), hrun, trivial, trivial⟩

/-- Whoever is admitted reads the snapshot of a step. -/
theorem Intact.load (hi : Intact s) (hrun : s.db.stepRuns (key, r) = some run)
    (hadm : Admitted env c l key s.db) :
    ∃ value, l.load env c run.stateRef s.db = .ok (.snapshot value) ∧
      validateSnapshot (.snapshot value) = .ok value := by
  obtain ⟨rfl, hscope⟩ := hadm
  obtain ⟨row, value, hrow, hsha, hvalid, hstored⟩ := hi.snapshots _ r run hrun
  obtain ⟨row', hrow', hkey, -⟩ := (Ledger.checkScope_ok hscope).1.submission
  rw [hrow] at hrow'; cases hrow'
  refine ⟨value, ?_, hvalid⟩
  rw [Ledger.load_stored hscope (hkey ▸ hstored), hsha]

theorem Intact.checkCursor (hi : Intact s) (hrun : s.db.stepRuns (key, r) = some run)
    (hadm : Admitted env c l key s.db) :
    StepStore.checkCursor env c l (run.cursor key r) s.db = .ok () := by
  obtain ⟨value, hload, hvalid⟩ := hi.load hrun hadm
  simp only [StepStore.checkCursor, bind_eq_ok, ensure_eq_ok, decide_eq_true_eq]
  exact ⟨(), hadm.1, _, hload, value, hvalid, rfl⟩

/-- Whoever is admitted reads the output of a completed step. -/
theorem Intact.cached (hi : Intact s) (hs : Chained s)
    (hnext : s.db.stepRuns (key, r + 1) = some next)
    (hout : run.output = some (next.cursor key (r + 1))) (hadm : Admitted env c l key s.db) :
    StepStore.cached env c l run s.db = .ok (next.cursor key (r + 1)) := by
  obtain ⟨value, hload, -⟩ := hi.load hnext hadm
  simp only [StepStore.cached, validateCursor, bind_eq_ok, require_eq_ok, ensure_eq_ok,
    decide_eq_true_eq, pure_eq_ok]
  exact ⟨_, hout, _, ⟨(), hs.limit key _ next hnext, rfl⟩, _, hload, rfl⟩

/-- **A completed step is replayed** by `claim`, `commit`, `recover` and `human`. -/
theorem Chained.replays (hs : Chained s) (hi : Intact s)
    (hrun : s.db.stepRuns (key, r) = some run) (hdone : run.status = .completed)
    (hnext : s.db.stepRuns (key, r + 1) = some next)
    (hout : run.output = some (next.cursor key (r + 1))) (fence : Option FenceId) (kind : Kind) :
    Replays (Admitted env c l key s.db) s.db
      (StepStore.claim env c l (run.cursor key r) v s.db) (.cached (next.cursor key (r + 1))) ∧
    Replays (Admitted env c l key s.db) s.db
      (StepStore.commit env c l (run.cursor key r) fence kind v t s.db)
      (next.cursor key (r + 1)) ∧
    Replays (Admitted env c l key s.db) s.db
      (StepStore.recover env c l (run.cursor key r) v t s.db) (next.cursor key (r + 1)) ∧
    Replays (run.nextKind = .human ∧ Admitted env c l key s.db) s.db
      (StepStore.human env c l (run.cursor key r) v v' t t' s.db)
      (next.cursor key (r + 1), 0) := by
  have hrow := hs.stepRow hrun
  refine ⟨.of_ok (fun hadm => ?_) fun y h => StepStore.claim_admitted h,
    .of_ok (fun hadm => ?_) fun y h => StepStore.commit_admitted h,
    .of_ok (fun hadm => ?_) fun y h => StepStore.recover_admitted h,
    .of_ok (fun ⟨hkind, hadm⟩ => ?_) fun y h => StepStore.human_admitted h⟩
  · simp only [StepStore.claim, bind_eq_ok]
    refine ⟨(), hi.checkCursor hrun hadm, (), hadm.2, run, hrow, ?_⟩
    rw [if_pos hdone, hi.cached hs hnext hout hadm]
    rfl
  · obtain ⟨task, htask, -⟩ := (Ledger.checkScope_ok hadm.2).1.task
    simp only [StepStore.commit, bind_eq_ok, ensure_eq_ok, decide_eq_true_eq, require_eq_ok]
    refine ⟨(), hadm.1, (), hadm.2, task, htask, ?_⟩
    simp only [StepStore.commitRow, bind_eq_ok]
    refine ⟨run, hrow, ?_⟩
    rw [if_pos hdone, hi.cached hs hnext hout hadm]
    rfl
  · simp only [StepStore.recover, bind_eq_ok]
    refine ⟨(), hi.checkCursor hrun hadm, (), hadm.2, run, hrow, ?_⟩
    rw [if_pos hdone, hi.cached hs hnext hout hadm]
    rfl
  · simp only [StepStore.human, bind_eq_ok, ensure_eq_ok, decide_eq_true_eq]
    refine ⟨(), hkind, (), hi.checkCursor hrun hadm, (), hadm.2, run, hrow, ?_⟩
    rw [if_pos hdone, hi.cached hs hnext hout hadm]
    rfl

end

/-- The steps of a submission are `0 … n`: those below `n` are completed, and each of them has the
cursor of the next one as its output; the last one is ready or running. -/
structure Linear (db : Db) (key : SubmissionId) (n : ℕ) : Prop where
  /-- there is no gap -/
  range : ∀ r, (db.stepRuns (key, r)).isSome = true ↔ r ≤ n
  /-- the completed steps -/
  below : ∀ r < n, ∃ run next, db.stepRuns (key, r) = some run ∧
    db.stepRuns (key, r + 1) = some next ∧ run.status = .completed ∧
    run.output = some (next.cursor key (r + 1))
  /-- the last step -/
  head : ∃ run, db.stepRuns (key, n) = some run ∧
    (run.status = .ready ∨ run.status = .running)

/-- The chain of a submission, in the words of its table. -/
theorem Chained.linear (hs : Chained s) (key : SubmissionId) :
    (∀ r, s.db.stepRuns (key, r) = none) ∨ ∃ n, Linear s.db key n := by
  rcases hs.wf key with hnone | ⟨n, hn⟩
  · exact .inl hnone
  · obtain ⟨head, hhead, hopen⟩ := hn.head
    refine .inr ⟨n, hn.range, hn.next, head, hhead, ?_⟩
    cases hstatus : head.status with
    | ready => exact .inl rfl
    | running => exact .inr rfl
    | completed => exact absurd hstatus hopen

/-- **Continuation chain.**  In every reachable state the steps of a submission are linear.  A
completed step stays as it is in every run from there, and at each later state `claim`, `commit`,
`recover` and (on a human cursor) `human` on its cursor return its output and write nothing if the
caller passes the scope check of the submission's ledger, and raise otherwise. -/
theorem Sys.continuation_chain (h : Sys.lts.Reachable Sys.Initial s) (key : SubmissionId) :
    ((∀ r, s.db.stepRuns (key, r) = none) ∨ ∃ n, Linear s.db key n) ∧
    ∀ r run, s.db.stepRuns (key, r) = some run → run.status = .completed →
      ∃ out, run.output = some out ∧
        ∀ ls s', Sys.lts.Run s ls s' → s'.db.stepRuns (key, r) = some run ∧
          ∀ (env : Access) (c : Caller) (l : Ledger) (fence : Option FenceId) (kind : Kind)
            (v v' : Token) (t t' : Time),
            Replays (Admitted env c l key s'.db) s'.db
              (StepStore.claim env c l (run.cursor key r) v s'.db) (.cached out) ∧
            Replays (Admitted env c l key s'.db) s'.db
              (StepStore.commit env c l (run.cursor key r) fence kind v t s'.db) out ∧
            Replays (Admitted env c l key s'.db) s'.db
              (StepStore.recover env c l (run.cursor key r) v t s'.db) out ∧
            Replays (run.nextKind = .human ∧ Admitted env c l key s'.db) s'.db
              (StepStore.human env c l (run.cursor key r) v v' t t' s'.db) (out, 0) := by
  have hs := chained_reachable h
  refine ⟨hs.linear key, fun r run hrun hdone => ?_⟩
  obtain ⟨next, hnext, hout⟩ := hs.linked hrun hdone
  refine ⟨_, hout, fun ls s' hls => ?_⟩
  have hs' := chained_reachable (h.run hls)
  have hrun' := Sys.completed_stays hs hrun hdone hls
  -- The next step may have changed since, but not its cursor, which the output names.
  obtain ⟨next', hnext', hout'⟩ := hs'.linked hrun' hdone
  have hsame : next.cursor key (r + 1) = next'.cursor key (r + 1) :=
    Option.some.inj (hout.symm.trans hout')
  refine ⟨hrun', fun env c l fence kind v v' t t' => ?_⟩
  rw [hsame]
  exact hs'.replays (intact_reachable (h.run hls)) hrun' hdone hnext' hout' fence kind

namespace Sample

/-- The task after its first step. -/
def saved : Checkpoint := { messages := [input], nextKind := some .model, iteration := some 1 }

/-- The first step: an activity claims it, works on the task, and commits the next cursor. -/
def firstStep : List Op :=
  opening ++
    [.claimStep {} caller ledger cursor,
      .task (.claim {} "o" "t" "go" [] none none 0 0),
      .task (.checkpoint {} "o" "t" 10 .stepReady saved none 1),
      .task (.finish {} "o" "t" 10 .pending none 1),
      .commit {} caller ledger cursor (some 8) .model 2]

/-- The row of the first step. -/
def firstRun : StepRun :=
  { nextKind := .model
    stateRef := cursor.stateRef
    status := .completed
    fence := some 8
    output := some ⟨2, 1, .model, ⟨16, .snapshot ⟨.stepReady, saved, .pending, none⟩⟩⟩ }

theorem firstStep_done : (start.runs firstStep).db.stepRuns (2, 0) = some firstRun := by
  decide

end Sample

/-- The chain of a submission whose first step is completed: after a cancellation of another
task, `recover` still returns the cursor that the step was completed with. -/
theorem Sys.continuation_chain_first :
    (Sample.start.runs Sample.firstStep).db.stepRuns (2, 0) = some Sample.firstRun ∧
    StepStore.recover {} Sample.caller Sample.ledger (Sample.firstRun.cursor 2 0) 0 0
        (((Sample.start.runs Sample.firstStep).after (.task (.cancel "o" "u"))).db) =
      .ok (((Sample.start.runs Sample.firstStep).after (.task (.cancel "o" "u"))).db,
        ⟨2, 1, .model, ⟨16, .snapshot ⟨.stepReady, Sample.saved, .pending, none⟩⟩⟩) := by
  refine ⟨Sample.firstStep_done, ?_⟩
  obtain ⟨out, hout, hreplay⟩ := (Sys.continuation_chain (Sample.reachable Sample.firstStep) 2).2 0
    Sample.firstRun Sample.firstStep_done rfl
  cases hout
  exact ((hreplay _ _ (.single (Sys.step_after _ (.task (.cancel "o" "u"))))).2 {} Sample.caller
    Sample.ledger none .model 0 0 0 0).2.2.1.1 ⟨rfl, by decide⟩

/-- The state after the first step, and after the cancellation of its task: the completed row is
the same, but the caller that was given its output before is refused. -/
theorem Sys.cancelled_replay_refused :
    let s := Sample.start.runs Sample.firstStep
    let s' := s.after (.cancel 2 "o")
    let cursor := Sample.firstRun.cursor 2 0
    let fenced := Error.permission "Operation fenced by task or submission state"
    Sys.lts.Reachable Sys.Initial s ∧ Sys.lts.step s (.cancel 2 "o") s' ∧
    s'.db.stepRuns (2, 0) = some Sample.firstRun ∧ Sample.firstRun.status = .completed ∧
    (StepStore.claim {} Sample.caller Sample.ledger cursor 0 s.db).map (·.2) =
      .ok (.cached ⟨2, 1, .model, ⟨16, .snapshot ⟨.stepReady, Sample.saved, .pending, none⟩⟩⟩) ∧
    (StepStore.claim {} Sample.caller Sample.ledger cursor 0 s'.db).map (·.2) = .error fenced ∧
    (StepStore.commit {} Sample.caller Sample.ledger cursor (some 8) .model 0 0 s'.db).map (·.2) =
      .error fenced ∧
    (StepStore.recover {} Sample.caller Sample.ledger cursor 0 0 s'.db).map (·.2) =
      .error fenced :=
  ⟨Sample.reachable _, rfl, by decide, rfl, by decide, by decide,
    by decide, by decide⟩

end Temporal

end PythonAI
