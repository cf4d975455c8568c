import PythonAI.Scheduling.Held
import PythonAI.Temporal.Submissions

/-!
# Each occurrence is counted and reported once

`prepare` inserts the row of an occurrence and counts it in one transaction; the task is submitted
to the other database, under an id that depends on the workflow only, and `prepared` records the
submission.  Any of these may be repeated.  `finish` ends an occurrence for `poll` and `stop`, and
tells the owner in the same transaction.
-/

namespace PythonAI

open Library

namespace Scheduling

/-- What the transaction `a` does to an occurrence. -/
structure Occurrence.Evolves (a : Act) (o o' : Occurrence) : Prop where
  /-- the workflow stays -/
  workflow : o'.workflow = o.workflow
  /-- the job stays -/
  job : o'.job = o.job
  /-- an occurrence that has ended stays as it is -/
  ended : o.state.active = false → o' = o
  /-- only `finish` ends it -/
  finish : o.state.active = true → o'.state.active = false →
    ∃ r, a = .finish r ∧ r.workflow = o.workflow
  /-- only the last statement of `_prepare` records a submission -/
  submission : o'.submission = o.submission ∨
    ∃ id, a = .prepared o.workflow id ∧ o'.submission = some id

variable {zs : Zones} {fm : Formats} {h h' : Host} {a : Act} {k : JobId} {t t' : Time} {x y : Rows}

namespace Occurrence.Evolves

variable {o : Occurrence} {w : WorkflowId}

theorem refl (a : Act) (o : Occurrence) : Evolves a o o :=
  ⟨rfl, rfl, fun _ => rfl, fun h h' => absurd (h.symm.trans h') nofun, .inl rfl⟩

theorem started (id : Token) (o : Occurrence) :
    Evolves (.prepared w id) o (Native.started w id o) := by
  unfold Native.started
  split_ifs with hc
  · obtain ⟨rfl, hst⟩ := hc
    exact ⟨rfl, rfl, fun h => absurd (congrArg OccurrenceState.active hst) (by rw [h]; nofun),
      fun _ h => (nomatch h), .inr ⟨id, rfl, rfl⟩⟩
  · exact refl ..

theorem closed (r : Result) (state : Outcome) (o : Occurrence) :
    Evolves (.finish r) o (Native.closed r.workflow state o) := by
  unfold Native.closed
  split_ifs with hc
  · exact ⟨rfl, rfl, fun h => absurd (h.symm.trans hc.2) nofun, fun _ _ => ⟨r, rfl, hc.1.symm⟩,
      .inl rfl⟩
  · exact refl ..

end Occurrence.Evolves

namespace Move

/-- The owner of a job stays. -/
theorem owner (hm : Move fm a k t t' x y) {job : Job} (hj : x.job = some job) :
    ∃ job', y.job = some job' ∧ job'.owner = job.owner := by
  cases hm <;> simp_all [Store.advance, Native.changedJob, Migration.fencedJob,
    Migration.restoredJob]

/-- **A move lets the occurrences evolve, or inserts one and counts it.** -/
theorem counted (hm : Move fm a k t t' x y) :
    (∃ f : Occurrence → Occurrence, (∀ o : Occurrence, o.Evolves a (f o)) ∧
      y.occurrences = x.occurrences.map f ∧
      ((∀ c, a ≠ .call c) → ∀ job, x.job = some job →
        ∃ job', y.job = some job' ∧ job'.runCount = job.runCount)) ∨
    ∃ w d job, (∀ o ∈ x.occurrences, o.workflow ≠ w) ∧ w.schedule = k ∧ x.job = some job ∧
      job.runCount < job.maxRuns ∧ y.job = some { job with runCount := job.runCount + 1 } ∧
      y.occurrences =
        x.occurrences ++ [{ workflow := w, job := k, state := .reserved, deadline := d }] := by
  have hid : x.occurrences = x.occurrences.map id := (List.map_id _).symm
  cases hm with
  | reserved job b w deadline fences hj hb hcan hon hlt hw hnew =>
    exact .inr ⟨w, deadline, job, hnew, hw, hj, hlt, rfl, rfl⟩
  | begun w id hact =>
    subst hact
    exact .inl ⟨_, .started id, rfl, fun _ job hj => ⟨job, hj, rfl⟩⟩
  | closed r hact =>
    subst hact
    exact .inl ⟨_, .closed r r.state, rfl, fun _ job hj => ⟨job, hj, rfl⟩⟩
  | finished job b r state digest extra hact hkey hj =>
    subst hact
    refine .inl ⟨_, .closed r state, rfl, fun _ job' hj' => ⟨_, rfl, ?_⟩⟩
    rw [Option.some.inj (hj.symm.trans hj')]
  | completed job l run state text error due extra hact =>
    obtain ⟨c, rfl⟩ := hact
    exact .inl ⟨id, .refl _, hid, fun hno => absurd rfl (hno c)⟩
  | _ =>
    exact .inl ⟨id, .refl _, hid, fun _ job hj => by
      simp_all [Native.changedJob, Migration.fencedJob, Migration.restoredJob]⟩

end Move

/-! ### What is held about the occurrences -/

namespace Act

variable {u : Token} {tasks : Temporal.Sys} {db : Db} {key : JobId} {w : WorkflowId}

theorem prepared_mem (hv : .prepared key w ∈ a.yields zs fm u tasks db) :
    w.schedule = key ∧ ∃ job, db.jobs key = some job := by
  cases a <;> simp [yields, attempt] at hv
  case prepare env key' w' t =>
    obtain ⟨db', out, hx, hv⟩ := hv
    obtain ⟨hw, job, b, hj, -⟩ := Native.prepare_ok hx
    obtain ⟨-, rfl, rfl⟩ := hv
    exact ⟨hw, job, hj⟩

/-- A submission is held for an occurrence that `_prepare` admitted, and the index names it. -/
theorem submitted_mem {id : Temporal.SubmissionId} {workers : List Worker} {held : List Held}
    (hp : a.permitted workers held) (hv : .submitted w id ∈ a.yields zs fm u tasks db) :
    ∃ key, .prepared key w ∈ held ∧
      (((a.taskOp db).map tasks.after).getD tasks).db.forTask (ownerOf key db, taskOf w) =
        some id := by
  cases a <;> simp [yields, attempt] at hv
  case forTask key w' =>
    obtain ⟨hid, rfl⟩ := hv
    exact ⟨key, hp, hid⟩
  case submit key w' env messages context role settings contract authorized criteria =>
    obtain ⟨⟨db', hx⟩, rfl⟩ := hv
    refine ⟨key, hp, ?_⟩
    have hdb : (tasks.after (.submit env (ownerOf key db) (taskOf w) messages context role settings
        contract authorized criteria)).db = db' := by
      simp only [Temporal.Sys.after, Temporal.Op.perform, Temporal.Op.attempt, hx]
      rfl
    simp only [taskOp, Option.map_some, Option.getD_some, hdb]
    exact Temporal.Store.submit_forTask hx

end Act

/-- What the calls in flight hold about the occurrences is true of both databases. -/
structure Host.Counted (h : Host) : Prop where
  /-- a workflow has one row -/
  unique : ∀ k, ((h.rows k).occurrences.map (·.workflow)).Nodup
  /-- the occurrences that were admitted belong to a job -/
  prepared : ∀ key w, .prepared key w ∈ h.held → w.schedule = key ∧ ∃ job, h.db.jobs key = some job
  /-- the submissions that are held are those of the tasks of their workflows -/
  submitted : ∀ w id, .submitted w id ∈ h.held → ∃ job, h.db.jobs w.schedule = some job ∧
    h.tasks.db.forTask (job.owner, taskOf w) = some id
  /-- so are those that are recorded -/
  recorded : ∀ o ∈ h.db.occurrences, ∀ id, o.submission = some id →
    ∃ job, h.db.jobs o.job = some job ∧ h.tasks.db.forTask (job.owner, taskOf o.workflow) = some id
  /-- a task has one submission -/
  indexed : Temporal.Indexed h.tasks

namespace Host

theorem tasks_step (hx : Temporal.Indexed h.tasks) (hst : (lts zs fm).step h a h') :
    Temporal.Indexed h'.tasks ∧ ∀ k id, h.tasks.db.forTask k = some id →
      h'.tasks.db.forTask k = some id := by
  obtain ⟨t, -, -, -, rfl⟩ := hst
  change Temporal.Indexed (((a.taskOp h.db).map h.tasks.after).getD h.tasks) ∧
    ∀ k id, h.tasks.db.forTask k = some id →
      (((a.taskOp h.db).map h.tasks.after).getD h.tasks).db.forTask k = some id
  cases a.taskOp h.db with
  | none => exact ⟨hx, fun _ _ hk => hk⟩
  | some o =>
    have hst : Temporal.Sys.lts.step h.tasks o (h.tasks.after o) := rfl
    exact ⟨hx.step hst, fun _ _ hk => hx.forTask_kept hst hk⟩

theorem Counted.step (hwf : h.Wf) (hc : h.Counted) (hst : (lts zs fm).step h a h') : h'.Counted := by
  have hmove := Host.move hwf hst
  obtain ⟨hindexed, hkept⟩ := tasks_step hc.indexed hst
  have hnamed : ∀ key task id, (∃ job, h.db.jobs key = some job ∧
      h.tasks.db.forTask (job.owner, task) = some id) → ∃ job, h'.db.jobs key = some job ∧
      h'.tasks.db.forTask (job.owner, task) = some id := by
    rintro key task id ⟨job, hj, hid⟩
    obtain ⟨job', hj', hown⟩ := (hmove key).owner hj
    exact ⟨job', hj', by rw [hown]; exact hkept _ _ hid⟩
  obtain ⟨t, -, -, hperm, rfl⟩ := hst
  refine ⟨fun k => ?_, fun key w hw => ?_, fun w id hw => ?_, fun o ho id hid => ?_, hindexed⟩
  · rcases (hmove k).counted with ⟨f, hf, hocc, -⟩ | ⟨w, d, job, hnew, -, -, -, -, hocc⟩
    · rw [hocc, List.map_map]
      rw [show (fun o : Occurrence => o.workflow) ∘ f = fun o => o.workflow from
        funext fun o => (hf o).workflow]
      exact hc.unique k
    · rw [hocc, List.map_append, List.nodup_append]
      refine ⟨hc.unique k, List.nodup_singleton _, ?_⟩
      rintro w₁ hw₁ w₂ hw₂ rfl
      obtain ⟨o, ho, rfl⟩ := List.mem_map.1 hw₁
      exact hnew o ho (List.mem_singleton.1 hw₂)
  · have hjob : w.schedule = key ∧ ∃ job, h.db.jobs key = some job :=
      (List.mem_append.1 hw).elim (hc.prepared key w) Act.prepared_mem
    obtain ⟨hsched, job, hj⟩ := hjob
    obtain ⟨job', hj', -⟩ := (hmove key).owner hj
    exact ⟨hsched, job', hj'⟩
  · rcases List.mem_append.1 hw with hw | hw
    · exact hnamed _ _ _ (hc.submitted w id hw)
    · obtain ⟨key, hprep, hid⟩ := Act.submitted_mem hperm hw
      obtain ⟨rfl, job, hj⟩ := hc.prepared key w hprep
      obtain ⟨job', hj', hown⟩ := (hmove w.schedule).owner hj
      refine ⟨job', hj', ?_⟩
      have howner : Act.ownerOf w.schedule h.db = job.owner := by simp [Act.ownerOf, hj]
      rw [hown, ← howner]
      exact hid
  · have hmem : o ∈ ((h.after zs fm a t).rows o.job).occurrences :=
      List.mem_filter.2 ⟨ho, by simp⟩
    rcases (hmove o.job).counted with ⟨f, hf, hocc, -⟩ | ⟨w, d, job, hnew, -, -, -, -, hocc⟩
    · rw [hocc] at hmem
      obtain ⟨o₀, ho₀, rfl⟩ := List.mem_map.1 hmem
      have ho₀ : o₀ ∈ h.db.occurrences := (List.mem_filter.1 ho₀).1
      rw [(hf o₀).job, (hf o₀).workflow]
      rcases (hf o₀).submission with hsame | ⟨id', rfl, hid'⟩
      · exact hnamed _ _ _ (hc.recorded o₀ ho₀ id (hsame.symm.trans hid))
      · obtain rfl : id' = id := Option.some.inj (hid'.symm.trans hid)
        rw [← hwf.occurrences o₀ ho₀]
        exact hnamed _ _ _ (hc.submitted _ _ hperm)
    · rw [hocc] at hmem
      rcases List.mem_append.1 hmem with hmem | hmem
      · exact hnamed _ _ _ (hc.recorded o (List.mem_filter.1 hmem).1 id hid)
      · rw [List.mem_singleton.1 hmem] at hid
        cases hid

theorem counted_reachable (hr : (lts zs fm).Reachable Initial h) : h.Counted := by
  refine (hr.invariant (I := fun h => h.Wf ∧ h.Counted) (fun h hi => ⟨hi.wf, ?_⟩)
    fun h a h' hI hst => ⟨hI.1.step hst, hI.2.step hI.1 hst⟩).2
  have hdb : h.db = .empty := hi.db
  refine ⟨?_, ?_, ?_, ?_, .initial hi.tasks⟩ <;> simp [hi.held, rows, Db.rows, hdb, Db.empty]

theorem Counted.row_le_one (hwf : h.Wf) (hc : h.Counted) (w : WorkflowId) :
    (h.db.occurrences.filter (·.workflow = w)).length ≤ 1 := by
  have hrows : h.db.occurrences.filter (·.workflow = w)
      = (h.rows w.schedule).occurrences.filter (·.workflow = w) := by
    simp only [rows, Db.rows, List.filter_filter]
    refine List.filter_congr fun o ho => ?_
    by_cases hw : o.workflow = w
    · simp [hw, ← hwf.occurrences o ho]
    · simp [hw]
  have hcount := List.nodup_iff_count_le_one.1 (hc.unique w.schedule) w
  rw [List.count_eq_countP, List.countP_map, List.countP_eq_length_filter] at hcount
  rw [hrows]
  refine le_trans (le_of_eq (congrArg List.length (List.filter_congr fun o _ => ?_))) hcount
  rw [Bool.eq_iff_iff]
  simp

theorem Counted.row_unique (hwf : h.Wf) (hc : h.Counted) {o o' : Occurrence}
    (ho : o ∈ h.db.occurrences) (ho' : o' ∈ h.db.occurrences) (hw : o.workflow = o'.workflow) :
    o = o' := by
  have hjob : o'.job = o.job := by rw [← hwf.occurrences o ho, ← hwf.occurrences o' ho', hw]
  exact List.inj_on_of_nodup_map (hc.unique o.job) (List.mem_filter.2 ⟨ho, by simp⟩)
    (List.mem_filter.2 ⟨ho', by simp [hjob]⟩) hw

/-- No row is deleted. -/
theorem row_kept (hwf : h.Wf) (hst : (lts zs fm).step h a h') {o : Occurrence}
    (ho : o ∈ h.db.occurrences) : ∃ o' ∈ h'.db.occurrences, o'.workflow = o.workflow := by
  have hmem : o ∈ (h.rows o.job).occurrences := List.mem_filter.2 ⟨ho, by simp⟩
  rcases (Host.move hwf hst o.job).counted with ⟨f, hf, hocc, -⟩ | ⟨w, d, job, -, -, -, -, -, hocc⟩
  · have hin : f o ∈ (h'.rows o.job).occurrences := by
      rw [hocc]
      exact List.mem_map_of_mem hmem
    exact ⟨f o, (List.mem_filter.1 hin).1, (hf o).workflow⟩
  · have hin : o ∈ (h'.rows o.job).occurrences := by
      rw [hocc]
      exact List.mem_append_left _ hmem
    exact ⟨o, (List.mem_filter.1 hin).1, rfl⟩

/-- An occurrence that has ended stays as it is. -/
theorem ended_step (hwf : h.Wf) (hst : (lts zs fm).step h a h') {o : Occurrence}
    (ho : o ∈ h.db.occurrences) (hend : o.state.active = false) : o ∈ h'.db.occurrences := by
  have hmem : o ∈ (h.rows o.job).occurrences := List.mem_filter.2 ⟨ho, by simp⟩
  have hin : o ∈ (h'.rows o.job).occurrences := by
    rcases (Host.move hwf hst o.job).counted with ⟨f, hf, hocc, -⟩ | ⟨w, d, job, -, -, -, -, -, hocc⟩
    · rw [hocc]
      exact List.mem_map.2 ⟨o, hmem, (hf o).ended hend⟩
    · rw [hocc]
      exact List.mem_append_left _ hmem
  exact (List.mem_filter.1 hin).1

/-- An occurrence ends in a step of `finish` that finds it active. -/
theorem leaves_step (hwf : h.Wf) (hst : (lts zs fm).step h a h') {o : Occurrence}
    (ho : o ∈ h'.db.occurrences) (hend : o.state.active = false) (hnew : o ∉ h.db.occurrences) :
    ∃ r, a = .finish r ∧ r.workflow = o.workflow ∧
      ∃ o₀ ∈ h.db.occurrences, o₀.workflow = o.workflow ∧ o₀.state.active = true := by
  have hmem : o ∈ (h'.rows o.job).occurrences := List.mem_filter.2 ⟨ho, by simp⟩
  rcases (Host.move hwf hst o.job).counted with ⟨f, hf, hocc, -⟩ | ⟨w, d, job, -, -, -, -, -, hocc⟩
  · rw [hocc] at hmem
    obtain ⟨o₀, ho₀, rfl⟩ := List.mem_map.1 hmem
    have ho₀ : o₀ ∈ h.db.occurrences := (List.mem_filter.1 ho₀).1
    have hact : o₀.state.active = true := by
      by_contra hno
      rw [(hf o₀).ended (Bool.eq_false_iff.2 hno)] at hnew
      exact hnew ho₀
    obtain ⟨r, hr, hw⟩ := (hf o₀).finish hact hend
    exact ⟨r, hr, hw.trans (hf o₀).workflow.symm, o₀, ho₀, (hf o₀).workflow.symm, hact⟩
  · rw [hocc] at hmem
    rcases List.mem_append.1 hmem with hmem | hmem
    · exact absurd (List.mem_filter.1 hmem).1 hnew
    · rw [List.mem_singleton.1 hmem] at hend
      cases hend

/-- A step of `finish` tells the owner only when it ends the occurrence, and once. -/
theorem told_step {r : Result} (hst : (lts zs fm).step h (.finish r) h') :
    h'.db.notifications = h.db.notifications ∨
      (∃ n, h'.db.notifications = h.db.notifications ++ [n]) ∧
      (∃ o ∈ h.db.occurrences, o.workflow = r.workflow ∧ o.state.active = true) ∧
      ∀ o ∈ h'.db.occurrences, o.workflow = r.workflow → o.state.active = false := by
  obtain ⟨t, -, -, -, rfl⟩ := hst
  have hdb : (h.after zs fm (.finish r) t).db =
      settle h.db (Act.writes (Native.finish h.sched.uuids r h.db) fun _ => []) := rfl
  rw [hdb]
  refine Act.settle_writes (P := fun db' => db'.notifications = h.db.notifications ∨
    (∃ n, db'.notifications = h.db.notifications ++ [n]) ∧
    (∃ o ∈ h.db.occurrences, o.workflow = r.workflow ∧ o.state.active = true) ∧
    ∀ o ∈ db'.occurrences, o.workflow = r.workflow → o.state.active = false) (.inl rfl)
    fun db' _ hx => ?_
  obtain ⟨job, b, -, -, ⟨rfl, -⟩ | ⟨-, rfl⟩ | ⟨-, hopen, digest, extra, -, hextra, rfl⟩⟩ :=
    Native.finish_ok hx
  · exact .inl rfl
  · exact .inl rfl
  rcases hextra with rfl | ⟨out, rfl⟩
  · exact .inl (List.append_nil _)
  refine .inr ⟨⟨_, rfl⟩, hopen, fun o ho hw => ?_⟩
  obtain ⟨o₀, -, rfl⟩ := List.mem_map.1 ho
  have hw₀ : o₀.workflow = r.workflow := (Move.closed_workflow _ _ o₀).symm.trans hw
  unfold Native.closed
  split_ifs with hc
  · rfl
  · exact Bool.eq_false_iff.2 fun hact => hc ⟨hw₀, hact⟩

/-- **Each scheduled occurrence is counted and reported once.**  In every reachable state, for
every workflow id `w`:

* `w` has at most one row;
* its task has at most one submission, and a submission that the row records is that one;
* a step that inserts its row adds one to `run_count`, which was below `max_runs`; no other native
  transaction changes `run_count`;
* once its occurrence has ended, no operation changes the row; a single step ended it, a `finish`
  that found it active;
* of all steps of `finish` for `w` at most one notifies the owner. -/
theorem occurrence_once (hr : (lts zs fm).Reachable Initial h) (w : WorkflowId) :
    (h.db.occurrences.filter (·.workflow = w)).length ≤ 1 ∧
    (∀ owner id id' row row', h.tasks.db.submissions id = some row →
      h.tasks.db.submissions id' = some row' → row.taskKey = (owner, taskOf w) →
      row'.taskKey = (owner, taskOf w) → id = id') ∧
    (∀ o ∈ h.db.occurrences, o.workflow = w → ∀ id, o.submission = some id →
      ∃ job, h.db.jobs w.schedule = some job ∧
        h.tasks.db.forTask (job.owner, taskOf w) = some id) ∧
    (∀ a h', (lts zs fm).step h a h' →
      ((∀ o ∈ h.db.occurrences, o.workflow ≠ w) → ∀ o ∈ h'.db.occurrences, o.workflow = w →
        o.state = .reserved ∧ ∃ job, h.db.jobs w.schedule = some job ∧ job.runCount < job.maxRuns ∧
          h'.db.jobs w.schedule = some { job with runCount := job.runCount + 1 }) ∧
      ((∀ c, a ≠ .call c) → (∀ o ∈ h'.db.occurrences, ∃ o₀ ∈ h.db.occurrences,
          o₀.workflow = o.workflow) → ∀ key job, h.db.jobs key = some job →
        ∃ job', h'.db.jobs key = some job' ∧ job'.runCount = job.runCount)) ∧
    (∀ o ∈ h.db.occurrences, o.workflow = w → o.state.active = false →
      (∀ as h', (lts zs fm).Run h as h' → o ∈ h'.db.occurrences) ∧
      ∀ h₀ as, Initial h₀ → (lts zs fm).Run h₀ as h → ∃ as₁ r as₂ h₁ h₂,
        as = as₁ ++ .finish r :: as₂ ∧ r.workflow = w ∧ (lts zs fm).Run h₀ as₁ h₁ ∧
        (lts zs fm).step h₁ (.finish r) h₂ ∧ (lts zs fm).Run h₂ as₂ h ∧ o ∈ h₂.db.occurrences ∧
        ∃ o₁ ∈ h₁.db.occurrences, o₁.workflow = w ∧ o₁.state.active = true) ∧
    (∀ r r' h₁ as h₂ h₃, r.workflow = w → r'.workflow = w → (lts zs fm).step h (.finish r) h₁ →
      h₁.db.notifications ≠ h.db.notifications → (lts zs fm).Run h₁ as h₂ →
      (lts zs fm).step h₂ (.finish r') h₃ → h₃.db.notifications = h₂.db.notifications) := by
  have hwf := wf_reachable hr
  have hc := counted_reachable hr
  have hkept : ∀ {h₁ h₂ : Host} {as : List Act} {o : Occurrence}, h₁.Wf →
      (lts zs fm).Run h₁ as h₂ → o ∈ h₁.db.occurrences → o.state.active = false →
      o ∈ h₂.db.occurrences := fun hwf hrun ho hend =>
    hrun.preserves_under (I := Wf) (P := fun h : Host => _ ∈ h.db.occurrences)
      (fun _ _ _ => Wf.step) (fun _ _ _ hwf ho hst => ended_step hwf hst ho hend) hwf ho
  refine ⟨hc.row_le_one hwf w, ?_, ?_, fun a h' hst => ⟨?_, ?_⟩, ?_, ?_⟩
  · intro owner id id' row row' hrow hrow' hkey hkey'
    have hid := hc.indexed.named id row hrow
    have hid' := hc.indexed.named id' row' hrow'
    rw [hkey] at hid
    rw [hkey', hid] at hid'
    exact Option.some.inj hid'
  · rintro o ho rfl id hid
    rw [hwf.occurrences o ho]
    exact hc.recorded o ho id hid
  · intro hnone o ho hw
    have hmem : o ∈ (h'.rows o.job).occurrences := List.mem_filter.2 ⟨ho, by simp⟩
    rcases (Host.move hwf hst o.job).counted with
      ⟨f, hf, hocc, -⟩ | ⟨w', d, job, hnew, hsched, hj, hlt, hj', hocc⟩
    · rw [hocc] at hmem
      obtain ⟨o₀, ho₀, rfl⟩ := List.mem_map.1 hmem
      exact absurd ((hf o₀).workflow.symm.trans hw) (hnone o₀ (List.mem_filter.1 ho₀).1)
    · rw [hocc] at hmem
      rcases List.mem_append.1 hmem with hmem | hmem
      · exact absurd hw (hnone o (List.mem_filter.1 hmem).1)
      · have ho' := List.mem_singleton.1 hmem
        have hw' : w' = w := by rw [ho'] at hw; exact hw
        have hst' : o.state = .reserved := by rw [ho']
        rw [hw'] at hsched
        rw [← hsched] at hj hj'
        exact ⟨hst', job, hj, hlt, hj'⟩
  · intro hcall hold key job hj
    rcases (Host.move hwf hst key).counted with
      ⟨f, -, -, hcount⟩ | ⟨w', d, job', hnew, hsched, -, -, -, hocc⟩
    · exact hcount hcall job hj
    · have hmem : (⟨w', key, none, .reserved, d⟩ : Occurrence) ∈ (h'.rows key).occurrences := by
        rw [hocc]
        exact List.mem_append_right _ (List.mem_singleton.2 rfl)
      obtain ⟨o₀, ho₀, hw₀⟩ := hold _ (List.mem_filter.1 hmem).1
      have hjob : o₀.job = key := by rw [← hwf.occurrences o₀ ho₀, hw₀, ← hsched]
      exact absurd hw₀ (hnew o₀ (List.mem_filter.2 ⟨ho₀, by simp [hjob]⟩))
  · rintro o ho rfl hend
    refine ⟨fun as h' hrun => hkept hwf hrun ho hend, fun h₀ as hi hrun => ?_⟩
    have hnone : o ∉ h₀.db.occurrences := by
      rw [hi.db]
      exact List.not_mem_nil
    obtain ⟨as₁, a, as₂, h₁, h₂, rfl, hrun₁, ⟨hwf₁, -⟩, hst, ⟨hin, r, rfl, hw, hact⟩, hrun₂⟩ :=
      hrun.exists_step_of_lost (P := fun h => h.Wf ∧ o ∉ h.db.occurrences)
        (Q := fun h₁ a h₂ => o ∈ h₂.db.occurrences ∧ ∃ r, a = .finish r ∧ r.workflow = o.workflow ∧
          ∃ o₁ ∈ h₁.db.occurrences, o₁.workflow = o.workflow ∧ o₁.state.active = true)
        ⟨hi.wf, hnone⟩ (fun hno => hno.2 ho) (fun h₁ a h₂ hP hst => by
          by_cases hin : o ∈ h₂.db.occurrences
          · exact .inr ⟨hin, leaves_step hP.1 hst hin hend hP.2⟩
          · exact .inl ⟨hP.1.step hst, hin⟩)
    exact ⟨as₁, r, as₂, h₁, h₂, rfl, hw, hrun₁, hst, hrun₂, hin, hact⟩
  · intro r r' h₁ as h₂ h₃ hw hw' hst hne hrun hst'
    rcases told_step hst with hsame | ⟨-, ⟨o, ho, how, -⟩, hended⟩
    · exact absurd hsame hne
    rcases told_step hst' with hsame | ⟨-, ⟨o', ho', how', hact⟩, -⟩
    · exact hsame
    -- The row of `w` has ended in `h₁`, and stays so.
    obtain ⟨o₁, ho₁, hw₁⟩ := row_kept hwf hst ho
    have hend := hended o₁ ho₁ (hw₁.trans how)
    have ho₂ := hkept (hwf.step hst) hrun ho₁ hend
    have hr₂ := ((hr.step hst).run hrun)
    have heq := (counted_reachable hr₂).row_unique (wf_reachable hr₂) ho₂ ho'
      (hw₁.trans (how.trans (hw.trans (hw'.symm.trans how'.symm))))
    rw [heq, hact] at hend
    cases hend

/-- An occurrence of a job that Temporal executes is admitted twice, and then stopped. -/
def stoppedHost : Host :=
  Sample.host.script Sample.zs Sample.fm (Sample.added .agent 0 ++ Sample.forward 10 ++
    [fun _ => (.prepare Sample.env 1 ⟨1, "dd"⟩ 60, 60),
     fun _ => (.prepare Sample.env 1 ⟨1, "dd"⟩ 70, 70),
     fun _ => (.stop 1 ⟨1, "dd"⟩, 80),
     fun _ => (.finish ⟨1, ⟨1, "dd"⟩, .cancelled, "",
       "Occurrence stopped; inspect before rescheduling"⟩, 90)])

/-- It has one row, which stays as it is. -/
theorem occurrence_once_stopped :
    (stoppedHost.db.occurrences.filter (·.workflow = ⟨1, "dd"⟩)).length ≤ 1 ∧
    ∀ as h', (lts Sample.zs Sample.fm).Run stoppedHost as h' →
      (⟨⟨1, "dd"⟩, 1, none, .ended .cancelled, 120⟩ : Occurrence) ∈ h'.db.occurrences := by
  have hr : (lts Sample.zs Sample.fm).Reachable Initial stoppedHost :=
    .run (.of_init Sample.host_initial) (run_script (by decide))
  obtain ⟨hone, -, -, -, hended, -⟩ := occurrence_once hr ⟨1, "dd"⟩
  exact ⟨hone, (hended _ (by decide) rfl rfl).1⟩

end Host

end Scheduling

end PythonAI
