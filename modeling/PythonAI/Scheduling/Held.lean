import PythonAI.Scheduling.Fencing
import PythonAI.Scheduling.Moves

/-!
# What the calls in flight hold

A call that resumes relies on what it has read: `change` on a row whose revision it compares, a
worker on the run it claimed.  `Host.Wf` says what every such value tells about the present
database, and `Host.move` uses it: every step moves the rows of each job.
-/

namespace PythonAI

open Library

namespace Scheduling

/-- What the calls in flight hold is true of the database. -/
structure Host.Wf (h : Host) : Prop where
  /-- an occurrence belongs to the schedule of its workflow -/
  occurrences : ∀ o ∈ h.db.occurrences, o.workflow.schedule = o.job
  /-- a job that `create` has added is native -/
  created : ∀ key, .created key ∈ h.held → ∃ job, h.db.jobs key = some job ∧
    job.backend = .temporal ∧ h.db.migrations key = none
  /-- `finish` is called for an occurrence of the job -/
  results : ∀ r, .result r ∈ h.held → r.workflow.schedule = r.key
  /-- a row that was read is as old as its revision -/
  readings : ∀ r, .read r ∈ h.held ∨ .editable r ∈ h.held → ∃ b, h.db.bindings r.key = some b ∧
    r.binding.revision ≤ b.revision ∧ (b.revision = r.binding.revision →
      r.binding.enabled = b.enabled ∧ r.binding.cancelled = b.cancelled)
  /-- a row that is editable still is if its revision is current -/
  editable : ∀ r b, .editable r ∈ h.held → h.db.bindings r.key = some b →
    b.revision = r.binding.revision → ∀ saved, h.db.migrations r.key = some saved →
      saved.state = .temporal
  /-- nothing refers to a job that does not exist -/
  bare : ∀ k, h.db.jobs k = none → (h.rows k).Bare
  /-- the runs of the workers are not fresh -/
  workers : ∀ w ∈ h.sched.workers, w.run < h.sched.uuids
  /-- the runs are not fresh -/
  runs : ∀ r ∈ h.db.runs, r.id < h.sched.uuids
  /-- the run of a worker belongs to its job -/
  owned : ∀ w ∈ h.sched.workers, ∀ r ∈ h.db.runs, r.id = w.run → r.job = w.job

variable {zs : Zones} {fm : Formats} {h h' : Host} {a : Act} {k : JobId}

/-! ### Every step is a move -/

namespace Act

theorem settle_writes {α : Type} {P : Db → Prop} {db : Db} {x : Except Error (Db × α)}
    {f : α → List Held} (h : P db) (hx : ∀ db' v, x = .ok (db', v) → P db') :
    P (settle db (writes x f)) := by
  rcases x with e | ⟨db', v⟩
  · exact h
  · exact hx db' v rfl

theorem settle_holds {α : Type} {db : Db} {x : Except Error α} {f : α → List Held} :
    settle db (holds x f db) = db := by
  cases x <;> rfl

end Act

theorem Host.Initial.wf (hi : h.Initial) : h.Wf := by
  have hdb : h.db = .empty := hi.db
  refine ⟨?_, ?_, ?_, ?_, ?_, fun k _ => ⟨?_, ?_, ?_, ?_⟩, ?_, ?_, ?_⟩ <;>
    simp [hdb, hi.held, hi.workers, hi.admitted, Db.empty, Host.rows, Db.rows]

/-- A call moves the rows of each job. -/
theorem Call.move {c : Call} {t t' : Time} {ws : List Worker} {adm : List Execution} {u : Token}
    {tasks : Temporal.Sys} {db : Db} (ha : a = .call c) (hc : c.clocked t t') (hp : c.permitted ws)
    (hr : c.reports) (hown : ∀ w ∈ ws, ∀ r ∈ db.runs, r.id = w.run → r.job = w.job) :
    Move fm a k t t' (db.rows k adm) ((c.perform zs.toCalendar u db).rows k
      (adm ++ (Act.call c).admits zs fm u tasks db)) := by
  cases c with
  | addJob spec caller room t₁ =>
    simp only [Act.admits, List.append_nil]
    exact settle_of (P := fun db' => Move fm a k t t' (db.rows k adm) (db'.rows k adm)) .same
      fun db' _ hx => Store.addJob_move hx
  | disable key owner =>
    simp only [Act.admits, List.append_nil]
    exact Store.disable_move
  | claimDue key seen t₁ t₂ t₃ =>
    cases hres : claimed u db key seen t₁ t₂ t₃ with
    | error e => exact .of_same (by simp [perform, Act.admits, granted, hres])
    | ok x =>
      obtain ⟨db', out⟩ := x
      have hmove := Store.claimDue_move fm a k t adm hres
        (le_trans hc.2.1 (le_trans hc.2.2.1 hc.2.2.2))
      refine hmove.of_eq ?_
      cases out <;> simp [perform, Act.admits, granted, hres]
  | renew w t₁ t₂ =>
    simp only [Act.admits, List.append_nil]
    exact Store.renew_move
  | alive w t₁ =>
    simp only [Act.admits, List.append_nil]
    exact .same
  | complete w state output error t₁ t₂ =>
    simp only [Act.admits, List.append_nil]
    exact settle_of (P := fun db' => Move fm a k t t' (db.rows k adm) (db'.rows k adm)) .same
      fun db' _ hx => Store.complete_move hx ⟨_, ha⟩ (le_trans hc.1 hc.2.1) hr (hown w hp)

/-- **Every step moves the rows of each job.** -/
theorem Host.move (hwf : h.Wf) (hst : (lts zs fm).step h a h') (k : JobId) :
    Move fm a k h.sched.now h'.sched.now (h.rows k) (h'.rows k) := by
  obtain ⟨t', hnow, hclk, hperm, rfl⟩ := hst
  change Move fm a k h.sched.now t' (h.db.rows k h.admitted)
    ((a.perform zs fm h.sched.uuids h.tasks h.db).rows k
      (h.admitted ++ a.admits zs fm h.sched.uuids h.tasks h.db))
  have hwrites : ∀ {α : Type} {x : Except Error (Db × α)} {f : α → List Held},
      (∀ db' v, x = .ok (db', v) →
        Move fm a k h.sched.now t' (h.db.rows k h.admitted) (db'.rows k h.admitted)) →
      Move fm a k h.sched.now t' (h.db.rows k h.admitted)
        ((settle h.db (Act.writes x f)).rows k h.admitted) := fun hx =>
    Act.settle_writes (P := fun db' => Move fm a k h.sched.now t' (h.db.rows k h.admitted)
      (db'.rows k h.admitted)) .same hx
  cases a
  case call c => exact Call.move rfl hclk hperm.1 hperm.2 hwf.owned
  case prepare env key w t =>
    have hres : ∀ db', db' = (Act.prepare env key w t).perform zs fm h.sched.uuids h.tasks h.db →
        db' = h.db ∨ h.db.inserts w db' = true ∧
          Move fm (.prepare env key w t) k h.sched.now t' (h.db.rows k h.admitted) (db'.rows k
            (h.admitted ++ [⟨key, .temporal, (fm.slot w).toOption⟩])) := by
      rintro db' rfl
      simp only [Act.perform, Act.attempt]
      refine Act.settle_writes (P := fun db' => db' = h.db ∨ h.db.inserts w db' = true ∧
        Move fm (.prepare env key w t) k h.sched.now t' (h.db.rows k h.admitted) (db'.rows k
          (h.admitted ++ [⟨key, .temporal, (fm.slot w).toOption⟩]))) (.inl rfl) fun db' _ hx => ?_
      refine (Native.prepare_move hx).imp_right fun ⟨hnew, hin, hmove⟩ => ⟨?_, hmove⟩
      simpa [Db.inserts] using And.intro hnew hin
    simp only [Act.admits]
    generalize (Act.prepare env key w t).perform zs fm h.sched.uuids h.tasks h.db = db' at hres ⊢
    rcases hres db' rfl with rfl | ⟨hins, hmove⟩
    · exact .of_same (by simp [Db.inserts])
    · rw [hins]; exact hmove
  -- The other transactions admit no occurrence, and those that only read change nothing.
  all_goals
    simp only [Act.admits, List.append_nil, Act.perform, Act.attempt, Act.settle_holds, settle_ok]
  case create => exact hwrites fun _ _ hx => Native.create_move hx
  case bind key scope overlap paused =>
    obtain ⟨job, hj, hback, hm⟩ := hwf.created _ hperm
    exact hwrites fun _ _ hx => Native.bind_move hx hj hback hm
  case change r c action v t =>
    refine hwrites fun _ _ hx => Native.change_move hx fun b hb hrev => ?_
    obtain ⟨b', hb', -, hsame⟩ := hwf.readings _ (.inr hperm)
    obtain rfl : b' = b := Option.some.inj (hb'.symm.trans hb)
    exact ⟨(hsame hrev).1, (hsame hrev).2, hwf.editable _ b' hperm hb' hrev⟩
  case synced r => exact Native.synced_move
  case prepared w id => exact Native.prepared_move
  case finish r =>
    exact hwrites fun _ _ hx => Native.finish_move hx hwf.occurrences (hwf.results _ hperm)
  case stage => exact hwrites fun _ _ hx => Migration.stage_move hx hclk.1
  case cutover => exact hwrites fun _ _ hx => Migration.cutover_move hx hclk.1
  case rollback => exact hwrites fun _ _ hx => Migration.rollback_move hx
  case activating => exact hwrites fun _ _ hx => Migration.activating_move hx
  case temporal => exact hwrites fun _ _ hx => Migration.temporal_move hx
  case cuttingOver => exact hwrites fun _ _ hx => Migration.cuttingOver_move hx
  case retire => exact hwrites fun _ _ hx => Migration.retire_move hx
  case sqlite => exact hwrites fun _ _ hx => Migration.sqlite_move hx hclk.1
  all_goals exact .same

/-! ### What every move keeps -/

namespace Move

variable {t t' : Time} {x y : Rows}

theorem started_workflow (w : WorkflowId) (id : Token) (o : Occurrence) :
    (Native.started w id o).workflow = o.workflow := by
  unfold Native.started; split_ifs <;> rfl

theorem closed_workflow (w : WorkflowId) (state : Outcome) (o : Occurrence) :
    (Native.closed w state o).workflow = o.workflow := by
  unfold Native.closed; split_ifs <;> rfl

/-- A move keeps the workflow of every occurrence, and adds occurrences of the schedule itself. -/
theorem occurrences (h : Move fm a k t t' x y) {o : Occurrence} (ho : o ∈ y.occurrences) :
    (∃ o₀ ∈ x.occurrences, o₀.workflow = o.workflow ∧ o₀.job = o.job) ∨
      o.workflow.schedule = o.job := by
  have hmap : ∀ {f : Occurrence → Occurrence}, (∀ o, (f o).workflow = o.workflow) →
      (∀ o, (f o).job = o.job) → o ∈ x.occurrences.map f →
      ∃ o₀ ∈ x.occurrences, o₀.workflow = o.workflow ∧ o₀.job = o.job := by
    intro f hw hj hmem
    obtain ⟨o₀, ho₀, rfl⟩ := List.mem_map.1 hmem
    exact ⟨o₀, ho₀, (hw o₀).symm, (hj o₀).symm⟩
  cases h with
  | reserved job b w deadline fences _ _ _ _ _ hw =>
    rcases List.mem_append.1 ho with ho | ho
    · exact .inl ⟨o, ho, rfl, rfl⟩
    · rw [List.mem_singleton.1 ho]; exact .inr hw
  | begun w id => exact .inl (hmap (started_workflow w id) (Native.started_job id) ho)
  | closed r => exact .inl (hmap (closed_workflow r.workflow r.state) (Native.closed_job r.state) ho)
  | finished job b r state =>
    exact .inl (hmap (closed_workflow r.workflow state) (Native.closed_job state) ho)
  | _ => exact .inl ⟨o, ho, rfl, rfl⟩

/-- A native job that was never migrated stays one. -/
theorem native (h : Move fm a k t t' x y) {job : Job} (hj : x.job = some job)
    (hback : job.backend = .temporal) (hm : x.migration = none) :
    ∃ job', y.job = some job' ∧ job'.backend = .temporal ∧ y.migration = none := by
  cases h <;> simp_all

/-- The revision of a binding counts every change of its flags. -/
theorem revision (h : Move fm a k t t' x y) {b : Binding} (hb : x.binding = some b) :
    ∃ b', y.binding = some b' ∧ b.revision ≤ b'.revision ∧ (b'.revision = b.revision →
      b'.enabled = b.enabled ∧ b'.cancelled = b.cancelled) := by
  cases h with
  | reserved job b' w deadline fences _ hb' _ hon =>
    obtain rfl : b' = b := Option.some.inj (hb'.symm.trans hb)
    refine ⟨_, rfl, ?_⟩
    split_ifs <;> simp
  | _ => simp_all

/-- Leaving the state `temporal` changes the revision. -/
theorem temporal_kept (h : Move fm a k t t' x y) {b b' : Binding} (hb : x.binding = some b)
    (hb' : y.binding = some b') (hrev : b'.revision = b.revision)
    (hm : ∀ saved, x.migration = some saved → saved.state = .temporal) :
    ∀ saved, y.migration = some saved → saved.state = .temporal := by
  have hbump : ∀ {b₁ : Binding}, some b₁ = some b' → b₁.revision = b.revision + 1 →
      ∀ saved, y.migration = some saved → saved.state = .temporal := by
    intro b₁ h₁ hr
    rw [Option.some.inj h₁, hrev] at hr
    exact absurd hr (Nat.ne_of_lt (Nat.lt_succ_self _))
  cases h with
  | finished job b₁ =>
    obtain rfl : b₁ = b := Option.some.inj (‹x.binding = some b₁›.symm.trans hb)
    exact hbump hb' rfl
  | staged => exact hbump hb' (by rw [hb]; rfl)
  | rolledBack =>
    simp only [hb, Option.map_some] at hb'
    exact hbump hb' rfl
  | _ => simp_all

/-- No transaction deletes a job. -/
theorem job_kept (h : Move fm a k t t' x y) (hj : y.job = none) : x.job = none := by
  cases h <;> simp_all

theorem bare (h : Move fm a k t t' x y) (hj : x.job = none) (hb : x.Bare) : y.Bare := by
  obtain ⟨hbind, hmig, hlock, hadm⟩ := hb
  cases h <;> exact ⟨by simp_all, by simp_all, by simp_all, by simp_all⟩

end Move

/-! ### What a step adds to what is held -/

namespace Act

variable {u : Token} {tasks : Temporal.Sys} {db : Db} {v : Held}

@[simp] theorem kept_ok {db : Db} {new : List Held} : kept (.ok (db, new)) = new := rfl

@[simp] theorem mem_kept_writes {α : Type} {x : Except Error (Db × α)} {f : α → List Held} :
    v ∈ kept (writes x f) ↔ ∃ db' y, x = .ok (db', y) ∧ v ∈ f y := by
  rcases x with e | ⟨db', y⟩ <;> simp [writes, kept]

@[simp] theorem mem_kept_holds {α : Type} {x : Except Error α} {f : α → List Held} :
    v ∈ kept (holds x f db) ↔ ∃ y, x = .ok y ∧ v ∈ f y := by
  rcases x with e | y <;> simp [holds, kept]

theorem created_mem {key : JobId} (hv : .created key ∈ a.yields zs fm u tasks db) :
    db.jobs key = none ∧ ∃ job, (a.perform zs fm u tasks db).jobs key = some job ∧
      job.backend = .temporal := by
  cases a <;> simp [yields, attempt] at hv
  case create env spec c overlap room t =>
  obtain ⟨db', hx⟩ := hv
  obtain ⟨due, rfl, hdb, hnone⟩ := Native.create_ok hx
  refine ⟨hnone, newJob { spec with backend := .temporal } c due, ?_, rfl⟩
  simp only [perform, attempt, hx, writes, settle_ok, hdb, Table.set_same]

theorem read_mem {r : Reading} (hv : .read r ∈ a.yields zs fm u tasks db) :
    a.perform zs fm u tasks db = db ∧ db.bindings r.key = some r.binding := by
  cases a <;> simp [yields, attempt] at hv
  obtain ⟨rfl, -, hb⟩ := Native.get_ok hv
  exact ⟨settle_holds, hb⟩

theorem editable_mem {r : Reading} {workers : List Worker} {held : List Held}
    (hp : a.permitted workers held) (hv : .editable r ∈ a.yields zs fm u tasks db) :
    a.perform zs fm u tasks db = db ∧ .read r ∈ held ∧
      ∀ saved, db.migrations r.key = some saved → saved.state = .temporal := by
  cases a <;> simp [yields, attempt] at hv
  obtain ⟨⟨_, hx⟩, rfl⟩ := hv
  refine ⟨settle_holds, hp, fun saved hm => ?_⟩
  simpa [hm] using Native.editable_ok hx

theorem result_mem {r : Result} (hv : .result r ∈ a.yields zs fm u tasks db) :
    ∃ o ∈ db.occurrences, o.workflow = r.workflow ∧ o.job = r.key := by
  cases a <;> simp [yields, attempt] at hv
  case poll env key w found =>
    obtain ⟨rfl, rfl, ho⟩ := Native.poll_ok hv
    exact ho
  case stop key w =>
    obtain ⟨rfl, rfl, ho⟩ := Native.stop_ok hv
    exact ho

/-- Only a call of `SchedulerStore` writes runs. -/
theorem runs_perform (ha : ∀ c, a ≠ .call c) : (a.perform zs fm u tasks db).runs = db.runs := by
  have hsame : ∀ {α : Type} {x : Except Error (Db × α)} {f : α → List Held},
      (∀ db' y, x = .ok (db', y) → db'.runs = db.runs) → (settle db (writes x f)).runs = db.runs :=
    fun hx => settle_writes (P := fun db' => db'.runs = db.runs) rfl hx
  cases a <;> simp only [perform, attempt, settle_holds, settle_ok]
  case call c => exact absurd rfl (ha c)
  case create =>
    refine hsame fun db' y hx => ?_
    obtain ⟨due, -, rfl, -⟩ := Native.create_ok hx
    rfl
  case bind =>
    refine hsame fun db' y hx => ?_
    obtain ⟨-, rfl⟩ := Native.bind_ok hx
    rfl
  case change =>
    refine hsame fun db' y hx => ?_
    rcases Native.change_ok hx with ⟨-, -, rfl⟩ | ⟨-, job, b, due, -, -, -, rfl⟩ <;> rfl
  case synced => rfl
  case prepare =>
    refine hsame fun db' y hx => ?_
    obtain ⟨-, job, b, -, -, rfl | ⟨-, -, -, -, db₁, hres, rfl⟩⟩ := Native.prepare_ok hx
    · rfl
    · cases hres <;> rfl
  case prepared => rfl
  case finish =>
    refine hsame fun db' y hx => ?_
    obtain ⟨job, b, -, -, ⟨rfl, -⟩ | ⟨-, rfl⟩ | ⟨-, -, digest, extra, -, -, rfl⟩⟩ :=
      Native.finish_ok hx <;> rfl
  case stage =>
    refine hsame fun db' y hx => ?_
    obtain ⟨job, -, -, -, rfl | ⟨-, rfl⟩⟩ := Migration.stage_ok hx <;> rfl
  case cutover =>
    refine hsame fun db' y hx => ?_
    obtain ⟨job, saved, -, -, rfl | ⟨-, -, rfl⟩⟩ := Migration.cutover_ok hx <;> rfl
  case rollback =>
    refine hsame fun db' y hx => ?_
    obtain ⟨job, saved, -, -, rfl | ⟨-, -, paused, rfl⟩⟩ := Migration.rollback_ok hx <;> rfl
  case activating =>
    refine hsame fun db' y hx => ?_
    obtain ⟨job, b, saved, -, -, -, -, rfl⟩ := Migration.activating_ok hx
    rfl
  case temporal =>
    refine hsame fun db' y hx => ?_
    obtain ⟨saved, -, -, rfl⟩ := Migration.temporal_ok hx
    rfl
  case cuttingOver =>
    refine hsame fun db' y hx => ?_
    obtain ⟨job, b, saved, -, -, -, -, rfl⟩ := Migration.cuttingOver_ok hx
    rfl
  case retire =>
    refine hsame fun db' y hx => ?_
    obtain ⟨saved, -, -, rfl⟩ := Migration.retire_ok hx
    rfl
  case sqlite =>
    refine hsame fun db' y hx => ?_
    obtain ⟨job, saved, due, -, -, -, -, -, rfl⟩ := Migration.sqlite_ok hx
    rfl

variable (zs fm u tasks db a) in
/-- Every transaction rewrites the runs without touching their ids and jobs, and a claim adds its
own. -/
theorem runs_granted : ∃ f : Run → Run, (∀ r, (f r).id = r.id ∧ (f r).job = r.job) ∧
    (a.perform zs fm u tasks db).runs = db.runs.map f ++ (a.granted u db).map (·.started) := by
  by_cases ha : ∃ c, a = .call c
  · obtain ⟨c, rfl⟩ := ha
    exact Call.runs_perform _ u db c
  · refine ⟨id, fun _ => ⟨rfl, rfl⟩, ?_⟩
    rw [runs_perform fun c hc => ha ⟨c, hc⟩]
    cases a <;> simp_all [granted]

theorem granted_run {w : Worker} (hw : w ∈ a.granted u db) : w.run = u + 1 := by
  cases a with
  | call c =>
    rcases Call.granted_cases u db c with hg | ⟨key, hg⟩
    · simp [granted, hg] at hw
    · rw [granted, hg, List.mem_singleton] at hw
      rw [hw]
  | _ => cases hw

theorem granted_le_one {w w' : Worker} (hw : w ∈ a.granted u db) (hw' : w' ∈ a.granted u db) :
    w = w' := by
  cases a with
  | call c =>
    rcases Call.granted_cases u db c with hg | ⟨key, hg⟩
    · simp [granted, hg] at hw
    · rw [granted, hg, List.mem_singleton] at hw hw'
      rw [hw, hw']
  | _ => cases hw

end Act

/-- **Every step keeps what is held true.** -/
theorem Host.Wf.step (hwf : h.Wf) (hst : (lts zs fm).step h a h') : h'.Wf := by
  have hmove := Host.move hwf hst
  obtain ⟨t', -, -, hperm, rfl⟩ := hst
  have hheld : ∀ {v : Held}, v ∈ (h.after zs fm a t').held →
      v ∈ h.held ∨ v ∈ a.yields zs fm h.sched.uuids h.tasks h.db := List.mem_append.1
  have hdb : (h.after zs fm a t').db = a.perform zs fm h.sched.uuids h.tasks h.db := rfl
  refine ⟨fun o ho => ?_, fun key hc => ?_, fun r hr => ?_, fun r hr => ?_, fun r b hr hb hrev => ?_,
    fun k hk => ?_, ?_, ?_, ?_⟩
  · rcases (hmove o.job).occurrences (o := o) (List.mem_filter.2 ⟨ho, by simp⟩) with
      ⟨o₀, ho₀, hw, hj⟩ | hnew
    · rw [← hw, ← hj]
      exact hwf.occurrences o₀ (List.mem_filter.1 ho₀).1
    · exact hnew
  · rcases hheld hc with hold | hnew
    · obtain ⟨job, hj, hback, hm⟩ := hwf.created key hold
      exact (hmove key).native hj hback hm
    · obtain ⟨hnone, job, hj, hback⟩ := Act.created_mem hnew
      exact ⟨job, hj, hback, ((hmove key).bare hnone (hwf.bare key hnone)).migration⟩
  · rcases hheld hr with hold | hnew
    · exact hwf.results r hold
    · obtain ⟨o, ho, hw, hj⟩ := Act.result_mem hnew
      rw [← hw, ← hj]
      exact hwf.occurrences o ho
  · have hold : (.read r ∈ h.held ∨ .editable r ∈ h.held) →
        ∃ b, (h.after zs fm a t').db.bindings r.key = some b ∧ r.binding.revision ≤ b.revision ∧
          (b.revision = r.binding.revision →
            r.binding.enabled = b.enabled ∧ r.binding.cancelled = b.cancelled) := by
      intro hr
      obtain ⟨b, hb, hle, hsame⟩ := hwf.readings r hr
      obtain ⟨b', hb', hle', hsame'⟩ := (hmove r.key).revision hb
      refine ⟨b', hb', le_trans hle hle', fun hrev => ?_⟩
      have hb_rev : b.revision = r.binding.revision := le_antisymm (hrev ▸ hle') hle
      obtain ⟨he, hc⟩ := hsame' (hrev.trans hb_rev.symm)
      exact ⟨(hsame hb_rev).1.trans he.symm, (hsame hb_rev).2.trans hc.symm⟩
    rcases hr with hr | hr
    · rcases hheld hr with hr | hnew
      · exact hold (.inl hr)
      · obtain ⟨hp, hb⟩ := Act.read_mem hnew
        exact ⟨r.binding, by rw [hdb, hp]; exact hb, le_rfl, fun _ => ⟨rfl, rfl⟩⟩
    · rcases hheld hr with hr | hnew
      · exact hold (.inr hr)
      · exact hold (.inl (Act.editable_mem hperm hnew).2.1)
  · rcases hheld hr with hold | hnew
    · obtain ⟨b₀, hb₀, hle, -⟩ := hwf.readings r (.inr hold)
      obtain ⟨b', hb', hle', -⟩ := (hmove r.key).revision hb₀
      obtain rfl : b' = b := Option.some.inj (hb'.symm.trans hb)
      have hrev₀ : b₀.revision = r.binding.revision := le_antisymm (hrev ▸ hle') hle
      exact (hmove r.key).temporal_kept hb₀ hb (hrev.trans hrev₀.symm)
        (hwf.editable r b₀ hold hb₀ hrev₀)
    · obtain ⟨hp, -, hm⟩ := Act.editable_mem hperm hnew
      rw [hdb, hp]
      exact hm
  · exact (hmove k).bare ((hmove k).job_kept hk) (hwf.bare k ((hmove k).job_kept hk))
  · intro w hw
    rcases List.mem_append.1 hw with hw | hw
    · exact lt_of_lt_of_le (hwf.workers w hw) (Nat.le_add_right _ 3)
    · rw [Act.granted_run hw]
      exact Nat.add_lt_add_left (by decide) _
  · intro r hr
    obtain ⟨f, hf, hruns⟩ := Act.runs_granted zs fm a h.sched.uuids h.tasks h.db
    rw [hdb, hruns] at hr
    rcases List.mem_append.1 hr with hr | hr
    · obtain ⟨r₀, hr₀, rfl⟩ := List.mem_map.1 hr
      rw [(hf r₀).1]
      exact lt_of_lt_of_le (hwf.runs r₀ hr₀) (Nat.le_add_right _ 3)
    · obtain ⟨w, hw, rfl⟩ := List.mem_map.1 hr
      change w.run < _
      rw [Act.granted_run hw]
      exact Nat.add_lt_add_left (by decide) _
  · intro w hw r hr hid
    obtain ⟨f, hf, hruns⟩ := Act.runs_granted zs fm a h.sched.uuids h.tasks h.db
    rw [hdb, hruns] at hr
    -- The run of a new worker is fresh, so that no older run or worker has its id.
    rcases List.mem_append.1 hr with hr | hr <;> rcases List.mem_append.1 hw with hw | hw
    · obtain ⟨r₀, hr₀, rfl⟩ := List.mem_map.1 hr
      rw [(hf r₀).1] at hid
      rw [(hf r₀).2]
      exact hwf.owned w hw r₀ hr₀ hid
    · obtain ⟨r₀, hr₀, rfl⟩ := List.mem_map.1 hr
      rw [(hf r₀).1, Act.granted_run hw] at hid
      exact absurd (hid ▸ hwf.runs r₀ hr₀) Nat.not_succ_lt_self
    · obtain ⟨w₀, hw₀, rfl⟩ := List.mem_map.1 hr
      have hid : w₀.run = w.run := hid
      rw [Act.granted_run hw₀] at hid
      exact absurd (hid ▸ hwf.workers w hw) Nat.not_succ_lt_self
    · obtain ⟨w₀, hw₀, rfl⟩ := List.mem_map.1 hr
      rw [Act.granted_le_one hw₀ hw]
      rfl

/-- In every reachable state what the calls in flight hold is true. -/
theorem Host.wf_reachable (hr : (lts zs fm).Reachable Initial h) : h.Wf :=
  hr.invariant (fun _ => Initial.wf) fun _ _ _ => Wf.step

end Scheduling

end PythonAI
