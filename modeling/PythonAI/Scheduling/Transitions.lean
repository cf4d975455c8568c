import PythonAI.Scheduling.Host

/-!
# What the transactions of native schedules and of migrations write

One lemma for each transaction says what a success found and what it wrote.  The invariants of the
following modules are derived from these lemmas.
-/

namespace PythonAI

open Library

namespace Scheduling

variable {cal : Calendar} {zs : Zones} {fm : Formats} {env : Env} {c : Caller} {db db' : Db}
  {key : JobId} {job : Job} {b : Binding} {t : Time} {w : WorkflowId}

namespace Native

@[simp] theorem row_eq_ok :
    row key db = .ok (job, b) ↔ db.jobs key = some job ∧ db.bindings key = some b := by
  simp only [row, bind_eq_ok, require_eq_ok, pure_eq_ok, Prod.mk.injEq]
  constructor
  · rintro ⟨_, hj, _, hb, rfl, rfl⟩; exact ⟨hj, hb⟩
  · rintro ⟨hj, hb⟩; exact ⟨job, hj, b, hb, rfl, rfl⟩

theorem get_ok {r : Reading} (h : get key c db = .ok r) :
    r.key = key ∧ db.jobs key = some r.job ∧ db.bindings key = some r.binding := by
  simp only [get, bind_eq_ok, Prod.exists, row_eq_ok, ensure_eq_ok, pure_eq_ok] at h
  obtain ⟨job, b, ⟨hj, hb⟩, -, -, rfl⟩ := h
  exact ⟨rfl, hj, hb⟩

theorem create_ok {spec : JobSpec} {overlap : Overlap} {room : Bool} {out : JobId}
    (h : create cal fm env spec c overlap room key t db = .ok (db', out)) :
    ∃ due, out = key ∧ db' = { db with
        jobs := db.jobs.set key (newJob { spec with backend := .temporal } c due) } ∧
      db.jobs key = none := by
  simp only [create, bind_eq_ok, ensure_eq_ok] at h
  obtain ⟨-, -, -, -, -, -, due, -, -, -, -, -, -, -, h⟩ := h
  simp only [Store.addJob, bind_eq_ok, ensure_eq_ok, pure_eq_ok, Prod.mk.injEq] at h
  obtain ⟨-, -, due, -, -, -, -, hnone, rfl, rfl⟩ := h
  exact ⟨due, rfl, rfl, by simpa using hnone⟩

theorem bind_ok {scope : String} {overlap : Overlap} {paused : Bool} {a : Unit}
    (h : bind env key scope overlap paused db = .ok (db', a)) :
    db.bindings key = none ∧ db' = { db with
      jobs := db.jobs.update key (fun _ => true) fun job =>
        { job with enabled := false, context := scope }
      bindings := db.bindings.set key
        { place := env.place, overlap := overlap, enabled := !paused } } := by
  simp only [bind, bind_eq_ok, ensure_eq_ok, pure_eq_ok, Prod.mk.injEq] at h
  obtain ⟨-, hnone, rfl, -⟩ := h
  exact ⟨by simpa using hnone, rfl⟩

theorem editable_ok {r : Reading} (h : editable r db = .ok ()) :
    (db.migrations r.key).all (·.state = .temporal) = true := by
  simp only [editable, bind_eq_ok, ensure_eq_ok] at h
  obtain ⟨-, h, -⟩ := h
  exact h

/-- `change` writes the job and the binding, unless the schedule that was read is cancelled. -/
theorem change_ok {r : Reading} {action : Action} {v : Values} {a : Unit}
    (h : change cal env r c action v t db = .ok (db', a)) :
    r.binding.cancelled = true ∧ action = .cancel ∧ db' = db ∨
      r.binding.cancelled = false ∧ ∃ job b due, db.jobs r.key = some job ∧
        db.bindings r.key = some b ∧ b.revision = r.binding.revision ∧ db' = { db with
          jobs := db.jobs.set r.key (changedJob r v due job)
          bindings := db.bindings.set r.key (changedBinding r action v b) } := by
  simp only [change, bind_eq_ok, ensure_eq_ok] at h
  obtain ⟨-, -, -, -, h⟩ := h
  cases hc : r.binding.cancelled with
  | true =>
    simp only [hc, if_true, bind_eq_ok, ensure_eq_ok, decide_eq_true_eq, pure_eq_ok,
      Prod.mk.injEq] at h
    obtain ⟨-, ha, rfl, -⟩ := h
    exact .inl ⟨rfl, ha, rfl⟩
  | false =>
    rw [hc, if_neg (by simp)] at h
    simp only [bind_eq_ok, ensure_eq_ok, Prod.exists, row_eq_ok, pure_eq_ok, Prod.mk.injEq,
      Bool.and_eq_true, decide_eq_true_eq] at h
    obtain ⟨-, -, -, -, -, -, -, -, job, b, ⟨hj, hb⟩, -, ⟨hrev, -⟩, due, -, rfl, -⟩ := h
    exact .inr ⟨rfl, job, b, due, hj, hb, hrev, rfl⟩

/-- How `admit_native` lets a first occurrence pass: the job was never migrated, or its instant is
reserved now. -/
inductive Reserves (fm : Formats) (key : JobId) (job : Job) (b : Binding) (w : WorkflowId)
    (db : Db) : Db → Prop
  | unmigrated : db.migrations key = none → Reserves fm key job b w db db
  | migrated (saved : MigrationRow) (slot : Time) : db.migrations key = some saved →
      saved.state = .temporal → b.enabled = true → job.runCount < job.maxRuns →
      fm.slot w = .ok slot → saved.barrier ≤ slot → db.fenced key slot = false →
      Reserves fm key job b w db { db with fences := db.fences ++ [⟨key, slot, .temporal⟩] }

theorem admitNative_ok {existing admitted : Bool}
    (h : admitNative fm key job b w existing db = .ok (db', admitted)) :
    db' = db ∧ (admitted = true → existing = true ∨ db.migrations key = none) ∨
      admitted = true ∧ existing = false ∧ Reserves fm key job b w db db' := by
  unfold admitNative at h
  by_cases hr : b.retired = true
  · rw [if_pos hr] at h; cases h
    exact .inl ⟨rfl, nofun⟩
  rw [if_neg hr] at h
  cases hm : db.migrations key with
  | none =>
    rw [hm] at h; cases h
    exact .inl ⟨rfl, fun _ => .inr rfl⟩
  | some saved =>
    simp only [hm] at h
    cases existing with
    | true =>
      rw [if_pos rfl] at h; cases h
      exact .inl ⟨rfl, fun _ => .inl rfl⟩
    | false =>
      rw [if_neg (by simp)] at h
      by_cases hs : saved.state ≠ .temporal ∨ b.enabled = false ∨ job.maxRuns ≤ job.runCount
      · rw [if_pos hs] at h; cases h
        exact .inl ⟨rfl, nofun⟩
      rw [if_neg hs] at h
      simp only [not_or, not_not, Bool.not_eq_false, Nat.not_le] at hs
      simp only [bind_eq_ok] at h
      obtain ⟨slot, hslot, h⟩ := h
      by_cases hb : slot < saved.barrier
      · rw [if_pos hb] at h; cases h
        exact .inl ⟨rfl, nofun⟩
      rw [if_neg hb] at h
      simp only [bind_eq_ok, ensure_eq_ok] at h
      obtain ⟨-, -, h⟩ := h
      by_cases hf : db.fenced key slot = true
      · rw [if_pos hf] at h; cases h
        exact .inl ⟨rfl, nofun⟩
      · rw [if_neg hf] at h; cases h
        exact .inr ⟨rfl, rfl, .migrated saved slot hm hs.1 hs.2.1 hs.2.2 hslot (Nat.not_lt.1 hb)
          (by simpa using hf)⟩

/-- `prepare` inserts the occurrence, or writes nothing. -/
theorem prepare_ok {out : Option Time} (h : prepare fm env key w t db = .ok (db', out)) :
    w.schedule = key ∧ ∃ job b, db.jobs key = some job ∧ db.bindings key = some b ∧
      (db' = db ∨ b.cancelled = false ∧ b.enabled = true ∧ job.runCount < job.maxRuns ∧
        (∀ o ∈ db.occurrences, o.workflow ≠ w) ∧
        ∃ db₁, Reserves fm key job b w db db₁ ∧ db' = reserve key job w t db₁) := by
  simp only [prepare, bind_eq_ok, ensure_eq_ok, Prod.exists, row_eq_ok, decide_eq_true_eq] at h
  obtain ⟨-, -, job, b, ⟨hj, hb⟩, -, hw, -, -, -, -, db₁, admitted, hadm, h⟩ := h
  refine ⟨hw, job, b, hj, hb, ?_⟩
  cases admitted with
  | false =>
    simp only [if_neg, pure_eq_ok, Prod.mk.injEq, Bool.false_eq_true, not_false_eq_true] at h
    obtain ⟨rfl, -⟩ := h
    rcases admitNative_ok hadm with ⟨rfl, -⟩ | ⟨h, -⟩
    · exact .inl rfl
    · cases h
  | true =>
    simp only [if_true, bind_eq_ok, ensure_eq_ok, Bool.not_eq_true'] at h
    obtain ⟨-, hc, h⟩ := h
    cases hold : db.occurrences.find? (·.workflow = w) with
    | some o =>
      simp only [hold, pure_eq_ok, Prod.mk.injEq] at h
      obtain ⟨rfl, -⟩ := h
      rcases admitNative_ok hadm with ⟨rfl, -⟩ | ⟨-, he, -⟩
      · exact .inl rfl
      · rw [hold] at he; cases he
    | none =>
      have hnew : ∀ o ∈ db.occurrences, o.workflow ≠ w := by simpa using List.find?_eq_none.1 hold
      have hres : Reserves fm key job b w db db₁ := by
        rcases admitNative_ok hadm with ⟨rfl, he⟩ | ⟨-, -, hres⟩
        · rcases he rfl with he | hm
          · rw [hold] at he; cases he
          · exact .unmigrated hm
        · exact hres
      simp only [hold] at h
      by_cases hoff : b.enabled = false ∨ job.maxRuns ≤ job.runCount
      · rw [if_pos hoff, pure_eq_ok, Prod.mk.injEq] at h
        obtain ⟨rfl, -⟩ := h
        cases hres with
        | unmigrated => exact .inl rfl
        | migrated saved slot _ _ hen hlt =>
          rcases hoff with hoff | hoff
          · rw [hen] at hoff; cases hoff
          · exact absurd hlt (Nat.not_lt.2 hoff)
      · rw [if_neg hoff] at h
        simp only [bind_eq_ok, ensure_eq_ok, pure_eq_ok, Prod.mk.injEq] at h
        obtain ⟨-, -, rfl, -⟩ := h
        simp only [not_or, Bool.not_eq_false, Nat.not_le] at hoff
        exact .inr ⟨hc, hoff.1, hoff.2, hnew, db₁, hres, rfl⟩

/-- What `_poll` reports is about an occurrence of the job. -/
theorem poll_ok {found : Except Error Temporal.Submission} {r : Result}
    (h : poll fm env key w found db = .ok (some r)) :
    r.key = key ∧ r.workflow = w ∧ ∃ o ∈ db.occurrences, o.workflow = w ∧ o.job = key := by
  simp only [poll, bind_eq_ok, ensure_eq_ok, List.any_eq_true, Bool.and_eq_true,
    decide_eq_true_eq] at h
  obtain ⟨x, -, -, ho, h⟩ := h
  by_cases hc : x.2.cancelled = true
  · rw [if_pos hc] at h; cases h
  rw [if_neg hc, bind_eq_ok] at h
  obtain ⟨sub, -, h⟩ := h
  by_cases ha : env.authority x.1 = false ∨ x.2.place ≠ env.place
  · rw [if_pos ha] at h; cases h; exact ⟨rfl, rfl, ho⟩
  · rw [if_neg ha] at h
    cases hs : ended sub.state with
    | none => rw [hs] at h; cases h
    | some state => rw [hs] at h; cases h; exact ⟨rfl, rfl, ho⟩

theorem stop_ok {r : Result} (h : stop key w db = .ok (some r)) :
    r.key = key ∧ r.workflow = w ∧ ∃ o ∈ db.occurrences, o.workflow = w ∧ o.job = key := by
  simp only [stop, bind_eq_ok] at h
  obtain ⟨x, -, h⟩ := h
  split_ifs at h with ho
  · cases h
    simp only [List.any_eq_true, Bool.and_eq_true, decide_eq_true_eq] at ho
    obtain ⟨o, ho, ⟨hw, hk⟩, -⟩ := ho
    exact ⟨rfl, rfl, o, ho, hw, hk⟩
  · cases h

/-- What `report` writes. -/
theorem report_ok {u : Token} {state : Outcome} {digest : Digest} {text : String}
    (h : report u key job state digest text db = .ok db') :
    ∃ extra, db' = { db with notifications := db.notifications ++ extra } ∧
      (extra = [] ∨ ∃ out, extra = [⟨u, key, job.owner, state, out⟩]) := by
  unfold report at h
  split_ifs at h with hm
  · exact ⟨_, Store.notify_ok h, .inr ⟨_, rfl⟩⟩
  · cases h
    exact ⟨[], by simp, .inl rfl⟩

/-- `finish` ends an active occurrence, and then the job learns its observation unless the
schedule is cancelled; it writes nothing for an occurrence that has ended. -/
theorem finish_ok {u : Token} {r : Result} {a : Unit} (h : finish u r db = .ok (db', a)) :
    ∃ job b, db.jobs r.key = some job ∧ db.bindings r.key = some b ∧
      (db' = db ∧ (∀ o ∈ db.occurrences, o.workflow = r.workflow → o.state.active = false) ∨
      b.cancelled = true ∧
        db' = { db with occurrences := db.occurrences.map (closed r.workflow r.state) } ∨
      b.cancelled = false ∧ (∃ o ∈ db.occurrences, o.workflow = r.workflow ∧ o.state.active = true) ∧
        ∃ digest extra, digest.state = (counted job r).1 ∧
        (extra = [] ∨ ∃ out, extra = [⟨u, r.key, job.owner, (counted job r).1, out⟩]) ∧
        db' = consumed r.key job (counted job r).1 digest r.text { db with
          occurrences := db.occurrences.map (closed r.workflow (counted job r).1)
          notifications := db.notifications ++ extra }) := by
  simp only [finish, bind_eq_ok, Prod.exists, row_eq_ok] at h
  obtain ⟨job, b, ⟨hj, hb⟩, h⟩ := h
  refine ⟨job, b, hj, hb, ?_⟩
  by_cases ho : db.occurrences.any (fun o => o.workflow = r.workflow && o.state.active) = true
  · rw [if_pos ho] at h
    cases hc : b.cancelled with
    | true =>
      rw [hc, if_pos rfl, pure_eq_ok, Prod.mk.injEq] at h
      exact .inr (.inl ⟨rfl, h.1.symm⟩)
    | false =>
      rw [hc, if_neg (by simp)] at h
      simp only [bind_eq_ok, pure_eq_ok, Prod.mk.injEq] at h
      obtain ⟨told, htold, rfl, -⟩ := h
      obtain ⟨extra, rfl, hextra⟩ := report_ok htold
      refine .inr (.inr ⟨rfl, by simpa using ho, _, extra, ?_, hextra, rfl⟩)
      unfold fingerprint
      split_ifs <;> rfl
  · rw [if_neg ho, pure_eq_ok, Prod.mk.injEq] at h
    refine .inl ⟨h.1.symm, fun o hmem hw => ?_⟩
    by_contra hact
    exact ho (List.any_eq_true.2 ⟨o, hmem, by simp [hw, hact]⟩)

end Native

namespace Migration

theorem idleLegacy_ok (h : idleLegacy key t db = .ok ()) :
    ∀ r ∈ db.runs, unsettled key r = false := by
  simp only [idleLegacy, bind_eq_ok, ensure_eq_ok] at h
  obtain ⟨-, -, h⟩ := h
  simpa using h

theorem operatorRow_ok (h : operatorRow env c key db = .ok job) : db.jobs key = some job := by
  simp only [operatorRow, bind_eq_ok, require_eq_ok, pure_eq_ok] at h
  obtain ⟨job, hj, -, -, rfl⟩ := h
  exact hj

theorem row_ok (h : row env key db = .ok (job, b)) :
    db.jobs key = some job ∧ db.bindings key = some b := by
  simp only [row, bind_eq_ok, Prod.exists, Native.row_eq_ok, pure_eq_ok, Prod.mk.injEq] at h
  obtain ⟨-, -, job, b, h, -, -, rfl, rfl⟩ := h
  exact h

/-- `stage` writes an intent for an idle SQLite job, or finds it written. -/
theorem stage_ok {source : Job} {a : Unit}
    (h : stage cal fm env c key source t db = .ok (db', a)) :
    ∃ job, db.jobs key = some job ∧ job.backend = .sqlite ∧
      (∀ r ∈ db.runs, unsettled key r = false) ∧
      (db' = db ∨
        (∀ saved, db.migrations key = some saved → saved.state = .sqlite ∨ saved.state = .staged) ∧
        db' = { db with
          bindings := db.bindings.set key (stagedBinding env (t + 120) (db.bindings key))
          migrations := db.migrations.set key
            (stagedRow job source (t + 120) (db.migrations key)) }) := by
  simp only [stage, bind_eq_ok, ensure_eq_ok, Bool.and_eq_true, decide_eq_true_eq] at h
  obtain ⟨job, hj, -, -, -, -, -, ⟨hsql, -⟩, _, hidle, h⟩ := h
  refine ⟨job, operatorRow_ok hj, hsql, idleLegacy_ok hidle, ?_⟩
  by_cases hold : (db.migrations key).any
      (fun saved => saved.state = .staged && saved.sourceDigest = source) = true
  · rw [if_pos hold, pure_eq_ok, Prod.mk.injEq] at h
    exact .inl h.1.symm
  · rw [if_neg hold] at h
    simp only [bind_eq_ok, ensure_eq_ok, pure_eq_ok, Prod.mk.injEq] at h
    obtain ⟨-, hst, -, -, rfl, -⟩ := h
    refine .inr ⟨fun saved hm => ?_, rfl⟩
    simpa [hm] using hst

/-- `cutover` fences a staged job that is idle, or finds it done. -/
theorem cutover_ok {a : Unit} (h : cutover cal fm env c key t db = .ok (db', a)) :
    ∃ job saved, db.jobs key = some job ∧ db.migrations key = some saved ∧
      (db' = db ∨ saved.state = .staged ∧ (∀ r ∈ db.runs, unsettled key r = false) ∧
        db' = { db with
          jobs := db.jobs.set key (fencedJob job)
          migrations := db.migrations.set key
            { saved with state := .cuttingOver, barrier := max (t + 60) job.nextRunAt
                         fenceAt := some t }
          bindings := db.bindings.update key (fun _ => true) fun b =>
            { b with
              enabled := false
              startAt := some (max (t + 60) job.nextRunAt)
              revision := b.revision + 1 } }) := by
  simp only [cutover, bind_eq_ok, require_eq_ok] at h
  obtain ⟨job, hj, saved, hm, h⟩ := h
  refine ⟨job, saved, operatorRow_ok hj, hm, ?_⟩
  split_ifs at h with hdone
  · rw [pure_eq_ok, Prod.mk.injEq] at h
    exact .inl h.1.symm
  · simp only [bind_eq_ok, ensure_eq_ok, pure_eq_ok, Prod.mk.injEq, Bool.and_eq_true,
      decide_eq_true_eq] at h
    obtain ⟨-, ⟨hst, -⟩, _, hidle, -, -, -, -, rfl, -⟩ := h
    exact .inr ⟨hst, idleLegacy_ok hidle, rfl⟩

/-- `rollback` fences the job, or finds it rolled back. -/
theorem rollback_ok {a : Unit} (h : rollback env c key db = .ok (db', a)) :
    ∃ job saved, db.jobs key = some job ∧ db.migrations key = some saved ∧
      (db' = db ∨ saved.state ≠ .rollingBack ∧ saved.state ≠ .sqlite ∧ ∃ paused : Bool,
        db' = { db with
          jobs := db.jobs.set key (fencedJob job)
          migrations := db.migrations.set key
            { saved with state := .rollingBack, restoreEnabled := saved.restoreEnabled && !paused }
          bindings := db.bindings.update key (fun _ => true) fun b =>
            { b with enabled := false, revision := b.revision + 1 } }) := by
  simp only [rollback, bind_eq_ok, require_eq_ok] at h
  obtain ⟨job, hj, saved, hm, h⟩ := h
  refine ⟨job, saved, operatorRow_ok hj, hm, ?_⟩
  split_ifs at h with hdone
  · rw [pure_eq_ok, Prod.mk.injEq] at h
    exact .inl h.1.symm
  · simp only [bind_eq_ok, pure_eq_ok, Prod.mk.injEq] at h
    obtain ⟨paused, -, rfl, -⟩ := h
    simp only [not_or] at hdone
    exact .inr ⟨hdone.1, hdone.2, paused, rfl⟩

theorem activating_ok {a : Unit} (h : activating env key t db = .ok (db', a)) :
    ∃ job b saved, db.jobs key = some job ∧ db.bindings key = some b ∧
      db.migrations key = some saved ∧ saved.state = .activating ∧ db' = { db with
        migrations := db.migrations.set key { saved with barrier := max saved.barrier (t + 60) }
        bindings := db.bindings.set key { b with
          startAt := some (max saved.barrier (t + 60))
          enabled := saved.restoreEnabled && job.runCount < job.maxRuns
          revision := b.revision + 1 } } := by
  simp only [activating, bind_eq_ok, require_eq_ok, ensure_eq_ok, Prod.exists, pure_eq_ok,
    Prod.mk.injEq, decide_eq_true_eq] at h
  obtain ⟨job, b, hrow, saved, hm, -, hst, -, -, rfl, -⟩ := h
  obtain ⟨hj, hb⟩ := row_ok hrow
  exact ⟨job, b, saved, hj, hb, hm, hst, rfl⟩

theorem temporal_ok {a : Unit} (h : temporal env key db = .ok (db', a)) :
    ∃ saved, db.migrations key = some saved ∧ saved.state = .activating ∧ db' = { db with
      migrations := db.migrations.set key { saved with state := .temporal } } := by
  simp only [temporal, bind_eq_ok, require_eq_ok, ensure_eq_ok, Prod.exists, pure_eq_ok,
    Prod.mk.injEq, Bool.and_eq_true, decide_eq_true_eq] at h
  obtain ⟨job, b, -, saved, hm, -, ⟨hst, -⟩, rfl, -⟩ := h
  exact ⟨saved, hm, hst, rfl⟩

theorem cuttingOver_ok {old : MigrationRow} {a : Unit}
    (h : cuttingOver env key old db = .ok (db', a)) :
    ∃ job b saved, db.jobs key = some job ∧ db.bindings key = some b ∧
      db.migrations key = some saved ∧ saved.state = .cuttingOver ∧ db' = { db with
        jobs := db.jobs.set key { job with backend := .temporal, enabled := false }
        migrations := db.migrations.set key { saved with state := .activating }
        bindings := db.bindings.set key { b with
          enabled := saved.restoreEnabled && job.runCount < job.maxRuns
          revision := b.revision + 1 } } := by
  simp only [cuttingOver, bind_eq_ok, require_eq_ok, ensure_eq_ok, Prod.exists, pure_eq_ok,
    Prod.mk.injEq, Bool.and_eq_true, decide_eq_true_eq] at h
  obtain ⟨job, b, hrow, -, -, saved, hm, -, ⟨hst, -⟩, -, -, rfl, -⟩ := h
  obtain ⟨hj, hb⟩ := row_ok hrow
  exact ⟨job, b, saved, hj, hb, hm, hst, rfl⟩

theorem retire_ok {a : Unit} (h : retire key db = .ok (db', a)) :
    ∃ saved, db.migrations key = some saved ∧ saved.state = .rollingBack ∧ db' = { db with
      bindings := db.bindings.update key (fun _ => true) fun b =>
        { b with retired := true, revision := b.revision + 1 } } := by
  simp only [retire, bind_eq_ok, require_eq_ok, ensure_eq_ok, pure_eq_ok, Prod.mk.injEq,
    decide_eq_true_eq] at h
  obtain ⟨saved, hm, -, hst, rfl, -⟩ := h
  exact ⟨saved, hm, hst, rfl⟩

/-- The job returns to the SQLite engine, next due after `t` and after every reserved instant. -/
theorem sqlite_ok {a : Unit} (h : sqlite zs env key t db = .ok (db', a)) :
    ∃ job saved due, db.jobs key = some job ∧ db.migrations key = some saved ∧
      saved.state = .rollingBack ∧ t < due ∧ (∀ s, lastSlot key db = some s → s < due) ∧
      db' = { db with
        jobs := db.jobs.set key (restoredJob job saved.snapshot saved.restoreEnabled due)
        migrations := db.migrations.set key { saved with state := .sqlite, nextRun := some due } } := by
  simp only [sqlite, bind_eq_ok, require_eq_ok, ensure_eq_ok, Prod.exists, pure_eq_ok,
    Prod.mk.injEq, decide_eq_true_eq] at h
  obtain ⟨saved, hm, -, hst, -, -, -, -, -, job, b, hrow, found, htimes, due, hdue, rfl, -⟩ := h
  have hgt : max t ((lastSlot key db).getD t) < due :=
    times_gt htimes due (List.mem_of_mem_head? hdue)
  refine ⟨job, saved, due, (row_ok hrow).1, hm, hst, lt_of_le_of_lt (le_max_left _ _) hgt,
    fun s hs => ?_, rfl⟩
  rw [hs] at hgt
  exact lt_of_le_of_lt (le_max_right _ _) hgt

end Migration

end Scheduling

end PythonAI
