import PythonAI.Scheduling.Held

/-!
# A cancelled schedule

`change` refuses to revive a cancelled schedule, and `prepare` admits no occurrence of it.  Every
transaction keeps the mark but one: `stage`, of a job that has returned to SQLite, clears it
(`Act.Revives`), and then the schedule runs again (`cancel_revived`).  There is no other way
(`cancel_final`).
-/

namespace PythonAI

open Library

namespace Scheduling

/-- The schedule `k` is cancelled. -/
def Db.cancelled (db : Db) (k : JobId) : Bool := (db.bindings k).any (·.cancelled)

/-- `stage` passes its checks and does not repeat an earlier call. -/
structure Migration.Stages (cal : Calendar) (fm : Formats) (env : Env) (c : Caller) (key : JobId)
    (source : Job) (t : Time) (db : Db) : Prop where
  /-- the operator may manage the job, and it is as in the preview -/
  row : operatorRow env c key db = .ok source
  /-- the job can be migrated -/
  supported : supported cal fm source t = .ok ()
  /-- the owner takes part in the trial -/
  admission : admission env source = .ok ()
  /-- the SQLite engine executes the job -/
  backend : source.backend = .sqlite
  /-- no run of the job is unfinished or uncertain -/
  idle : idleLegacy key t db = .ok ()
  /-- no migration is in progress -/
  migration : ∀ saved, db.migrations key = some saved →
    saved.state = .sqlite ∨ saved.state = .staged ∧ saved.sourceDigest ≠ source
  /-- a job that was migrated before has a binding with the present configuration -/
  configured : ∀ saved, db.migrations key = some saved →
    ∃ b, db.bindings key = some b ∧ Native.configuration env b.place = .ok ()

/-- The transaction stages the job `k`, whose schedule is cancelled. -/
def Act.Revives (zs : Zones) (fm : Formats) (k : JobId) (db : Db) : Act → Prop
  | stage env c key source t =>
    key = k ∧ db.cancelled k = true ∧ Migration.Stages zs.toCalendar fm env c key source t db
  | _ => False

variable {zs : Zones} {fm : Formats} {h h' : Host} {a : Act} {k : JobId} {t t' : Time} {x y : Rows}

namespace Migration

variable {cal : Calendar} {env : Env} {c : Caller} {key : JobId} {source : Job} {db db' : Db}

/-- The configuration of a job that was migrated before is checked. -/
theorem Stages.reconfigured (hs : Stages cal fm env c key source t db) :
    ∃ u : Unit, (if (db.migrations key).isSome = true then do
        let (_, b) ← Native.row key db
        Native.configuration env b.place
      else .ok () : Except Error Unit) = .ok u := by
  cases hm : db.migrations key with
  | none => exact ⟨(), rfl⟩
  | some saved =>
    obtain ⟨b, hb, hplace⟩ := hs.configured saved hm
    refine ⟨(), ?_⟩
    simp only [Option.isSome_some, if_true, bind_eq_ok, Prod.exists, Native.row_eq_ok]
    exact ⟨source, b, ⟨operatorRow_ok hs.row, hb⟩, hplace⟩

/-- A stage that passes its checks clears the mark. -/
theorem Stages.stage (hs : Stages cal fm env c key source t db) :
    stage cal fm env c key source t db = .ok ({ db with
      bindings := db.bindings.set key (stagedBinding env (t + 120) (db.bindings key))
      migrations := db.migrations.set key
        (stagedRow source source (t + 120) (db.migrations key)) }, ()) := by
  have hset := hs.reconfigured
  obtain ⟨hrow, hsup, hadm, hback, hidle, hmig, -⟩ := hs
  have hold : (db.migrations key).any
      (fun saved => saved.state = .staged && saved.sourceDigest = source) = false := by
    cases hm : db.migrations key with
    | none => rfl
    | some saved => rcases hmig saved hm with h | ⟨-, h⟩ <;> simp [h]
  have hall : (db.migrations key).all
      (fun saved => saved.state = .sqlite || saved.state = .staged) = true := by
    cases hm : db.migrations key with
    | none => rfl
    | some saved => rcases hmig saved hm with h | ⟨h, -⟩ <;> simp [h]
  simp only [Migration.stage, bind_eq_ok, ensure_eq_ok]
  refine ⟨source, hrow, (), hsup, (), hadm, (), by simp [hback], (), hidle, ?_⟩
  rw [if_neg (by simp [hold])]
  simp only [bind_eq_ok, ensure_eq_ok]
  exact ⟨(), hall, hset.choose, hset.choose_spec, rfl⟩

/-- Only a stage that passes its checks changes the database. -/
theorem stages_of_ok {out : Unit} (h : stage cal fm env c key source t db = .ok (db', out)) :
    db' = db ∨ Stages cal fm env c key source t db := by
  simp only [stage, bind_eq_ok, ensure_eq_ok, Bool.and_eq_true, decide_eq_true_eq] at h
  obtain ⟨job, hj, _, hsup, _, hadm, _, ⟨hsql, rfl⟩, _, hidle, h⟩ := h
  by_cases hold : (db.migrations key).any
      (fun saved => saved.state = .staged && saved.sourceDigest = job) = true
  · rw [if_pos hold, pure_eq_ok, Prod.mk.injEq] at h
    exact .inl h.1.symm
  · rw [if_neg hold] at h
    simp only [bind_eq_ok, ensure_eq_ok] at h
    obtain ⟨_, hall, _, hconf, -⟩ := h
    refine .inr ⟨hj, hsup, hadm, hsql, hidle, fun saved hm => ?_, fun saved hm => ?_⟩
    · simp only [hm, Option.any_some, Option.all_some, Bool.and_eq_true, Bool.or_eq_true,
        decide_eq_true_eq] at hold hall
      exact hall.imp_right fun hst => ⟨hst, fun hsrc => hold ⟨hst, hsrc⟩⟩
    · simp only [hm, Option.isSome_some, if_true, bind_eq_ok, Prod.exists, Native.row_eq_ok] at hconf
      obtain ⟨-, b, ⟨-, hb⟩, hplace⟩ := hconf
      exact ⟨b, hb, hplace⟩

end Migration

/-- Only a new staging clears the mark. -/
theorem Move.cancelled_kept (hm : Move fm a k t t' x y) {b : Binding} (hb : x.binding = some b)
    (hc : b.cancelled = true) :
    (∃ b', y.binding = some b' ∧ b'.cancelled = true) ∨
      ∃ env c source t₁, a = .stage env c k source t₁ := by
  cases hm with
  | staged job source env c t₁ hact => exact .inr ⟨env, c, source, t₁, hact⟩
  | bound _ _ _ _ _ _ hnone =>
    rw [hb] at hnone
    cases hnone
  | changed job b' r action v due hj hb' hcan =>
    obtain rfl : b' = b := Option.some.inj (hb'.symm.trans hb)
    rw [hc] at hcan
    cases hcan
  | reserved job b' w deadline fences hj hb' hcan =>
    obtain rfl : b' = b := Option.some.inj (hb'.symm.trans hb)
    rw [hc] at hcan
    cases hcan
  | synced b' applied removed hb' | finished job b' r state digest extra hact hkey hj hb' =>
    obtain rfl : b' = b := Option.some.inj (hb'.symm.trans hb)
    exact .inl ⟨_, rfl, hc⟩
  | activating b' saved enabled t₁ hb' | cuttingOver job b' saved enabled hj hb' =>
    obtain rfl : b' = b := Option.some.inj (hb'.symm.trans hb)
    exact .inl ⟨_, rfl, hc⟩
  | disabled | cutover | rolledBack | retired => exact .inl ⟨_, congrArg (Option.map _) hb, hc⟩
  | _ => exact .inl ⟨b, hb, hc⟩

theorem Db.cancelled_iff {db : Db} :
    db.cancelled k = true ↔ ∃ b, db.bindings k = some b ∧ b.cancelled = true := by
  simp [Db.cancelled, Option.any_eq_true]

namespace Host

/-- A step keeps the mark unless it revives the schedule. -/
theorem cancelled_step (hwf : h.Wf) (hc : h.db.cancelled k = true) (hst : (lts zs fm).step h a h') :
    h'.db.cancelled k = true ↔ ¬a.Revives zs fm k h.db := by
  obtain ⟨b, hb, hcan⟩ := Db.cancelled_iff.1 hc
  have hmove := Host.move hwf hst k
  obtain ⟨t, -, -, -, rfl⟩ := hst
  have hdb : (h.after zs fm a t).db = a.perform zs fm h.sched.uuids h.tasks h.db := rfl
  constructor
  · intro hkept hrev
    cases a <;> simp only [Act.Revives] at hrev
    obtain ⟨rfl, -, hs⟩ := hrev
    rw [hdb, Act.perform, Act.attempt, hs.stage, Act.writes, settle_ok] at hkept
    simp [Db.cancelled, Migration.stagedBinding, hb] at hkept
  · intro hno
    rcases hmove.cancelled_kept hb hcan with hkept | ⟨env, c, source, t₁, rfl⟩
    · exact Db.cancelled_iff.2 hkept
    · rw [hdb, Act.perform, Act.attempt]
      refine Act.settle_writes (P := fun db' => db'.cancelled k = true) hc fun db' _ hx => ?_
      rcases Migration.stages_of_ok hx with rfl | hs
      · exact hc
      · exact absurd ⟨rfl, hc, hs⟩ hno

/-- A committed cancel sets the mark. -/
theorem cancelled_change {env : Env} {r : Reading} {c : Caller} {v : Values} {db db' : Db}
    {u : Unit} (hread : r.binding.cancelled = false)
    (hx : Native.change zs.toCalendar env r c .cancel v t db = .ok (db', u)) :
    db'.cancelled r.key = true := by
  rcases Native.change_ok hx with ⟨hc, -⟩ | ⟨-, job, b, due, -, -, -, rfl⟩
  · rw [hread] at hc
    cases hc
  · simp [Db.cancelled, Native.changedBinding]

/-- No occurrence of a cancelled schedule is admitted. -/
theorem prepare_cancelled {env : Env} {w : WorkflowId} {db db' : Db} {out : Option Time}
    (hc : db.cancelled k = true) (hx : Native.prepare fm env k w t db = .ok (db', out)) :
    db'.occurrences = db.occurrences := by
  obtain ⟨b, hb, hcan⟩ := Db.cancelled_iff.1 hc
  obtain ⟨-, job, b', -, hb', rfl | ⟨hcan', -⟩⟩ := Native.prepare_ok hx
  · rfl
  · obtain rfl : b' = b := Option.some.inj (hb'.symm.trans hb)
    rw [hcan] at hcan'
    cases hcan'

/-- The schedule stays cancelled, and no occurrence of it can be admitted. -/
def Stopped (fm : Formats) (k : JobId) (h : Host) : Prop :=
  h.db.cancelled k = true ∧ ∀ env w t db' out,
    Native.prepare fm env k w t h.db = .ok (db', out) → db'.occurrences = h.db.occurrences

/-- **Cancelling is final until the job is staged again.**  A committed `cancel` marks the
schedule.  A step from a state in which it is marked keeps the mark if and only if it is no accepted
`stage` of the job; in every run without such a step the mark stays and `prepare` admits no new
occurrence. -/
theorem cancel_final (hr : (lts zs fm).Reachable Initial h) (k : JobId) :
    (∀ env r c v t db', r.key = k → r.binding.cancelled = false →
      Native.change zs.toCalendar env r c .cancel v t h.db = .ok (db', ()) →
      db'.cancelled k = true) ∧
    (h.db.cancelled k = true →
      (∀ a h', (lts zs fm).step h a h' →
        (h'.db.cancelled k = true ↔ ¬a.Revives zs fm k h.db)) ∧
      ∀ as h', ((lts zs fm).restrict fun h a => ¬a.Revives zs fm k h.db).Run h as h' →
        h'.Stopped fm k) := by
  refine ⟨?_, fun hc => ⟨fun a h' hst => cancelled_step (wf_reachable hr) hc hst,
    fun as h' hrun => ?_⟩⟩
  · rintro env r c v t db' rfl hread hx
    exact cancelled_change hread hx
  · have hkept : h'.db.cancelled k = true :=
      hrun.preserves_under (I := Wf) (P := fun h => h.db.cancelled k = true)
        (fun _ _ _ hwf hst => hwf.step hst.1)
        (fun _ _ _ hwf hc hst => (cancelled_step hwf hc hst.1).2 hst.2) (wf_reachable hr) hc
    exact ⟨hkept, fun env w t db' out hx => prepare_cancelled hkept hx⟩

/-- The job `1` is handed to Temporal and cancelled there. -/
def cancelledHost : Host :=
  Sample.host.script Sample.zs Sample.fm
    (Sample.added .agent 0 ++ Sample.forward 10 ++ Sample.changed .cancel 20)

set_option maxRecDepth 8000 in
theorem cancelledHost_reachable : (lts Sample.zs Sample.fm).Reachable Initial cancelledHost :=
  .run (.of_init Sample.host_initial) (run_script (by decide))

/-- The cancelled schedule returns to SQLite and is still cancelled. -/
theorem cancel_final_back :
    (cancelledHost.script Sample.zs Sample.fm (Sample.back 30)).Stopped Sample.fm 1 := by
  have hrun : (lts Sample.zs Sample.fm).Run cancelledHost
      (cancelledHost.acts Sample.zs Sample.fm (Sample.back 30)) _ := run_script (by decide +kernel)
  have hall : (cancelledHost.acts Sample.zs Sample.fm (Sample.back 30)).all (fun a => match a with
      | .stage .. => false
      | _ => true) = true := by decide +kernel
  refine ((cancel_final cancelledHost_reachable 1).2 (by decide +kernel)).2 _ _
    (hrun.restrict fun a ha h hrev => ?_)
  have hno := List.all_eq_true.1 hall a ha
  cases a <;> first | exact hrev | cases hno

/-- The cancelled schedule returns to SQLite, is staged and handed to Temporal again and resumed;
then an occurrence of it is admitted. -/
theorem cancel_revived :
    let h := cancelledHost.script Sample.zs Sample.fm
      (Sample.back 30 ++ Sample.forward 40 ++ Sample.changed .resume 50)
    (lts Sample.zs Sample.fm).Reachable Initial cancelledHost ∧
    cancelledHost.db.cancelled 1 = true ∧
    (lts Sample.zs Sample.fm).Run cancelledHost (cancelledHost.acts Sample.zs Sample.fm
      (Sample.back 30 ++ Sample.forward 40 ++ Sample.changed .resume 50)) h ∧
    h.db.cancelled 1 = false ∧
    ∃ db' out, Native.prepare Sample.fm Sample.env 1 ⟨1, "dd"⟩ 60 h.db = .ok (db', out) ∧
      db'.occurrences ≠ h.db.occurrences := by
  intro h
  refine ⟨cancelledHost_reachable, by decide +kernel, run_script (by decide +kernel),
    by decide +kernel, ?_⟩
  have hok : (match Native.prepare Sample.fm Sample.env 1 ⟨1, "dd"⟩ 60 h.db with
      | .ok (db', _) => decide (db'.occurrences ≠ h.db.occurrences)
      | .error _ => false) = true := by decide +kernel
  cases hx : Native.prepare Sample.fm Sample.env 1 ⟨1, "dd"⟩ 60 h.db with
  | error e =>
    rw [hx] at hok
    cases hok
  | ok x =>
    rw [hx] at hok
    exact ⟨x.1, x.2, rfl, of_decide_eq_true hok⟩

end Host

end Scheduling

end PythonAI
