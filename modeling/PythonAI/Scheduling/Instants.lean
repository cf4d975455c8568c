import PythonAI.Scheduling.Engines
import PythonAI.Scheduling.Occurrences

/-!
# No occurrence runs in both engines

Each engine admits occurrences of a job at instants of its own.  A fence reserves an instant for one
engine, but the SQLite engine reserves nothing before a job is staged: those instants lie before the
barrier from which Temporal may admit.  `Rows.Timed` is the invariant that combines both.

A job that was never migrated has no fences, and its occurrences are told apart by their workflows
only (`Host.instants_spelled`).
-/

namespace PythonAI

open Library

namespace Scheduling

/-- The job is with Temporal, or on its way there. -/
def MigrationState.handed : MigrationState → Bool
  | cuttingOver | activating | temporal => true
  | staged | rollingBack | sqlite => false

namespace Execution

/-- The instant of the occurrence is at most `t`. -/
def By (e : Execution) (t : Time) : Prop := ∃ s, e.slot = some s ∧ s ≤ t

/-- The instant of the occurrence is before `t`. -/
def Before (e : Execution) (t : Time) : Prop := ∃ s, e.slot = some s ∧ s < t

variable {e : Execution} {t t' : Time}

theorem By.mono (h : e.By t) (ht : t ≤ t') : e.By t' := by
  obtain ⟨s, hs, hle⟩ := h
  exact ⟨s, hs, le_trans hle ht⟩

theorem By.before (h : e.By t) (ht : t < t') : e.Before t' := by
  obtain ⟨s, hs, hle⟩ := h
  exact ⟨s, hs, lt_of_le_of_lt hle ht⟩

theorem Before.by (h : e.Before t) (ht : t ≤ t') : e.By t' := by
  obtain ⟨s, hs, hlt⟩ := h
  exact ⟨s, hs, (lt_of_lt_of_le hlt ht).le⟩

theorem Before.mono (h : e.Before t) (ht : t ≤ t') : e.Before t' := by
  obtain ⟨s, hs, hlt⟩ := h
  exact ⟨s, hs, lt_of_lt_of_le hlt ht⟩

end Execution

/-- When the engines have admitted the occurrences of the job, at time `t`. -/
structure Rows.Timed (t : Time) (x : Rows) : Prop where
  /-- nothing refers to a job that does not exist -/
  missing : x.job = none → x.Bare
  /-- who holds the lock has claimed the last occurrence -/
  lock : x.lock ≠ none → x.unsettled = true ∧ ∀ e ∈ x.admitted, e.By t
  /-- the SQLite engine admits what is due -/
  sqlite : ∀ e ∈ x.admitted, e.engine = .sqlite → e.By t
  /-- a SQLite job that was never migrated is next due after the occurrences that are settled -/
  legacy : ∀ job, x.job = some job → x.migration = none → job.backend = .sqlite →
    ∀ e ∈ x.admitted, e.engine = .sqlite ∧ (x.unsettled = false → e.Before job.nextRunAt)
  /-- the other jobs that were never migrated do not run in the SQLite engine -/
  native : ∀ job, x.job = some job → x.migration = none → job.backend ≠ .sqlite →
    x.lock = none ∧ ∀ e ∈ x.admitted, e.engine = .temporal
  /-- the instants that Temporal admitted of a migrated job are reserved -/
  fenced : x.migration ≠ none → ∀ e ∈ x.admitted, e.engine = .temporal →
    ∃ s, e.slot = some s ∧ x.fenced s = true
  /-- Temporal admits after the barrier, and before it lies what SQLite has admitted -/
  barrier : ∀ saved, x.migration = some saved → saved.state.handed = true →
    x.lock = none ∧ ∀ e ∈ x.admitted, e.engine = .sqlite → e.Before saved.barrier
  /-- a migrated job on SQLite is next due after everything admitted, or at its last claim -/
  next : ∀ job saved, x.job = some job → x.migration = some saved → saved.state.home = .sqlite →
    x.fenced job.nextRunAt = false → ∀ e ∈ x.admitted, e.Before job.nextRunAt
  /-- the engines have no instant in common -/
  disjoint : ∀ e ∈ x.admitted, ∀ e' ∈ x.admitted, e.engine = .sqlite → e'.engine = .temporal →
    e.slot ≠ e'.slot
  /-- Temporal admits no instant of a migrated job twice -/
  once : x.migration ≠ none → ((x.admitted.filter (·.engine = .temporal)).map (·.slot)).Nodup

variable {zs : Zones} {fm : Formats} {h h' : Host} {a : Act} {k : JobId} {t t' : Time} {x y : Rows}

namespace Rows

theorem unsettled_lost (hx : x.unsettled = true) {runs : List Run}
    (hr : runs = x.runs.map (Store.lost k)) : { x with runs := runs }.unsettled = true := by
  obtain ⟨r, hmem, hr'⟩ := List.any_eq_true.1 hx
  refine List.any_eq_true.2 ⟨Store.lost k r, by rw [hr]; exact List.mem_map_of_mem hmem, ?_⟩
  unfold Store.lost
  split_ifs
  · simp
  · exact hr'

/-- A move that admits nothing and leaves the due time, the fences and the barrier alone. -/
theorem Timed.of_same (hx : x.Timed t) (ht : t ≤ t') (hadm : y.admitted = x.admitted)
    (hfences : y.fences = x.fences) (hlock : x.lock = none → y.lock = none)
    (huns : x.unsettled = true → y.unsettled = true)
    (hj : y.job.map (fun job => (job.backend, job.nextRunAt)) =
      x.job.map fun job => (job.backend, job.nextRunAt))
    (hm : y.migration.map (fun saved => (saved.state, saved.barrier)) =
      x.migration.map fun saved => (saved.state, saved.barrier))
    (hb : x.job = none → x.binding = none → y.binding = none) : y.Timed t' := by
  obtain ⟨hmissing, hlk, hsql, hleg, hnat, hfen, hbar, hnext, hdis, honce⟩ := hx
  have hfenced : ∀ s, y.fenced s = x.fenced s := fun s => by rw [Rows.fenced, hfences]; rfl
  have hsettled : y.unsettled = false → x.unsettled = false := fun h =>
    Bool.eq_false_iff.2 fun h' => by rw [huns h'] at h; cases h
  refine ⟨fun h => ?_, fun h => ?_, fun e he hen => ?_, fun job h h' hback e he => ?_,
    fun job h h' hback => ?_, fun h e he hen => ?_, fun saved h hst => ?_,
    fun job saved h h' hst hf e he => ?_, ?_, fun h => ?_⟩
  · obtain ⟨hb', hm', hl', ha'⟩ := hmissing (none_of_map_eq hj h)
    exact ⟨hb (none_of_map_eq hj h) hb', none_of_map_eq hm.symm hm', hlock hl', hadm.trans ha'⟩
  · obtain ⟨hu, hby⟩ := hlk (mt hlock h)
    exact ⟨huns hu, fun e he => (hby e (hadm ▸ he)).mono ht⟩
  · exact (hsql e (hadm ▸ he) hen).mono ht
  · obtain ⟨job₀, hj₀, heq⟩ := some_of_map_eq hj h
    simp only [Prod.mk.injEq] at heq
    obtain ⟨hen, hbef⟩ := hleg job₀ hj₀ (none_of_map_eq hm h') (heq.1.trans hback) e (hadm ▸ he)
    exact ⟨hen, fun hu => heq.2 ▸ hbef (hsettled hu)⟩
  · obtain ⟨job₀, hj₀, heq⟩ := some_of_map_eq hj h
    simp only [Prod.mk.injEq] at heq
    obtain ⟨hl', hen⟩ := hnat job₀ hj₀ (none_of_map_eq hm h') (heq.1 ▸ hback)
    exact ⟨hlock hl', fun e he => hen e (hadm ▸ he)⟩
  · simpa only [hfenced] using hfen (fun h' => h (none_of_map_eq hm.symm h')) e (hadm ▸ he) hen
  · obtain ⟨saved₀, hs₀, heq⟩ := some_of_map_eq hm h
    simp only [Prod.mk.injEq] at heq
    obtain ⟨hl', hbef⟩ := hbar saved₀ hs₀ (heq.1 ▸ hst)
    exact ⟨hlock hl', fun e he hen => heq.2 ▸ hbef e (hadm ▸ he) hen⟩
  · obtain ⟨job₀, hj₀, heq⟩ := some_of_map_eq hj h
    obtain ⟨saved₀, hs₀, heq'⟩ := some_of_map_eq hm h'
    simp only [Prod.mk.injEq] at heq heq'
    rw [← heq.2, hfenced] at hf
    rw [← heq.2]
    exact hnext job₀ saved₀ hj₀ hs₀ (heq'.1 ▸ hst) hf e (hadm ▸ he)
  · rw [hadm]
    exact hdis
  · rw [hadm]
    exact honce fun h' => h (none_of_map_eq hm.symm h')

end Rows

theorem MigrationState.home_ne_sqlite {st : MigrationState} (h : st.handed = true) :
    st.home ≠ .sqlite := by
  cases st <;> simp_all [handed, home]

theorem MigrationState.home_eq_sqlite {st : MigrationState} (h : st = .sqlite ∨ st = .staged) :
    st.home = .sqlite := by
  rcases h with rfl | rfl <;> rfl

theorem Rows.fenced_append {fences : List SlotFence} {f : SlotFence} {s : Time}
    (hf : fences = x.fences ++ [f]) :
    fences.any (·.slot = s) = true ↔ x.fenced s = true ∨ f.slot = s := by
  rw [hf]
  simp [Rows.fenced]

/-- The SQLite engine admits the due instant, which is after everything admitted before. -/
theorem Rows.Timed.started {job : Job} {l : Lock} {run : Token} {retries : ℕ}
    {fences : List SlotFence} (hx : x.Timed t) (ht : t ≤ t') (hj : x.job = some job)
    (hsql : job.backend = .sqlite) (hdue : job.nextRunAt ≤ t')
    (hfences : x.migration = none ∧ fences = x.fences ∨
      ∃ saved, x.migration = some saved ∧ (saved.state = .sqlite ∨ saved.state = .staged) ∧
        x.fenced job.nextRunAt = false ∧ fences = x.fences ++ [⟨k, job.nextRunAt, .sqlite⟩]) :
    { x with
      job := some { job with retryCount := retries }
      runs := x.runs.map (Store.lost k) ++ [(⟨run, k, .running, "", ""⟩ : Run)]
      lock := some l
      fences := fences
      admitted := x.admitted ++ [(⟨k, .sqlite, some job.nextRunAt⟩ : Execution)] }.Timed t' := by
  have hold : (x.migration = none ∧ fences = x.fences) ∨
      x.migration ≠ none ∧ x.fenced job.nextRunAt = false ∧
        (∀ e ∈ x.admitted, e.Before job.nextRunAt) ∧
        fences = x.fences ++ [⟨k, job.nextRunAt, .sqlite⟩] := by
    rcases hfences with h | ⟨saved, hs, hst, hfree, hf⟩
    · exact .inl h
    · exact .inr ⟨by simp [hs], hfree,
        hx.next job saved hj hs (MigrationState.home_eq_sqlite hst) hfree, hf⟩
  have hnew : (⟨k, .sqlite, some job.nextRunAt⟩ : Execution).By t' := ⟨_, rfl, hdue⟩
  have hby : ∀ e ∈ x.admitted, e.By t' := fun e he => by
    rcases hold with ⟨hnone, -⟩ | ⟨-, -, hbef, -⟩
    · exact (hx.sqlite e he (hx.legacy job hj hnone hsql e he).1).mono ht
    · exact (hbef e he).by hdue
  have hmem : ∀ {e}, e ∈ x.admitted ++ [(⟨k, .sqlite, some job.nextRunAt⟩ : Execution)] →
      e ∈ x.admitted ∨ e = ⟨k, .sqlite, some job.nextRunAt⟩ := fun he => by simpa using he
  refine ⟨nofun, fun _ => ⟨?_, fun e he => ?_⟩, fun e he _ => ?_, ?_, ?_, ?_, ?_, ?_, ?_, ?_⟩
  · simp [Rows.unsettled]
  · rcases hmem he with he | rfl
    · exact hby e he
    · exact hnew
  · rcases hmem he with he | rfl
    · exact hby e he
    · exact hnew
  · rintro _ ⟨⟩ hnone - e he
    refine ⟨?_, fun hu => by simp [Rows.unsettled] at hu⟩
    rcases hmem he with he | rfl
    · exact (hx.legacy job hj hnone hsql e he).1
    · rfl
  · rintro _ ⟨⟩ hnone hback
    exact absurd hsql hback
  · intro hne e he hen
    rcases hmem he with he | rfl
    · obtain ⟨s, hs, hfs⟩ := hx.fenced hne e he hen
      refine ⟨s, hs, ?_⟩
      rcases hold with ⟨hnone, -⟩ | ⟨-, -, -, hf⟩
      · exact absurd hnone hne
      · exact (fenced_append hf).2 (.inl hfs)
    · cases hen
  · intro saved hs hst
    rcases hfences with ⟨hnone, -⟩ | ⟨saved', hs', hst', -⟩
    · simp [hnone] at hs
    · obtain rfl : saved' = saved := Option.some.inj (hs'.symm.trans hs)
      rcases hst' with h | h <;> rw [h] at hst <;> cases hst
  · rintro _ saved ⟨⟩ hs - hfree
    rcases hold with ⟨hnone, -⟩ | ⟨-, -, -, hf⟩
    · simp [hnone] at hs
    · have := (fenced_append (s := job.nextRunAt) hf).2 (.inr rfl)
      exact absurd this (by simpa [Rows.fenced] using hfree)
  · intro e he e' he' hen hen'
    rcases hmem he with he | rfl <;> rcases hmem he' with he' | rfl
    · exact hx.disjoint e he e' he' hen hen'
    · cases hen'
    · rcases hold with ⟨hnone, -⟩ | ⟨hne, hfree, -, -⟩
      · rw [(hx.legacy job hj hnone hsql e' he').1] at hen'
        cases hen'
      · obtain ⟨s, hs, hfs⟩ := hx.fenced hne e' he' hen'
        rw [hs]
        rintro ⟨⟩
        rw [hfree] at hfs
        cases hfs
    · cases hen'
  · intro hne
    simpa [List.filter_append] using hx.once hne

/-- Temporal admits an instant that is free and after the barrier. -/
theorem Rows.Timed.reserved {job : Job} {b b' : Binding} {w : WorkflowId} {fences : List SlotFence}
    {occurrences : List Occurrence} {count : ℕ} (hx : x.Timed t) (ht : t ≤ t') (hp : x.Placed)
    (hj : x.job = some job) (hb : x.binding = some b)
    (hfences : x.migration = none ∧ fences = x.fences ∨
      ∃ saved slot, x.migration = some saved ∧ saved.state = .temporal ∧
        fm.slot w = .ok slot ∧ saved.barrier ≤ slot ∧ x.fenced slot = false ∧
        fences = x.fences ++ [⟨k, slot, .temporal⟩]) :
    { x with
      job := some { job with runCount := count }
      binding := some b'
      fences := fences
      occurrences := occurrences
      admitted := x.admitted ++ [(⟨k, .temporal, (fm.slot w).toOption⟩ : Execution)] }.Timed t' := by
  have hmem : ∀ {e}, e ∈ x.admitted ++ [(⟨k, .temporal, (fm.slot w).toOption⟩ : Execution)] →
      e ∈ x.admitted ∨ e = ⟨k, .temporal, (fm.slot w).toOption⟩ := fun he => by simpa using he
  have hlock : x.lock = none := by
    rcases hfences with ⟨hnone, -⟩ | ⟨saved, slot, hs, hst, -⟩
    · have hback := hp.native job b hj hb hnone
      exact (hx.native job hj hnone (by rw [hback]; nofun)).1
    · exact (hx.barrier saved hs (by rw [hst]; rfl)).1
  have hback : job.backend = .temporal := by
    rcases hfences with ⟨hnone, -⟩ | ⟨saved, slot, hs, hst, -⟩
    · exact hp.native job b hj hb hnone
    · rw [hp.job job saved hj hs, hst]
      rfl
  refine ⟨nofun, fun h => absurd hlock h, fun e he hen => ?_, ?_, ?_, ?_, ?_, ?_, ?_, ?_⟩
  · rcases hmem he with he | rfl
    · exact (hx.sqlite e he hen).mono ht
    · cases hen
  · rintro _ ⟨⟩ - hsql
    rw [show job.backend = .sqlite from hsql] at hback
    cases hback
  · rintro _ ⟨⟩ hnone hne
    refine ⟨hlock, fun e he => ?_⟩
    rcases hmem he with he | rfl
    · exact (hx.native job hj hnone hne).2 e he
    · rfl
  · intro hne e he hen
    rcases hfences with ⟨hnone, -⟩ | ⟨saved, slot, -, -, hslot, -, -, hf⟩
    · exact absurd hnone hne
    rcases hmem he with he | rfl
    · obtain ⟨s, hs, hfs⟩ := hx.fenced hne e he hen
      exact ⟨s, hs, (fenced_append hf).2 (.inl hfs)⟩
    · exact ⟨slot, by rw [hslot]; rfl, (fenced_append hf).2 (.inr rfl)⟩
  · intro saved hs hst
    refine ⟨hlock, fun e he hen => ?_⟩
    rcases hmem he with he | rfl
    · exact (hx.barrier saved hs hst).2 e he hen
    · cases hen
  · rintro _ saved ⟨⟩ hs hst
    have hplaced := hp.job job saved hj hs
    rw [hst, hback] at hplaced
    cases hplaced
  · intro e he e' he' hen hen'
    rcases hmem he' with he' | rfl <;> rcases hmem he with he | rfl
    · exact hx.disjoint e he e' he' hen hen'
    · cases hen
    -- An instant that SQLite admitted lies before the barrier.
    · rcases hfences with ⟨hnone, -⟩ | ⟨saved, slot, hs, hst, hslot, hle, -⟩
      · rw [(hx.native job hj hnone (by rw [hback]; nofun)).2 e he] at hen
        cases hen
      · obtain ⟨s, hs', hlt⟩ := (hx.barrier saved hs (by rw [hst]; rfl)).2 e he hen
        rw [hs', hslot]
        rintro ⟨⟩
        exact absurd hle (Nat.not_le.2 hlt)
    · cases hen
  · intro hne
    rcases hfences with ⟨hnone, -⟩ | ⟨saved, slot, -, -, hslot, -, hfree, -⟩
    · exact absurd hnone hne
    simp only [List.filter_append, List.map_append, List.filter_singleton, decide_true, hslot]
    refine List.nodup_append.2 ⟨hx.once hne, List.nodup_singleton _, ?_⟩
    rintro s hs s' hs' rfl
    obtain ⟨e, he, hes⟩ := List.mem_map.1 hs
    obtain ⟨he, hen⟩ := List.mem_filter.1 he
    obtain ⟨s₀, hs₀, hfs⟩ := hx.fenced hne e he (of_decide_eq_true hen)
    rw [List.mem_singleton.1 hs', hs₀] at hes
    cases hes
    rw [hfree] at hfs
    cases hfs

/-- The job goes on its way to Temporal, and the barrier only rises. -/
theorem Rows.Timed.handed {saved saved' : MigrationRow} {job : Option Job}
    {binding : Option Binding} (hx : x.Timed t) (ht : t ≤ t') (hs : x.migration = some saved)
    (hst : saved.state.handed = true) (hst' : saved'.state.handed = true)
    (hle : saved.barrier ≤ saved'.barrier) (hj : job = none → x.job = none) :
    { x with job := job, binding := binding, migration := some saved' }.Timed t' := by
  obtain ⟨hlock, hbefore⟩ := hx.barrier saved hs hst
  have hne : x.migration ≠ none := by simp [hs]
  refine ⟨fun h => absurd (hx.missing (hj h)).migration hne, fun h => absurd hlock h,
    fun e he hen => (hx.sqlite e he hen).mono ht, fun _ _ h => (nomatch h),
    fun _ _ h => (nomatch h), fun _ => hx.fenced hne, ?_, ?_, hx.disjoint, fun _ => hx.once hne⟩
  · intro saved₁ hs₁ _
    rw [← Option.some.inj hs₁]
    exact ⟨hlock, fun e he hen => (hbefore e he hen).mono hle⟩
  · intro job₁ saved₁ _ hs₁ hst₁
    rw [← Option.some.inj hs₁] at hst₁
    exact absurd hst₁ (MigrationState.home_ne_sqlite hst')

/-- Every move keeps when the engines admit. -/
theorem Move.timed (hm : Move fm a k t t' x y) (ht : t ≤ t') (hp : x.Placed) (hx : x.Timed t) :
    y.Timed t' := by
  cases hm with
  -- First the moves that admit nothing and leave the due time, the fences and the barrier alone.
  | same | begun | closed => exact hx.of_same ht rfl rfl id id rfl rfl fun _ h => h
  | renewed l expires hl =>
    exact hx.of_same ht rfl rfl (fun h => by simp [hl] at h) id rfl rfl fun _ h => h
  | disabled job hj =>
    exact hx.of_same ht rfl rfl id id (by simp [hj]) (by simp [Function.comp_def])
      fun _ hb => by simp [hb]
  | quarantined job u text hj hrun =>
    exact hx.of_same ht rfl rfl (fun _ => rfl) (fun hu => Rows.unsettled_lost hu rfl) (by simp [hj])
      rfl fun _ h => h
  | repeated job hj =>
    exact hx.of_same ht rfl rfl id (fun hu => Rows.unsettled_lost hu rfl) (by simp [hj]) rfl
      fun _ h => h
  | elsewhere =>
    exact hx.of_same ht rfl rfl id (fun hu => Rows.unsettled_lost hu rfl) rfl rfl fun _ h => h
  | synced b applied removed hb =>
    exact hx.of_same ht rfl rfl id id rfl rfl fun _ h => by simp [hb] at h
  | bound job b scope hj =>
    exact hx.of_same ht rfl rfl id id (by simp [hj]) rfl fun h => by simp [hj] at h
  | finished job b r state digest extra hact hkey hj hb =>
    refine hx.of_same ht rfl rfl id id (by simp [hj]) ?_ fun h => by simp [hj] at h
    simp only [Option.map_map]
    exact Option.map_congr fun saved _ => by
      simp only [Function.comp_def]
      split_ifs <;> rfl
  | retired saved hs hst =>
    exact hx.of_same ht rfl rfl id id rfl rfl fun _ hb => by simp [hb]
  | started job l run fences hj hon hsql hdue hfences => exact hx.started ht hj hsql hdue hfences
  | reserved job b w deadline fences hj hb hcan hon hlt hw hnew hfences =>
    exact hx.reserved ht hp hj hb hfences
  | added job hnone hfresh =>
    obtain ⟨hb, hm, hl, ha⟩ := hx.missing hnone
    constructor <;> simp [hm, hl, ha]
  | completed job l run state text error due extra hact hlock hj hstate hdue =>
    -- Everything that was admitted is past, and the job is next due in the future.
    have hlocked : x.lock ≠ none := by simp [hlock]
    have hbefore : ∀ e ∈ x.admitted, e.Before due := fun e he =>
      ((hx.lock hlocked).2 e he).before hdue
    refine ⟨nofun, nofun, fun e he hen => (hx.sqlite e he hen).mono ht, ?_, ?_, hx.fenced, ?_, ?_,
      hx.disjoint, hx.once⟩
    · rintro _ ⟨⟩ hnone hsql e he
      exact ⟨(hx.legacy job hj hnone hsql e he).1, fun _ => hbefore e he⟩
    · rintro _ ⟨⟩ hnone hback
      exact absurd (hx.native job hj hnone hback).1 hlocked
    · exact fun saved hs hst => absurd (hx.barrier saved hs hst).1 hlocked
    · rintro _ saved ⟨⟩ hs hst hfree e he
      exact hbefore e he
  | changed job b r action v due hj hb hcan hen hmig =>
    refine ⟨nofun, fun h => ?_, fun e he hen => (hx.sqlite e he hen).mono ht, ?_, ?_, hx.fenced,
      hx.barrier, ?_, hx.disjoint, hx.once⟩
    · exact ⟨(hx.lock h).1, fun e he => ((hx.lock h).2 e he).mono ht⟩
    · rintro _ ⟨⟩ hnone hsql
      have hback := hp.native job b hj hb hnone
      rw [show job.backend = .sqlite from hsql] at hback
      cases hback
    · rintro _ ⟨⟩ hnone hback
      exact hx.native job hj hnone hback
    · rintro _ saved ⟨⟩ hs hst
      rw [hmig saved hs] at hst
      cases hst
  | staged job source env c t₁ hact hj hsql hidle ht₁ hmig =>
    have hlock : x.lock = none := by
      by_contra hl
      rw [(hx.lock hl).1] at hidle
      cases hidle
    -- A job that is staged for the first time was executed by SQLite only.
    have hfirst : x.migration = none → ∀ e ∈ x.admitted, e.engine = .sqlite ∧
        e.Before job.nextRunAt := fun hnone e he =>
      (hx.legacy job hj hnone hsql e he).imp_right fun h => h hidle
    refine ⟨fun h => by simp [hj] at h, fun h => absurd hlock h,
      fun e he hen => (hx.sqlite e he hen).mono ht, fun _ _ h => (nomatch h),
      fun _ _ h => (nomatch h), fun _ e he hen => ?_, ?_, ?_, hx.disjoint, fun _ => ?_⟩
    · cases hs : x.migration with
      | none =>
        rw [(hfirst hs e he).1] at hen
        cases hen
      | some saved => exact hx.fenced (by simp [hs]) e he hen
    · intro saved hs hst
      rw [← Option.some.inj hs] at hst
      cases hst
    · intro job' saved hj' hs hst hfree e he
      obtain rfl : job = job' := Option.some.inj (hj.symm.trans hj')
      cases hs : x.migration with
      | none => exact (hfirst hs e he).2
      | some saved =>
        exact hx.next job saved hj hs (MigrationState.home_eq_sqlite (hmig saved hs)) hfree e he
    · cases hs : x.migration with
      | none =>
        have hnil : x.admitted.filter (·.engine = .temporal) = [] :=
          List.filter_eq_nil_iff.2 fun e he => by simp [(hfirst hs e he).1]
        rw [hnil]
        exact List.nodup_nil
      | some saved => exact hx.once (by simp [hs])
  | cutover job saved t₁ hj hmig hst hidle ht₁ =>
    have hlock : x.lock = none := by
      by_contra hl
      rw [(hx.lock hl).1] at hidle
      cases hidle
    have hne : x.migration ≠ none := by simp [hmig]
    refine ⟨nofun, fun h => absurd hlock h, fun e he hen => (hx.sqlite e he hen).mono ht,
      fun _ _ h => (nomatch h), fun _ _ h => (nomatch h), fun _ => hx.fenced hne, ?_, ?_, hx.disjoint,
      fun _ => hx.once hne⟩
    · intro saved' hs _
      rw [← Option.some.inj hs]
      refine ⟨hlock, fun e he hen => (hx.sqlite e he hen).before ?_⟩
      exact lt_of_lt_of_le (Nat.lt_add_of_pos_right (by decide))
        (le_trans (Nat.add_le_add_right ht₁ 60) (le_max_left _ _))
    · intro job' saved' _ hs hst'
      rw [← Option.some.inj hs] at hst'
      cases hst'
  | rolledBack job saved paused hj hmig hst =>
    have hne : x.migration ≠ none := by simp [hmig]
    refine ⟨nofun, fun h => ⟨(hx.lock h).1, fun e he => ((hx.lock h).2 e he).mono ht⟩,
      fun e he hen => (hx.sqlite e he hen).mono ht, fun _ _ h => (nomatch h),
      fun _ _ h => (nomatch h), fun _ => hx.fenced hne, ?_, ?_, hx.disjoint, fun _ => hx.once hne⟩
    · intro saved' hs hst'
      rw [← Option.some.inj hs] at hst'
      cases hst'
    · intro job' saved' _ hs hst'
      rw [← Option.some.inj hs] at hst'
      cases hst'
  | activating b saved enabled t₁ hb hmig hst =>
    exact hx.handed ht hmig (by rw [hst]; rfl) (by rw [hst]; rfl) (le_max_left _ _) id
  | temporal saved hmig hst => exact hx.handed ht hmig (by rw [hst]; rfl) rfl le_rfl id
  | cuttingOver job b saved enabled hj hb hmig hst =>
    exact hx.handed ht hmig (by rw [hst]; rfl) rfl le_rfl nofun
  | sqlite job saved env t₁ due hact hj hmig hst hdue hlast =>
    have hne : x.migration ≠ none := by simp [hmig]
    refine ⟨nofun, fun h => ⟨(hx.lock h).1, fun e he => ((hx.lock h).2 e he).mono ht⟩,
      fun e he hen => (hx.sqlite e he hen).mono ht, fun _ _ h => (nomatch h),
      fun _ _ h => (nomatch h), fun _ => hx.fenced hne, ?_, ?_, hx.disjoint, fun _ => hx.once hne⟩
    · intro saved' hs hst'
      rw [← Option.some.inj hs] at hst'
      cases hst'
    -- The new due time lies after the clock and after every fence.
    · rintro _ saved' ⟨⟩ - - - e he
      cases hen : e.engine with
      | sqlite => exact (hx.sqlite e he hen).before hdue
      | temporal =>
        obtain ⟨s, hs, hfs⟩ := hx.fenced hne e he hen
        obtain ⟨f, hf, hslot⟩ := List.any_eq_true.1 hfs
        exact ⟨s, hs, of_decide_eq_true hslot ▸ hlast f hf⟩

namespace Host

theorem now_le (hst : (lts zs fm).step h a h') : h.sched.now ≤ h'.sched.now := by
  obtain ⟨t, ht, -, -, rfl⟩ := hst
  exact ht

theorem timed_reachable (hr : (lts zs fm).Reachable Initial h) (k : JobId) :
    (h.rows k).Timed h.sched.now := by
  refine (hr.invariant (I := fun h => h.Wf ∧ ∀ k, (h.rows k).Placed ∧ (h.rows k).Timed h.sched.now)
    (fun h hi => ⟨hi.wf, fun k => ?_⟩) (fun h a h' hI hst => ⟨hI.1.step hst, fun k => ?_⟩)).2 k |>.2
  · have hdb : h.db = .empty := hi.db
    have hadm : h.admitted = [] := hi.admitted
    constructor
    · exact placed_reachable (.of_init (A := lts zs fm) hi) k
    · constructor <;> simp [rows, Db.rows, hdb, hadm, Db.empty]
      exact ⟨rfl, rfl, rfl, rfl⟩
  · have hmove := Host.move hI.1 hst k
    exact ⟨hmove.placed (hI.2 k).1, hmove.timed (now_le hst) (hI.2 k).1 (hI.2 k).2⟩

/-- An SQLite run of a migrated job starts after everything admitted before it. -/
theorem started_after (hr : (lts zs fm).Reachable Initial h) (hst : (lts zs fm).step h a h')
    {slot : Option Time} (hmig : h.db.migrations k ≠ none)
    (hadm : h'.admitted = h.admitted ++ [⟨k, .sqlite, slot⟩]) :
    ∃ s, slot = some s ∧ ∀ e ∈ h.admitted, e.job = k → e.Before s := by
  have hx := timed_reachable hr k
  have hmove := Host.move (wf_reachable hr) hst k
  have hrows : (h'.rows k).admitted = (h.rows k).admitted ++ [⟨k, .sqlite, slot⟩] := by
    simp [rows, Db.rows, hadm]
  have hne : ∀ {l : List Execution} {e : Execution}, l ≠ l ++ [e] := fun he => by simp at he
  have hmem : ∀ e ∈ h.admitted, e.job = k → e ∈ (h.rows k).admitted := fun e he hjob =>
    List.mem_filter.2 ⟨he, by simp [hjob]⟩
  cases hy : h'.rows k with
  | mk job binding migration lock runs fences occurrences notes admitted =>
    rw [hy] at hrows hmove
    cases hmove with
    | started job l run fences hj hon hsql hdue hfences =>
      obtain ⟨saved, hs, hst, hfree, -⟩ := hfences.resolve_left fun hnone => hmig hnone.1
      have hslot := List.append_cancel_left hrows
      simp only [List.cons.injEq, Execution.mk.injEq, true_and, and_true] at hslot
      exact ⟨job.nextRunAt, hslot.symm, fun e he hjob =>
        hx.next job saved hj hs (MigrationState.home_eq_sqlite hst) hfree e (hmem e he hjob)⟩
    | reserved =>
      have hslot := List.append_cancel_left hrows
      simp at hslot
    | _ => exact absurd hrows hne

/-- **No occurrence runs in both engines.**  In every reachable state and for every job `k`:

* no instant is admitted by both engines;
* if `k` has a migration, Temporal admits no instant of it twice;
* no workflow is admitted twice;
* an occurrence that the SQLite engine starts while `k` has a migration, after a rollback in
  particular, is strictly later than every occurrence that either engine has admitted. -/
theorem instants_disjoint (hr : (lts zs fm).Reachable Initial h) (k : JobId) :
    (∀ e ∈ h.admitted, ∀ e' ∈ h.admitted, e.job = k → e'.job = k → e.engine = .sqlite →
      e'.engine = .temporal → e.slot ≠ e'.slot) ∧
    (h.db.migrations k ≠ none →
      (∀ e ∈ h.admitted, e.job = k → ∃ s, e.slot = some s) ∧
      ((h.admitted.filter fun e => e.job = k && e.engine = .temporal).map (·.slot)).Nodup) ∧
    (∀ w, (h.db.occurrences.filter (·.workflow = w)).length ≤ 1) ∧
    (∀ a h' slot, (lts zs fm).step h a h' → h.db.migrations k ≠ none →
      h'.admitted = h.admitted ++ [⟨k, .sqlite, slot⟩] →
      ∃ s, slot = some s ∧ ∀ e ∈ h.admitted, e.job = k → e.Before s) := by
  have hx := timed_reachable hr k
  have hmem : ∀ {e}, e ∈ h.admitted → e.job = k → e ∈ (h.rows k).admitted := fun he hjob =>
    List.mem_filter.2 ⟨he, by simp [hjob]⟩
  refine ⟨fun e he e' he' hj hj' => hx.disjoint e (hmem he hj) e' (hmem he' hj'),
    fun hmig => ⟨fun e he hj => ?_, ?_⟩,
    (counted_reachable hr).row_le_one (wf_reachable hr),
    fun a h' slot hst hmig hadm => started_after hr hst hmig hadm⟩
  · cases hen : e.engine with
    | sqlite =>
      obtain ⟨s, hs, -⟩ := hx.sqlite e (hmem he hj) hen
      exact ⟨s, hs⟩
    | temporal =>
      obtain ⟨s, hs, -⟩ := hx.fenced hmig e (hmem he hj) hen
      exact ⟨s, hs⟩
  · have honce := hx.once hmig
    simp only [rows, Db.rows, List.filter_filter] at honce
    simpa only [Bool.and_comm] using honce

/-- The submission of an occurrence that has completed. -/
def completedTask : Temporal.Submission where
  owner := "owner"
  task := taskOf ⟨1, "d"⟩
  scope := ⟨⟨"user", "prompt", none, []⟩, { workspace := "/workspace" }, "admin"⟩
  input := [⟨"user", "prompt", none, []⟩]
  address := "localhost:7233"
  space := "default"
  queue := "queue"
  state := .completed
  result := some (.reply "done" [])

/-- The job is handed to Temporal, runs there once at the first midnight, and returns to SQLite. -/
def returnedHost : Host :=
  Sample.host.script Sample.zs Sample.fm (Sample.added .agent 0 ++ Sample.forward 10 ++
    [fun _ => (.prepare Sample.env 1 ⟨1, "d"⟩ 86400, 86400),
     fun _ => (.poll Sample.env 1 ⟨1, "d"⟩ (.ok completedTask), 86410),
     fun _ => (.finish ⟨1, ⟨1, "d"⟩, .completed, "done", ""⟩, 86410)] ++ Sample.back 86420)

/-- Its next SQLite run starts after the occurrence of Temporal. -/
theorem instants_returned :
    let h := returnedHost.after Sample.zs Sample.fm
      (.call (.claimDue 1 172800 172800 172800 172800)) 172800
    h.admitted = [⟨1, .temporal, some 86400⟩, ⟨1, .sqlite, some 172800⟩] ∧
    ∃ s, some 172800 = some s ∧ ∀ e ∈ returnedHost.admitted, e.job = 1 → e.Before s := by
  intro h
  have hr : (lts Sample.zs Sample.fm).Reachable Initial returnedHost :=
    .run (.of_init Sample.host_initial) (run_script (rfl))
  have hst : (lts Sample.zs Sample.fm).step returnedHost
      (.call (.claimDue 1 172800 172800 172800 172800)) h :=
    ⟨172800, by decide, by decide, by decide, rfl⟩
  have hadm : returnedHost.admitted = [⟨1, .temporal, some 86400⟩] := rfl
  have hadm' : h.admitted = returnedHost.admitted ++ [⟨1, .sqlite, some 172800⟩] := by
    decide
  exact ⟨by rw [hadm', hadm]; rfl,
    (instants_disjoint hr 1).2.2.2 _ h _ hst (by decide) hadm'⟩

/-- Two spellings of one instant. -/
def spellings : Formats where
  prompt text := some text
  instant text :=
    if text = "2026-01-02T00:00:00Z" ∨ text = "2026-01-02T00:00:00+00:00" then .ok 1767312000
    else .error (.value "Invalid isoformat string")
  observation _ := none

/-- A job that was never migrated, with an occurrence under each spelling. -/
def spelledHost : Host :=
  Sample.host.script Sample.zs spellings
    [fun _ => (.create Sample.env (Sample.daily .agent) Sample.caller .skip true 0, 0),
     fun _ => (.bind Sample.env 1 "{}" .skip false, 0),
     fun _ => (.prepare Sample.env 1 ⟨1, "2026-01-02T00:00:00Z"⟩ 1767312000, 1767312000),
     fun _ => (.prepare Sample.env 1 ⟨1, "2026-01-02T00:00:00+00:00"⟩ 1767312060, 1767312060)]

/-- Temporal admits the instant of a job that was never migrated twice, if two workflows spell it
differently. -/
theorem instants_spelled : ¬ ∀ h, (lts Sample.zs spellings).Reachable Initial h → ∀ k,
    ((h.admitted.filter fun e => e.job = k && e.engine = .temporal).map (·.slot)).Nodup := by
  intro hall
  have hr : (lts Sample.zs spellings).Reachable Initial spelledHost :=
    .run (.of_init Sample.host_initial) (run_script (by decide))
  have hslots : (spelledHost.admitted.filter fun e => e.job = 1 && e.engine = .temporal).map (·.slot)
      = [some 1767312000, some 1767312000] := by decide
  have hnodup := hall spelledHost hr 1
  rw [hslots] at hnodup
  simp at hnodup

end Host

end Scheduling

end PythonAI
