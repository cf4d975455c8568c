import PythonAI.Scheduling.Held

/-!
# Never two live engines

A job is enabled for the SQLite engine in `scheduled_jobs` and for the Temporal engine in its
binding.  The state of the migration says where the job belongs (`MigrationState.home`), and
`Rows.Placed` is the invariant of all transactions: the column `execution_backend` follows the
migration, and a binding is enabled only while the job belongs to Temporal.
-/

namespace PythonAI

open Library

namespace Scheduling

/-- The engine a job belongs to in each state of its migration. -/
def MigrationState.home : MigrationState → Backend
  | staged | sqlite => .sqlite
  | cuttingOver | rollingBack => .transition
  | activating | temporal => .temporal

/-- The rows of the job agree on where it belongs. -/
structure Rows.Placed (x : Rows) : Prop where
  /-- nothing refers to a job that does not exist -/
  missing : x.job = none → x.binding = none ∧ x.migration = none
  /-- a job with a binding that was never migrated is native -/
  native : ∀ job b, x.job = some job → x.binding = some b → x.migration = none →
    job.backend = .temporal
  /-- the job is where its migration says -/
  job : ∀ job saved, x.job = some job → x.migration = some saved → job.backend = saved.state.home
  /-- the binding of a migrated job is enabled only while the job belongs to Temporal -/
  binding : ∀ b saved, x.binding = some b → x.migration = some saved → b.enabled = true →
    saved.state.home = .temporal

variable {zs : Zones} {fm : Formats} {h h' : Host} {a : Act} {k : JobId} {t t' : Time} {x y : Rows}

/-- Rows that agree in a column agree in their presence. -/
theorem some_of_map_eq {α β : Type} {f : α → β} {u v : Option α} (h : v.map f = u.map f) {y : α}
    (hv : v = some y) : ∃ x, u = some x ∧ f x = f y := by
  rw [hv] at h
  exact Option.map_eq_some_iff.1 h.symm

theorem none_of_map_eq {α β : Type} {f : α → β} {u v : Option α} (h : v.map f = u.map f)
    (hv : v = none) : u = none := by
  rw [hv] at h
  exact Option.map_eq_none_iff.1 h.symm

/-- Rows stay placed while neither the backend nor the state of the migration changes and the
binding is not enabled. -/
theorem Rows.Placed.of_le (hx : x.Placed) (hj : y.job.map (·.backend) = x.job.map (·.backend))
    (hm : y.migration.map (·.state) = x.migration.map (·.state))
    (hb : ∀ b, y.binding = some b → ∃ b₀, x.binding = some b₀ ∧
      (b.enabled = true → b₀.enabled = true)) : y.Placed := by
  refine ⟨fun h => ?_, fun job b h h' h'' => ?_, fun job saved h h' => ?_,
    fun b saved h h' hon => ?_⟩
  · obtain ⟨hxb, hxm⟩ := hx.missing (none_of_map_eq hj h)
    refine ⟨Option.eq_none_iff_forall_ne_some.2 fun b h' => ?_, none_of_map_eq hm.symm hxm⟩
    obtain ⟨b₀, hb₀, -⟩ := hb b h'
    simp [hxb] at hb₀
  · obtain ⟨job₀, hj₀, hback⟩ := some_of_map_eq hj h
    obtain ⟨b₀, hb₀, -⟩ := hb b h'
    rw [← hback]
    exact hx.native job₀ b₀ hj₀ hb₀ (none_of_map_eq hm h'')
  · obtain ⟨job₀, hj₀, hback⟩ := some_of_map_eq hj h
    obtain ⟨saved₀, hs₀, hstate⟩ := some_of_map_eq hm h'
    rw [← hback, ← hstate]
    exact hx.job job₀ saved₀ hj₀ hs₀
  · obtain ⟨b₀, hb₀, himp⟩ := hb b h
    obtain ⟨saved₀, hs₀, hstate⟩ := some_of_map_eq hm h'
    rw [← hstate]
    exact hx.binding b₀ saved₀ hb₀ hs₀ (himp hon)

/-- Every move keeps the rows placed. -/
theorem Move.placed (hm : Move fm a k t t' x y) (hx : x.Placed) : y.Placed := by
  have hsame : ∀ b, x.binding = some b → ∃ b₀, x.binding = some b₀ ∧
      (b.enabled = true → b₀.enabled = true) := fun b hb => ⟨b, hb, id⟩
  -- First the moves that write neither the backend nor the state, and only pause the binding.
  cases hm with
  | same | renewed | elsewhere | begun | closed => exact hx.of_le rfl rfl hsame
  | disabled job hj =>
    refine hx.of_le (by simp [hj]) (by simp [Function.comp_def]) fun b hb => ?_
    obtain ⟨b₀, hb₀, rfl⟩ := Option.map_eq_some_iff.1 hb
    exact ⟨b₀, hb₀, nofun⟩
  | quarantined job _ _ hj | repeated job hj | started job _ _ _ hj =>
    exact hx.of_le (by simp [hj]) rfl hsame
  | completed job _ _ _ _ _ _ _ _ _ hj => exact hx.of_le (by simp [hj]) rfl hsame
  | synced b applied removed hb =>
    refine hx.of_le rfl rfl ?_
    rintro _ ⟨⟩
    exact ⟨b, hb, id⟩
  | reserved job b w deadline fences hj hb _ hon =>
    exact hx.of_le (by simp [hj]) rfl fun _ _ => ⟨b, hb, fun _ => hon⟩
  | finished job b r state digest extra _ _ hj hb =>
    refine hx.of_le (by simp [hj]) ?_ ?_
    · simp only [Option.map_map]
      exact Option.map_congr fun saved _ => by
        simp only [Function.comp_def]
        split_ifs <;> rfl
    · rintro _ ⟨⟩
      exact ⟨b, hb, fun hon => (Bool.and_eq_true_iff.1 hon).1⟩
  | retired saved hmig =>
    refine hx.of_le rfl rfl fun b hb => ?_
    obtain ⟨b₀, hb₀, rfl⟩ := Option.map_eq_some_iff.1 hb
    exact ⟨b₀, hb₀, id⟩
  -- A new job has no rows, and a native one no migration.
  | added job hnone hfresh =>
    obtain ⟨hb, hmig⟩ := hx.missing hnone
    exact ⟨nofun, fun _ _ _ h => by simp [hb] at h, fun _ _ _ h => by simp [hmig] at h,
      fun _ _ h => by simp [hb] at h⟩
  | bound job b scope hj hback hmig =>
    refine ⟨nofun, ?_, fun _ _ _ h => by simp [hmig] at h, fun _ _ _ h => by simp [hmig] at h⟩
    rintro _ _ ⟨⟩ - -
    exact hback
  | changed job b r action v due hj hb _ _ hmig =>
    refine ⟨nofun, ?_, ?_, ?_⟩
    · rintro _ _ ⟨⟩ - hnone
      exact hx.native job b hj hb hnone
    · rintro _ saved ⟨⟩ hsome
      exact hx.job job saved hj hsome
    · intro _ saved _ hsome _
      rw [hmig saved hsome]
      rfl
  -- The steps of the migration.
  | staged job source env c t₁ _ hj hsql =>
    refine ⟨fun hnone => by simp [hj] at hnone, fun _ _ _ _ h => (nomatch h), fun job' _ hj' hs => ?_,
      fun b _ hb _ hon => ?_⟩
    · rw [← Option.some.inj hs, ← Option.some.inj (hj.symm.trans hj')]
      exact hsql
    · rw [← Option.some.inj hb, Migration.stagedBinding_enabled] at hon
      cases hon
  | cutover job saved t₁ hj hmig hst =>
    refine ⟨fun h => (nomatch h), fun _ _ _ _ h => (nomatch h), ?_, ?_⟩
    · rintro _ _ ⟨⟩ ⟨⟩
      rfl
    · intro b _ hb _ hon
      obtain ⟨b₀, -, rfl⟩ := Option.map_eq_some_iff.1 hb
      cases hon
  | rolledBack job saved paused hj hmig =>
    refine ⟨fun h => (nomatch h), fun _ _ _ _ h => (nomatch h), ?_, ?_⟩
    · rintro _ _ ⟨⟩ ⟨⟩
      rfl
    · intro b _ hb _ hon
      obtain ⟨b₀, -, rfl⟩ := Option.map_eq_some_iff.1 hb
      cases hon
  | activating b saved enabled t₁ hb hmig hst =>
    refine ⟨fun hnone => ?_, fun _ _ _ _ h => (nomatch h), ?_, ?_⟩
    · rw [(hx.missing hnone).1] at hb
      cases hb
    · rintro job _ hj ⟨⟩
      exact hx.job job saved hj hmig
    · rintro _ _ _ ⟨⟩ -
      simp only [hst]
      rfl
  | temporal saved hmig hst =>
    refine ⟨fun hnone => ?_, fun _ _ _ _ h => (nomatch h), ?_, ?_⟩
    · rw [(hx.missing hnone).2] at hmig
      cases hmig
    · rintro job _ hj ⟨⟩
      rw [hx.job job saved hj hmig, hst]
      rfl
    · rintro _ _ - ⟨⟩ -
      rfl
  | cuttingOver job b saved enabled hj hb hmig =>
    refine ⟨fun h => (nomatch h), fun _ _ _ _ h => (nomatch h), ?_, ?_⟩
    · rintro _ _ ⟨⟩ ⟨⟩
      rfl
    · rintro _ _ _ ⟨⟩ -
      rfl
  | sqlite job saved env t₁ due _ hj hmig hst =>
    refine ⟨fun h => (nomatch h), fun _ _ _ _ h => (nomatch h), ?_, ?_⟩
    · rintro _ _ ⟨⟩ ⟨⟩
      rfl
    · intro b _ hb _ hon
      have hhome := hx.binding b saved hb hmig hon
      rw [hst] at hhome
      cases hhome

namespace Host

/-- The rows of every job are placed. -/
theorem placed_reachable (hr : (lts zs fm).Reachable Initial h) (k : JobId) : (h.rows k).Placed := by
  refine hr.invariant (I := fun h => h.Wf ∧ ∀ k, (h.rows k).Placed) (fun h hi => ⟨hi.wf, fun k => ?_⟩)
    (fun h a h' hI hst => ⟨hI.1.step hst, fun k => (Host.move hI.1 hst k).placed (hI.2 k)⟩) |>.2 k
  have hdb : h.db = .empty := hi.db
  constructor <;> simp [rows, Db.rows, hdb, Db.empty]

/-- **Never two live engines.**  In every reachable state, whatever the interleaving of the
transactions of both engines, of the users and of any number of operators, no job is enabled in
`scheduled_jobs` with the backend `sqlite` while its binding is enabled. -/
theorem one_engine (hr : (lts zs fm).Reachable Initial h) (k : JobId) (job : Job) (b : Binding)
    (hjob : h.db.jobs k = some job) (hb : h.db.bindings k = some b) :
    ¬(job.enabled = true ∧ job.backend = .sqlite ∧ b.enabled = true) := by
  rintro ⟨-, hsql, hon⟩
  have hx := placed_reachable hr k
  cases hmig : h.db.migrations k with
  | none =>
    rw [hx.native job b hjob hb hmig] at hsql
    cases hsql
  | some saved =>
    rw [hx.job job saved hjob hmig, hx.binding b saved hb hmig hon] at hsql
    cases hsql

/-- A job that was handed to Temporal is enabled there only. -/
theorem one_engine_forward :
    let h := Sample.host.script Sample.zs Sample.fm (Sample.added .agent 0 ++ Sample.forward 10)
    ∃ job b, h.db.jobs 1 = some job ∧ h.db.bindings 1 = some b ∧ b.enabled = true ∧
      ¬(job.enabled = true ∧ job.backend = .sqlite ∧ b.enabled = true) := by
  intro h
  have hr : (lts Sample.zs Sample.fm).Reachable Initial h :=
    .run (.of_init Sample.host_initial) (run_script (by decide))
  have hjob : h.db.jobs 1 = some (Sample.row h) := by decide
  have hb : h.db.bindings 1 = some (Sample.reading h).binding := by decide
  exact ⟨_, _, hjob, hb, by decide, one_engine hr 1 _ _ hjob hb⟩

end Host

end Scheduling

end PythonAI
