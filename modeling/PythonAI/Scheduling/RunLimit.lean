import PythonAI.Scheduling.Fencing

/-!
# The run limit of a job

`complete` counts a run and stops the job at `max_runs`.  The claim that starts a run in the place
of a lost one does not count it, so that a watch whose workers are lost runs more often than its
limit (`Sys.run_limit_exceeded`).  Without such restarts the limit holds (`Sys.run_limit`): an
enabled job has counted every run but the unfinished one, and has room for it (`Sys.Limited`).
-/

namespace PythonAI

open Library

namespace Scheduling

namespace Sys

variable {cal : Calendar} {s s' : Sys} {c : Call} {k : JobId}

/-- The runs of the job `k` are within its limit. -/
structure Limited (k : JobId) (s : Sys) : Prop where
  /-- the limit -/
  total : ∀ row, s.db.jobs k = some row → (s.db.runsOf k).length ≤ row.maxRuns
  /-- an enabled job has counted every run but the unfinished one -/
  counted : ∀ row, s.db.jobs k = some row → row.enabled = true →
    (s.db.runsOf k).length ≤ row.runCount + (s.db.running k).toNat
  /-- and may run again -/
  room : ∀ row, s.db.jobs k = some row → row.enabled = true → row.runCount < row.maxRuns

theorem Initial.limited (h : Initial s) (k : JobId) : s.Limited k := by
  have hnone : s.db.runsOf k = [] := by simp [Db.runsOf, h.runs]
  refine ⟨by simp [hnone], by simp [hnone], fun row hrow _ => ?_⟩
  obtain ⟨hc, -, hm⟩ := h.jobs k row hrow
  rw [hc]; exact hm

theorem running_eq {db db' : Db} (h : db'.runsOf k = db.runsOf k) : db'.running k = db.running k := by
  rw [Bool.eq_iff_iff, Db.running_iff, Db.running_iff, h]

/-- A stopped job starts nothing: only its total counts. -/
theorem Limited.of_stopped {row row' : Job} (hs : s.Limited k) (hrow : s.db.jobs k = some row)
    (hrow' : s'.db.jobs k = some row') (hoff : row'.enabled = false)
    (hmax : row'.maxRuns = row.maxRuns) (hlen : (s'.db.runsOf k).length = (s.db.runsOf k).length) :
    s'.Limited k := by
  have hsome : ∀ {row₁ : Job}, s'.db.jobs k = some row₁ → row₁ = row' := fun h =>
    Option.some.inj (h.symm.trans hrow')
  refine ⟨fun row₁ h => ?_, fun row₁ h hon => ?_, fun row₁ h hon => ?_⟩
  · rw [hsome h, hmax, hlen]
    exact hs.total row hrow
  · rw [hsome h, hoff] at hon; cases hon
  · rw [hsome h, hoff] at hon; cases hon

/-- A call that restarts no lost run keeps the limit. -/
theorem Limited.step (hinv : s.Inv) (hs : s.Limited k) (h : (lts cal).step s c s')
    (hc : c.restarts s.db = false) : s'.Limited k := by
  cases effect hinv h k with
  | quiet hq =>
    rcases hq.job with hj | ⟨row, hrow, hj⟩ | ⟨hnone, row, hj, hcount, -, hmax⟩
    · refine ⟨?_, ?_, ?_⟩
      · rw [hj, hq.runs]; exact hs.total
      · rw [hj, hq.runs, running_eq hq.runs]; exact hs.counted
      · rw [hj]; exact hs.room
    · exact hs.of_stopped hrow hj rfl rfl (by rw [hq.runs])
    · have hnil : s'.db.runsOf k = [] := by rw [hq.runs]; exact hinv.missing k hnone
      refine ⟨by simp [hnil], by simp [hnil], fun row₁ h _ => ?_⟩
      rw [Option.some.inj (h.symm.trans hj), hcount]; exact hmax
  | quarantined row hrow _ _ _ hj hr _ _ =>
    exact hs.of_stopped hrow hj rfl rfl (by rw [hr, List.length_map])
  | refused row hrow _ _ _ hj hr _ _ =>
    rcases hj with hj | ⟨hj, saved, hsaved, hne⟩
    · exact hs.of_stopped hrow hj rfl rfl (by rw [hr, List.length_map])
    · have hnil : s'.db.runsOf k = [] := by rw [hr, hinv.elsewhere k saved hsaved hne]; rfl
      exact ⟨by simp [hnil], by simp [hnil], by rw [hj]; exact hs.room⟩
  | started row hrow hon _ _ hj hr _ _ _ hre =>
    -- No lost run is restarted, so every run so far is counted.
    have hrun : s.db.running k = false := by rw [← hre, hc]
    have hlen : (s.db.runsOf k).length ≤ row.runCount := by
      simpa [hrun] using hs.counted row hrow hon
    have hsome : ∀ {row₁ : Job}, s'.db.jobs k = some row₁ → row₁ = row := fun h => by
      rw [hj, hrun] at h; exact (Option.some.inj h).symm
    have hlen' : (s'.db.runsOf k).length = (s.db.runsOf k).length + 1 := by simp [hr]
    have hrun' : s'.db.running k = true :=
      Db.running_iff.2 ⟨_, by rw [hr]; exact List.mem_append_right _ (List.mem_singleton.2 rfl), rfl⟩
    have hroom := hs.room row hrow hon
    refine ⟨fun row₁ h => ?_, fun row₁ h _ => ?_, fun row₁ h _ => ?_⟩
    · rw [hsome h, hlen']
      exact lt_of_le_of_lt hlen hroom
    · rw [hsome h, hlen', hrun']
      exact Nat.succ_le_succ hlen
    · rw [hsome h]; exact hroom
  | completed w row v state text error due _ _ _ _ hrow _ hj hr _ _ =>
    have hsome : ∀ {row₁ : Job}, s'.db.jobs k = some row₁ → row₁ = Store.advance row v text due :=
      fun h => Option.some.inj (h.symm.trans hj)
    have hlen' : (s'.db.runsOf k).length = (s.db.runsOf k).length := by rw [hr, List.length_map]
    refine ⟨fun row₁ h => ?_, fun row₁ h hon => ?_, fun row₁ h hon => ?_⟩
    · rw [hsome h, hlen']
      exact hs.total row hrow
    · rw [hsome h] at hon ⊢
      have hon' : row.enabled = true := by
        simp only [Store.advance, Bool.and_eq_true] at hon; exact hon.1
      have hle := hs.counted row hrow hon'
      have hone := Bool.toNat_le (s.db.running k)
      rw [hlen', Store.advance]
      exact le_trans hle (le_trans (Nat.add_le_add_left hone _) (Nat.le_add_right _ _))
    · rw [hsome h] at hon ⊢
      simp only [Store.advance, Store.disabled, Bool.and_eq_true, Bool.not_eq_true',
        Bool.or_eq_false_iff, decide_eq_false_iff_not, Nat.not_le] at hon
      exact hon.2.1.1.1

/-- **The run limit.**  In every run none of whose claims starts a run in the place of a lost one,
no job starts more than `max_runs` runs. -/
theorem run_limit (h : ((lts cal).restrict fun s c => c.restarts s.db = false).Reachable Initial s)
    {row : Job} (hrow : s.db.jobs k = some row) : (s.db.runsOf k).length ≤ row.maxRuns := by
  have hlim := h.invariant (I := fun s => s.Inv ∧ s.Limited k)
    (fun s h => ⟨h.inv, h.limited k⟩)
    (fun s c s' h hst => ⟨h.1.step hst.1, h.2.step h.1 hst.1 hst.2⟩)
  exact hlim.2.total row hrow

/-- A command that may run once, and has. -/
theorem run_limit_once :
    let s := (Sample.start (Sample.job .command 1)).runs Sample.cal [Sample.claim 0 0]
    (s.db.runsOf 0).length = 1 ∧ (s.db.runsOf 0).length ≤ (Sample.job .command 1).maxRuns := by
  intro s
  refine ⟨by decide, ?_⟩
  have hs : ((lts Sample.cal).restrict fun s c => c.restarts s.db = false).Reachable Initial s :=
    .step (.of_init (Sample.start_initial rfl rfl (by decide)))
      ⟨step_after (by decide) (by decide) trivial, by decide⟩
  exact run_limit hs (by decide)

/-- The first worker of a watch that may run once is lost, and a second run is started. -/
theorem run_limit_exceeded : ∃ s row, (lts Sample.cal).Reachable Initial s ∧
    s.db.jobs 0 = some row ∧ row.maxRuns < (s.db.runsOf 0).length := by
  refine ⟨(Sample.start (Sample.job .watch 1)).runs Sample.cal [Sample.claim 0 0, Sample.claim 0 20],
    { Sample.job .watch 1 with retryCount := 1 }, ?_, by decide, by decide⟩
  exact .run (.of_init (Sample.start_initial rfl rfl (by decide))) (run_runs (by decide))

end Sys

end Scheduling

end PythonAI
