import PythonAI.Library.Streak
import PythonAI.Scheduling.RunLimit

/-!
# Bounded retries of a watch

A watch is tried again after a failed run, by `complete`, and after a lost one, by the next claim.
Both count in `retry_count`, which is the number of faulty runs in a row: at the third one the
watch is stopped (`Sys.bounded_retries`).

The invariant is `Sys.Retried`: while the watch may go on, the count is the length of the streak of
faulty runs at the end of its runs, and at most two.  A step that ends a faulty run counts it or
stops the watch, one that ends another run clears the count (`Sys.Retried.step`).
-/

namespace PythonAI

open Library

namespace Scheduling

/-- The run ended with a faulty outcome. -/
def Run.faulty (r : Run) : Bool :=
  match r.status with
  | .running => false
  | .ended state => state.faulty

/-- The run has ended. -/
def Run.isEnded (r : Run) : Bool := r.status ≠ .running

/-- The runs of a job that have ended, in the order they were started. -/
def Db.ends (db : Db) (k : JobId) : List Run := (db.runsOf k).filter (·.isEnded)

namespace Store

variable {row : Job} {state : Outcome} {error : String}

/-- The outcome counts as it was reported, or a watch needs input instead. -/
theorem verdict_cases (row : Job) (state : Outcome) (error : String) :
    (∃ e, verdict row state error = ⟨.needsInput, e, false⟩) ∨
      verdict row state error =
          ⟨state, error, row.jobType = .watch && state = .failed && row.retryCount < 2⟩ ∧
        (row.jobType = .watch → state = .failed → row.retryCount < 2) := by
  by_cases hw : row.jobType = .watch
  · by_cases hf : state = .failed ∧ ¬ row.retryCount < 2
    · refine .inl ⟨"Watch retry limit reached; inspect before rescheduling. " ++ error, ?_⟩
      simp [verdict, hw, hf]
    have hretry : state = .failed → row.retryCount < 2 := fun h => by
      by_contra hc; exact hf ⟨h, hc⟩
    by_cases hl : row.maxRuns ≤ row.runCount + 1 ∧ (state = .waiting ∨ state = .failed)
    · refine .inl
        ⟨"Watch run limit reached without completion; inspect before rescheduling. " ++ error, ?_⟩
      rcases hl with ⟨hmax, rfl | rfl⟩
      · simp [verdict, hw, hmax]
      · simp [verdict, hw, hmax, hretry rfl]
    · refine .inr ⟨?_, fun _ => hretry⟩
      by_cases hs : state = .failed
      · subst hs
        have hmax : ¬ row.maxRuns ≤ row.runCount + 1 := fun h => hl ⟨h, .inr rfl⟩
        simp [verdict, hw, hretry rfl, hmax]
      · have hmax : state = .waiting → ¬ row.maxRuns ≤ row.runCount + 1 := fun h hm =>
          hl ⟨hm, .inl h⟩
        by_cases hwait : state = .waiting
        · simp [verdict, hw, hwait, hmax hwait]
        · simp [verdict, hw, hs, hwait]
  · exact .inr ⟨by simp [verdict, hw], fun h => absurd h hw⟩

/-- Only a failed watch is retried, and only twice. -/
theorem verdict_safeRetry (h : (verdict row state error).safeRetry = true) :
    (verdict row state error).state = .failed ∧ row.retryCount < 2 := by
  rcases verdict_cases row state error with ⟨e, hv⟩ | ⟨hv, -⟩
  · rw [hv] at h; cases h
  · rw [hv] at h ⊢
    simp only [Bool.and_eq_true, decide_eq_true_eq] at h
    exact ⟨h.1.2, h.2⟩

/-- A faulty outcome that is not retried stops the job. -/
theorem disabled_of_faulty {v : Verdict} (h : v.state.faulty = true) (hs : v.safeRetry = false) :
    disabled row v = true := by
  unfold disabled
  cases hv : v.state <;> simp_all [Outcome.faulty]

end Store

namespace Sys

variable {cal : Calendar} {s s' : Sys} {c : Call} {k : JobId} {ls : List Call}

/-! ### The last run -/

theorem filter_ended {l : List Run} (h : ∀ r ∈ l, r.status ≠ .running) :
    l.filter (·.isEnded) = l :=
  List.filter_eq_self.2 fun r hr => by simpa [Run.isEnded] using h r hr

/-- The runs that have ended are not lost. -/
theorem map_lost_of_ended {l : List Run} (h : ∀ r ∈ l, r.status ≠ .running) :
    l.map (Store.lost k) = l := by
  refine (List.map_congr_left (g := id) fun r hr => ?_).trans (List.map_id _)
  have hno : ¬ r.runningOf k = true := fun hrun => h r hr (Run.runningOf_iff.1 hrun).2
  simp [Store.lost, hno]

/-- The unfinished run of a job is its last one. -/
theorem Inv.split_running (hs : s.Inv) (h : s.db.running k = true) :
    ∃ l r, s.db.runsOf k = l ++ [r] ∧ r.status = .running ∧ r.job = k ∧
      ∀ x ∈ l, x.status ≠ .running := by
  obtain ⟨r₀, hr₀, hrun⟩ := Db.running_iff.1 h
  have hlast := hs.last k
  rcases List.eq_nil_or_concat (s.db.runsOf k) with hnil | ⟨l, r, hl⟩
  · simp [hnil] at hr₀
  rw [List.concat_eq_append] at hl
  rw [hl, List.dropLast_concat] at hlast
  have hr : r₀ = r := by
    rw [hl, List.mem_append, List.mem_singleton] at hr₀
    rcases hr₀ with hr₀ | hr₀
    · exact absurd hrun (hlast r₀ hr₀)
    · exact hr₀
  have hmem : r ∈ s.db.runsOf k := by rw [hl]; simp
  exact ⟨l, r, hl, hr ▸ hrun, by simpa using (List.mem_filter.1 hmem).2, hlast⟩

/-- What marking the lost runs of a job does: nothing, or it ends the last run. -/
theorem Inv.map_lost (hs : s.Inv) (k : JobId) :
    s.db.running k = false ∧ (s.db.runsOf k).map (Store.lost k) = s.db.runsOf k ∧
        s.db.ends k = s.db.runsOf k ∨
      s.db.running k = true ∧ ∃ l r, (s.db.runsOf k).map (Store.lost k) = l ++ [r] ∧
        r.status = .ended .uncertain ∧ s.db.ends k = l ∧ ∀ x ∈ l, x.status ≠ .running := by
  cases hrun : s.db.running k with
  | false =>
    have hno : ∀ r ∈ s.db.runsOf k, r.status ≠ .running := fun r hr h => by
      rw [Db.running_iff.2 ⟨r, hr, h⟩] at hrun; cases hrun
    exact .inl ⟨rfl, map_lost_of_ended hno, filter_ended hno⟩
  | true =>
    obtain ⟨l, r, hl, hr, hj, hno⟩ := hs.split_running hrun
    refine .inr ⟨rfl, l, Store.lost k r, ?_, ?_, ?_, hno⟩
    · rw [hl, List.map_append, map_lost_of_ended hno]; rfl
    · have : r.runningOf k = true := Run.runningOf_iff.2 ⟨hj, hr⟩
      simp [Store.lost, this]
    · rw [Db.ends, hl, List.filter_append, filter_ended hno]
      simp [Run.isEnded, hr]

/-- The run a worker completes is the last one of its job. -/
theorem Inv.split_completed (hs : s.Inv) {w : Worker} (hw : w ∈ s.workers)
    (hl : (s.db.locks k).map (·.lockedBy) = some w.token) (v : Store.Verdict) (text : String) :
    ∃ l r r', s.db.runsOf k = l ++ [r] ∧
      (s.db.runsOf k).map (Store.finished w.run v text) = l ++ [r'] ∧
      r'.status = .ended v.state ∧ r'.id = w.run ∧ ∀ x ∈ l, x.status ≠ .running := by
  have hlast := hs.lock k w.token hl
  rcases List.eq_nil_or_concat (s.db.runsOf k) with hnil | ⟨l, r, hlr⟩
  · simp [hnil] at hlast
  rw [List.concat_eq_append] at hlr
  have hid : r.id = w.run := by
    rw [hlr, List.getLast?_concat, Option.map_some, Option.some.injEq] at hlast
    rw [hlast, (hs.tokens w hw).1]
  have hno := hs.last k
  rw [hlr, List.dropLast_concat] at hno
  have hnodup : ((s.db.runsOf k).map (·.id)).Nodup :=
    hs.ids.sublist (List.filter_sublist.map _)
  have hne : ∀ x ∈ l, x.id ≠ w.run := by
    rw [hlr, List.map_append, List.nodup_append] at hnodup
    intro x hx h
    exact hnodup.2.2 x.id (List.mem_map_of_mem hx) r.id (by simp) (h.trans hid.symm)
  have hl' : l.map (Store.finished w.run v text) = l := by
    refine (List.map_congr_left (g := id) fun x hx => ?_).trans (List.map_id _)
    simp [Store.finished, hne x hx]
  refine ⟨l, r, Store.finished w.run v text r, hlr, by rw [hlr, List.map_append, hl']; rfl, ?_, ?_,
    hno⟩
  · simp [Store.finished, hid]
  · rw [Store.finished_id, hid]

/-! ### The invariant -/

/-- The faulty runs of the watch `k` are bounded, and `retry_count` counts them. -/
structure Retried (k : JobId) (s : Sys) : Prop where
  /-- never more than three in a row -/
  bound : ∀ row, s.db.jobs k = some row → row.jobType = .watch →
    AtMostInRow 3 Run.faulty (s.db.ends k)
  /-- a watch that may go on has counted them, and there are at most two -/
  counted : ∀ row, s.db.jobs k = some row → row.jobType = .watch →
    row.enabled = true ∨ s.db.running k = true →
    row.retryCount = streak Run.faulty (s.db.ends k) ∧ row.retryCount ≤ 2
  /-- a lock is held for an unfinished run, or for the lost run of a stopped job -/
  held : ∀ row, s.db.jobs k = some row → (s.db.locks k).map (·.lockedBy) ≠ none →
    s.db.running k = true ∨ row.enabled = false ∧
      ∃ l r, s.db.runsOf k = l ++ [r] ∧ r.status = .ended .uncertain

theorem Initial.retried (h : Initial s) (k : JobId) : s.Retried k := by
  have hnone : s.db.ends k = [] := by simp [Db.ends, Db.runsOf, h.runs]
  refine ⟨fun _ _ _ => by rw [hnone]; exact atMostInRow_nil, fun row hrow _ _ => ?_, ?_⟩
  · obtain ⟨-, hr, -⟩ := h.jobs k row hrow
    rw [hnone, hr]; simp
  · simp [h.locks]

theorem ends_concat {db : Db} {l : List Run} {r : Run} (h : db.runsOf k = l ++ [r])
    (hl : ∀ x ∈ l, x.status ≠ .running) (hr : r.status ≠ .running) : db.ends k = l ++ [r] := by
  rw [Db.ends, h]
  refine filter_ended fun x hx => ?_
  rcases List.mem_append.1 hx with hx | hx
  · exact hl x hx
  · rw [List.mem_singleton.1 hx]; exact hr

theorem not_running_of {db : Db} {l : List Run} {r : Run} (h : db.runsOf k = l ++ [r])
    (hl : ∀ x ∈ l, x.status ≠ .running) (hr : r.status ≠ .running) : db.running k = false := by
  refine Bool.eq_false_iff.2 fun hrun => ?_
  obtain ⟨x, hx, hs⟩ := Db.running_iff.1 hrun
  rw [h, List.mem_append, List.mem_singleton] at hx
  rcases hx with hx | rfl
  · exact hl x hx hs
  · exact hr hs

/-- A lost run of a watch that was still allowed to fail is one more faulty run. -/
theorem Retried.lost_bound (hs : s.Retried k) {row : Job} (hrow : s.db.jobs k = some row)
    (hw : row.jobType = .watch) (hon : row.enabled = true) {l : List Run} {r : Run}
    (hl : s.db.ends k = l) (hr : r.status = .ended .uncertain) :
    AtMostInRow 3 Run.faulty (l ++ [r]) ∧ streak Run.faulty (l ++ [r]) = row.retryCount + 1 := by
  obtain ⟨hcount, htwo⟩ := hs.counted row hrow hw (.inl hon)
  have hf : r.faulty = true := by simp [Run.faulty, hr, Outcome.faulty]
  have hst : streak Run.faulty (l ++ [r]) = row.retryCount + 1 := by
    rw [streak_concat_of_pos hf, hcount, hl]
  refine ⟨AtMostInRow.concat (hl ▸ hs.bound row hrow hw) ?_, hst⟩
  rw [hst]; exact Nat.succ_le_succ htwo

/-- **Every call keeps the count of the faulty runs.** -/
theorem Retried.step (hinv : s.Inv) (hs : s.Retried k) (h : (lts cal).step s c s') :
    s'.Retried k := by
  cases effect hinv h k with
  | quiet hq =>
    have hends : s'.db.ends k = s.db.ends k := by rw [Db.ends, hq.runs]; rfl
    have hrun : s'.db.running k = s.db.running k := running_eq hq.runs
    rcases hq.job with hj | ⟨row, hrow, hj⟩ | ⟨hnone, row, hj, -, hretry, -⟩
    · refine ⟨?_, ?_, ?_⟩
      · rw [hj, hends]; exact hs.bound
      · rw [hj, hends, hrun]; exact hs.counted
      · rw [hj, hrun, hq.runs, hq.lock]; exact hs.held
    · have hsome : ∀ {row₁ : Job}, s'.db.jobs k = some row₁ → row₁ = { row with enabled := false } :=
        fun h => Option.some.inj (h.symm.trans hj)
      refine ⟨fun row₁ h hw => ?_, fun row₁ h hw hopen => ?_, fun row₁ h hlock => ?_⟩
      · rw [hends]; exact hs.bound row hrow (by rw [hsome h] at hw; exact hw)
      · rw [hsome h] at hw hopen ⊢
        rw [hends]
        refine hs.counted row hrow hw (.inr ?_)
        rcases hopen with hon | hopen
        · cases hon
        · exact hrun ▸ hopen
      · rw [hsome h, hrun, hq.runs]
        rcases hs.held row hrow (hq.lock ▸ hlock) with hr | ⟨-, hl⟩
        · exact .inl hr
        · exact .inr ⟨rfl, hl⟩
    · have hnil : s'.db.runsOf k = [] := by rw [hq.runs]; exact hinv.missing k hnone
      have hlock : (s'.db.locks k).map (·.lockedBy) = none := by
        rw [hq.lock]
        cases hl : (s.db.locks k).map (·.lockedBy) with
        | none => rfl
        | some token =>
          have := hinv.lock k token hl
          rw [hinv.missing k hnone] at this; cases this
      refine ⟨fun row₁ h _ => ?_, fun row₁ h _ _ => ?_, fun row₁ h hl => absurd hlock hl⟩
      · simp only [Db.ends, hnil]; exact atMostInRow_nil
      · rw [Option.some.inj (h.symm.trans hj), hretry]
        simp [Db.ends, hnil]
  | quarantined row hrow hon hrun _ hj hr hlock _ =>
    rcases hinv.map_lost k with ⟨hno, -⟩ | ⟨-, l, r, hmap, hunc, hends, hl⟩
    · rw [hrun] at hno; cases hno
    have hruns : s'.db.runsOf k = l ++ [r] := hr.trans hmap
    have hended : r.status ≠ .running := by rw [hunc]; simp
    have hoff : s'.db.running k = false := not_running_of hruns hl hended
    have hsome : ∀ {row₁ : Job}, s'.db.jobs k = some row₁ → row₁ = { row with enabled := false } :=
      fun h => Option.some.inj (h.symm.trans hj)
    refine ⟨fun row₁ h hw => ?_, fun row₁ h hw hopen => ?_, fun row₁ h hlock' => ?_⟩
    · rw [ends_concat hruns hl hended]
      exact (hs.lost_bound hrow (by rw [hsome h] at hw; exact hw) hon hends hunc).1
    · rw [hsome h, hoff] at hopen
      simp at hopen
    · simp [hlock] at hlock'
  | refused row hrow hon _ _ hj hr hlock _ =>
    rcases hj with hj | ⟨hj, saved, hsaved, hne⟩
    · have hsome : ∀ {row₁ : Job}, s'.db.jobs k = some row₁ →
          row₁ = { row with enabled := false } := fun h => Option.some.inj (h.symm.trans hj)
      rcases hinv.map_lost k with ⟨hno, hmap, -⟩ | ⟨-, l, r, hmap, hunc, hends, hl⟩
      · have hruns : s'.db.runsOf k = s.db.runsOf k := hr.trans hmap
        have hends : s'.db.ends k = s.db.ends k := by rw [Db.ends, hruns]; rfl
        have hoff : s'.db.running k = false := (running_eq hruns).trans hno
        refine ⟨fun row₁ h hw => ?_, fun row₁ h hw hopen => ?_, fun row₁ h hlock' => ?_⟩
        · rw [hends]; exact hs.bound row hrow (by rw [hsome h] at hw; exact hw)
        · rw [hsome h, hoff] at hopen
          simp at hopen
        · rw [hlock] at hlock'
          rcases hs.held row hrow hlock' with hrun | ⟨hoff, -⟩
          · rw [hno] at hrun; cases hrun
          · rw [hon] at hoff; cases hoff
      · have hruns : s'.db.runsOf k = l ++ [r] := hr.trans hmap
        have hended : r.status ≠ .running := by rw [hunc]; simp
        have hoff : s'.db.running k = false := not_running_of hruns hl hended
        refine ⟨fun row₁ h hw => ?_, fun row₁ h hw hopen => ?_, fun row₁ h _ => ?_⟩
        · rw [ends_concat hruns hl hended]
          exact (hs.lost_bound hrow (by rw [hsome h] at hw; exact hw) hon hends hunc).1
        · rw [hsome h, hoff] at hopen
          simp at hopen
        · rw [hsome h]
          exact .inr ⟨rfl, l, r, hruns, hunc⟩
    · -- The other engine executes the job: it has no runs here, and no lock.
      have hnil : s.db.runsOf k = [] := hinv.elsewhere k saved hsaved hne
      have hruns : s'.db.runsOf k = s.db.runsOf k := by rw [hr, hnil]; rfl
      have hends : s'.db.ends k = s.db.ends k := by rw [Db.ends, hruns]; rfl
      refine ⟨?_, ?_, ?_⟩
      · rw [hj, hends]; exact hs.bound
      · rw [hj, hends, running_eq hruns]; exact hs.counted
      · rw [hj, running_eq hruns, hruns, hlock]; exact hs.held
  | started row hrow hon hx _ hj hr hlock _ _ _ =>
    have hrun' : s'.db.running k = true :=
      Db.running_iff.2 ⟨_, by rw [hr]; exact List.mem_append_right _ (List.mem_singleton.2 rfl), rfl⟩
    have hends' : s'.db.ends k = ((s.db.runsOf k).map (Store.lost k)).filter (·.isEnded) := by
      simp [Db.ends, hr, List.filter_append, Run.isEnded]
    rcases hinv.map_lost k with ⟨hno, hmap, -⟩ | ⟨hrun, l, r, hmap, hunc, hends, hl⟩
    · have hsame : s'.db.ends k = s.db.ends k := by rw [hends', hmap]; rfl
      have hsome : ∀ {row₁ : Job}, s'.db.jobs k = some row₁ → row₁ = row := fun h => by
        rw [hj, hno] at h; exact (Option.some.inj h).symm
      refine ⟨fun row₁ h hw => ?_, fun row₁ h hw _ => ?_, fun _ _ _ => .inl hrun'⟩
      · rw [hsame]; exact hs.bound row hrow (by rw [← hsome h]; exact hw)
      · rw [hsome h, hsame]; exact hs.counted row hrow (by rw [← hsome h]; exact hw) (.inl hon)
    · have hended : r.status ≠ .running := by rw [hunc]; simp
      have hsame : s'.db.ends k = l ++ [r] := by
        rw [hends', hmap]
        refine filter_ended fun x hx => ?_
        rcases List.mem_append.1 hx with hx | hx
        · exact hl x hx
        · rw [List.mem_singleton.1 hx]; exact hended
      have hsome : ∀ {row₁ : Job}, s'.db.jobs k = some row₁ →
          row₁ = { row with retryCount := row.retryCount + 1 } := fun h => by
        rw [hj, hrun] at h; exact (Option.some.inj h).symm
      refine ⟨fun row₁ h hw => ?_, fun row₁ h hw _ => ?_, fun _ _ _ => .inl hrun'⟩
      · rw [hsame]
        exact (hs.lost_bound hrow (by rw [hsome h] at hw; exact hw) hon hends hunc).1
      · rw [hsome h] at hw ⊢
        refine ⟨by rw [hsame]; exact (hs.lost_bound hrow hw hon hends hunc).2.symm, ?_⟩
        -- The claim restarts a watch only below the retry limit.
        have hlt := hx hrun
        simp only [Job.exhausted, Bool.or_eq_false_iff, decide_eq_false_iff_not, Nat.not_le] at hlt
        exact hlt.2
  | completed w row v state text error due _ _ hw hlk hrow hv hj hr hlock _ =>
    obtain ⟨l, r, r', hlr, hmap, hst, -, hl⟩ := hinv.split_completed (hw _ h.2.2.1) hlk v text
    have hruns : s'.db.runsOf k = l ++ [r'] := hr.trans hmap
    have hended : r'.status ≠ .running := by rw [hst]; simp
    have hends : s'.db.ends k = l ++ [r'] := ends_concat hruns hl hended
    have hoff : s'.db.running k = false := not_running_of hruns hl hended
    have hfaulty : r'.faulty = v.state.faulty := by simp [Run.faulty, hst]
    have hsome : ∀ {row₁ : Job}, s'.db.jobs k = some row₁ → row₁ = Store.advance row v text due :=
      fun h => Option.some.inj (h.symm.trans hj)
    -- The runs before the completed one.
    have hbefore : row.jobType = .watch → AtMostInRow 3 Run.faulty l ∧
        streak Run.faulty l ≤ 2 ∧ (row.enabled = true → streak Run.faulty l = row.retryCount) := by
      intro hwatch
      rcases hs.held row hrow (by rw [hlk]; simp) with hrun | ⟨hrowoff, l₁, r₁, hl₁, hunc⟩
      · have hprev : s.db.ends k = l := by
          rcases hinv.map_lost k with ⟨hno, -⟩ | ⟨-, l₂, r₂, hmap₂, -, hends₂, -⟩
          · rw [hrun] at hno; cases hno
          · have hlen := congrArg List.dropLast (hmap₂.symm.trans (by rw [hlr, List.map_append]))
            rw [List.dropLast_concat, List.map_singleton, List.dropLast_concat] at hlen
            rw [hends₂, hlen, map_lost_of_ended hl]
        obtain ⟨hcount, htwo⟩ := hs.counted row hrow hwatch (.inr hrun)
        rw [hprev] at hcount
        exact ⟨hprev ▸ hs.bound row hrow hwatch, hcount ▸ htwo, fun _ => hcount.symm⟩
      · have hlast := List.append_inj' (hlr.symm.trans hl₁) rfl
        have hr₁ : r = r₁ := List.singleton_inj.1 hlast.2
        have hr₁ended : r.status ≠ .running := by rw [hr₁, hunc]; simp
        have hprev : s.db.ends k = l ++ [r] := ends_concat hlr hl hr₁ended
        have hb := hs.bound row hrow hwatch
        rw [hprev] at hb
        have hthree := hb.streak_le
        rw [streak_concat_of_pos (by simp [Run.faulty, hr₁, hunc, Outcome.faulty])] at hthree
        exact ⟨hb.of_concat, Nat.le_of_succ_le_succ hthree, fun hon => by
          rw [hon] at hrowoff; cases hrowoff⟩
    refine ⟨fun row₁ h hwatch => ?_, fun row₁ h hwatch hopen => ?_, fun row₁ h hlock' => ?_⟩
    · rw [hsome h] at hwatch
      obtain ⟨hb, htwo, -⟩ := hbefore hwatch
      rw [hends]
      refine hb.concat ?_
      rw [streak_concat]
      split_ifs
      · exact Nat.succ_le_succ htwo
      · exact Nat.zero_le _
    · rw [hsome h] at hwatch hopen ⊢
      obtain ⟨-, htwo, hcount⟩ := hbefore hwatch
      have hon : (row.enabled && !Store.disabled row v) = true := by
        rcases hopen with hon | hopen
        · exact hon
        · rw [hoff] at hopen; cases hopen
      simp only [Bool.and_eq_true, Bool.not_eq_true'] at hon
      rw [hends]
      cases hsafe : v.safeRetry with
      | true =>
        obtain ⟨hfailed, hlt⟩ := Store.verdict_safeRetry (hv ▸ hsafe)
        rw [← hv] at hfailed
        rw [streak_concat_of_pos (by rw [hfaulty, hfailed]; rfl), hcount hon.1]
        simp only [Store.advance, hsafe, if_true, true_and]
        exact hlt
      | false =>
        have hclean : r'.faulty = false := by
          rw [hfaulty]
          by_contra hf
          rw [Store.disabled_of_faulty (by simpa using hf) hsafe] at hon
          cases hon.2
        rw [streak_concat_of_neg hclean]
        simp [Store.advance, hsafe]
    · simp [hlock] at hlock'

theorem retried_reachable (h : (lts cal).Reachable Initial s) (k : JobId) : s.Retried k :=
  (h.invariant (I := fun s => s.Inv ∧ s.Retried k) (fun _ h => ⟨h.inv, h.retried k⟩)
    fun _ _ _ h hst => ⟨h.1.step hst, h.2.step h.1 hst⟩).2

/-- A completion that does not end `failed` clears `retry_count`. -/
theorem retries_restored (hinv : s.Inv) (h : (lts cal).step s c s') {r : Run}
    (hc : c.commits cal s.uuids s.db = some r.id) (hr : r ∈ s'.db.runsOf k)
    (hf : r.status ≠ .ended .failed) : ∃ row, s'.db.jobs k = some row ∧ row.retryCount = 0 := by
  obtain ⟨w, state, output, error, t₁, t₂, db', rfl, hid, hdone⟩ := Call.commits_iff.1 hc
  obtain ⟨hmem, hjob⟩ := List.mem_filter.1 hr
  have hjob : r.job = k := by simpa using hjob
  have hw : w ∈ s'.workers := by
    rw [h.2.2.2.2.1]; exact List.mem_append_left _ h.2.2.1
  have hk : w.job = k := ((hinv.step h).owned w hw r hmem hid.symm).symm.trans hjob
  have hdb : s'.db = db' := by rw [h.2.2.2.1, Call.perform, hdone]; rfl
  rcases Store.complete_ok hdone with ⟨-, -, h⟩ | ⟨row, due, extra, -, -, -, -, hdb', -⟩
  · cases h
  have hrun : r.status = .ended (Store.verdict row state error).state := by
    rw [hdb, hdb'] at hmem
    obtain ⟨r₀, -, rfl⟩ := List.mem_map.1 hmem
    rw [Store.finished_id] at hid
    simp [Store.finished, hid]
  have hsafe : (Store.verdict row state error).safeRetry = false := by
    by_contra hs
    exact hf (hrun.trans (congrArg _ (Store.verdict_safeRetry (by simpa using hs)).1))
  refine ⟨Store.advance row (Store.verdict row state error) (cut 65536 output) due, ?_, ?_⟩
  · rw [hdb, hdb', ← hk]; exact Table.set_same ..
  · simp [Store.advance, hsafe]

/-- **Bounded retries of a watch.**  In every reachable state, for every watch `k`:

* never more than three of its runs in a row end `failed`, `needs_input` or `uncertain`;
* after the third the watch is disabled, for good, and no further run of it is started;
* while it is enabled, `retry_count` is the number of faulty runs in a row, and two are allowed;
* a run that its worker ends otherwise than `failed` clears the count. -/
theorem bounded_retries (hs : (lts cal).Reachable Initial s) {row : Job}
    (hrow : s.db.jobs k = some row) (hw : row.jobType = .watch) :
    AtMostInRow 3 Run.faulty (s.db.ends k) ∧
    (streak Run.faulty (s.db.ends k) = 3 → row.enabled = false ∧ s.db.running k = false ∧
      ∀ ls s', (lts cal).Run s ls s' → s'.db.stopped k ∧ s'.db.runIds k = s.db.runIds k) ∧
    (row.enabled = true → row.retryCount = streak Run.faulty (s.db.ends k) ∧ row.retryCount ≤ 2) ∧
    (∀ c s' r, (lts cal).step s c s' → c.commits cal s.uuids s.db = some r.id →
      r ∈ s'.db.runsOf k → r.status ≠ .ended .failed →
      ∃ row', s'.db.jobs k = some row' ∧ row'.retryCount = 0) := by
  have hinv := inv_reachable hs
  have hret := retried_reachable hs k
  refine ⟨hret.bound row hrow hw, fun hthree => ?_, fun hon => hret.counted row hrow hw (.inl hon),
    fun c s' r hst hc hr hf => retries_restored hinv hst hc hr hf⟩
  have hclosed : ¬ (row.enabled = true ∨ s.db.running k = true) := fun hopen => by
    obtain ⟨hcount, htwo⟩ := hret.counted row hrow hw hopen
    rw [hcount, hthree] at htwo
    exact absurd htwo (by decide)
  simp only [not_or, Bool.not_eq_true] at hclosed
  exact ⟨hclosed.1, hclosed.2, fun ls s' hrun => stopped_run hinv hrun ⟨row, hrow, hclosed.1⟩⟩

/-- Three workers of a watch are lost, and the next claim disables it for good. -/
theorem bounded_retries_lost :
    let s := (Sample.start (Sample.job .watch 9)).runs Sample.cal
      [Sample.claim 0 0, Sample.claim 0 20, Sample.claim 0 40, Sample.claim 0 60]
    (s.db.ends 0).length = 3 ∧ AtMostInRow 3 Run.faulty (s.db.ends 0) ∧
      ∀ ls s', (lts Sample.cal).Run s ls s' → s'.db.stopped 0 := by
  intro s
  have hs : (lts Sample.cal).Reachable Initial s :=
    .run (.of_init (Sample.start_initial rfl rfl (by decide))) (run_runs (by decide))
  have hrow : s.db.jobs 0 = some { Sample.job .watch 9 with retryCount := 2, enabled := false } := by
    decide
  obtain ⟨hbound, hthree, -, -⟩ := bounded_retries hs hrow rfl
  exact ⟨by decide, hbound, fun ls s' h => ((hthree (by decide)).2.2 ls s' h).1⟩

end Sys

end Scheduling

end PythonAI
