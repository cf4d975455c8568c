import Mathlib.Data.Rat.Floor
import Mathlib.Tactic.Linarith
import PythonAI.Library.Firsts
import PythonAI.Scheduling.Host
import PythonAI.Scheduling.Times

/-!
# Occurrences across clock changes

`times` walks through wall-clock times and returns instants.  A later wall-clock time may be an
earlier instant, by at most what the offsets of the zone differ, so that the scan begins 26 hours
early and ends 26 hours late.

* `times_first` : **`times` returns the first instants whose wall-clock time matches**

A wall-clock time that is repeated has two such instants and one that is skipped has none.
-/

namespace PythonAI

open Library

namespace Scheduling

variable {z : Zone} {zs : Zones} {walls : ℕ → Except Error Wall} {M : Wall → Prop}
  {start wall : Wall} {base : ℚ} {after t : Time} {expression zone : String} {count fuel i : ℕ} {found ts : List Time}

/-- `instant.astimezone(zone).utcoffset()`. -/
def Zone.offset (z : Zone) (t : Time) : ℤ := z.wall t - t

/-- What `times` relies on in `zoneinfo`, for the wall-clock times after `start`. -/
structure Zone.Regular (z : Zone) (start : Wall) : Prop where
  /-- the offsets differ by at most 26 hours -/
  spread : ∀ t u, z.offset t ≤ z.offset u + foldMargin
  /-- a wall-clock time is converted with an offset of the zone -/
  converts : ∀ w, start < w → ∀ fold, ∃ t, w - z.instant w fold = z.offset t
  /-- the two folds of a wall-clock time give all its instants -/
  folds : ∀ t, start < z.wall t → z.instant (z.wall t) false = t ∨ z.instant (z.wall t) true = t

/-- What `times` relies on in `croniter`: the wall-clock times that match and come after `start` are
yielded in increasing order, and none is left out. -/
structure Enumerates (M : Wall → Prop) (start : Wall) (walls : ℕ → Except Error Wall) : Prop where
  /-- what is yielded matches -/
  sound : ∀ i w, walls i = .ok w → start < w ∧ M w
  /-- what matches is yielded before what comes later -/
  complete : ∀ i w, walls i = .ok w → ∀ v, start < v → M v → v ≤ w → ∃ j, j ≤ i ∧ walls j = .ok v

/-- The instants after `base` at which the clock of the zone shows a time that matches. -/
def occurrences (z : Zone) (M : Wall → Prop) (base : ℚ) : Set Time :=
  {t | base < t ∧ M (z.wall t)}

/-! ### The scan -/

/-- `found` after the first `i` wall-clock times. -/
structure Scanned (z : Zone) (walls : ℕ → Except Error Wall) (after : Time) (i : ℕ)
    (found : List Time) : Prop where
  /-- it is sorted -/
  sorted : found.Pairwise (· < ·)
  /-- it has all their instants after `after` -/
  mem_iff : ∀ t, t ∈ found ↔ after < t ∧ ∃ j, j < i ∧ walls j = .ok (z.wall t)

theorem mem_addInstant_iff {u : Time} : t ∈ addInstant found u ↔ t = u ∨ t ∈ found := by
  unfold addInstant
  split_ifs with hu
  · refine ⟨.inr, ?_⟩
    rintro (rfl | ht)
    · exact hu
    · exact ht
  · rw [List.mem_orderedInsert]

theorem addInstant_sorted {u : Time} (h : found.Pairwise (· < ·)) :
    (addInstant found u).Pairwise (· < ·) := by
  unfold addInstant
  split_ifs with hu
  · exact h
  · have hle : (found.orderedInsert (· ≤ ·) u).Pairwise (· ≤ ·) :=
      (h.imp le_of_lt).orderedInsert _ _
    have hne : (found.orderedInsert (· ≤ ·) u).Nodup :=
      (List.perm_orderedInsert _ u found).nodup_iff.2 (List.nodup_cons.2 ⟨hu, h.imp ne_of_lt⟩)
    exact hle.imp₂ (fun _ _ => lt_of_le_of_ne) hne

theorem mem_addFold {fold : Bool} : t ∈ addFold z after wall found fold ↔
    t ∈ found ∨ after < t ∧ z.wall t = wall ∧ z.instant wall fold = t := by
  simp only [addFold]
  split_ifs with hc
  · rw [mem_addInstant_iff]
    constructor
    · rintro (rfl | ht)
      · exact .inr ⟨hc.1, hc.2, rfl⟩
      · exact .inl ht
    · rintro (ht | ⟨-, -, rfl⟩)
      · exact .inr ht
      · exact .inl rfl
  · refine ⟨.inl, ?_⟩
    rintro (ht | ⟨hlt, hw, rfl⟩)
    · exact ht
    · exact absurd ⟨hlt, hw⟩ hc

theorem addFold_sorted {fold : Bool} (h : found.Pairwise (· < ·)) :
    (addFold z after wall found fold).Pairwise (· < ·) := by
  simp only [addFold]
  split_ifs
  · exact addInstant_sorted h
  · exact h

/-- A wall-clock time adds all its instants. -/
theorem Scanned.step (h : Scanned z walls after i found) (hw : walls i = .ok wall)
    (hfolds : ∀ t, z.wall t = wall → z.instant wall false = t ∨ z.instant wall true = t) :
    Scanned z walls after (i + 1) (addWall z after found wall) := by
  refine ⟨addFold_sorted (addFold_sorted h.sorted), fun t => ?_⟩
  have hadd : t ∈ addWall z after found wall ↔ t ∈ found ∨ after < t ∧ z.wall t = wall := by
    simp only [addWall, List.foldl_cons, List.foldl_nil, mem_addFold]
    constructor
    · rintro ((ht | ⟨hlt, hwt, -⟩) | ⟨hlt, hwt, -⟩)
      · exact .inl ht
      · exact .inr ⟨hlt, hwt⟩
      · exact .inr ⟨hlt, hwt⟩
    · rintro (ht | ⟨hlt, hwt⟩)
      · exact .inl (.inl ht)
      · rcases hfolds t hwt with hf | hf
        · exact .inl (.inr ⟨hlt, hwt, hf⟩)
        · exact .inr ⟨hlt, hwt, hf⟩
  rw [hadd, h.mem_iff]
  constructor
  · rintro (⟨hlt, j, hj, hwj⟩ | ⟨hlt, rfl⟩)
    · exact ⟨hlt, j, by omega, hwj⟩
    · exact ⟨hlt, i, by omega, hw⟩
  · rintro ⟨hlt, j, hj, hwj⟩
    by_cases hji : j = i
    · rw [hji, hw] at hwj
      exact .inr ⟨hlt, (Except.ok.inj hwj).symm⟩
    · exact .inl ⟨hlt, j, by omega, hwj⟩

/-- Where the scan stops. -/
theorem scan_stops (h : scan z walls after count fuel i found = .ok ts)
    (hs : Scanned z walls after i found)
    (hfolds : ∀ i wall, walls i = .ok wall → ∀ t, z.wall t = wall →
      z.instant wall false = t ∨ z.instant wall true = t) :
    ∃ j wall found' b, walls j = .ok wall ∧ Scanned z walls after (j + 1) found' ∧
      found'[count - 1]? = some b ∧ b + foldMargin < z.instant wall false ∧
      ts = found'.take count := by
  induction fuel generalizing i found with
  | zero => cases h
  | succ fuel ih =>
    simp only [scan, bind_eq_ok] at h
    obtain ⟨wall, hw, h⟩ := h
    have hstep := hs.step hw (hfolds i wall hw)
    split_ifs at h with hc
    · obtain ⟨b, hb, hlt⟩ := (Option.any_eq_true ..).1 hc
      cases h
      exact ⟨i, wall, _, b, hw, hstep, hb, of_decide_eq_true hlt, rfl⟩
    · exact ih h hstep

/-! ### The first occurrences -/

/-- No instant that comes later has a wall-clock time before the start of the scan. -/
theorem Zone.Regular.starts {z : Zone} (h : z.Regular start) (ht : after < t) :
    z.wall after - foldMargin < z.wall t := by
  have hspread := h.spread after t
  have hlt : (after : ℤ) < t := Int.ofNat_lt.2 ht
  simp only [Zone.offset] at hspread
  linarith

/-- An instant whose wall-clock time lies after that of the scan is not much earlier. -/
theorem Zone.Regular.ends {z : Zone} (h : z.Regular start) (hw : start < wall)
    (ht : wall < z.wall t) : z.instant wall false < t + foldMargin := by
  obtain ⟨u, hu⟩ := h.converts wall hw false
  have hspread := h.spread t u
  simp only [Zone.offset] at hu hspread
  have hlt : (z.instant wall false : ℤ) < t + foldMargin := by linarith
  exact_mod_cast hlt

/-- **`times` returns the first `count` instants after `base`**, in increasing order, whose
wall-clock time in the zone matches the cron expression.

`croniter` and `zoneinfo` give whole seconds, so that a fraction of a second in `base` plays no
role. -/
theorem times_first (hbase : 0 ≤ base) (hzone : zs.zone zone = .ok z)
    (hz : z.Regular (z.wall ⌊base⌋₊ - foldMargin))
    (hc : Enumerates M (z.wall ⌊base⌋₊ - foldMargin)
      (zs.walls expression (z.wall ⌊base⌋₊ - foldMargin)))
    (h : times zs expression zone ⌊base⌋₊ count = .ok ts) (l : List Time) :
    IsFirst (occurrences z M base) count l ↔ l = ts := by
  simp only [times, bind_eq_ok, ensure_eq_ok, Bool.and_eq_true, decide_eq_true_eq, hzone,
    Except.ok.injEq, exists_eq_left'] at h
  obtain ⟨-, ⟨hpos, -⟩, h⟩ := h
  obtain ⟨j, wall, found, b, hw, hscan, hb, hlt, rfl⟩ := scan_stops h
    ⟨.nil, fun t => by simp⟩ fun i w hi t ht => by
      rw [← ht]
      exact hz.folds t (ht ▸ (hc.sound i w hi).1)
  have hfirst : IsFirst (occurrences z M base) (count - 1 + 1) (found.take (count - 1 + 1)) := by
    refine .take hscan.sorted (fun t ht => ?_) hb fun t ht hnot => ?_
    · obtain ⟨hgt, i, -, hi⟩ := (hscan.mem_iff t).1 ht
      exact ⟨(Nat.floor_lt hbase).1 hgt, (hc.sound i _ hi).2⟩
    · have hgt : ⌊base⌋₊ < t := (Nat.floor_lt hbase).2 ht.1
      -- the instant belongs to a wall-clock time that was not reached
      have hlate : wall < z.wall t := by
        by_contra hle
        obtain ⟨i, hij, hi⟩ := hc.complete j wall hw _ (hz.starts hgt) ht.2 (not_lt.1 hle)
        exact hnot ((hscan.mem_iff t).2 ⟨hgt, i, by omega, hi⟩)
      have hend := hlt.trans (hz.ends (hc.sound j wall hw).1 hlate)
      exact Nat.lt_of_add_lt_add_right hend
  rw [Nat.sub_add_cancel hpos] at hfirst
  exact ⟨fun hl => hl.unique hfirst, fun hl => hl ▸ hfirst⟩

namespace Sample

/-- A clock that goes back from two hours ahead of UTC to one, at the instant 864000. -/
def summer : Zone where
  wall t := if t < 864000 then t + 7200 else t + 3600
  instant w fold :=
    (if w < 867600 ∨ fold = false ∧ w < 871200 then w - 7200 else w - 3600).toNat

/-- It is half past one. -/
def HalfPastOne (w : Wall) : Prop := w % 86400 = 5400

/-- Every cron expression is due at half past one. -/
def halfPast : Zones :=
  { Sample.zs with
    zone := fun _ => .ok summer
    walls := fun _ start i => .ok (((start - 5400) / 86400 + 1 + i) * 86400 + 5400) }

theorem summer_offset (t : ℕ) : summer.offset t = if t < 864000 then 7200 else 3600 := by
  have h : (if t < 864000 then (t : ℤ) + 7200 else t + 3600) - t =
      if t < 864000 then 7200 else 3600 := by
    split_ifs <;> omega
  exact h

theorem summer_before {w : ℤ} {fold : Bool} (hc : w < 867600 ∨ fold = false ∧ w < 871200) :
    summer.instant w fold = (w - 7200).toNat := congrArg Int.toNat (if_pos hc)

theorem summer_after {w : ℤ} {fold : Bool} (hc : ¬ (w < 867600 ∨ fold = false ∧ w < 871200)) :
    summer.instant w fold = (w - 3600).toNat := congrArg Int.toNat (if_neg hc)

theorem summer_converts (w : ℤ) (fold : Bool) (hw : 7200 < w) :
    ∃ t, w - summer.instant w fold = summer.offset t := by
  by_cases hc : w < 867600 ∨ fold = false ∧ w < 871200
  · refine ⟨0, ?_⟩
    rw [summer_before hc, summer_offset, if_pos (by decide)]
    omega
  · refine ⟨864000, ?_⟩
    rw [summer_after hc, summer_offset, if_neg (by decide)]
    omega

theorem summer_folds (t : ℕ) :
    summer.instant (summer.wall t) false = t ∨ summer.instant (summer.wall t) true = t := by
  by_cases ht : t < 864000
  · have hw : summer.wall t = (t : ℤ) + 7200 := if_pos ht
    have h : ((t : ℤ) + 7200 - 7200).toNat = t := by omega
    rw [hw, summer_before (.inr ⟨rfl, by omega⟩)]
    exact .inl h
  · have hw : summer.wall t = (t : ℤ) + 3600 := if_neg ht
    have h : ((t : ℤ) + 3600 - 3600).toNat = t := by omega
    refine .inr ?_
    rw [hw, summer_after (by rintro (h | ⟨h, -⟩) <;> [omega; cases h])]
    exact h

theorem summer_regular (hstart : 7200 ≤ start) : summer.Regular start := by
  refine ⟨fun t u => ?_, fun w hw fold => ?_, fun t _ => summer_folds t⟩
  · rw [summer_offset, summer_offset, foldMargin]
    split_ifs <;> decide
  · exact summer_converts w fold (hstart.trans_lt hw)

/-- The days are counted from the first half past one. -/
theorem halfPast_enumerates (expression : String) (start : ℤ) :
    Enumerates HalfPastOne start (halfPast.walls expression start) := by
  have hgt : ∀ i : ℕ, start < ((start - 5400) / 86400 + 1 + i) * 86400 + 5400 := by omega
  have hmod : ∀ i : ℕ, (((start - 5400) / 86400 + 1 + i) * 86400 + 5400) % 86400 = 5400 := by omega
  have hday : ∀ (i : ℕ) (v : ℤ), start < v → v % 86400 = 5400 →
      v ≤ ((start - 5400) / 86400 + 1 + i) * 86400 + 5400 →
      ∃ j : ℕ, j ≤ i ∧ ((start - 5400) / 86400 + 1 + j) * 86400 + 5400 = v := by
    intro i v hv hm hle
    exact ⟨(v / 86400 - (start - 5400) / 86400 - 1).toNat, by omega, by omega⟩
  refine ⟨fun i w hw => ?_, fun i w hw v hv hm hle => ?_⟩
  · cases hw
    exact ⟨hgt i, hmod i⟩
  · cases hw
    obtain ⟨j, hj, rfl⟩ := hday i v hv hm hle
    exact ⟨j, hj, rfl⟩

end Sample

/-- Half past one comes twice when the clock goes back. -/
theorem times_first_halfPast :
    times Sample.halfPast "30 1 * * *" "Europe/Paris" 858600 3 = .ok [862200, 865800, 952200] ∧
    ∀ l, IsFirst (occurrences Sample.summer Sample.HalfPastOne (858600 + 1 / 2)) 3 l ↔
      l = [862200, 865800, 952200] := by
  have hfloor : ⌊(858600 + 1 / 2 : ℚ)⌋₊ = 858600 := by
    rw [Nat.floor_eq_iff (by norm_num)]
    norm_num
  have htimes : times Sample.halfPast "30 1 * * *" "Europe/Paris" 858600 3 =
      .ok [862200, 865800, 952200] := by rfl
  refine ⟨htimes, times_first (by norm_num) rfl (Sample.summer_regular ?_)
    (Sample.halfPast_enumerates _ _) (hfloor.symm ▸ htimes)⟩
  rw [hfloor]
  decide

end Scheduling

end PythonAI
