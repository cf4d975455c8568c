import Mathlib.Data.List.Sort
import PythonAI.Scheduling.Store

/-!
# The occurrences of a cron expression

`times` matches a cron expression against wall-clock times.  A wall-clock time that is skipped is
rejected, one that is repeated gives two instants, and the scan is bounded.  Every instant it
returns lies after the base (`times_gt`).
-/

namespace PythonAI

open Library

namespace Scheduling

/-- A naive datetime, in seconds. -/
abbrev Wall := ℤ

/-- A time zone. -/
structure Zone where
  /-- `instant.astimezone(zone).replace(tzinfo=None)` -/
  wall : Time → Wall
  /-- `wall.replace(tzinfo=zone,fold=fold).astimezone(timezone.utc)` -/
  instant : Wall → Bool → Time

/-- `croniter` and `zoneinfo`, as `times` uses them. -/
structure Zones extends Calendar where
  /-- `ZoneInfo(zone)` -/
  zone : String → Except Error Zone
  /-- the wall-clock times of `croniter(expression,start)` -/
  walls : String → Wall → ℕ → Except Error Wall

/-- 26 hours: the wall-clock interval around a repeated hour. -/
def foldMargin : ℕ := 26 * 3600

/-- `found.add(instant)`, with `found` kept sorted. -/
def addInstant (found : List Time) (instant : Time) : List Time :=
  if instant ∈ found then found else found.orderedInsert (· ≤ ·) instant

/-- The instant of a wall-clock time in one fold, if it lies after `after` and is no gap. -/
def addFold (z : Zone) (after : Time) (wall : Wall) (found : List Time) (fold : Bool) : List Time :=
  let instant := z.instant wall fold
  if after < instant ∧ z.wall instant = wall then addInstant found instant else found

/-- Both folds of a wall-clock time. -/
def addWall (z : Zone) (after : Time) (found : List Time) (wall : Wall) : List Time :=
  [false, true].foldl (addFold z after wall) found

/-- The loop of `times`: `fuel` more wall-clock times are read, from the number `i` on. -/
def scan (z : Zone) (walls : ℕ → Except Error Wall) (after : Time) (count : ℕ) :
    ℕ → ℕ → List Time → Except Error (List Time)
  | 0, _, _ => .error (.value "Cron preview exceeds bounded occurrence scan")
  | fuel + 1, i, found => do
    let wall ← walls i
    let found := addWall z after found wall
    if found[count - 1]?.any (· + foldMargin < z.instant wall false) then pure (found.take count)
    else scan z walls after count fuel (i + 1) found

/-- `times`. -/
def times (zs : Zones) (expression zone : String) (after : Time) (count : ℕ) :
    Except Error (List Time) := do
  ensure (1 ≤ count && count ≤ 100) (.value "Expected 1..100 occurrences")
  let z ← zs.zone zone
  scan z (zs.walls expression (z.wall after - foldMargin)) after count 10000 0 []

section

variable {z : Zone} {walls : ℕ → Except Error Wall} {after : Time} {count fuel i : ℕ}
  {found l : List Time}

theorem mem_addInstant {t u : Time} (h : t ∈ addInstant found u) : t = u ∨ t ∈ found := by
  unfold addInstant at h
  split_ifs at h with hu
  · exact .inr h
  · rw [List.mem_orderedInsert] at h
    exact h

theorem addFold_gt {wall : Wall} {fold : Bool} (h : ∀ t ∈ found, after < t) :
    ∀ t ∈ addFold z after wall found fold, after < t := by
  intro t ht
  simp only [addFold] at ht
  split_ifs at ht with hc
  · rcases mem_addInstant ht with rfl | ht
    · exact hc.1
    · exact h t ht
  · exact h t ht

theorem addWall_gt {wall : Wall} (h : ∀ t ∈ found, after < t) :
    ∀ t ∈ addWall z after found wall, after < t :=
  addFold_gt (addFold_gt h)

theorem scan_gt (hl : scan z walls after count fuel i found = .ok l)
    (h : ∀ t ∈ found, after < t) : ∀ t ∈ l, after < t := by
  induction fuel generalizing i found with
  | zero => cases hl
  | succ fuel ih =>
    simp only [scan, bind_eq_ok] at hl
    obtain ⟨wall, -, hl⟩ := hl
    split_ifs at hl with hc
    · cases hl
      exact fun t ht => addWall_gt h t (List.mem_of_mem_take ht)
    · exact ih hl (addWall_gt h)

/-- **Every occurrence lies after the base.** -/
theorem times_gt {zs : Zones} {expression zone : String}
    (h : times zs expression zone after count = .ok l) : ∀ t ∈ l, after < t := by
  simp only [times, bind_eq_ok, ensure_eq_ok] at h
  obtain ⟨-, -, z, -, h⟩ := h
  exact scan_gt h fun _ ht => absurd ht List.not_mem_nil

end

end Scheduling

end PythonAI
