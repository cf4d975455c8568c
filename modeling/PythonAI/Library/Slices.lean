import Mathlib.Tactic.Common

/-!
# Slices of a list

`slices n l` cuts a list at every `n`-th item, and `flatten_slices` puts it together again.
-/

namespace Library

variable {α : Type*}

/-- The slices `l[0:n]`, `l[n:2n]`, … of a list. -/
def slices (n : ℕ) (l : List α) : List (List α) :=
  (List.range ((l.length + (n - 1)) / n)).map fun i => (l.drop (n * i)).take n

/-- The first `k` slices are a prefix of the list. -/
theorem flatten_range_slices (n : ℕ) (l : List α) (k : ℕ) :
    ((List.range k).map fun i => (l.drop (n * i)).take n).flatten = l.take (n * k) := by
  induction k with
  | zero => simp
  | succ k ih =>
    rw [List.range_succ, List.map_append, List.flatten_append, ih, Nat.mul_succ, List.take_add]
    simp

/-- The first slice of a list, and the slices of the rest. -/
theorem slices_append {n : ℕ} (hn : 0 < n) {l : List α} (hl : l.length = n) (r : List α) :
    slices n (l ++ r) = l :: slices n r := by
  have hcount : ((l ++ r).length + (n - 1)) / n = (r.length + (n - 1)) / n + 1 := by
    rw [List.length_append, hl, Nat.add_assoc, Nat.add_div_left _ hn]
  rw [slices, hcount, List.range_succ_eq_map, List.map_cons, List.map_map, slices, Nat.mul_zero,
    List.drop_zero, List.take_left' hl]
  refine congrArg (l :: ·) (List.map_congr_left fun i _ => ?_)
  show ((l ++ r).drop (n * (i + 1))).take n = _
  rw [Nat.mul_succ, Nat.add_comm, ← List.drop_drop, List.drop_left' hl]

theorem flatten_slices {n : ℕ} (hn : 0 < n) (l : List α) : (slices n l).flatten = l := by
  rw [slices, flatten_range_slices]
  refine List.take_of_length_le ?_
  have hdiv := Nat.div_add_mod (l.length + (n - 1)) n
  have hmod := Nat.mod_lt (l.length + (n - 1)) hn
  omega

end Library
