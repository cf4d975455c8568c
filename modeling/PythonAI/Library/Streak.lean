import Mathlib.Data.List.DropRight
import Mathlib.Tactic.Common

/-!
# Streaks

A history is a list that grows at its end.  The *streak* of a property is the number of entries
at the end that have it, and a history has at most `n` in a row when no block of consecutive
entries with the property is longer than `n`.  `atMost_concat` is the step rule: a bound on the
streak at each moment is a bound on every block.
-/

namespace Library

variable {α : Type*} {p : α → Bool} {l : List α} {x : α} {n : ℕ}

/-- The number of entries at the end of the history that satisfy `p`. -/
def streak (p : α → Bool) (l : List α) : ℕ := (l.rtakeWhile p).length

/-- No more than `n` consecutive entries of the history satisfy `p`. -/
def AtMostInRow (n : ℕ) (p : α → Bool) (l : List α) : Prop :=
  ∀ a m b, l = a ++ m ++ b → (∀ x ∈ m, p x = true) → m.length ≤ n

@[simp] theorem streak_nil : streak p [] = 0 := by simp [streak]

theorem streak_concat : streak p (l ++ [x]) = if p x then streak p l + 1 else 0 := by
  unfold streak
  rw [List.rtakeWhile_concat]
  split_ifs <;> simp

theorem streak_concat_of_pos (h : p x = true) : streak p (l ++ [x]) = streak p l + 1 := by
  rw [streak_concat, if_pos h]

theorem streak_concat_of_neg (h : p x = false) : streak p (l ++ [x]) = 0 := by
  rw [streak_concat, if_neg (by simp [h])]

/-- A block at the end of the history is no longer than the streak. -/
theorem length_le_streak {a m : List α} (hm : ∀ x ∈ m, p x = true) :
    m.length ≤ streak p (a ++ m) := by
  induction m using List.reverseRecOn with
  | nil => exact Nat.zero_le _
  | append_singleton m x ih =>
    have hx : p x = true := hm x (by simp)
    rw [← List.append_assoc, streak_concat_of_pos hx, List.length_append, List.length_singleton]
    exact Nat.succ_le_succ (ih fun y hy => hm y (List.mem_append_left _ hy))

theorem atMostInRow_nil : AtMostInRow n p [] := by
  intro a m b h _
  obtain ⟨h, -⟩ := List.append_eq_nil_iff.1 h.symm
  simp [(List.append_eq_nil_iff.1 h).2]

theorem AtMostInRow.streak_le (h : AtMostInRow n p l) : streak p l ≤ n := by
  obtain ⟨a, ha⟩ := List.rtakeWhile_suffix p l
  exact h a (l.rtakeWhile p) [] (by simp [ha]) fun x hx => List.mem_rtakeWhile_imp hx

/-- **The step rule.**  A history whose streak is bounded at each moment is bounded. -/
theorem AtMostInRow.concat (h : AtMostInRow n p l) (hx : streak p (l ++ [x]) ≤ n) :
    AtMostInRow n p (l ++ [x]) := by
  intro a m b hl hm
  rcases List.eq_nil_or_concat b with rfl | ⟨b, y, rfl⟩
  · rw [List.append_nil] at hl
    rw [hl] at hx
    exact le_trans (length_le_streak hm) hx
  · rw [List.concat_eq_append, ← List.append_assoc] at hl
    exact h a m b (List.append_inj' hl rfl).1 hm

theorem AtMostInRow.of_concat (h : AtMostInRow n p (l ++ [x])) : AtMostInRow n p l := by
  intro a m b hl hm
  exact h a m (b ++ [x]) (by rw [hl, List.append_assoc]) hm

end Library
