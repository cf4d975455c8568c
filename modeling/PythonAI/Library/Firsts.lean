import Mathlib.Data.List.Sort
import Mathlib.Data.Set.Basic

/-!
# The first elements of a set

A list holds the first `n` elements of a set if it is increasing and everything else in the set is
greater.  There is at most one such list (`IsFirst.unique`), and a long enough increasing list begins
with it as soon as what the list misses is known to be greater (`IsFirst.take`).
-/

namespace Library

variable {α : Type*} [LinearOrder α] {S : Set α} {n : ℕ} {l l' : List α} {b : α}

/-- The list holds the first `n` elements of the set, in increasing order. -/
structure IsFirst (S : Set α) (n : ℕ) (l : List α) : Prop where
  /-- there are `n` of them -/
  length : l.length = n
  /-- they increase -/
  sorted : l.Pairwise (· < ·)
  /-- they belong to the set -/
  mem : ∀ a ∈ l, a ∈ S
  /-- the other elements of the set are greater -/
  below : ∀ a ∈ S, a ∉ l → ∀ b ∈ l, b < a

namespace IsFirst

theorem nodup (h : IsFirst S n l) : l.Nodup := h.sorted.imp ne_of_lt

theorem subset (h : IsFirst S n l) (h' : IsFirst S n l') : l ⊆ l' := by
  intro a ha
  by_contra hnot
  -- otherwise `l'` lies below `a`, so within `l`, and has one element less
  have hsub : a :: l' ⊆ l := by
    intro b hb
    rcases List.mem_cons.1 hb with rfl | hb
    · exact ha
    · by_contra hbl
      exact lt_asymm (h.below b (h'.mem b hb) hbl a ha) (h'.below a (h.mem a ha) hnot b hb)
  have hle := (List.subperm_of_subset (List.nodup_cons.2 ⟨hnot, h'.nodup⟩) hsub).length_le
  rw [List.length_cons, h.length, h'.length] at hle
  omega

/-- The list is unique. -/
theorem unique (h : IsFirst S n l) (h' : IsFirst S n l') : l = l' :=
  h.sorted.eq_of_mem_iff h'.sorted fun _ => ⟨fun ha => h.subset h' ha, fun ha => h'.subset h ha⟩

/-- An increasing list of elements begins with the first `n + 1` if everything that it misses is
greater than its element `n`. -/
theorem take (hs : l.Pairwise (· < ·)) (hmem : ∀ a ∈ l, a ∈ S) (hb : l[n]? = some b)
    (hrest : ∀ a ∈ S, a ∉ l → b < a) : IsFirst S (n + 1) (l.take (n + 1)) := by
  obtain ⟨hn, rfl⟩ := List.getElem?_eq_some_iff.1 hb
  refine ⟨?_, hs.sublist (List.take_sublist ..), fun a ha => hmem a (List.mem_of_mem_take ha), ?_⟩
  · rw [List.length_take]
    omega
  · intro a ha hnot c hc
    by_cases hal : a ∈ l
    · rw [← List.take_append_drop (n + 1) l] at hs hal
      exact (List.pairwise_append.1 hs).2.2 c hc a ((List.mem_append.1 hal).resolve_left hnot)
    · have hle : c ≤ l[n] := by
        rw [List.take_add_one, hb, Option.toList_some, List.mem_append, List.mem_singleton] at hc
        rcases hc with hc | rfl
        · have hd : l[n] ∈ l.drop n := List.mem_drop_iff_getElem.2 ⟨0, by omega, by simp⟩
          rw [← List.take_append_drop n l] at hs
          exact ((List.pairwise_append.1 hs).2.2 c hc _ hd).le
        · exact le_rfl
      exact hle.trans_lt (hrest a ha hal)

end IsFirst

end Library
