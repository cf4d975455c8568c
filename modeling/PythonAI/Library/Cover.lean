import Mathlib.Data.List.Basic
import Mathlib.Tactic.Common

/-!
# Spans that cover a list

A span is a part of a list, by its first position and the one after its last.  In a cover the spans
follow one another and none is empty, so that every position is in one of them, and the parts put
together are the list again.

* `Cover.flatten` : the parts of a cover, one after the other;
* `Cover.countP_contains` : **every position is in exactly one span**;
* `Cover.replace` : a span may be replaced by a cover of it.
-/

namespace Library

/-- The positions from the first number up to, and not including, the second. -/
abbrev Span := ℕ × ℕ

namespace Span

variable {α : Type*}

/-- `l[i:j]` -/
def slice (l : List α) (s : Span) : List α := (l.take s.2).drop s.1

/-- The position is in the span. -/
def contains (s : Span) (i : ℕ) : Bool := s.1 ≤ i && i < s.2

theorem slice_append {l : List α} {i j k : ℕ} (hij : i ≤ j) (hjk : j ≤ k) :
    slice l (i, j) ++ slice l (j, k) = slice l (i, k) := by
  obtain ⟨m, rfl⟩ := Nat.exists_eq_add_of_le hij
  obtain ⟨n, rfl⟩ := Nat.exists_eq_add_of_le hjk
  rw [slice, slice, slice, Nat.add_assoc i m n, ← List.take_drop, ← List.take_drop,
    ← Nat.add_assoc, ← List.take_drop, List.take_add, List.drop_drop]

end Span

/-- The spans go from `a` to `b`, each begins where the one before it ends, and none is empty. -/
def Cover : ℕ → List Span → ℕ → Prop
  | a, [], b => a = b
  | a, s :: ss, b => s.1 = a ∧ s.1 < s.2 ∧ Cover s.2 ss b

instance : ∀ a ss b, Decidable (Cover a ss b)
  | a, [], b => inferInstanceAs (Decidable (a = b))
  | a, s :: ss, b =>
    haveI := instDecidableCover s.2 ss b
    inferInstanceAs (Decidable (s.1 = a ∧ s.1 < s.2 ∧ Cover s.2 ss b))

variable {α : Type*} {a b c i : ℕ} {s : Span} {ss ts : List Span} {l : List α}

theorem cover_append : Cover a (ss ++ ts) c ↔ ∃ b, Cover a ss b ∧ Cover b ts c := by
  induction ss generalizing a with
  | nil =>
    refine ⟨fun h => ⟨a, rfl, h⟩, ?_⟩
    rintro ⟨b, rfl, h⟩
    exact h
  | cons s ss ih =>
    rw [List.cons_append, Cover, ih]
    constructor
    · rintro ⟨hs, hlt, b, hss, hts⟩
      exact ⟨b, ⟨hs, hlt, hss⟩, hts⟩
    · rintro ⟨b, ⟨hs, hlt, hss⟩, hts⟩
      exact ⟨hs, hlt, b, hss, hts⟩

namespace Cover

/-- A cover has no more spans than positions. -/
theorem length_le (h : Cover a ss b) : ss.length + a ≤ b := by
  induction ss generalizing a with
  | nil =>
    obtain rfl := h
    exact Nat.le_of_eq (Nat.zero_add a)
  | cons s ss ih =>
    obtain ⟨rfl, hlt, hss⟩ := h
    have hle := ih hss
    rw [List.length_cons]
    omega

theorem le (h : Cover a ss b) : a ≤ b := by
  have hle := h.length_le
  omega

/-- The spans are inside of the cover. -/
theorem mem (h : Cover a ss b) (hs : s ∈ ss) : a ≤ s.1 ∧ s.1 < s.2 ∧ s.2 ≤ b := by
  induction ss generalizing a with
  | nil => cases hs
  | cons t ss ih =>
    obtain ⟨rfl, hlt, hss⟩ := h
    rcases List.mem_cons.1 hs with rfl | hs
    · exact ⟨Nat.le_refl _, hlt, hss.le⟩
    · obtain ⟨h₁, h₂, h₃⟩ := ih hss hs
      exact ⟨by omega, h₂, h₃⟩

/-- The parts of a cover, one after the other. -/
theorem flatten (h : Cover a ss b) : (ss.map (Span.slice l)).flatten = Span.slice l (a, b) := by
  induction ss generalizing a with
  | nil =>
    obtain rfl := h
    rw [Span.slice, List.drop_eq_nil_of_le (List.length_take_le _ _)]
    rfl
  | cons s ss ih =>
    obtain ⟨rfl, hlt, hss⟩ := h
    rw [List.map_cons, List.flatten_cons, ih hss]
    exact Span.slice_append (Nat.le_of_lt hlt) hss.le

/-- **Every position of a cover is in exactly one span.** -/
theorem countP_contains (h : Cover a ss b) (ha : a ≤ i) (hb : i < b) :
    ss.countP (·.contains i) = 1 := by
  induction ss generalizing a with
  | nil =>
    obtain rfl := h
    omega
  | cons s ss ih =>
    obtain ⟨rfl, hlt, hss⟩ := h
    rw [List.countP_cons]
    by_cases hi : i < s.2
    · have hrest : ss.countP (·.contains i) = 0 := by
        refine List.countP_eq_zero.2 fun t ht hc => ?_
        have hle := (hss.mem ht).1
        rw [Span.contains, Bool.and_eq_true, decide_eq_true_iff] at hc
        omega
      rw [hrest, Span.contains, decide_eq_true ha, decide_eq_true hi]
      rfl
    · rw [ih hss (Nat.le_of_not_lt hi), Span.contains, decide_eq_false hi, Bool.and_false]
      rfl

/-- The last span of a cover ends it. -/
theorem getLast (h : Cover a (s :: ss) b) : ((s :: ss).getLast?).map (·.2) = some b := by
  induction ss generalizing a s with
  | nil =>
    obtain ⟨-, -, hb⟩ := h
    rw [← hb]
    rfl
  | cons t ss ih =>
    rw [List.getLast?_cons_cons]
    exact ih h.2.2

/-- Neighbours of a cover meet. -/
theorem zip_tail (h : Cover a (s :: ss) b) : ∀ x ∈ (s :: ss).zip ss, x.1.2 = x.2.1 := by
  induction ss generalizing a s with
  | nil => exact nofun
  | cons t ss ih =>
    intro x hx
    rw [List.zip_cons_cons] at hx
    rcases List.mem_cons.1 hx with rfl | hx
    · exact h.2.2.1.symm
    · exact ih h.2.2 x hx

/-- A span is replaced by spans that cover it. -/
theorem replace {us : List Span} (h : Cover a (ss ++ s :: ts) b) (hus : Cover s.1 us s.2) :
    Cover a (ss ++ us ++ ts) b := by
  obtain ⟨c, hss, rfl, -, hts⟩ := cover_append.1 h
  exact cover_append.2 ⟨s.2, cover_append.2 ⟨s.1, hss, hus⟩, hts⟩

end Cover

end Library
