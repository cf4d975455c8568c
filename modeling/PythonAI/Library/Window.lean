import Mathlib.Data.List.Range
import Mathlib.Tactic.Common

/-!
# Windows of a numbered sequence

The items of a sequence are numbered from `1`.  A list is the *window* `(a, b]` of the sequence when
its items have the numbers `a + 1 … b`, in order.

* `Window.snoc` : the next item extends the window at its end;
* `Window.drop` : dropping the items up to a number moves the start of the window to it;
* `Window.expire` : the same, for the items that have expired, if later items expire later.
-/

namespace Library

variable {α : Type*} {num : α → ℕ} {a b : ℕ} {l : List α}

/-- The items of `l` have the numbers `a + 1 … b`, in order. -/
structure Window (num : α → ℕ) (a b : ℕ) (l : List α) : Prop where
  /-- the start is not after the end -/
  le : a ≤ b
  /-- the numbers -/
  nums : l.map num = List.range' (a + 1) (b - a)

namespace Window

theorem nil (a : ℕ) : Window num a a ([] : List α) := ⟨le_rfl, by simp⟩

theorem mem_nums (h : Window num a b l) {x : α} (hx : x ∈ l) : a < num x ∧ num x ≤ b := by
  have hm : num x ∈ l.map num := List.mem_map_of_mem hx
  rw [h.nums, List.mem_range'_1] at hm
  have := h.le
  omega

theorem exists_num (h : Window num a b l) {n : ℕ} (ha : a < n) (hb : n ≤ b) :
    ∃ x ∈ l, num x = n := by
  have hm : n ∈ l.map num := by
    rw [h.nums, List.mem_range'_1]
    omega
  exact List.mem_map.1 hm

/-- An empty window: nothing is stored. -/
theorem eq_nil (h : Window num a a l) : l = [] := by
  have := h.nums
  rwa [Nat.sub_self, List.range'_zero, List.map_eq_nil_iff] at this

/-- The next item extends the window. -/
theorem snoc (h : Window num a b l) {x : α} (hx : num x = b + 1) :
    Window num a (b + 1) (l ++ [x]) := by
  refine ⟨h.le.trans (Nat.le_succ b), ?_⟩
  have hlen : b + 1 - a = (b - a) + 1 := by have := h.le; omega
  have hlast : a + 1 + 1 * (b - a) = b + 1 := by have := h.le; omega
  rw [List.map_append, h.nums, hlen, List.range'_concat, hlast, List.map_singleton, hx]

theorem range'_filter (c : ℕ) : ∀ s n : ℕ,
    (List.range' s n).filter (fun i => c < i) = List.range' (max s (c + 1)) (s + n - max s (c + 1))
  | s, 0 => by
    rw [List.range'_zero, List.filter_nil, Nat.sub_eq_zero_of_le (by omega), List.range'_zero]
  | s, n + 1 => by
    rw [List.range'_succ]
    by_cases hs : c < s
    · have hmax : ∀ m, s ≤ m → max m (c + 1) = m := fun m hm => by omega
      rw [List.filter_cons_of_pos (by simpa using hs), range'_filter c (s + 1) n, hmax _ (by omega),
        hmax s le_rfl, show s + 1 + n - (s + 1) = n by omega,
        show s + (n + 1) - s = n + 1 by omega, List.range'_succ]
    · rw [List.filter_cons_of_neg (by simpa using hs), range'_filter c (s + 1) n,
        show max (s + 1) (c + 1) = max s (c + 1) by omega,
        show s + 1 + n = s + (n + 1) by omega]

/-- Dropping the items up to the number `c` moves the start of the window. -/
theorem drop (h : Window num a b l) {c : ℕ} {p : α → Bool} (hc : c ≤ b)
    (hp : ∀ x ∈ l, (p x = true ↔ c < num x)) : Window num (max a c) b (l.filter p) := by
  refine ⟨max_le h.le hc, ?_⟩
  have hfilter : l.filter p = l.filter ((fun i => decide (c < i)) ∘ num) :=
    List.filter_congr fun x hx => by
      simp only [Function.comp_apply]
      rw [Bool.eq_iff_iff, hp x hx, decide_eq_true_iff]
  have hle := h.le
  rw [hfilter, ← List.filter_map, h.nums, range'_filter]
  congr 1 <;> omega

/-- The largest number of an item that satisfies `p`, or `0`. -/
def last (num : α → ℕ) (p : α → Bool) (l : List α) : ℕ := ((l.filter p).map num).max?.getD 0

theorem le_last {p : α → Bool} {x : α} (hx : x ∈ l) (hp : p x = true) : num x ≤ last num p l :=
  List.le_max?_getD_of_mem (List.mem_map_of_mem (List.mem_filter.2 ⟨hx, hp⟩))

theorem last_mem (num : α → ℕ) (p : α → Bool) (l : List α) :
    last num p l = 0 ∨ ∃ x ∈ l, p x = true ∧ num x = last num p l := by
  unfold last
  cases hm : ((l.filter p).map num).max? with
  | none => exact .inl rfl
  | some n =>
    obtain ⟨x, hx, hn⟩ := List.mem_map.1 (List.max?_mem hm)
    exact .inr ⟨x, (List.mem_filter.1 hx).1, (List.mem_filter.1 hx).2, hn⟩

theorem last_le (h : Window num a b l) (p : α → Bool) : last num p l ≤ b := by
  rcases last_mem num p l with h0 | ⟨x, hx, -, hn⟩
  · omega
  · exact hn ▸ (h.mem_nums hx).2

/-- If an item that has not expired is followed by such items only, then dropping the expired ones
moves the start of the window to the last of them. -/
theorem expire (h : Window num a b l) {p : α → Bool}
    (hp : ∀ x ∈ l, ∀ y ∈ l, num x ≤ num y → p y = true → p x = true) :
    Window num (max a (last num p l)) b (l.filter fun x => !p x) := by
  refine h.drop (h.last_le p) fun x hx => ?_
  rw [Bool.not_eq_true']
  constructor
  · intro hnot
    by_contra hle
    rcases last_mem num p l with h0 | ⟨y, hy, hpy, hn⟩
    · have := (h.mem_nums hx).1
      omega
    · have := hp x hx y hy (by omega) hpy
      rw [hnot] at this
      cases this
  · intro hlt
    by_contra hpx
    have := @le_last _ num l p x hx (by simpa using hpx)
    omega

end Window

end Library
