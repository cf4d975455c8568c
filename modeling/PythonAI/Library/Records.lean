import Mathlib.Algebra.BigOperators.Group.List.Basic
import Mathlib.Data.List.Nodup
import Mathlib.Tactic.Abel

/-!
# Lists of rows with a key

A table that statements scan is a list of rows in the order of their insertion.  `Records.find` is
the row with a key; a statement `UPDATE … WHERE p` is a `map` that leaves the key of every row
alone, and an `INSERT` appends a row.  `Records.sum_map_ite` is the total of a column after an
update of one row.
-/

namespace Library

namespace Records

variable {α β K : Type*} [DecidableEq K] (key : α → K)

/-- The row with the key `k`. -/
def find (k : K) (rows : List α) : Option α := rows.find? fun x => key x = k

variable {key} {k : K} {rows : List α} {x y : α}

theorem key_of_find (h : find key k rows = some x) : key x = k := by
  simpa using List.find?_some h

theorem mem_of_find (h : find key k rows = some x) : x ∈ rows := List.mem_of_find?_eq_some h

variable (key) in
theorem find_isSome (h : x ∈ rows) : ∃ y, find key (key x) rows = some y := by
  cases hf : find key (key x) rows with
  | some y => exact ⟨y, rfl⟩
  | none => simpa using List.find?_eq_none.1 hf x h

/-- Where the keys differ, a row is found under its own key. -/
theorem find_of_mem (hn : (rows.map key).Nodup) (h : x ∈ rows) : find key (key x) rows = some x := by
  obtain ⟨y, hy⟩ := find_isSome key h
  rw [hy, List.inj_on_of_nodup_map hn (mem_of_find hy) h (key_of_find hy)]

/-- An update that leaves the keys alone commutes with the search. -/
theorem find_map {f : α → α} (hf : ∀ x ∈ rows, key (f x) = key x) :
    find key k (rows.map f) = (find key k rows).map f := by
  induction rows with
  | nil => rfl
  | cons x rows ih =>
    have hx := hf x List.mem_cons_self
    have ih := ih fun y hy => hf y (List.mem_cons_of_mem _ hy)
    unfold find at ih ⊢
    simp only [List.map_cons, List.find?_cons, hx]
    split
    · rfl
    · exact ih

/-- Rows that are left out do not matter where none of them has the key. -/
theorem find_filter {p : α → Bool} (hp : ∀ x ∈ rows, key x = k → p x = true) :
    find key k (rows.filter p) = find key k rows := by
  induction rows with
  | nil => rfl
  | cons x rows ih =>
    have ih := ih fun y hy => hp y (List.mem_cons_of_mem _ hy)
    unfold find at ih ⊢
    by_cases hx : key x = k
    · rw [List.filter_cons_of_pos (hp x List.mem_cons_self hx)]
      simp only [List.find?_cons, hx, decide_true]
    · have hskip : ((x :: rows).find? fun y => key y = k) = rows.find? fun y => key y = k := by
        simp only [List.find?_cons, hx, decide_false]
      rw [hskip, ← ih]
      by_cases hpx : p x = true
      · rw [List.filter_cons_of_pos hpx]
        simp only [List.find?_cons, hx, decide_false]
      · rw [List.filter_cons_of_neg hpx]

theorem find_append {new : List α} :
    find key k (rows ++ new) = (find key k rows).or (find key k new) := List.find?_append

theorem find_append_of_ne (h : key x ≠ k) : find key k (rows ++ [x]) = find key k rows := by
  simp [find, h]

theorem find_append_of_some {new : List α} (h : find key k rows = some x) :
    find key k (rows ++ new) = some x := by
  rw [find_append, h, Option.some_or]

/-- A row under a new key is found. -/
theorem find_append_new (h : ∀ y ∈ rows, key y ≠ key x) :
    find key (key x) (rows ++ [x]) = some x := by
  rw [find_append]
  have hnone : find key (key x) rows = none := List.find?_eq_none.2 fun y hy => by simpa using h y hy
  rw [hnone, Option.none_or]
  simp [find]

omit [DecidableEq K] in
theorem map_key {f : α → α} (hf : ∀ x ∈ rows, key (f x) = key x) :
    (rows.map f).map key = rows.map key := by
  rw [List.map_map]
  exact List.map_congr_left hf

omit [DecidableEq K] in
theorem nodup_append (hn : (rows.map key).Nodup) (h : ∀ y ∈ rows, key y ≠ key x) :
    ((rows ++ [x]).map key).Nodup := by
  rw [List.map_append, List.nodup_append]
  refine ⟨hn, List.nodup_singleton _, ?_⟩
  rintro _ hy _ hx rfl
  obtain ⟨y, hy, hxy⟩ := List.mem_map.1 hy
  exact h y hy (hxy.trans (by simpa using hx))

/-- The rows are counted key by key. -/
theorem length_eq_sum {ks : List K} (hn : ks.Nodup) (h : ∀ x ∈ rows, key x ∈ ks) :
    rows.length = (ks.map fun k => (rows.filter fun x => key x = k).length).sum := by
  induction rows with
  | nil =>
    rw [List.length_nil, List.sum_eq_zero]
    intro n hn
    obtain ⟨k, -, rfl⟩ := List.mem_map.1 hn
    rfl
  | cons x rows ih =>
    have hx := h x List.mem_cons_self
    have hcons : ∀ k, ((x :: rows).filter fun y => key y = k).length =
        (if key x = k then 1 else 0) + (rows.filter fun y => key y = k).length := by
      intro k
      by_cases hk : key x = k
      · rw [List.filter_cons_of_pos (by simpa using hk), if_pos hk, List.length_cons, Nat.add_comm]
      · rw [List.filter_cons_of_neg (by simpa using hk), if_neg hk, Nat.zero_add]
    have hone : (ks.map fun k => if key x = k then 1 else 0).sum = 1 := by
      refine Eq.trans ?_ (List.count_eq_one_of_mem hn hx)
      clear hn h hx ih
      induction ks with
      | nil => rfl
      | cons k ks ih =>
        rw [List.map_cons, List.sum_cons, ih, List.count_cons, Nat.add_comm]
        by_cases hk : key x = k
        · simp [hk]
        · simp [hk, Ne.symm hk]
    simp only [hcons]
    rw [List.sum_map_add, hone, ← ih fun y hy => h y (List.mem_cons_of_mem _ hy), List.length_cons,
      Nat.add_comm]

/-! ### Updates of a whole table -/

/-- Every row is replaced by a row that `R` allows, in the same order. -/
def Rewrites (R : α → α → Prop) (rows rows' : List α) : Prop :=
  ∃ f : α → α, rows' = rows.map f ∧ ∀ x ∈ rows, R x (f x)

namespace Rewrites

variable {R S T : α → α → Prop} {rows' rows'' : List α}

omit [DecidableEq K]

theorem of_map {f : α → α} (h : ∀ x ∈ rows, R x (f x)) : Rewrites R rows (rows.map f) :=
  ⟨f, rfl, h⟩

theorem refl (h : ∀ x ∈ rows, R x x) : Rewrites R rows rows := ⟨id, (List.map_id rows).symm, h⟩

theorem of_ite {p : α → Bool} {f : α → α} (hf : ∀ x ∈ rows, p x = true → R x (f x))
    (hr : ∀ x ∈ rows, R x x) : Rewrites R rows (rows.map fun x => if p x then f x else x) :=
  of_map fun x hx => by
    by_cases hp : p x = true
    · rw [if_pos hp]
      exact hf x hx hp
    · rw [if_neg hp]
      exact hr x hx

theorem trans (h : Rewrites R rows rows') (h' : Rewrites S rows' rows'')
    (hT : ∀ x ∈ rows, ∀ y ∈ rows', ∀ z, R x y → S y z → T x z) : Rewrites T rows rows'' := by
  obtain ⟨f, rfl, hf⟩ := h
  obtain ⟨g, rfl, hg⟩ := h'
  refine ⟨g ∘ f, List.map_map, fun x hx => ?_⟩
  exact hT x hx _ (List.mem_map_of_mem hx) _ (hf x hx) (hg _ (List.mem_map_of_mem hx))

theorem mono (h : Rewrites R rows rows') (hS : ∀ x ∈ rows, ∀ y, R x y → S x y) :
    Rewrites S rows rows' := by
  obtain ⟨f, rfl, hf⟩ := h
  exact ⟨f, rfl, fun x hx => hS x hx _ (hf x hx)⟩

/-- Every new row comes from an old one. -/
theorem old (h : Rewrites R rows rows') {y : α} (hy : y ∈ rows') : ∃ x ∈ rows, R x y := by
  obtain ⟨f, rfl, hf⟩ := h
  obtain ⟨x, hx, rfl⟩ := List.mem_map.1 hy
  exact ⟨x, hx, hf x hx⟩

/-- Every old row has become a new one. -/
theorem new (h : Rewrites R rows rows') {x : α} (hx : x ∈ rows) : ∃ y ∈ rows', R x y := by
  obtain ⟨f, rfl, hf⟩ := h
  exact ⟨f x, List.mem_map_of_mem hx, hf x hx⟩

theorem map_key (h : Rewrites R rows rows') (hR : ∀ x y, R x y → key y = key x) :
    rows'.map key = rows.map key := by
  obtain ⟨f, rfl, hf⟩ := h
  exact Records.map_key fun x hx => hR x _ (hf x hx)

end Rewrites

/-! ### Counts -/

omit [DecidableEq K] in
/-- A rewrite under which no row comes to satisfy `p` does not add to the rows that do. -/
theorem Rewrites.countP_le {R : α → α → Prop} {rows' : List α} {p q : α → Bool}
    (h : Rewrites R rows rows') (hR : ∀ x ∈ rows, ∀ y, R x y → p y = true → q x = true) :
    rows'.countP p ≤ rows.countP q := by
  obtain ⟨f, rfl, hf⟩ := h
  rw [List.countP_map]
  exact List.countP_mono_left fun x hx => hR x hx (f x) (hf x hx)

/-- An update of the row with the key `k` adds at most one row to those that satisfy `p`. -/
theorem countP_map_ite_le {p : α → Bool} {f : α → α} (hn : (rows.map key).Nodup) :
    (rows.map fun x => if key x = k then f x else x).countP p ≤ rows.countP p + 1 := by
  induction rows with
  | nil => exact Nat.zero_le _
  | cons x rows ih =>
    rw [List.map_cons, List.nodup_cons] at hn
    rw [List.map_cons, List.countP_cons, List.countP_cons]
    by_cases hx : key x = k
    · have hrest : (rows.map fun x => if key x = k then f x else x) = rows := by
        refine (List.map_congr_left fun y hy => ?_).trans (List.map_id rows)
        refine if_neg fun hid => hn.1 ?_
        rw [hx, ← hid]
        exact List.mem_map_of_mem hy
      rw [hrest]
      split_ifs <;> omega
    · rw [if_neg hx]
      have := ih hn.2
      omega

/-! ### Totals -/

section

variable {M : Type*} [AddCommGroup M] {f : α → α} {g : α → M}

/-- The total of a column after an update of the row `x`. -/
theorem sum_map_ite (hn : (rows.map key).Nodup) (hx : x ∈ rows) :
    ((rows.map fun y => if key y = key x then f y else y).map g).sum =
      (rows.map g).sum + (g (f x) - g x) := by
  induction rows with
  | nil => cases hx
  | cons y rows ih =>
    rw [List.map_cons, List.nodup_cons] at hn
    rcases List.mem_cons.1 hx with rfl | hx
    · have hrest : (rows.map fun y => if key y = key x then f y else y) = rows := by
        refine (List.map_congr_left fun y hy => ?_).trans (List.map_id rows)
        have hne : key y ≠ key x := fun h => hn.1 (h ▸ List.mem_map_of_mem hy)
        exact if_neg hne
      rw [List.map_cons, List.map_cons, List.map_cons, List.sum_cons, List.sum_cons, hrest,
        if_pos rfl]
      abel
    · have hne : key y ≠ key x := fun h => hn.1 (h ▸ List.mem_map_of_mem hx)
      rw [List.map_cons, List.map_cons, List.map_cons, List.sum_cons, List.sum_cons, if_neg hne,
        ih hn.2 hx]
      abel

end

end Records

end Library
