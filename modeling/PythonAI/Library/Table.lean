import Mathlib.Logic.Function.Basic
import Mathlib.Tactic.Common

/-!
# Tables with a primary key

A table maps each key to at most one row.  `set` writes a row, `update` is the statement
`UPDATE … WHERE key = k AND p`, and `updateWhere` the statement whose `WHERE` names no single
key.  Both leave every row that the condition does not select as it was.  `deleteWhere` is the
statement `DELETE … WHERE p`, and `offer` the statement `INSERT OR IGNORE … SELECT`.
-/

namespace Library

/-- A table: the row stored under each key, if any. -/
def Table (K V : Type*) := K → Option V

namespace Table

variable {K V : Type*} [DecidableEq K]

/-- The table with no rows. -/
def empty : Table K V := fun _ => none

/-- Writes the row `v` under `k`. -/
def set (t : Table K V) (k : K) (v : V) : Table K V := Function.update t k (some v)

/-- Removes the row under `k`. -/
def erase (t : Table K V) (k : K) : Table K V := Function.update t k none

/-- Rewrites the row under `k`, if there is one and it satisfies `p`. -/
def update (t : Table K V) (k : K) (p : V → Bool) (f : V → V) : Table K V :=
  Function.update t k ((t k).map fun v => if p v then f v else v)

/-- Rewrites every row that satisfies `p`. -/
def updateWhere (t : Table K V) (p : K → V → Bool) (f : V → V) : Table K V :=
  fun k => (t k).map fun v => if p k v then f v else v

/-- Removes every row that satisfies `p`. -/
def deleteWhere (t : Table K V) (p : K → V → Bool) : Table K V :=
  fun k => (t k).filter fun v => !p k v

/-- Inserts `v` under each of the keys that has no row: `INSERT OR IGNORE`. -/
def offer (t : Table K V) (ks : List K) (v : V) : Table K V :=
  fun k => (t k).or (if k ∈ ks then some v else none)

/-- The row under `k` exists and satisfies `p`: the row count of an update is `1`. -/
def selects (t : Table K V) (k : K) (p : V → Bool) : Bool := (t k).any p

variable (t : Table K V) (k : K) (v : V) (p : V → Bool) (f : V → V)

omit [DecidableEq K] in
@[simp] theorem empty_apply : (empty : Table K V) k = none := rfl

@[simp] theorem set_same : (t.set k v) k = some v := Function.update_self ..

theorem set_of_ne {k' : K} (h : k' ≠ k) : (t.set k v) k' = t k' := Function.update_of_ne h ..

@[simp] theorem erase_same : (t.erase k) k = none := Function.update_self ..

theorem erase_of_ne {k' : K} (h : k' ≠ k) : (t.erase k) k' = t k' := Function.update_of_ne h ..

variable {t k} in
theorem erase_eq_some {k' : K} {v : V} (h : (t.erase k) k' = some v) : k' ≠ k ∧ t k' = some v := by
  by_cases hk : k' = k
  · rw [hk, erase_same] at h
    cases h
  · exact ⟨hk, (erase_of_ne t k hk).symm.trans h⟩

theorem set_set (v' : V) : (t.set k v).set k v' = t.set k v' := Function.update_idem ..

theorem erase_set : (t.set k v).erase k = t.erase k := Function.update_idem ..

theorem erase_erase : (t.erase k).erase k = t.erase k := Function.update_idem ..

theorem set_apply (k' : K) : (t.set k v) k' = if k' = k then some v else t k' := by
  by_cases h : k' = k
  · subst h; simp
  · simp [h, set_of_ne]

@[simp] theorem update_same :
    (t.update k p f) k = (t k).map fun v => if p v then f v else v :=
  Function.update_self ..

theorem update_of_ne {k' : K} (h : k' ≠ k) : (t.update k p f) k' = t k' :=
  Function.update_of_ne h ..

theorem update_apply (k' : K) :
    (t.update k p f) k' = (t k').map fun v => if k' = k ∧ p v then f v else v := by
  by_cases h : k' = k
  · subst h; simp
  · simp [h, update_of_ne]

omit [DecidableEq K] in
@[simp] theorem updateWhere_apply (q : K → V → Bool) :
    (t.updateWhere q f) k = (t k).map fun v => if q k v then f v else v := rfl

omit [DecidableEq K] in
theorem selects_eq_true : t.selects k p = true ↔ ∃ v, t k = some v ∧ p v = true := by
  simp [selects, Option.any_eq_true]

omit [DecidableEq K] in
theorem deleteWhere_eq_some {q : K → V → Bool} {v : V} :
    t.deleteWhere q k = some v ↔ t k = some v ∧ q k v = false := by
  rw [deleteWhere, Option.filter_eq_some_iff, Bool.not_eq_true']

theorem offer_of_some {ks : List K} {w : V} (h : t k = some w) : t.offer ks v k = some w := by
  rw [offer, h, Option.some_or]

theorem offer_of_none {ks : List K} (h : t k = none) :
    t.offer ks v k = if k ∈ ks then some v else none := by
  rw [offer, h, Option.none_or]

/-- An update that selects no row changes nothing. -/
theorem update_of_not_selects (h : t.selects k p = false) : t.update k p f = t := by
  funext k'
  by_cases hk : k' = k
  · subst hk
    cases hr : t k' with
    | none => simp [hr]
    | some v =>
      have hp : p v = false := by simpa [selects, hr] using h
      simp [hr, hp]
  · exact update_of_ne t k p f hk

/-- An update that selects the row under `k` rewrites it. -/
theorem update_of_selects {v : V} (h : t k = some v) (hp : p v = true) :
    (t.update k p f) k = some (f v) := by
  simp [h, hp]

/-- What an update does to one row: nothing, or `f` on the selected row. -/
theorem update_cases (k' : K) :
    (t.update k p f) k' = t k' ∨
      ∃ v, k' = k ∧ t k' = some v ∧ p v = true ∧ (t.update k p f) k' = some (f v) := by
  by_cases hk : k' = k
  · subst hk
    cases hr : t k' with
    | none => exact .inl (by simp [hr])
    | some v =>
      by_cases hp : p v = true
      · exact .inr ⟨v, rfl, rfl, hp, by simp [hr, hp]⟩
      · exact .inl (by simp [hr, hp])
  · exact .inl (update_of_ne t k p f hk)

omit [DecidableEq K] in
/-- What `updateWhere` does to one row: nothing, or `f` on a selected row. -/
theorem updateWhere_cases (q : K → V → Bool) (k' : K) :
    (t.updateWhere q f) k' = t k' ∨
      ∃ v, t k' = some v ∧ q k' v = true ∧ (t.updateWhere q f) k' = some (f v) := by
  cases hr : t k' with
  | none => exact .inl (by simp [hr])
  | some v =>
    by_cases hp : q k' v = true
    · exact .inr ⟨v, rfl, hp, by simp [hr, hp]⟩
    · exact .inl (by simp [hr, hp])

end Table

end Library
