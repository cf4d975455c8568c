import Mathlib.Data.List.Induction
import Mathlib.Data.List.Nodup

/-!
# Groups of a list

`Groups.of key xs` collects the members of `xs` under their keys, one member after the other, as a
loop with a dictionary of lists does.

* `Groups.get_of` : the group of a key has the members with this key, in the order of the list.
* `Groups.mem_of` : these are all the groups.
-/

namespace Library

namespace Groups

variable {α K : Type*} [DecidableEq K]

/-- Add `x` to the group of `k`; a key without a group gets a new one. -/
def add (k : K) (x : α) : List (K × List α) → List (K × List α)
  | [] => [(k, [x])]
  | g :: gs => if g.1 = k then (g.1, g.2 ++ [x]) :: gs else g :: add k x gs

/-- The groups of a list, in the order of their first members. -/
def of (key : α → K) (xs : List α) : List (K × List α) :=
  xs.foldl (fun gs x => add (key x) x gs) []

/-- The group of a key. -/
def get (k : K) (gs : List (K × List α)) : Option (List α) := (gs.find? (·.1 = k)).map (·.2)

variable {key : α → K} {k k' : K} {x : α} {xs ys : List α} {g : K × List α}
  {gs : List (K × List α)}

theorem of_append : of key (xs ++ [x]) = add (key x) x (of key xs) := by
  rw [of, List.foldl_append]
  rfl

theorem get_cons : get k (g :: gs) = if g.1 = k then some g.2 else get k gs := by
  by_cases h : g.1 = k
  · simp [get, h]
  · simp [get, h]

theorem get_add :
    get k' (add k x gs) = if k' = k then some ((get k gs).getD [] ++ [x]) else get k' gs := by
  induction gs with
  | nil =>
    by_cases h : k' = k
    · subst h
      simp [add, get]
    · simp [add, get, h, Ne.symm h]
  | cons g gs ih =>
    by_cases hg : g.1 = k
    · subst hg
      by_cases h : k' = g.1
      · subst h
        simp [add, get_cons]
      · simp [add, get_cons, h, Ne.symm h]
    · by_cases h : k' = k
      · subst h
        simp only [add, if_neg hg, get_cons, ih, if_true]
      · simp only [add, if_neg hg, get_cons, ih, if_neg h]

/-- The group of a key has the members with this key, in the order of the list. -/
theorem get_of : get k (of key xs) =
    if xs.filter (key · = k) = [] then none else some (xs.filter (key · = k)) := by
  induction xs using List.reverseRecOn with
  | nil => rfl
  | append_singleton xs x ih =>
    rw [of_append, get_add, List.filter_append]
    by_cases h : k = key x
    · subst h
      rw [ih]
      by_cases hnil : xs.filter (key · = key x) = []
      · simp [hnil]
      · simp [hnil]
    · rw [if_neg h, ih]
      simp [Ne.symm h]

theorem keys_add : (add k x gs).map (·.1) =
    if k ∈ gs.map (·.1) then gs.map (·.1) else gs.map (·.1) ++ [k] := by
  induction gs with
  | nil => rfl
  | cons g gs ih =>
    by_cases hg : g.1 = k
    · simp [add, hg]
    · rw [add, if_neg hg, List.map_cons, ih]
      by_cases hk : k ∈ gs.map (·.1)
      · rw [if_pos hk, if_pos (by rw [List.map_cons]; exact List.mem_cons_of_mem _ hk)]
        rfl
      · have hk' : k ∉ (g :: gs).map (·.1) := fun h => (List.mem_cons.1 h).elim (Ne.symm hg) hk
        rw [if_neg hk, if_neg hk']
        rfl

/-- Each key has one group. -/
theorem keys_nodup : ((of key xs).map (·.1)).Nodup := by
  induction xs using List.reverseRecOn with
  | nil => exact List.nodup_nil
  | append_singleton xs x ih =>
    rw [of_append, keys_add]
    by_cases hk : key x ∈ (of key xs).map (·.1)
    · rwa [if_pos hk]
    · rw [if_neg hk]
      exact List.nodup_append'.2 ⟨ih, List.nodup_singleton _, by simpa using hk⟩

theorem get_of_mem (hn : (gs.map (·.1)).Nodup) (h : g ∈ gs) : get g.1 gs = some g.2 := by
  induction gs with
  | nil => cases h
  | cons g' gs ih =>
    obtain ⟨hnot, hn⟩ := List.nodup_cons.1 hn
    rcases List.mem_cons.1 h with rfl | hmem
    · rw [get_cons, if_pos rfl]
    · have hne : g'.1 ≠ g.1 := fun he => hnot (List.mem_map.2 ⟨g, hmem, he.symm⟩)
      rw [get_cons, if_neg hne]
      exact ih hn hmem

/-- The groups of a list. -/
theorem mem_of : g ∈ of key xs ↔ g.2 = xs.filter (key · = g.1) ∧ g.2 ≠ [] := by
  constructor
  · intro h
    have hget := get_of_mem keys_nodup h
    rw [get_of] at hget
    by_cases hnil : xs.filter (key · = g.1) = []
    · simp [hnil] at hget
    · rw [if_neg hnil, Option.some.injEq] at hget
      exact ⟨hget.symm, hget ▸ hnil⟩
  · rintro ⟨hg, hnil⟩
    have hget : get g.1 (of key xs) = some g.2 := by rw [get_of, ← hg, if_neg hnil]
    obtain ⟨g', hfind, hsnd⟩ := Option.map_eq_some_iff.1 hget
    have hfst : g'.1 = g.1 := by simpa using List.find?_some hfind
    obtain rfl : g' = g := Prod.ext hfst hsnd
    exact List.mem_of_find?_eq_some hfind

end Groups

end Library
