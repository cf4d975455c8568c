import Mathlib.Data.List.Induction
import Mathlib.Data.List.Infix
import Mathlib.Logic.Function.Basic

/-!
# Trees of files and directories

A tree says what each path leads to; everything lies in a directory.  `mkdirs` makes a path and all
paths above it directories, `put` puts a file into a directory, and `remove` removes a file.  A tree
is known by its files and its directories, and every operation says what it does to either.
-/

namespace Library

/-- What a path leads to. -/
inductive Node (α : Type*)
  | dir
  | file (content : α)
  deriving DecidableEq, Repr

instance {α : Type*} : (n : Option (Node α)) → Decidable (n = some .dir)
  | none => isFalse nofun
  | some .dir => isTrue rfl
  | some (.file _) => isFalse nofun

/-- A tree of files and directories. -/
structure Tree (K α : Type*) where
  /-- what a path leads to -/
  node : List K → Option (Node α)
  /-- the root is a directory -/
  root : node [] = some .dir
  /-- everything lies in a directory -/
  parent : ∀ p k, node (p ++ [k]) ≠ none → node p = some .dir

namespace Tree

variable {K α : Type*} {t t' t'' : Tree K α} {p q : List K} {a : α}

@[ext] theorem ext (h : t.node = t'.node) : t = t' := by
  cases t
  cases t'
  cases h
  rfl

/-- The file at a path. -/
def file (t : Tree K α) (p : List K) : Option α :=
  match t.node p with
  | some (.file a) => some a
  | _ => none

theorem file_eq_some : t.file p = some a ↔ t.node p = some (.file a) := by
  unfold file
  split
  case h_1 h => simp [h]
  case h_2 h =>
    refine ⟨nofun, fun ha => ?_⟩
    exact absurd ha (h a)

theorem file_eq_none : t.file p = none ↔ t.node p = none ∨ t.node p = some .dir := by
  unfold file
  split
  case h_1 h => simp [h]
  case h_2 h =>
    cases hn : t.node p with
    | none => simp
    | some n =>
      cases n with
      | dir => simp
      | file a => exact absurd hn (h a)

theorem file_of_node (h : t'.node p = t.node p) : t'.file p = t.file p := by rw [file, h, file]

/-- A node is known by its file, and by whether it is a directory. -/
theorem node_congr (hfile : t'.file p = t.file p)
    (hdir : t'.node p = some .dir ↔ t.node p = some .dir) : t'.node p = t.node p := by
  cases hn : t.node p with
  | none =>
    rcases file_eq_none.1 (hfile.trans (file_eq_none.2 (.inl hn))) with h | h
    · exact h
    · rw [hdir.1 h] at hn
      cases hn
  | some n =>
    cases n with
    | dir => exact hdir.2 hn
    | file a => exact file_eq_some.1 (hfile.trans (file_eq_some.2 hn))

/-- There is a directory above everything. -/
theorem above (h : t.node p ≠ none) (hq : q <+: p) (hne : q ≠ p) : t.node q = some .dir := by
  induction p using List.reverseRecOn with
  | nil => exact absurd (List.prefix_nil.1 hq) hne
  | append_singleton p k ih =>
    rcases List.prefix_concat_iff.1 hq with rfl | hq
    · exact absurd rfl hne
    · have hp := t.parent p k h
      by_cases hqp : q = p
      · rw [hqp]
        exact hp
      · exact ih (by rw [hp]; nofun) hq hqp

variable [DecidableEq K]

/-- No file is in the way of the directory `p`. -/
def Clear (t : Tree K α) (p : List K) : Prop := ∀ q ∈ p.inits, (t.file q).isNone

instance : Decidable (t.Clear p) := inferInstanceAs (Decidable (∀ q ∈ p.inits, _))

omit [DecidableEq K] in
theorem clear_iff : t.Clear p ↔ ∀ q, q <+: p → t.file q = none := by
  simp [Clear, List.mem_inits]

/-- `p` and everything above it become directories. -/
def mkdirs (t : Tree K α) (p : List K) : Option (Tree K α) :=
  if t.Clear p then some {
    node := fun q => if q <+: p then some .dir else t.node q
    root := if_pos List.nil_prefix
    parent := by
      intro q k h
      by_cases hq : q <+: p
      · exact if_pos hq
      · have hqk : ¬ q ++ [k] <+: p := fun hqk => hq ((List.prefix_append q [k]).trans hqk)
        rw [if_neg hqk] at h
        rw [if_neg hq]
        exact t.parent q k h }
  else none

/-- The file `a` is put at `p`. -/
def put (t : Tree K α) (p : List K) (a : α) : Option (Tree K α) :=
  if h : p ≠ [] ∧ t.node p.dropLast = some .dir ∧ t.node p ≠ some .dir then some {
    node := Function.update t.node p (some (.file a))
    root := by rw [Function.update_of_ne h.1.symm, t.root]
    parent := by
      intro q k hqk
      have hdir : t.node q = some .dir := by
        by_cases he : q ++ [k] = p
        · have hq : p.dropLast = q := by rw [← he, List.dropLast_concat]
          rw [← hq]
          exact h.2.1
        · rw [Function.update_of_ne he] at hqk
          exact t.parent q k hqk
      rw [Function.update_of_ne, hdir]
      rintro rfl
      exact h.2.2 hdir }
  else none

/-- The file at `p` is removed. -/
def remove (t : Tree K α) (p : List K) : Option (Tree K α) :=
  if h : (t.file p).isSome then some {
    node := Function.update t.node p none
    root := by
      rw [Function.update_of_ne, t.root]
      rintro rfl
      simp [file, t.root] at h
    parent := by
      intro q k hqk
      have he : q ++ [k] ≠ p := by
        rintro rfl
        rw [Function.update_self] at hqk
        exact hqk rfl
      rw [Function.update_of_ne he] at hqk
      have hdir := t.parent q k hqk
      rw [Function.update_of_ne, hdir]
      rintro rfl
      simp [file, hdir] at h }
  else none

theorem mkdirs_eq_some : t.mkdirs p = some t' ↔
    t.Clear p ∧ t'.node = fun q => if q <+: p then some .dir else t.node q := by
  unfold mkdirs
  split_ifs with h
  · constructor
    · rintro ⟨⟩
      exact ⟨h, rfl⟩
    · rintro ⟨-, ht⟩
      exact congrArg some (Tree.ext ht.symm)
  · exact ⟨nofun, fun ht => absurd ht.1 h⟩

theorem mkdirs_eq_none : t.mkdirs p = none ↔ ¬ t.Clear p := by
  unfold mkdirs
  split_ifs with h
  · simp [h]
  · simp [h]

theorem put_eq_some : t.put p a = some t' ↔
    (p ≠ [] ∧ t.node p.dropLast = some .dir ∧ t.node p ≠ some .dir) ∧
    t'.node = Function.update t.node p (some (.file a)) := by
  unfold put
  split_ifs with h
  · constructor
    · rintro ⟨⟩
      exact ⟨h, rfl⟩
    · rintro ⟨-, ht⟩
      exact congrArg some (Tree.ext ht.symm)
  · exact ⟨nofun, fun ht => absurd ht.1 h⟩

theorem put_isSome : (t.put p a).isSome ↔
    p ≠ [] ∧ t.node p.dropLast = some .dir ∧ t.node p ≠ some .dir := by
  unfold put
  split_ifs with h
  · simp [h]
  · simp [h]

theorem remove_isSome : (t.remove p).isSome ↔ (t.file p).isSome := by
  unfold remove
  split_ifs with h
  · simp [h]
  · simp [h]

theorem remove_eq_some : t.remove p = some t' ↔
    (t.file p).isSome ∧ t'.node = Function.update t.node p none := by
  unfold remove
  split_ifs with h
  · constructor
    · rintro ⟨⟩
      exact ⟨h, rfl⟩
    · rintro ⟨-, ht⟩
      exact congrArg some (Tree.ext ht.symm)
  · exact ⟨nofun, fun ht => absurd ht.1 h⟩

/-! ### What is left alone -/

/-- The directories that `mkdirs` makes. -/
def missing (t : Tree K α) (p : List K) : List (List K) :=
  if t.Clear p then p.inits.filter fun q => (t.node q).isNone else []

omit [DecidableEq K] in
theorem mem_missing : q ∈ t.missing p ↔ t.Clear p ∧ q <+: p ∧ t.node q = none := by
  unfold missing
  split_ifs with h
  · simp [h, List.mem_inits]
  · simp [h]

omit [DecidableEq K] in
/-- Nothing is missing above a directory. -/
theorem missing_of_dir (h : t.node p = some .dir) : t.missing p = [] := by
  rw [List.eq_nil_iff_forall_not_mem]
  intro q hq
  obtain ⟨-, hqp, hnone⟩ := mem_missing.1 hq
  by_cases he : q = p
  · rw [he, h] at hnone
    cases hnone
  · rw [t.above (by rw [h]; nofun) hqp he] at hnone
    cases hnone

omit [DecidableEq K] in
/-- No file is above a directory. -/
theorem clear_of_dir (h : t.node p = some .dir) : t.Clear p := by
  refine clear_iff.2 fun q hq => file_eq_none.2 (.inr ?_)
  by_cases he : q = p
  · rw [he, h]
  · exact t.above (by rw [h]; nofun) hq he

/-- `mkdirs` makes the missing directories, and no others. -/
theorem mkdirs_dir (h : t.mkdirs p = some t') :
    t'.node q = some .dir ↔ t.node q = some .dir ∨ q ∈ t.missing p := by
  obtain ⟨hclear, hnode⟩ := mkdirs_eq_some.1 h
  rw [mem_missing, hnode]
  by_cases hq : q <+: p
  · simp only [if_pos hq, true_iff]
    rcases file_eq_none.1 (clear_iff.1 hclear q hq) with hn | hn
    · exact .inr ⟨hclear, hq, hn⟩
    · exact .inl hn
  · simp [hq]

theorem mkdirs_file (h : t.mkdirs p = some t') : t'.file = t.file := by
  funext q
  obtain ⟨hclear, hnode⟩ := mkdirs_eq_some.1 h
  by_cases hq : q <+: p
  · rw [clear_iff.1 hclear q hq, file, hnode]
    simp only [if_pos hq]
  · refine file_of_node ?_
    rw [hnode]
    exact if_neg hq

theorem put_file (h : t.put p a = some t') :
    t'.file = Function.update t.file p (some a) := by
  funext q
  by_cases hq : q = p
  · rw [hq, Function.update_self, file_eq_some, (put_eq_some.1 h).2, Function.update_self]
  · rw [Function.update_of_ne hq]
    refine file_of_node ?_
    rw [(put_eq_some.1 h).2, Function.update_of_ne hq]

theorem put_dir (h : t.put p a = some t') : t'.node q = some .dir ↔ t.node q = some .dir := by
  obtain ⟨⟨-, -, hne⟩, hnode⟩ := put_eq_some.1 h
  rw [hnode]
  by_cases hq : q = p
  · rw [hq, Function.update_self]
    exact ⟨nofun, fun hdir => absurd hdir hne⟩
  · rw [Function.update_of_ne hq]

theorem remove_file (h : t.remove p = some t') :
    t'.file = Function.update t.file p none := by
  funext q
  by_cases hq : q = p
  · rw [hq, Function.update_self, file_eq_none, (remove_eq_some.1 h).2, Function.update_self]
    exact .inl rfl
  · rw [Function.update_of_ne hq]
    refine file_of_node ?_
    rw [(remove_eq_some.1 h).2, Function.update_of_ne hq]

theorem remove_dir (h : t.remove p = some t') : t'.node q = some .dir ↔ t.node q = some .dir := by
  obtain ⟨hfile, hnode⟩ := remove_eq_some.1 h
  rw [hnode]
  by_cases hq : q = p
  · rw [hq, Function.update_self]
    refine ⟨nofun, fun hdir => ?_⟩
    rw [file_eq_none.2 (.inr hdir)] at hfile
    cases hfile
  · rw [Function.update_of_ne hq]

end Tree

end Library
