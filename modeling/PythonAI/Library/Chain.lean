import Mathlib.Data.Nat.Basic
import Mathlib.Logic.Function.Basic
import Mathlib.Tactic.Common

/-!
# Chains that grow at their head

Nodes are numbered from `0`.  A node is open or closed, and a closed node names its successor by a
link.  A chain starts with one open node; an open node may be rewritten, and closing it adds the
node it names.

* `Chain.Linear` : the nodes are `0 … n`, every node below `n` is closed and names the next one,
  and `n` is open;
* `Chain.Grows.linear` : growth keeps a chain linear;
* `Chain.Grows.closed` : a closed node never changes.
-/

namespace Library

variable {V L : Type*}

/-- What a chain reads of its nodes. -/
structure Chain (V L : Type*) where
  /-- the node is open -/
  isOpen : V → Prop
  /-- the node is closed and names its successor by this link -/
  names : V → L → Prop
  /-- the link of the node with the given number -/
  link : ℕ → V → L
  /-- a node that names a successor is closed -/
  closed : ∀ {v l}, names v l → ¬ isOpen v

namespace Chain

variable {C : Chain V L} {f f' : ℕ → Option V}

/-- The nodes `0 … n`, of which exactly the last one is open. -/
structure Linear (C : Chain V L) (f : ℕ → Option V) (n : ℕ) : Prop where
  /-- there is no gap -/
  range : ∀ i, (f i).isSome = true ↔ i ≤ n
  /-- a node below the last one names the next one -/
  next : ∀ i < n, ∃ v w, f i = some v ∧ f (i + 1) = some w ∧ C.names v (C.link (i + 1) w)
  /-- the last node is open -/
  head : ∃ v, f n = some v ∧ C.isOpen v

/-- A chain that is empty or linear. -/
def Wf (C : Chain V L) (f : ℕ → Option V) : Prop := (∀ i, f i = none) ∨ ∃ n, C.Linear f n

/-- One growth step. -/
inductive Grows (C : Chain V L) (f : ℕ → Option V) : (ℕ → Option V) → Prop
  | same : Grows C f f
  | start (v : V) (hfree : f 0 = none) (hopen : C.isOpen v) :
      Grows C f (Function.update f 0 (some v))
  | rewrite (i : ℕ) (v v' : V) (hv : f i = some v) (hopen : C.isOpen v) (hopen' : C.isOpen v')
      (hlink : C.link i v' = C.link i v) : Grows C f (Function.update f i (some v'))
  | extend (i : ℕ) (v v' w : V) (hv : f i = some v) (hopen : C.isOpen v)
      (hnames : C.names v' (C.link (i + 1) w)) (hlink : C.link i v' = C.link i v)
      (hw : C.isOpen w) :
      Grows C f (Function.update (Function.update f (i + 1) (some w)) i (some v'))

theorem Linear.eq_of_open {n i : ℕ} {v : V} (h : C.Linear f n) (hv : f i = some v)
    (hopen : C.isOpen v) : i = n := by
  have hle : i ≤ n := (h.range i).1 (by rw [hv]; rfl)
  by_contra hne
  obtain ⟨v', w, hv', -, hnames⟩ := h.next i (by omega)
  rw [hv] at hv'; cases hv'
  exact C.closed hnames hopen

/-- The link of a node does not change when its predecessor is asked for it. -/
theorem Linear.rewrite {n : ℕ} {v v' : V} (h : C.Linear f n) (hv : f n = some v)
    (hopen' : C.isOpen v') (hlink : C.link n v' = C.link n v) :
    C.Linear (Function.update f n (some v')) n := by
  refine ⟨fun i => ?_, fun i hi => ?_, v', Function.update_self .., hopen'⟩
  · by_cases hin : i = n
    · subst hin; simp
    · rw [Function.update_of_ne hin]; exact h.range i
  · obtain ⟨a, b, ha, hb, hnames⟩ := h.next i hi
    rw [Function.update_of_ne (by omega)]
    by_cases hn : i + 1 = n
    · subst hn
      rw [hv] at hb; cases hb
      exact ⟨a, v', ha, Function.update_self .., hlink ▸ hnames⟩
    · rw [Function.update_of_ne hn]
      exact ⟨a, b, ha, hb, hnames⟩

/-- Closing the last node adds the one it names. -/
theorem Linear.extend {n : ℕ} {v v' w : V} (h : C.Linear f n) (hv : f n = some v)
    (hnames : C.names v' (C.link (n + 1) w)) (hlink : C.link n v' = C.link n v)
    (hw : C.isOpen w) :
    C.Linear (Function.update (Function.update f (n + 1) (some w)) n (some v')) (n + 1) := by
  have hnew : Function.update (Function.update f (n + 1) (some w)) n (some v') (n + 1) = some w := by
    rw [Function.update_of_ne (by omega), Function.update_self]
  have hold : ∀ i, i ≠ n → i ≠ n + 1 →
      Function.update (Function.update f (n + 1) (some w)) n (some v') i = f i := fun i h₁ h₂ => by
    rw [Function.update_of_ne h₁, Function.update_of_ne h₂]
  refine ⟨fun i => ?_, fun i hi => ?_, w, hnew, hw⟩
  · rcases Nat.lt_trichotomy i (n + 1) with hlt | rfl | hgt
    · by_cases hin : i = n
      · subst hin; simp
      · rw [hold i hin (by omega), h.range]; omega
    · rw [hnew]; simp
    · rw [hold i (by omega) (by omega), h.range]; omega
  · by_cases hin : i = n
    · subst hin
      exact ⟨v', w, Function.update_self .., hnew, hnames⟩
    · obtain ⟨a, b, ha, hb, hab⟩ := h.next i (by omega)
      by_cases hn : i + 1 = n
      · subst hn
        rw [hv] at hb; cases hb
        refine ⟨a, v', ?_, Function.update_self .., hlink ▸ hab⟩
        rw [hold i (by omega) (by omega), ha]
      · refine ⟨a, b, ?_, ?_, hab⟩
        · rw [hold i hin (by omega), ha]
        · rw [hold (i + 1) hn (by omega), hb]

/-- **Growth keeps a chain linear.** -/
theorem Grows.wf (h : C.Grows f f') (hf : C.Wf f) : C.Wf f' := by
  cases h with
  | same => exact hf
  | start v hfree hopen =>
    rcases hf with hnone | ⟨n, hn⟩
    · refine .inr ⟨0, fun i => ?_, fun i hi => absurd hi (Nat.not_lt_zero i), v,
        Function.update_self .., hopen⟩
      by_cases hi : i = 0
      · subst hi; simp
      · rw [Function.update_of_ne hi, hnone]; simpa using hi
    · have := (hn.range 0).2 (Nat.zero_le n)
      rw [hfree] at this; cases this
  | rewrite i v v' hv hopen hopen' hlink =>
    rcases hf with hnone | ⟨n, hn⟩
    · rw [hnone] at hv; cases hv
    · obtain rfl := hn.eq_of_open hv hopen
      exact .inr ⟨i, hn.rewrite hv hopen' hlink⟩
  | extend i v v' w hv hopen hnames hlink hw =>
    rcases hf with hnone | ⟨n, hn⟩
    · rw [hnone] at hv; cases hv
    · obtain rfl := hn.eq_of_open hv hopen
      exact .inr ⟨i + 1, hn.extend hv hnames hlink hw⟩

/-- **A closed node never changes.** -/
theorem Grows.closed (h : C.Grows f f') (hf : C.Wf f) {i : ℕ} {v : V} (hv : f i = some v)
    (hc : ¬ C.isOpen v) : f' i = some v := by
  cases h with
  | same => exact hv
  | start w hfree hopen =>
    by_cases hi : i = 0
    · subst hi; rw [hfree] at hv; cases hv
    · rw [Function.update_of_ne hi, hv]
  | rewrite j w w' hw hopen hopen' hlink =>
    by_cases hi : i = j
    · subst hi; rw [hw] at hv; cases hv; exact absurd hopen hc
    · rw [Function.update_of_ne hi, hv]
  | extend j w w' x hw hopen hnames hlink hx =>
    have hj : i ≠ j := by
      rintro rfl
      rw [hw] at hv; cases hv; exact hc hopen
    have hj' : i ≠ j + 1 := by
      rintro rfl
      rcases hf with hnone | ⟨n, hn⟩
      · rw [hnone] at hv; cases hv
      · have hle := (hn.range (j + 1)).1 (by rw [hv]; rfl)
        have := hn.eq_of_open hw hopen
        omega
    rw [Function.update_of_ne hj, Function.update_of_ne hj', hv]

end Chain

end Library
