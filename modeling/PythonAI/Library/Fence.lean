import Mathlib.Order.Nat
import PythonAI.Library.Lts

/-!
# Fencing tokens

A resource has at most one holder, named by a token.  Tokens come from a supply that only grows,
and a step either keeps the holder, drops it, or makes the token it takes from the supply the
holder.  Then a token that was handed out before the last change of holder never holds the
resource again:

* `Fence.below` : every holder was handed out;
* `Fence.stale` : once the holder is at least `v`, no token smaller than `v` holds the resource.
-/

namespace Library

/-- A resource of `A` that is held with fencing tokens. -/
structure Fence {S L : Type*} (A : Lts S L) where
  /-- the token that holds the resource -/
  holder : S → Option ℕ
  /-- the next token of the supply -/
  supply : S → ℕ
  /-- a step keeps the holder, drops it, or takes the next token from the supply -/
  moves : ∀ {s l s'}, A.step s l s' → supply s ≤ supply s' ∧
    (holder s' = holder s ∨ holder s' = none ∨
      holder s' = some (supply s) ∧ supply s < supply s')

namespace Fence

variable {S L : Type*} {A : Lts S L} (F : Fence A)

/-- Every holder was handed out by the supply. -/
def Below (s : S) : Prop := ∀ k, F.holder s = some k → k < F.supply s

/-- No token smaller than `v` holds the resource. -/
def AtLeast (v : ℕ) (s : S) : Prop := ∀ k, F.holder s = some k → v ≤ k

variable {F} {s s' : S}

theorem supply_le {l : L} (h : A.step s l s') : F.supply s ≤ F.supply s' := (F.moves h).1

theorem Below.step {l : L} (hs : F.Below s) (h : A.step s l s') : F.Below s' := by
  intro k hk
  obtain ⟨hle, hkeep | hdrop | ⟨htake, hlt⟩⟩ := F.moves h
  · exact lt_of_lt_of_le (hs k (hkeep ▸ hk)) hle
  · rw [hdrop] at hk; cases hk
  · rw [htake] at hk; cases hk; exact hlt

theorem AtLeast.step {v : ℕ} {l : L} (hv : v ≤ F.supply s) (hs : F.AtLeast v s)
    (h : A.step s l s') : F.AtLeast v s' := by
  intro k hk
  obtain ⟨-, hkeep | hdrop | ⟨htake, -⟩⟩ := F.moves h
  · exact hs k (hkeep ▸ hk)
  · rw [hdrop] at hk; cases hk
  · rw [htake] at hk; cases hk; exact hv

/-- In every reachable state the holder was handed out. -/
theorem below {init : S → Prop} (h₀ : ∀ s, init s → F.Below s) (h : A.Reachable init s) :
    F.Below s :=
  h.invariant h₀ fun _ _ _ hs hst => hs.step hst

/-- **Fencing.**  Once no token smaller than `v` holds the resource, none ever does again. -/
theorem stale {v : ℕ} {ls : List L} (h : A.Run s ls s') (hv : v ≤ F.supply s)
    (hs : F.AtLeast v s) : F.AtLeast v s' :=
  (h.preserves (P := fun s => v ≤ F.supply s ∧ F.AtLeast v s)
    (fun _ _ _ h hst => ⟨h.1.trans (supply_le hst), h.2.step h.1 hst⟩) ⟨hv, hs⟩).2

end Fence

end Library
