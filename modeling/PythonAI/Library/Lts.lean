import Mathlib.Data.List.Basic
import Mathlib.Tactic.Common

/-!
# Labelled transition systems and their runs

A system is a relation `step s l s'`; a *run* is a list of labels performed in order.  The
rules below are the ones by which a fact about one step becomes a fact about a whole run:

* `Lts.Reachable.invariant` : what holds initially and is kept by every step holds in every
  reachable state;
* `Lts.Run.preserves` : what every step keeps, a run keeps;
* `Lts.Run.preserves_under` : the same, where the step may use an invariant;
* `Lts.Run.exists_step_of_lost` : what a run loses, one of its steps loses;
* `Lts.restrict` : the runs whose steps all meet a condition.
-/

namespace Library

/-- A labelled transition system with states `S` and labels `L`. -/
structure Lts (S : Type*) (L : Type*) where
  /-- `step s l s'` : the system can move from `s` to `s'` performing `l`. -/
  step : S → L → S → Prop

namespace Lts

variable {S L : Type*} {A : Lts S L}

/-- `Run A s ls s'` : performing the labels `ls` in order leads from `s` to `s'`. -/
inductive Run (A : Lts S L) : S → List L → S → Prop
  | nil (s : S) : Run A s [] s
  | cons {s s' s'' : S} {l : L} {ls : List L} :
      A.step s l s' → Run A s' ls s'' → Run A s (l :: ls) s''

/-- `s` is reached by a run from a state that satisfies `init`. -/
def Reachable (A : Lts S L) (init : S → Prop) (s : S) : Prop :=
  ∃ s₀ ls, init s₀ ∧ A.Run s₀ ls s

namespace Run

theorem single {s s' : S} {l : L} (h : A.step s l s') : A.Run s [l] s' :=
  cons h (nil s')

theorem append {s s' s'' : S} {ls ls' : List L} (h : A.Run s ls s') (h' : A.Run s' ls' s'') :
    A.Run s (ls ++ ls') s'' := by
  induction h with
  | nil => exact h'
  | cons hst _ ih => exact cons hst (ih h')

theorem snoc {s s' s'' : S} {l : L} {ls : List L} (h : A.Run s ls s') (h' : A.step s' l s'') :
    A.Run s (ls ++ [l]) s'' :=
  append h (single h')

/-- What every step keeps, a run keeps. -/
theorem preserves {P : S → Prop} {s s' : S} {ls : List L} (h : A.Run s ls s')
    (hstep : ∀ s l s', P s → A.step s l s' → P s') (hs : P s) : P s' := by
  induction h with
  | nil => exact hs
  | cons hst _ ih => exact ih (hstep _ _ _ hs hst)

/-- What every step keeps in the states of an inductive invariant `I`, a run keeps. -/
theorem preserves_under {I P : S → Prop} {s s' : S} {ls : List L} (h : A.Run s ls s')
    (hinv : ∀ s l s', I s → A.step s l s' → I s')
    (hstep : ∀ s l s', I s → P s → A.step s l s' → P s') (hi : I s) (hs : P s) : P s' :=
  (h.preserves (P := fun s => I s ∧ P s)
    (fun s l s' h hst => ⟨hinv s l s' h.1 hst, hstep s l s' h.1 h.2 hst⟩) ⟨hi, hs⟩).2

/-- A property that no step outside `Q` changes can only be lost by a step of `Q`. -/
theorem exists_step_of_lost {P : S → Prop} {Q : S → L → S → Prop} {s s' : S} {ls : List L}
    (h : A.Run s ls s') (hs : P s) (hs' : ¬ P s')
    (hstep : ∀ s l s', P s → A.step s l s' → P s' ∨ Q s l s') :
    ∃ ls₁ l ls₂ t t', ls = ls₁ ++ l :: ls₂ ∧ A.Run s ls₁ t ∧ P t ∧ A.step t l t' ∧ Q t l t' ∧
      A.Run t' ls₂ s' := by
  induction h with
  | nil => exact absurd hs hs'
  | @cons s t s' l ls hst hrun ih =>
    rcases hstep s l t hs hst with ht | hq
    · obtain ⟨ls₁, k, ls₂, u, u', rfl, h₁, hu, hk, hq, h₂⟩ := ih ht hs'
      exact ⟨l :: ls₁, k, ls₂, u, u', rfl, cons hst h₁, hu, hk, hq, h₂⟩
    · exact ⟨[], l, ls, s, t, rfl, nil s, hs, hst, hq, hrun⟩

end Run

namespace Reachable

variable {init : S → Prop}

theorem of_init {s : S} (h : init s) : A.Reachable init s := ⟨s, [], h, .nil s⟩

theorem run {s s' : S} {ls : List L} (h : A.Reachable init s) (h' : A.Run s ls s') :
    A.Reachable init s' := by
  obtain ⟨s₀, ls₀, h₀, hr⟩ := h
  exact ⟨s₀, ls₀ ++ ls, h₀, hr.append h'⟩

theorem step {s s' : S} {l : L} (h : A.Reachable init s) (h' : A.step s l s') :
    A.Reachable init s' :=
  h.run (.single h')

/-- Reachable states satisfy every predicate that holds initially and is kept by every step. -/
theorem invariant {I : S → Prop} {s : S} (h : A.Reachable init s) (h₀ : ∀ s, init s → I s)
    (hstep : ∀ s l s', I s → A.step s l s' → I s') : I s := by
  obtain ⟨s₀, ls, hs₀, hr⟩ := h
  exact hr.preserves hstep (h₀ s₀ hs₀)

end Reachable

/-- The system whose steps are the steps of `A` that meet the condition `C`. -/
def restrict (A : Lts S L) (C : S → L → Prop) : Lts S L where
  step s l s' := A.step s l s' ∧ C s l

theorem Run.of_restrict {C : S → L → Prop} {s s' : S} {ls : List L}
    (h : (A.restrict C).Run s ls s') : A.Run s ls s' := by
  induction h with
  | nil s => exact .nil s
  | cons hst _ ih => exact .cons hst.1 ih

/-- A run whose labels meet the condition in every state. -/
theorem Run.restrict {C : S → L → Prop} {s s' : S} {ls : List L} (h : A.Run s ls s')
    (hC : ∀ l ∈ ls, ∀ s, C s l) : (A.restrict C).Run s ls s' := by
  induction h with
  | nil s => exact .nil s
  | cons hst _ ih =>
    exact .cons ⟨hst, hC _ List.mem_cons_self _⟩ (ih fun l hl => hC l (List.mem_cons_of_mem _ hl))

end Lts

end Library
