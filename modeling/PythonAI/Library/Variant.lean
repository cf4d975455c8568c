import PythonAI.Library.Lts

/-!
# Progress by a variant

A label that can be performed in every state of an invariant, and decreases a number until a goal
is met, meets the goal when it is performed often enough.

* `Lts.Run.exists_of_variant` : the goal is met by a run of the label alone
-/

namespace Library

namespace Lts

variable {S L : Type*} {A : Lts S L} {I G : S → Prop} {l : L}

/-- **The variant decreases until the goal is met.** -/
theorem Run.exists_of_variant (μ : S → ℕ)
    (hstep : ∀ s, I s → ∃ s', A.step s l s' ∧ (G s' ∨ I s' ∧ μ s' < μ s)) {s : S} (hs : I s) :
    ∃ n s', A.Run s (List.replicate n l) s' ∧ G s' := by
  induction hn : μ s using Nat.strongRecOn generalizing s with
  | _ n ih =>
    obtain ⟨s', hst, hgoal | ⟨hs', hlt⟩⟩ := hstep s hs
    · exact ⟨1, s', .single hst, hgoal⟩
    · obtain ⟨k, s'', hrun, hgoal⟩ := ih (μ s') (hn ▸ hlt) hs' rfl
      exact ⟨k + 1, s'', .cons hst hrun, hgoal⟩

end Lts

end Library
