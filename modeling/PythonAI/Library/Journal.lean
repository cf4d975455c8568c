import Mathlib.Data.List.Nodup
import Mathlib.Logic.Function.Basic

/-!
# Journals

A program makes changes one after the other, lists the ones it has made, and stops at the first that
fails.  `Rules` say when the step of a change goes through, where it leads, and what harm it does;
`run_spec` carries them from one step to a whole run.

Changes of files are `Edit`s: `overlay` is what a list of them makes of the files, and taking the
last one back leaves the earlier ones.
-/

namespace Library

/-! ### Edits -/

/-- An entry of a journal: a path, and what is there before and after. -/
structure Edit (K α : Type*) where
  /-- the path -/
  path : List K
  /-- the file before -/
  old : Option α
  /-- the file after -/
  new : Option α
  deriving DecidableEq

namespace Edit

variable {K α : Type*} [DecidableEq K] {f : List K → Option α} {e : Edit K α}
  {es : List (Edit K α)} {q : List K}

/-- The files `f` after the edits `es`, the last one first. -/
def overlay (f : List K → Option α) : List (Edit K α) → List K → Option α
  | [] => f
  | e :: es => Function.update (overlay f es) e.path e.new

theorem overlay_of_not_mem (h : ∀ e ∈ es, e.path ≠ q) : overlay f es q = f q := by
  induction es with
  | nil => rfl
  | cons e es ih =>
    have hq : q ≠ e.path := (h e (List.mem_cons_self ..)).symm
    rw [overlay, Function.update_of_ne hq]
    exact ih fun e' he' => h e' (List.mem_cons_of_mem _ he')

/-- Every edit of a journal on different paths is there. -/
theorem overlay_of_mem (hnodup : (es.map path).Nodup) (h : e ∈ es) :
    overlay f es e.path = e.new := by
  induction es with
  | nil => cases h
  | cons e' es ih =>
    obtain ⟨hfresh, hnodup⟩ := List.nodup_cons.1 hnodup
    rw [overlay]
    rcases List.mem_cons.1 h with rfl | h
    · rw [Function.update_self]
    · rw [Function.update_of_ne]
      · exact ih hnodup h
      · rintro heq
        exact hfresh (heq ▸ List.mem_map_of_mem h)

/-- Before its turn, the file of an edit is as it was. -/
theorem overlay_before {pre post : List (Edit K α)}
    (hnodup : ((pre ++ e :: post).map path).Nodup) : overlay f pre.reverse e.path = f e.path := by
  rw [List.map_append, List.map_cons] at hnodup
  refine overlay_of_not_mem fun e' he' hpath => ?_
  have hmem : e.path ∈ pre.map path :=
    hpath ▸ List.mem_map_of_mem (List.mem_reverse.1 he')
  exact List.disjoint_of_nodup_append hnodup hmem (List.mem_cons_self ..)

/-- Taking back the last edit leaves the earlier ones. -/
theorem overlay_undo (hfresh : ∀ e' ∈ es, e'.path ≠ e.path) (hold : f e.path = e.old) :
    Function.update (overlay f (e :: es)) e.path e.old = overlay f es := by
  have hback : overlay f es e.path = e.old := (overlay_of_not_mem hfresh).trans hold
  rw [overlay, Function.update_idem, ← hback, Function.update_eq_self]

end Edit

/-! ### Runs -/

namespace Journal

variable {S C ε : Type*}

/-- Makes the changes one after the other; the ones that are made are listed, the last one first. -/
def run (step : S → C → S × Except ε Unit) : S → List C → List C → S × List C × Except ε Unit
  | s, done, [] => (s, done, .ok ())
  | s, done, c :: cs =>
    match step s c with
    | (s', .ok ()) => run step s' (c :: done) cs
    | (s', .error e) => (s', done, .error e)

/-- What the step of a change does. -/
structure Rules (S C : Type*) where
  /-- it goes through -/
  passes : S → C → Prop
  /-- where it leads then -/
  next : S → C → S
  /-- it does harm, whether it goes through or not -/
  harms : S → C → Prop

namespace Rules

variable (R : Rules S C)

/-- Every step goes through. -/
def Smooth : S → List C → Prop
  | _, [] => True
  | s, c :: cs => R.passes s c ∧ Smooth (R.next s c) cs

/-- No step that is begun does harm. -/
def Spares : S → List C → Prop
  | _, [] => True
  | s, c :: cs => ¬ R.harms s c ∧ (R.passes s c → Spares (R.next s c) cs)

end Rules

/-- One step follows the rules: `Inv` is what holds when the given changes are made, and a state is
`Harmed` from the step on that does harm. -/
structure Follows (R : Rules S C) (Inv : List C → S → Prop) (Harmed : S → Prop) (pre : List C)
    (s : S) (c : C) (out : S × Except ε Unit) : Prop where
  /-- when it goes through -/
  passes : out.2 = .ok () ↔ R.passes s c
  /-- where it leads then -/
  next : out.2 = .ok () → out.1 = R.next s c
  /-- its change is made then -/
  made : out.2 = .ok () → Inv (pre ++ [c]) out.1
  /-- else it is not -/
  same : out.2 ≠ .ok () → Inv pre out.1
  /-- harm stays -/
  keeps : Harmed s → Harmed out.1
  /-- harm is done -/
  harms : ¬ Harmed s → (Harmed out.1 ↔ R.harms s c)

/-- A run from `s`, where the changes `pre` are made: it makes the changes `more` of `cs`. -/
structure Ran (R : Rules S C) (Inv : List C → S → Prop) (Harmed : S → Prop) (pre cs more : List C)
    (s : S) (out : S × List C × Except ε Unit) : Prop where
  /-- the changes are made in order -/
  first : more <+: cs
  /-- they are listed -/
  listed : out.2.1 = (pre ++ more).reverse
  /-- they are made -/
  made : Inv (pre ++ more) out.1
  /-- when it goes through -/
  smooth : out.2.2 = .ok () ↔ R.Smooth s cs
  /-- then all changes are made -/
  all : out.2.2 = .ok () → more = cs
  /-- harm stays -/
  keeps : Harmed s → Harmed out.1
  /-- harm is done by a step that does harm -/
  spares : ¬ Harmed s → (¬ Harmed out.1 ↔ R.Spares s cs)

/-- **A run follows the rules when its steps do.** -/
theorem run_spec {R : Rules S C} {Inv : List C → S → Prop} {Harmed : S → Prop}
    {step : S → C → S × Except ε Unit} {pre cs : List C} {s : S}
    (hstep : ∀ pre' c post, pre ++ cs = pre' ++ c :: post → ∀ s, Inv pre' s →
      Follows R Inv Harmed pre' s c (step s c)) (hinv : Inv pre s) :
    ∃ more, Ran R Inv Harmed pre cs more s (run step s pre.reverse cs) := by
  induction cs generalizing pre s with
  | nil =>
    refine ⟨[], List.prefix_rfl, by rw [List.append_nil]; rfl, by rwa [List.append_nil], ?_,
      fun _ => rfl, id, fun hs => ?_⟩
    · exact ⟨fun _ => trivial, fun _ => rfl⟩
    · exact ⟨fun _ => trivial, fun _ => hs⟩
  | cons c cs ih =>
    have hc := hstep pre c cs rfl s hinv
    rw [run]
    generalize step s c = out at hc ⊢
    obtain ⟨s', r⟩ := out
    cases r with
    | error e =>
      -- the run ends here
      have hpass : ¬ R.passes s c := fun hp => nomatch hc.passes.2 hp
      refine ⟨[], List.nil_prefix, by rw [List.append_nil], ?_, ?_, nofun, hc.keeps, fun hs => ?_⟩
      · rw [List.append_nil]
        exact hc.same nofun
      · exact ⟨nofun, fun hs => absurd hs.1 hpass⟩
      · exact (not_congr (hc.harms hs)).trans
          ⟨fun hh => ⟨hh, fun hp => absurd hp hpass⟩, fun hs => hs.1⟩
    | ok u =>
      have hpass := hc.passes.1 rfl
      have hnext : s' = R.next s c := hc.next rfl
      subst hnext
      have hrest : ∃ more, Ran R Inv Harmed (pre ++ [c]) cs more (R.next s c)
          (run step (R.next s c) (pre ++ [c]).reverse cs) :=
        ih (fun pre' c' post heq => hstep pre' c' post (by simpa using heq)) (hc.made rfl)
      obtain ⟨more, hmore⟩ := hrest
      rw [List.reverse_append, List.reverse_singleton, List.singleton_append] at hmore
      refine ⟨c :: more, (List.prefix_cons_inj c).2 hmore.first, ?_, ?_, ?_, ?_, ?_, fun hs => ?_⟩
      · simpa using hmore.listed
      · simpa using hmore.made
      · exact hmore.smooth.trans ⟨fun hs => ⟨hpass, hs⟩, fun hs => hs.2⟩
      · exact fun hok => congrArg _ (hmore.all hok)
      · exact fun hs => hmore.keeps (hc.keeps hs)
      · by_cases hharm : R.harms s c
        · refine ⟨fun hno => absurd ?_ hno, fun hsp => absurd hharm hsp.1⟩
          exact hmore.keeps ((hc.harms hs).2 hharm)
        · have hs' := (not_congr (hc.harms hs)).2 hharm
          exact (hmore.spares hs').trans
            ⟨fun hsp => ⟨hharm, fun _ => hsp⟩, fun hsp => hsp.2 hpass⟩

end Journal

end Library
