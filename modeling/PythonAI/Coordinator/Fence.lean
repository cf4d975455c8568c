import PythonAI.Coordinator.Moves

/-!
# `node_stopped` and a result that is published meanwhile

`node_stopped` reads the node of a lost activity in one transaction and writes it in another; the
worker of the activity may publish between the two.  The write has no condition on the state, so it
overwrites what was published; `process_done`, which ends the same worker, tests the state in the
transaction that writes it.

**Main results**: where each write of `node_stopped` finds its node in a state that its test
accepts, a published state is only changed by other operations (`Host.published_kept`); in general
it is not so (`Host.published_lost`).
-/

namespace PythonAI

open Library Budgets

namespace Coordinator

variable {h h' : Host} {a : Act} {k : NodeId} {r : Result} {s : NodeState}

/-- The test of `node_stopped`. -/
def Graphs.stoppable (db : Db) (n : Node) : Prop :=
  n.state = .running ∨ n.state = .cancelRequested ∨ n.state = .queued ∨
    n.state = .failed ∧ (db.run n.id).isSome = true

/-- A transaction that writes the state of a stopped node would pass the test again. -/
def Act.retests (a : Act) (h : Host) : Prop :=
  ∀ k s t, a = .fence k (some s) t → ∀ n ∈ h.db.nodes, n.id = k → Graphs.stoppable h.db n

/-- The transaction writes the state of a stopped node. -/
def Act.overwrites : Act → Bool
  | fence _ (some _) _ => true
  | _ => false

theorem Act.retests_of_not_overwrites (ha : a.overwrites = false) : a.retests h := by
  rintro k s t rfl
  cases ha

/-- The state of the node `k`. -/
def Host.stateOf (h : Host) (k : NodeId) : Option NodeState := (h.db.node k).map (·.state)

/-- The states that `publish` gives. -/
def NodeState.ofResult : NodeState → Bool
  | reviewPending | completed | rejected | needsInput => true
  | _ => false

theorem ofResult_publishState {n : Node} : (publishState n r).ofResult = true := by
  unfold publishState
  split_ifs <;> rfl

/-- What `publish` gives, `node_stopped` does not accept. -/
theorem not_stoppable {db : Db} {n : Node} (hs : n.state.ofResult = true) :
    ¬ Graphs.stoppable db n := by
  rintro (hn | hn | hn | ⟨hn, -⟩) <;> rw [hn] at hs <;> cases hs

namespace Host

/-- Every published state is one that `publish` gives. -/
theorem ofResult_of_published (hr : lts.Reachable Initial h) (hp : .published k r s ∈ h.held) :
    s.ofResult = true := by
  have hinv := hr.invariant (I := fun h => h.Wf ∧ ∀ k r s, .published k r s ∈ h.held → s.ofResult = true)
    (fun h hi => ⟨hi.wf, fun k r s hp => by rw [hi.held] at hp; cases hp⟩)
    (fun h a h' hI hs => ⟨wf_step hI.1 hs, fun k r s hp => by
      rcases held_step hI.1 hs hp with hp | hp
      · exact hI.2 k r s hp
      · cases hp with
        | published => exact ofResult_publishState
        | other hx => cases hx⟩)
  exact hinv.2 k r s hp

/-- The write of `node_stopped` leaves a published state alone, if it passes its test again. -/
theorem fence_step {st : Option NodeState} {t : Time} (hs : s.ofResult = true)
    (hk : h.stateOf k = some s) (hc : (Act.fence k' st t).retests h)
    (hst : lts.step h (.fence k' st t) h') : h'.stateOf k = some s := by
  obtain ⟨t', -, -, -, rfl⟩ := hst
  cases st with
  | none => exact hk
  | some st =>
    obtain ⟨n, hn, rfl⟩ := Option.map_eq_some_iff.1 hk
    have hne : n.id ≠ k' := fun hid =>
      not_stoppable hs (hc k' st t rfl n (Records.mem_of_find hn) hid)
    have hrow : ((h.after (.fence k' (some st) t) t').db.node k) = (h.db.node k).map fun n =>
        if n.id = k' then { n with state := st, updated := t } else n :=
      Records.find_map fun x _ => by split_ifs <;> rfl
    rw [stateOf, hrow, hn, Option.map_some, Option.map_some, if_neg hne]

/-- A step of the run from `h` to `h'` that is no fence changes the state `s` of the node `k`. -/
def ChangedElsewhere (h : Host) (as : List Act) (h' : Host) (k : NodeId) (s : NodeState) : Prop :=
  ∃ as₁ a as₂ m m', as = as₁ ++ a :: as₂ ∧ lts.Run h as₁ m ∧ m.stateOf k = some s ∧
    lts.step m a m' ∧ m'.stateOf k ≠ some s ∧ (∀ k st t, a ≠ .fence k st t) ∧ lts.Run m' as₂ h'

/-- **A published result is not lost to a fence that passes its test again**: in every run whose
steps are such, a node keeps the state that `publish` gave it, or another operation changes it. -/
theorem published_kept {as : List Act} (hr : (lts.restrict fun h a => a.retests h).Reachable Initial h)
    (hp : .published k r s ∈ h.held) (hk : h.stateOf k = some s)
    (hrun : (lts.restrict fun h a => a.retests h).Run h as h') :
    h'.stateOf k = some s ∨ ChangedElsewhere h as h' k s := by
  obtain ⟨h₀, as₀, hi, hr₀⟩ := hr
  have hs := ofResult_of_published ⟨h₀, as₀, hi, hr₀.of_restrict⟩ hp
  by_cases hend : h'.stateOf k = some s
  · exact .inl hend
  refine .inr ?_
  obtain ⟨as₁, a, as₂, m, m', rfl, h₁, hm, hst, ⟨hlost, hne⟩, h₂⟩ :=
    hrun.exists_step_of_lost (P := fun m => m.stateOf k = some s)
      (Q := fun _ a m' => m'.stateOf k ≠ some s ∧ ∀ k st t, a ≠ .fence k st t) hk hend
      fun m a m' hm hst => by
        by_cases hkeep : m'.stateOf k = some s
        · exact .inl hkeep
        · refine .inr ⟨hkeep, ?_⟩
          rintro k' st t rfl
          exact hkeep (fence_step hs hm hst.2 hst.1)
  exact ⟨as₁, a, as₂, m, m', rfl, h₁.of_restrict, hm, hst.1, hlost, hne, h₂.of_restrict⟩

end Host

namespace Sample

/-- The environment of a process that starts graphs. -/
def temporal : Env := { backend := some .temporal }

/-- The worker of the node `9` publishes while `node_stopped` is between its transactions. -/
def raced : Script :=
  began temporal ++ [fun _ => (.graphClaim temporal 10 9 7 1, 1), fun _ => (.nodeStopped 10 9, 2)] ++
    publishes (verified "commit") 3

end Sample

namespace Host

/-- The write of `node_stopped` loses the result that was published after its read. -/
theorem published_lost :
    let h := Sample.host.script Sample.raced
    let a := Act.fence 9 (some .needsResolution) 4
    lts.Reachable Initial h ∧ lts.step h a (h.after a 4) ∧
      .published 9 (Sample.verified "commit") .reviewPending ∈ h.held ∧
      h.stateOf 9 = some .reviewPending ∧ (h.after a 4).stateOf 9 = some .needsResolution := by
  intro h a
  refine ⟨.run (.of_init Sample.host_initial) (run_script (by decide)), ?_⟩
  refine ⟨⟨4, ?_, ?_, ?_, rfl⟩, ?_, ?_, ?_⟩ <;> decide

/-- After the publication `node_stopped` reads the node again, and its second transaction leaves the
result alone. -/
theorem published_kept_again :
    let h := Sample.host.script Sample.raced
    let fs : Sample.Script := [fun _ => (.nodeStopped 10 9, 4), fun _ => (.fence 9 none 5, 5)]
    (h.script fs).stateOf 9 = some .reviewPending ∨
      ChangedElsewhere h (h.acts fs) (h.script fs) 9 .reviewPending := by
  intro h fs
  have hfirst : (Sample.host.acts Sample.raced).all (!·.overwrites) = true := by decide
  have hsecond : (h.acts fs).all (!·.overwrites) = true := by decide
  refine published_kept (r := Sample.verified "commit") ?_ (by decide) (by decide) ?_
  · exact .run (.of_init Sample.host_initial)
      ((run_script (by decide)).restrict fun a ha _ =>
        Act.retests_of_not_overwrites (by simpa using List.all_eq_true.1 hfirst a ha))
  · exact (run_script (by decide)).restrict fun a ha _ =>
      Act.retests_of_not_overwrites (by simpa using List.all_eq_true.1 hsecond a ha)

end Host

end Coordinator

end PythonAI
