import PythonAI.Coordinator.Claims

/-!
# The nodes that a cancellation has stopped

After `cancel` no selected node is queued or running, and only a human command brings a node back
into the queue.  Its last statement, an `UPDATE` in a transaction of its own, does not look at the
state of the node: an answer that was read before the cancellation requeues the node after it.

**Main results**: without such a statement a cancelled node is neither claimed nor published again
(`Host.cancelled_stays`); in general it is not so (`Host.cancelled_resumes`).
-/

namespace PythonAI

open Library Budgets

namespace Coordinator

variable {h h' : Host} {a : Act} {n n' : Node} {k : NodeId} {selected : List NodeId}

/-- The entry is a publication of the node `k`. -/
def Held.publishes (k : NodeId) : Held → Bool
  | published k' _ _ => k' = k
  | _ => false

/-- The transaction does not requeue a node that a committed cancellation has selected. -/
def Act.spares (a : Act) (h : Host) : Prop :=
  ∀ k selected, a = .requeue k → .cancelled selected ∈ h.held → k ∉ selected

/-! ### What `cancel` selects -/

theorem mem_select {rows : List Node} {fuel : ℕ} (hk : k ∈ select rows fuel selected) :
    k ∈ selected ∨ ∃ n ∈ rows, n.id = k := by
  induction fuel generalizing selected with
  | zero => exact .inl hk
  | succ fuel ih =>
    unfold select at hk
    split at hk
    · exact .inl hk
    case h_2 extra hextra =>
      rcases ih hk with hk | hk
      · rcases List.mem_append.1 hk with hk | hk
        · exact .inl hk
        · obtain ⟨n, hn, hid⟩ := List.mem_map.1 hk
          exact .inr ⟨n, (List.mem_filter.1 hn).1, hid⟩
      · exact .inr hk

/-- `cancel` selects rows. -/
theorem mem_closure {db : Db} {owner : Owner} {key : NodeId}
    (hsome : ((db.node key).filter (·.owner = owner)).isSome = true) (hk : k ∈ closure db owner key) :
    ∃ n ∈ db.nodes, n.id = k := by
  rcases mem_select hk with hk | ⟨n, hn, hid⟩
  · rw [List.mem_singleton.1 hk]
    obtain ⟨n, hn⟩ := Option.isSome_iff_exists.1 hsome
    have hfind := (Option.filter_eq_some_iff.1 hn).1
    exact ⟨n, Records.mem_of_find hfind, Records.key_of_find hfind⟩
  · exact ⟨n, (List.mem_filter.1 hn).1, hid⟩

theorem cancelNode_inactive {t : Time} : (cancelNode t n).state.active = false := by
  unfold cancelNode
  split_ifs with hm
  · rw [hm]
    rfl
  all_goals rfl

/-! ### Nodes that are neither queued nor running -/

theorem NodeState.inactive_of_halted {s : NodeState} (hs : s.halted = true) : s.active = false := by
  cases s with
  | queued | running => cases hs
  | _ => rfl

/-- Only a human brings a node back into the queue. -/
theorem Move.inactive (hm : Move h a n n') (hn : n.state.active = false) (ha : a ≠ .requeue n.id) :
    n'.state.active = false := by
  cases hm with
  | halts hh =>
    rcases hh.state with heq | hs | ⟨hrun, -⟩
    · rw [heq]
      exact hn
    · exact NodeState.inactive_of_halted hs
    · rw [hrun] at hn
      cases hn
  | claimed token t hq => rw [hq] at hn; cases hn
  | requeued hr => exact absurd hr ha
  | published env w r t₁ t ha hw hr =>
    rw [(renewable_iff.1 hr).2.2.1] at hn
    cases hn
  | _ => rfl

namespace Host

/-- The nodes of every committed cancellation are rows that are neither queued nor running. -/
def Stays (h : Host) : Prop :=
  ∀ selected, .cancelled selected ∈ h.held → ∀ k ∈ selected,
    (∃ n ∈ h.db.nodes, n.id = k) ∧ ∀ n ∈ h.db.nodes, n.id = k → n.state.active = false

/-- A cancellation that commits has stopped its nodes. -/
theorem stays_of_cancel {env : Env} {owner : Owner} {key : NodeId} {clock : NodeId → Time}
    (hs : lts.step h (.cancel env owner key clock) h')
    (hnew : .cancelled selected ∈ (Act.cancel env owner key clock).yields h.uuids h.db)
    (hk : k ∈ selected) (hn : n ∈ h'.db.nodes) (hid : n.id = k) : n.state.active = false := by
  obtain ⟨T, -, -, -, rfl⟩ := hs
  cases hr : (Act.cancel env owner key clock).attempt h.uuids h.db with
  | error e =>
    rw [Act.yields, hr] at hnew
    cases hnew
  | ok x =>
    obtain ⟨db', new⟩ := x
    rw [Act.yields_of_ok hr] at hnew
    have hdb : (h.after (.cancel env owner key clock) T).db = db' := Act.perform_of_ok hr
    rw [hdb] at hn
    simp only [Act.attempt, cancel, bind_eq_ok, pure_eq_ok] at hr
    obtain ⟨y, ⟨-, -, -, -, rfl⟩, hr⟩ := hr
    cases hr
    rw [List.mem_singleton] at hnew
    cases hnew
    obtain ⟨m, -, rfl⟩ := List.mem_map.1 hn
    split_ifs at hid ⊢ with hm
    · exact cancelNode_inactive
    · exact absurd (hid ▸ hk) hm

theorem stays_step (hw : h.Wf) (hi : h.Stays) (hc : a.spares h) (hs : lts.step h a h') :
    h'.Stays := by
  intro selected hsel k hk
  have hmono : (∃ n ∈ h.db.nodes, n.id = k) → ∃ n ∈ h'.db.nodes, n.id = k := by
    rintro ⟨n, hn, hid⟩
    obtain ⟨n', hn', hm⟩ := new_row hw hs hn
    exact ⟨n', hn', hm.id.trans hid⟩
  obtain ⟨new, hheld, rfl, hnew⟩ := given hw hs
  rw [hheld, List.mem_append] at hsel
  rcases hsel with hsel | hsel
  · obtain ⟨hrow, hstop⟩ := hi selected hsel k hk
    refine ⟨hmono hrow, fun n' hn' hid => ?_⟩
    rcases old_row hw hs hn' with ⟨n, hn, hm⟩ | hadd
    · refine hm.inactive (hstop n hn (hm.id.symm.trans hid)) fun ha => ?_
      exact hc n.id selected ha hsel ((hm.id.symm.trans hid) ▸ hk)
    · obtain ⟨n, hn, hnk⟩ := hrow
      exact absurd (hnk.trans hid.symm) (hadd.fresh n hn)
  · have hgiven := hnew _ hsel
    cases hgiven with
    | cancelled env owner key clock ha hsome =>
      subst ha
      exact ⟨hmono (mem_closure hsome hk), fun n hn hid => stays_of_cancel hs hsel hk hn hid⟩
    | other hx => cases hx

/-- No step claims a cancelled node, or publishes it. -/
theorem quiet_step (hw : h.Wf) (hi : h.Stays) (hs : lts.step h a h')
    (hsel : .cancelled selected ∈ h.held) (hk : k ∈ selected) :
    ∀ x ∈ a.yields h.uuids h.db, x.claims k = false ∧ x.publishes k = false := by
  obtain ⟨new, -, rfl, hnew⟩ := given hw hs
  have hstop := (hi selected hsel k hk).2
  intro x hx
  cases hnew x hx with
  | worker n token t hn hq =>
    refine ⟨decide_eq_false fun hid => ?_, rfl⟩
    have hbad := hstop n hn hid
    rw [hq] at hbad
    cases hbad
  | published env w r t₁ t ha hw hn =>
    refine ⟨rfl, decide_eq_false fun hid => ?_⟩
    obtain ⟨n, hn, hr⟩ := hn
    obtain ⟨hnid, -, hrun, -⟩ := renewable_iff.1 hr
    have hbad := hstop n hn (hnid.trans hid)
    rw [hrun] at hbad
    cases hbad
  | other hx =>
    cases x with
    | worker | published => cases hx
    | _ => exact ⟨rfl, rfl⟩
  | _ => exact ⟨rfl, rfl⟩

theorem stays (hr : (lts.restrict fun h a => a.spares h).Reachable Initial h) : h.Wf ∧ h.Stays := by
  refine hr.invariant (I := fun h => h.Wf ∧ h.Stays) (fun h hi => ⟨hi.wf, fun _ hsel => ?_⟩)
    fun h a h' hI hs => ⟨wf_step hI.1 hs.1, stays_step hI.1 hI.2 hs.2 hs.1⟩
  rw [hi.held] at hsel
  cases hsel

/-- **Cancelled nodes stay stopped**: in every run that requeues no cancelled node, the nodes that
a committed cancellation has selected are neither claimed nor published. -/
theorem cancelled_stays {as : List Act}
    (hr : (lts.restrict fun h a => a.spares h).Reachable Initial h)
    (hsel : .cancelled selected ∈ h.held)
    (hrun : (lts.restrict fun h a => a.spares h).Run h as h') :
    ∃ new, h'.held = h.held ++ new ∧
      ∀ k ∈ selected, ∀ x ∈ new, x.claims k = false ∧ x.publishes k = false := by
  have hrel := hrun.preserves (P := fun m => (m.Wf ∧ m.Stays) ∧ ∃ new, m.held = h.held ++ new ∧
      ∀ k ∈ selected, ∀ x ∈ new, x.claims k = false ∧ x.publishes k = false)
    (fun m a m' ⟨⟨hw, hi⟩, new, heq, hquiet⟩ hs => by
      refine ⟨⟨wf_step hw hs.1, stays_step hw hi hs.2 hs.1⟩, ?_⟩
      obtain ⟨more, hheld, rfl, -⟩ := given hw hs.1
      refine ⟨new ++ a.yields m.uuids m.db, by rw [hheld, heq, List.append_assoc],
        fun k hk x hx => ?_⟩
      rcases List.mem_append.1 hx with hx | hx
      · exact hquiet k hk x hx
      · exact quiet_step hw hi hs.1 (heq ▸ List.mem_append_left _ hsel) hk x hx)
    ⟨stays hr, [], (List.append_nil _).symm, fun _ _ _ hx => nomatch hx⟩
  exact hrel.2

end Host

namespace Sample

/-- `Coordinator.claim`, with its recovery. -/
def claims (t : Time) : Script :=
  [fun _ => (.recover {} (fun _ => t) t, t), fun _ => (.claim {} (fun _ => t), t)]

/-- The worker of the node `k` asks a question, and releases its task. -/
def asks (k : NodeId) (t : Time) : Script :=
  [fun h => (.task (.claim {} (node h k).taskKey.1 (node h k).taskKey.2 "goal" [] none none t t), t),
    fun h => (.task (.checkpoint {} (node h k).taskKey.1 (node h k).taskKey.2 (h.uuids - 2)
      .waitingUser { messages := [], suspendedToolCallId := some "call" } none t), t),
    fun h => (.task (.finish {} (node h k).taskKey.1 (node h k).taskKey.2 (h.uuids - 4) .suspended
      none t), t)]

/-- The last worker ends without a result. -/
def gives (s : NodeState) (t : Time) : Script := [fun h => (.fail {} (worker h) s t, t)]

/-- The last node that was read while it waited for input. -/
def asked (h : Host) (k : NodeId) : Node :=
  (h.held.reverse.findSome? fun
    | .seen n => if n.id = k ∧ n.state = .needsInput then some n else none
    | _ => none).getD (node h k)

/-- A human answers the question that was read. -/
def answers (k : NodeId) (t : Time) : Script := [fun h => (.answer {} (asked h k) "yes", t)]

/-- The answer is stored, and then the node cancelled. -/
def answered : Script :=
  began {} ++ claims 1 ++ asks 9 2 ++ gives .needsInput 3 ++ [fun _ => (.get "owner" 9, 4)] ++
    answers 9 5 ++ [fun _ => (.cancel {} "owner" 9 (fun _ => 6), 6)]

end Sample

namespace Host

/-- The last statement of an answer brings the cancelled node back, and a worker claims it. -/
theorem cancelled_resumes :
    let h := Sample.host.script Sample.answered
    let fs : Sample.Script := [fun _ => (.requeue 9, 7)] ++ Sample.claims 8
    lts.Reachable Initial h ∧ .cancelled [9] ∈ h.held ∧ lts.Run h (h.acts fs) (h.script fs) ∧
      (h.script fs).claims 9 = h.claims 9 + 1 := by
  intro h fs
  exact ⟨.run (.of_init Sample.host_initial) (run_script (by decide +kernel)), by decide +kernel,
    run_script (by decide +kernel), by decide +kernel⟩

/-- Without it, the cancelled node is not claimed. -/
theorem cancelled_stays_sample :
    let h := Sample.host.script Sample.answered
    let fs := Sample.claims 8
    ∃ new, (h.script fs).held = h.held ++ new ∧
      ∀ k ∈ [9], ∀ x ∈ new, x.claims k = false ∧ x.publishes k = false := by
  intro h fs
  have hspares : ∀ {as : List Act}, (as.all fun a => match a with
      | .requeue _ => false
      | _ => true) = true → ∀ a ∈ as, ∀ m, a.spares m := by
    rintro as hall a ha m k selected rfl -
    exact absurd (List.all_eq_true.1 hall _ ha) (by simp)
  have hrun : lts.Run h (h.acts fs) (h.script fs) := run_script (by decide +kernel)
  refine cancelled_stays ?_ (by decide +kernel) (hrun.restrict (hspares (by decide +kernel)))
  exact .run (.of_init Sample.host_initial)
    ((run_script (by decide +kernel)).restrict (hspares (by decide +kernel)))

end Host

end Coordinator

end PythonAI
