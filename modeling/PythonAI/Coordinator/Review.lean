import PythonAI.Coordinator.Stopped

/-!
# The review gate

A verified result of a coder waits for its reviewer, and is merged only after an approval.  Between
publication and merge nothing but the evidence of the merge is added to the result, so the commit
that the reviewer was given is the commit that is merged.

The last statement of a human command requeues its node in whatever state it is; a coder whose
result waits, or is approved, then runs and publishes again, under the old review.

**Main results**: where no verified result is requeued, the gate holds in every reachable state
(`Host.review_gate`); in general it does not (`Host.review_bypassed`).
-/

namespace PythonAI

open Library Budgets

namespace Coordinator

variable {h h' : Host} {a : Act} {n n' m : Node} {k : NodeId} {r : Result}

/-! ### Results -/

/-- The result without the evidence of its merge. -/
def Result.unmerged (r : Result) : Result := { r with merge := none }

theorem Result.passed_of_unmerged {r' : Result} (e : r'.unmerged = r.unmerged) :
    r'.passed = r.passed :=
  show r'.unmerged.passed = r.unmerged.passed by rw [e]

/-- A coder with a verified result. -/
def Node.passes (n : Node) : Prop := n.persona = .coder ∧ ∃ r, n.result = some r ∧ r.passed = true

/-- What was published for the node, and its reviewer is given. -/
def Node.work (n : Node) : Option Result := n.result.map Result.unmerged

/-- The result waits for its review, or has passed it. -/
def NodeState.gated : NodeState → Bool
  | reviewPending | reviewed | merging | merged => true
  | _ => false

/-- The result has passed its review. -/
def NodeState.accepted : NodeState → Bool
  | reviewed | merging | merged => true
  | _ => false

theorem NodeState.gated_of_accepted {s : NodeState} (h : s.accepted = true) : s.gated = true := by
  cases s with
  | reviewed | merging | merged => rfl
  | _ => cases h

theorem NodeState.not_gated_of_halted {s : NodeState} (h : s.halted = true) : s.gated = false := by
  cases s with
  | reviewPending | reviewed | merging | merged => cases h
  | _ => rfl

theorem reviewPending_of_gated (h : (publishState n r).gated = true) :
    publishState n r = .reviewPending := by
  unfold publishState at h ⊢
  split_ifs at h ⊢
  all_goals first | rfl | cases h

/-- The transaction requeues no verified result. -/
def Act.respects (a : Act) (h : Host) : Prop :=
  ∀ k, a = .requeue k → ∀ n ∈ h.db.nodes, n.id = k → ¬ n.passes

theorem Node.passes_of_work (hp : n'.persona = n.persona) (hw : n'.work = n.work) (h : n.passes) :
    n'.passes := by
  obtain ⟨hc, r, hr, hpass⟩ := h
  rw [work, work, hr, Option.map_some] at hw
  obtain ⟨r', hr', he⟩ := Option.map_eq_some_iff.1 hw
  exact ⟨hp.trans hc, r', hr', (Result.passed_of_unmerged he).trans hpass⟩

/-! ### The invariant -/

namespace Host

/-- A reviewer of the node has published its approval. -/
def Approved (h : Host) (n : Node) : Prop :=
  ∃ m ∈ h.db.nodes, n.reviewedBy = some m.id ∧ m.reviewOf = some n.id ∧
    ∃ v, .published m.id v .completed ∈ h.held ∧ v.passed = true ∧ v.approves = true

/-- Nodes, their results and their reviews. -/
structure Reviews (h : Host) : Prop where
  /-- a result that waits or has passed is verified -/
  gated : ∀ n ∈ h.db.nodes, n.state.gated = true → n.passes
  /-- a coder with a verified result does not run -/
  idle : ∀ n ∈ h.db.nodes, n.passes → n.state.active = false
  /-- a result was published -/
  published : ∀ n ∈ h.db.nodes, ∀ r, n.result = some r →
    ∃ r₀ s, .published n.id r₀ s ∈ h.held ∧ r₀.unmerged = r.unmerged
  /-- a verified result that was read is still there -/
  seen : ∀ m, .seen m ∈ h.held → m.passes → ∀ n ∈ h.db.nodes, n.id = m.id →
    n.passes ∧ n.work = m.work
  /-- and so for the states in which a node was read -/
  seenGated : ∀ m, .seen m ∈ h.held → m.state.gated = true → m.passes
  /-- a reviewer is given the commit of the verified result -/
  reviewer : ∀ m ∈ h.db.nodes, ∀ k, m.reviewOf = some k →
    ∃ n ∈ h.db.nodes, n.id = k ∧ n.passes ∧ n.work.map (·.commit) = some m.payload.snapshot
  /-- a node has one reviewer -/
  unique : ∀ m ∈ h.db.nodes, ∀ m' ∈ h.db.nodes, ∀ k, m.reviewOf = some k → m'.reviewOf = some k →
    m = m'
  /-- an accepted result is approved -/
  approved : ∀ n ∈ h.db.nodes, n.state.accepted = true → h.Approved n
  seenApproved : ∀ m, .seen m ∈ h.held → m.state = .reviewed → h.Approved m

/-! ### One step -/

theorem persona_of_fixed (hf : n'.fixed = n.fixed) : n'.persona = n.persona :=
  show n'.fixed.persona = n.fixed.persona by rw [hf]

theorem reviewOf_of_fixed (hf : n'.fixed = n.fixed) : n'.reviewOf = n.reviewOf :=
  show n'.fixed.reviewOf = n.fixed.reviewOf by rw [hf]

theorem snapshot_of_fixed (hf : n'.fixed = n.fixed) : n'.payload.snapshot = n.payload.snapshot :=
  show n'.fixed.payload.snapshot = n.fixed.payload.snapshot by rw [hf]

theorem Approved.step (hw : h.Wf) (hs : lts.step h a h') (ha : h.Approved n) (hid : n'.id = n.id)
    (hb : n'.reviewedBy = n.reviewedBy) : h'.Approved n' := by
  obtain ⟨m, hm, hby, hof, v, hv, hpass⟩ := ha
  obtain ⟨m', hm', hmove⟩ := new_row hw hs hm
  refine ⟨m', hm', ?_, ?_, v, ?_, hpass⟩
  · rw [hb, hby, hmove.id]
  · rw [reviewOf_of_fixed hmove.fixed, hof, hid]
  · rw [hmove.id]
    exact held_mono hs hv

/-- A merge writes the result that it has read. -/
theorem merged_work (hw : h.Wf) (hi : h.Reviews) (hn : n ∈ h.db.nodes) {token : Token}
    (hm : .merging m token ∈ h.held) (hid : n.id = m.id) : n.passes ∧ n.work = m.work := by
  obtain ⟨hseen, hstate⟩ := hw.mergeable m (hw.merging m token hm)
  exact hi.seen m hseen (hi.seenGated m hseen (by rw [hstate]; rfl)) n hn hid

/-- A verified result stays. -/
theorem passes_step (hw : h.Wf) (hi : h.Reviews) (hc : a.respects h) (hn : n ∈ h.db.nodes)
    (hm : Move h a n n') (hp : n.passes) : n'.passes ∧ n'.work = n.work := by
  have hidle := hi.idle n hn hp
  suffices hwork : n'.work = n.work from
    ⟨Node.passes_of_work (persona_of_fixed hm.fixed) hwork hp, hwork⟩
  cases hm with
  | halts hh => rw [Node.work, Node.work, hh.result]
  | claimed token t hq => rw [hq] at hidle; cases hidle
  | requeued ha => exact absurd hp (hc n.id ha n hn rfl)
  | published env w r t₁ t ha hheld hr =>
    rw [(renewable_iff.1 hr).2.2.1] at hidle
    cases hidle
  | merged m token r e t hheld hid hr hs =>
    rw [(merged_work hw hi hn hheld hid).2, Node.work, Node.work, hr]
    rfl
  | _ => rfl

/-- The row of a worker has the persona that the worker knows. -/
theorem persona_of_renewable {w : Node} {t : Time} (hw : h.Wf) (hn : n ∈ h.db.nodes)
    (hheld : .worker w ∈ h.held) (hr : renewable w t n = true) : n.persona = w.persona := by
  obtain ⟨x, hx, hf⟩ := hw.worker w hheld
  obtain rfl := List.inj_on_of_nodup_map hw.ids hn hx
    ((renewable_iff.1 hr).1.trans (Node.id_of_fixed hf).symm)
  exact persona_of_fixed hf

theorem passed_of_verified {w : Node} (hv : verified w r = true) : r.passed = true := by
  simp only [verified, Bool.and_eq_true] at hv
  exact hv.1

theorem verified_of_coder {w : Node} (hp : w.persona = .coder) : verified w r = r.passed := by
  simp [verified, hp]

theorem publishState_of_coder {w : Node} (hp : w.persona = .coder) (hr : r.passed = true) :
    publishState w r = .reviewPending := by
  have hv : verified w r = true := (verified_of_coder hp).trans hr
  simp [publishState, hp, hv]

/-- A result that waits or has passed is verified, after a step too. -/
theorem gated_step (hw : h.Wf) (hi : h.Reviews) (hc : a.respects h) (hn : n ∈ h.db.nodes)
    (hm : Move h a n n') (hg : n'.state.gated = true) : n'.passes := by
  have hkeep : n.state.gated = true → n'.passes :=
    fun hs => (passes_step hw hi hc hn hm (hi.gated n hn hs)).1
  cases hm with
  | halts hh =>
    rcases hh.state with heq | hs | ⟨-, hq⟩
    · exact hkeep (heq ▸ hg)
    · rw [NodeState.not_gated_of_halted hs] at hg
      cases hg
    · rw [hq] at hg
      cases hg
  | claimed | requeued | refused => cases hg
  | published env w r t₁ t ha hheld hr =>
    obtain ⟨hcoder, hv⟩ := publishState_reviewPending (reviewPending_of_gated hg)
    exact ⟨(persona_of_renewable hw hn hheld hr).trans hcoder, r, rfl, passed_of_verified hv⟩
  | approved env w r t₁ t ha hheld hk hs => exact hkeep (by rw [hs]; rfl)
  | taken m token t hheld hid hs => exact hkeep (by rw [hs]; rfl)
  | merged m token r e t hheld hid hr hs => exact hkeep (by rw [hs]; rfl)

/-- A coder with a verified result does not run, after a step either. -/
theorem idle_step (hw : h.Wf) (hi : h.Reviews) (hc : a.respects h) (hn : n ∈ h.db.nodes)
    (hm : Move h a n n') (hp : n'.passes) : n'.state.active = false := by
  have hback : n'.work = n.work → n.passes := fun hwork =>
    Node.passes_of_work (persona_of_fixed hm.fixed).symm hwork.symm hp
  cases hm with
  | halts hh =>
    have hidle := hi.idle n hn (hback (by rw [Node.work, Node.work, hh.result]))
    rcases hh.state with heq | hs | ⟨hrun, -⟩
    · rw [heq]
      exact hidle
    · exact NodeState.inactive_of_halted hs
    · rw [hrun] at hidle
      cases hidle
  | claimed token t hq =>
    have hidle := hi.idle n hn (hback rfl)
    rw [hq] at hidle
    cases hidle
  | requeued ha => exact absurd (hback rfl) (hc n.id ha n hn rfl)
  | published env w r t₁ t ha hheld hr =>
    obtain ⟨hcoder, r', hr', hpass⟩ := hp
    cases hr'
    have hper : w.persona = .coder := (persona_of_renewable hw hn hheld hr).symm.trans hcoder
    show (publishState w r).active = false
    rw [publishState_of_coder hper hpass]
    rfl
  | _ => rfl

/-- Every result was published, after a step too. -/
theorem published_step (hw : h.Wf) (hi : h.Reviews) (hs : lts.step h a h') (hn : n ∈ h.db.nodes)
    (hm : Move h a n n') (hr : n'.result = some r) :
    ∃ r₀ s, .published n'.id r₀ s ∈ h'.held ∧ r₀.unmerged = r.unmerged := by
  have hkeep : ∀ {r'}, n.result = some r' → r'.unmerged = r.unmerged →
      ∃ r₀ s, .published n'.id r₀ s ∈ h'.held ∧ r₀.unmerged = r.unmerged := by
    intro r' hr' he
    obtain ⟨r₀, s, hpub, he₀⟩ := hi.published n hn r' hr'
    exact ⟨r₀, s, hm.id ▸ held_mono hs hpub, he₀.trans he⟩
  obtain ⟨new, hheld', rfl, -⟩ := given hw hs
  cases hm with
  | halts hh => exact hkeep (hh.result ▸ hr) rfl
  | published env w r₁ t₁ t ha hheld hren hy =>
    cases hr
    have hid : n.id = w.id := (renewable_iff.1 hren).1
    refine ⟨r, publishState w r, ?_, rfl⟩
    show Held.published n.id r (publishState w r) ∈ h'.held
    rw [hheld', hid]
    exact List.mem_append_right _ hy
  | merged m token r₁ e t hheld hid hm₁ hst =>
    have hwork := (merged_work hw hi hn hheld hid).2
    rw [Node.work, Node.work, hm₁, Option.map_some] at hwork
    obtain ⟨r', hr', he⟩ := Option.map_eq_some_iff.1 hwork
    refine hkeep hr' ?_
    cases hr
    exact he
  | _ => exact hkeep hr rfl

/-- An accepted result is approved, after a step too. -/
theorem approved_step (hw : h.Wf) (hi : h.Reviews) (hs : lts.step h a h') (hn : n ∈ h.db.nodes)
    (hm : Move h a n n') (hacc : n'.state.accepted = true) : h'.Approved n' := by
  have hkeep : n.state.accepted = true → n'.reviewedBy = n.reviewedBy → h'.Approved n' :=
    fun hst hb => (hi.approved n hn hst).step hw hs hm.id hb
  obtain ⟨new, hheld', rfl, -⟩ := given hw hs
  cases hm with
  | halts hh =>
    rcases hh.state with heq | hst | ⟨-, hq⟩
    · exact hkeep (heq ▸ hacc) hh.reviewedBy
    · have := NodeState.not_gated_of_halted hst
      rw [NodeState.gated_of_accepted hacc] at this
      cases this
    · rw [hq] at hacc
      cases hacc
  | claimed | requeued | refused => cases hacc
  | published env w r t₁ t ha hheld hr =>
    have hacc : (publishState w r).accepted = true := hacc
    rw [reviewPending_of_gated (NodeState.gated_of_accepted hacc)] at hacc
    cases hacc
  | approved env w r t₁ t ha hheld hk hst hr hy =>
    -- the worker is the reviewer, and this step publishes its approval
    obtain ⟨x, hx, hf⟩ := hw.worker w hheld
    obtain ⟨x', hx', hmove⟩ := new_row hw hs hx
    have hfix := hmove.fixed.trans hf
    obtain ⟨hv, happ⟩ := publishState_completed hr (hw.persona_of_worker hheld hk)
    refine ⟨x', hx', ?_, ?_, r, ?_, passed_of_verified hv, happ⟩
    · rw [Node.id_of_fixed hfix]
      rfl
    · rw [reviewOf_of_fixed hfix, hk]
      rfl
    · rw [hheld', Node.id_of_fixed hfix, ← hr]
      exact List.mem_append_right _ hy
  | taken m token t hheld hid hst => exact hkeep (by rw [hst]; rfl) rfl
  | merged m token r e t hheld hid hr hst => exact hkeep (by rw [hst]; rfl) rfl

/-- At most one row is new. -/
theorem added_unique {x y : Node} (hw : h.Wf) (hs : lts.step h a h') (hx : x ∈ h'.db.nodes)
    (hy : y ∈ h'.db.nodes) (hax : Added h x) (hay : Added h y) : x = y := by
  obtain ⟨moved, hrew, heq | ⟨z, -, heq⟩⟩ := moves hw hs
  · obtain ⟨n, hn, hm⟩ := hrew.old (heq ▸ hx)
    exact absurd hm.id.symm (hax.fresh n hn)
  · have hlast : ∀ {y : Node}, y ∈ h'.db.nodes → Added h y → y = z := by
      intro y hy hay
      rw [heq, List.mem_append, List.mem_singleton] at hy
      refine hy.resolve_left fun hmem => ?_
      obtain ⟨n, hn, hm⟩ := hrew.old hmem
      exact hay.fresh n hn hm.id.symm
    rw [hlast hx hax, hlast hy hay]

/-- The row of a verified result that was read is verified after a step. -/
theorem seen_step (hw : h.Wf) (hi : h.Reviews) (hc : a.respects h) (hs : lts.step h a h')
    (hm : .seen m ∈ h.held) (hp : m.passes) (hn : n' ∈ h'.db.nodes) (hid : n'.id = m.id) :
    n'.passes ∧ n'.work = m.work := by
  rcases old_row hw hs hn with ⟨n, hn, hmove⟩ | hadd
  · obtain ⟨hpn, hwork⟩ := hi.seen m hm hp n hn (hmove.id.symm.trans hid)
    obtain ⟨hpn', hwork'⟩ := passes_step hw hi hc hn hmove hpn
    exact ⟨hpn', hwork'.trans hwork⟩
  · obtain ⟨x, hx, hf⟩ := hw.seen m hm
    exact absurd ((Node.id_of_fixed hf).trans hid.symm) (hadd.fresh x hx)

/-- The commit of a verified result is that of its row after a step. -/
theorem commit_step (hw : h.Wf) (hi : h.Reviews) (hc : a.respects h) (hs : lts.step h a h')
    (hn : n ∈ h.db.nodes) (hp : n.passes) :
    ∃ n' ∈ h'.db.nodes, n'.id = n.id ∧ n'.passes ∧ n'.work = n.work := by
  obtain ⟨n', hn', hm⟩ := new_row hw hs hn
  exact ⟨n', hn', hm.id, passes_step hw hi hc hn hm hp⟩

theorem reviewer_step (hw : h.Wf) (hi : h.Reviews) (hc : a.respects h) (hs : lts.step h a h')
    {m' : Node} (hm' : m' ∈ h'.db.nodes) (hk : m'.reviewOf = some k) :
    ∃ n ∈ h'.db.nodes, n.id = k ∧ n.passes ∧ n.work.map (·.commit) = some m'.payload.snapshot := by
  rcases old_row hw hs hm' with ⟨m, hm, hmove⟩ | hadd
  · obtain ⟨n, hn, hid, hp, hcommit⟩ := hi.reviewer m hm k (reviewOf_of_fixed hmove.fixed ▸ hk)
    obtain ⟨n', hn', hid', hp', hwork⟩ := commit_step hw hi hc hs hn hp
    exact ⟨n', hn', hid'.trans hid, hp', by rw [hwork, hcommit, snapshot_of_fixed hmove.fixed]⟩
  · rcases hadd.review with hnone | ⟨c, hc₀, hof, -, hsnap, -⟩
    · rw [hnone] at hk
      cases hk
    obtain ⟨hseen, hstate⟩ := hw.reviewable c hc₀
    have hpc : c.passes := hi.seenGated c hseen (by rw [hstate]; rfl)
    obtain ⟨x, hx, hf⟩ := hw.seen c hseen
    obtain ⟨hpx, hworkx⟩ := hi.seen c hseen hpc x hx (Node.id_of_fixed hf)
    obtain ⟨n', hn', hid', hp', hwork⟩ := commit_step hw hi hc hs hx hpx
    rw [hof] at hk
    cases hk
    refine ⟨n', hn', hid'.trans (Node.id_of_fixed hf), hp', ?_⟩
    obtain ⟨-, r, hr, -⟩ := hpc
    rw [hwork, hworkx, hsnap, Node.work, hr]
    rfl

theorem unique_step (hw : h.Wf) (hi : h.Reviews) (hs : lts.step h a h') {x y : Node}
    (hx : x ∈ h'.db.nodes) (hy : y ∈ h'.db.nodes) (hkx : x.reviewOf = some k)
    (hky : y.reviewOf = some k) : x = y := by
  have hfirst : ∀ {x y : Node}, Added h x → x.reviewOf = some k → y.reviewOf = some k →
      ∀ m ∈ h.db.nodes, ¬ Move h a m y := by
    intro x y hadd hkx hky m hm hmove
    rcases hadd.review with hnone | ⟨c, -, hof, -, -, hno⟩
    · rw [hnone] at hkx
      cases hkx
    · rw [hof] at hkx
      cases hkx
      exact hno m hm (reviewOf_of_fixed hmove.fixed ▸ hky)
  rcases old_row hw hs hx with ⟨m, hm, hmx⟩ | hadd <;>
    rcases old_row hw hs hy with ⟨m', hm', hmy⟩ | hadd'
  · obtain rfl := hi.unique m hm m' hm' k (reviewOf_of_fixed hmx.fixed ▸ hkx)
      (reviewOf_of_fixed hmy.fixed ▸ hky)
    exact List.inj_on_of_nodup_map (ids_step hw hs) hx hy (hmx.id.trans hmy.id.symm)
  · exact absurd hmx (hfirst hadd' hky hkx m hm)
  · exact absurd hmy (hfirst hadd hkx hky m' hm')
  · exact added_unique hw hs hx hy hadd hadd'

theorem reviews_step (hw : h.Wf) (hi : h.Reviews) (hc : a.respects h) (hs : lts.step h a h') :
    h'.Reviews := by
  have hrow : ∀ {n' : Node}, n' ∈ h'.db.nodes →
      (∃ n ∈ h.db.nodes, Move h a n n') ∨ n'.state = .queued ∧ n'.result = none := fun hn' =>
    (old_row hw hs hn').imp_right fun hadd => ⟨hadd.state, hadd.result⟩
  refine ⟨fun n' hn' hg => ?_, fun n' hn' hp => ?_, fun n' hn' r hr => ?_,
    fun m hm hp n' hn' hid => ?_, fun m hm hg => ?_,
    fun m hm k hk => reviewer_step hw hi hc hs hm hk,
    fun x hx y hy k hkx hky => unique_step hw hi hs hx hy hkx hky, fun n' hn' hacc => ?_,
    fun m hm hst => ?_⟩
  · rcases hrow hn' with ⟨n, hn, hm⟩ | ⟨hq, -⟩
    · exact gated_step hw hi hc hn hm hg
    · rw [hq] at hg
      cases hg
  · rcases hrow hn' with ⟨n, hn, hm⟩ | ⟨-, hnone⟩
    · exact idle_step hw hi hc hn hm hp
    · obtain ⟨-, r, hr, -⟩ := hp
      rw [hnone] at hr
      cases hr
  · rcases hrow hn' with ⟨n, hn, hm⟩ | ⟨-, hnone⟩
    · exact published_step hw hi hs hn hm hr
    · rw [hnone] at hr
      cases hr
  · rcases held_step hw hs hm with hm | hm
    · exact seen_step hw hi hc hs hm hp hn' hid
    · cases hm with
      | seen hmem =>
        rcases old_row hw hs hn' with ⟨n, hn, hmove⟩ | hadd
        · obtain rfl := List.inj_on_of_nodup_map hw.ids hn hmem (hmove.id.symm.trans hid)
          exact passes_step hw hi hc hn hmove hp
        · exact absurd hid.symm (hadd.fresh m hmem)
      | other hx => cases hx
  · rcases held_step hw hs hm with hm | hm
    · exact hi.seenGated m hm hg
    · cases hm with
      | seen hmem => exact hi.gated m hmem hg
      | other hx => cases hx
  · rcases hrow hn' with ⟨n, hn, hm⟩ | ⟨hq, -⟩
    · exact approved_step hw hi hs hn hm hacc
    · rw [hq] at hacc
      cases hacc
  · rcases held_step hw hs hm with hm | hm
    · exact (hi.seenApproved m hm hst).step hw hs rfl rfl
    · cases hm with
      | seen hmem => exact (hi.approved m hmem (by rw [hst]; rfl)).step hw hs rfl rfl
      | other hx => cases hx

theorem reviews (hr : (lts.restrict fun h a => a.respects h).Reachable Initial h) :
    h.Wf ∧ h.Reviews := by
  refine hr.invariant (I := fun h => h.Wf ∧ h.Reviews) (fun h hi => ⟨hi.wf, ?_⟩)
    fun h a h' hI hs => ⟨wf_step hI.1 hs.1, reviews_step hI.1 hI.2 hs.2 hs.1⟩
  have hnodes : ∀ {n : Node}, n ∉ h.db.nodes := fun hn => by rw [hi.db] at hn; cases hn
  have hheld : ∀ {x : Held}, x ∉ h.held := fun hx => by rw [hi.held] at hx; cases hx
  exact ⟨fun _ hn => absurd hn hnodes, fun _ hn => absurd hn hnodes, fun _ hn => absurd hn hnodes,
    fun _ hm => absurd hm hheld, fun _ hm => absurd hm hheld, fun _ hn => absurd hn hnodes,
    fun _ hn => absurd hn hnodes, fun _ hn => absurd hn hnodes, fun _ hm => absurd hm hheld⟩

/-! ### The gate -/

/-- The node has passed the gate: a verified result was published for it, and its reviewer, who was
given the commit of this result, has published an approval. -/
def Gate (h : Host) (n : Node) : Prop :=
  n.persona = .coder ∧ ∃ r, n.result = some r ∧ r.passed = true ∧
    (∃ r₀ s, .published n.id r₀ s ∈ h.held ∧ r₀.unmerged = r.unmerged) ∧
    ∃ m ∈ h.db.nodes, n.reviewedBy = some m.id ∧ m.reviewOf = some n.id ∧
      m.payload.snapshot = r.commit ∧
      ∃ v, .published m.id v .completed ∈ h.held ∧ v.passed = true ∧ v.approves = true

/-- A node that was read, or is a row, has passed the gate if it is verified and approved. -/
theorem gate_of_approved (hw : h.Wf) (hi : h.Reviews) (hn : n ∈ h.db.nodes) (hid : n.id = m.id)
    (hp : m.passes) (hwork : n.work = m.work) (ha : h.Approved m) : h.Gate m := by
  obtain ⟨hc, r, hr, hpass⟩ := hp
  obtain ⟨v, hv, hby, hof, w, hpub, hok⟩ := ha
  have hwr : n.work = some r.unmerged := by rw [hwork, Node.work, hr]; rfl
  obtain ⟨r', hr', he⟩ := Option.map_eq_some_iff.1 hwr
  refine ⟨hc, r, hr, hpass, ?_, v, hv, hby, hof, ?_, w, hpub, hok⟩
  · obtain ⟨r₀, s, hpub₀, he₀⟩ := hi.published n hn r' hr'
    exact ⟨r₀, s, hid ▸ hpub₀, he₀.trans he⟩
  · obtain ⟨x, hx, hxid, -, hcommit⟩ := hi.reviewer v hv m.id hof
    obtain rfl := List.inj_on_of_nodup_map hw.ids hx hn (hxid.trans hid.symm)
    rw [hwr] at hcommit
    exact (Option.some.inj hcommit).symm

/-- The review gate of a state. -/
structure Reviewed (h : Host) : Prop where
  /-- a node that is reviewed, merging or merged has passed the gate -/
  gate : ∀ n ∈ h.db.nodes, n.state.accepted = true → h.Gate n
  /-- so has the node that is being merged, as the merge has read it -/
  merging : ∀ m token, .merging m token ∈ h.held → h.Gate m
  /-- a node has at most one reviewer -/
  unique : ∀ m ∈ h.db.nodes, ∀ m' ∈ h.db.nodes, ∀ k, m.reviewOf = some k → m'.reviewOf = some k →
    m = m'
  /-- after its review a result changes only by the evidence of its merge -/
  kept : ∀ as h', (lts.restrict fun h a => a.respects h).Run h as h' → ∀ n ∈ h.db.nodes,
    n.state.accepted = true → ∀ n' ∈ h'.db.nodes, n'.id = n.id →
      n'.result.map Result.unmerged = n.result.map Result.unmerged

/-- The work of a verified result is kept along a run. -/
theorem work_of_run {as : List Act} (hw : h.Wf) (hi : h.Reviews)
    (hrun : (lts.restrict fun h a => a.respects h).Run h as h') (hn : n ∈ h.db.nodes)
    (hp : n.passes) : ∀ n' ∈ h'.db.nodes, n'.id = n.id → n'.work = n.work := by
  have hinv := hrun.preserves (P := fun m => (m.Wf ∧ m.Reviews) ∧
      ∃ x ∈ m.db.nodes, x.id = n.id ∧ x.passes ∧ x.work = n.work)
    (fun m a m' ⟨⟨hw, hi⟩, x, hx, hid, hpx, hwork⟩ hs => by
      obtain ⟨x', hx', hid', hp', hwork'⟩ := commit_step hw hi hs.2 hs.1 hx hpx
      exact ⟨⟨wf_step hw hs.1, reviews_step hw hi hs.2 hs.1⟩, x', hx', hid'.trans hid, hp',
        hwork'.trans hwork⟩)
    ⟨⟨hw, hi⟩, n, hn, rfl, hp, rfl⟩
  obtain ⟨⟨hw', -⟩, x, hx, hid, -, hwork⟩ := hinv
  intro n' hn' hid'
  rw [List.inj_on_of_nodup_map hw'.ids hn' hx (hid'.trans hid.symm), hwork]

/-- **The review gate holds** in every state of every run that requeues no verified result. -/
theorem review_gate (hr : (lts.restrict fun h a => a.respects h).Reachable Initial h) :
    h.Reviewed := by
  obtain ⟨hw, hi⟩ := reviews hr
  refine ⟨fun n hn hacc => ?_, fun m token hm => ?_, hi.unique, fun as h' hrun n hn hacc => ?_⟩
  · exact gate_of_approved hw hi hn rfl (hi.gated n hn (NodeState.gated_of_accepted hacc)) rfl
      (hi.approved n hn hacc)
  · obtain ⟨hseen, hst⟩ := hw.mergeable m (hw.merging m token hm)
    have hp : m.passes := hi.seenGated m hseen (by rw [hst]; rfl)
    obtain ⟨x, hx, hf⟩ := hw.seen m hseen
    exact gate_of_approved hw hi hx (Node.id_of_fixed hf) hp
      (hi.seen m hseen hp x hx (Node.id_of_fixed hf)).2 (hi.seenApproved m hseen hst)
  · exact work_of_run hw hi hrun hn (hi.gated n hn (NodeState.gated_of_accepted hacc))

end Host

namespace Sample

/-- A reviewer of the node `k` is inserted, as `ensure_review` does it. -/
def reviews (k : NodeId) (t : Time) : Script :=
  [fun _ => (.get "owner" k, t), fun h => (.unreviewed (node h k), t),
    fun h => (.check (budget h) true t, t), fun h => (.review {} (budget h) (node h k) t t, t)]

/-- The node `9` is published, and its reviewer `19` claimed. -/
def underReview : Script :=
  began {} ++ claims 1 ++ publishes (verified "one") 2 ++ reviews 9 3 ++ claims 4

/-- The approval of a reviewer. -/
def approval : Result := { success := true, verified := true, review := some .approval }

/-- A question of the node `9` is answered, and a second answer to it stored while the node asks
again; its worker is lost, the node published, and its reviewer claimed. -/
def answeredTwice : Script :=
  began {} ++ claims 1 ++ asks 9 2 ++ gives .needsInput 3 ++ [fun _ => (.get "owner" 9, 4)] ++
    answers 9 5 ++ [fun _ => (.requeue 9, 5)] ++ claims 6 ++ asks 9 7 ++ answers 9 8 ++ claims 97 ++
    publishes (verified "one") 98 ++ reviews 9 99 ++ claims 100

/-- The worker of a reviewer that was claimed before the last node. -/
def reviewer (h : Host) : Node :=
  (h.held.findSome? fun
    | .worker n => if n.persona = .reviewer then some n else none
    | _ => none).getD (worker h)

/-- The last statement of the second answer requeues the node, which is published again, and the
reviewer approves. -/
def bypassed : Script :=
  answeredTwice ++ [fun _ => (.requeue 9, 101)] ++ claims 102 ++ publishes (verified "two") 103 ++
    [fun h => (.publish {} (reviewer h) approval 104 104, 104)]

end Sample

namespace Host

/-- A result is accepted that its reviewer was not given. -/
theorem review_bypassed :
    let h := Sample.host.script Sample.bypassed
    lts.Reachable Initial h ∧ (Sample.node h 9).state = .reviewed ∧
      (Sample.node h 9).result.map (·.commit) = some "two" ∧
      (∀ m ∈ h.db.nodes, m.reviewOf = some 9 → m.payload.snapshot = "one") ∧
      ¬ h.Gate (Sample.node h 9) := by
  intro h
  have hcommit : (Sample.node h 9).result.map (·.commit) = some "two" := by decide +kernel
  have hsnap : ∀ m ∈ h.db.nodes, m.reviewOf = some 9 → m.payload.snapshot = "one" := by
    decide +kernel
  have hid : (Sample.node h 9).id = 9 := by decide +kernel
  refine ⟨.run (.of_init Sample.host_initial) (run_script (by decide +kernel)), by decide +kernel,
    hcommit, hsnap, ?_⟩
  rintro ⟨-, r, hr, -, -, m, hm, -, hof, hs, -⟩
  rw [hr] at hcommit
  have htwo : r.commit = "two" := Option.some.inj hcommit
  rw [hsnap m hm (hid ▸ hof), htwo] at hs
  exact absurd hs (by decide)

/-- The approval of the reviewer opens the gate. -/
theorem review_gate_sample :
    let h := Sample.host.script
      (Sample.underReview ++ Sample.publishes Sample.approval 5)
    (Sample.node h 9).state = .reviewed ∧ h.Reviewed := by
  intro h
  have hall : (Sample.host.acts (Sample.underReview ++ Sample.publishes Sample.approval 5)).all
      (fun a => match a with
        | .requeue _ => false
        | _ => true) = true := by decide
  refine ⟨by decide, review_gate (.run (.of_init Sample.host_initial)
    ((run_script (by decide)).restrict fun a ha m k hk => ?_))⟩
  subst hk
  exact absurd (List.all_eq_true.1 hall _ ha) (by simp)

end Host

end Coordinator

end PythonAI
