import PythonAI.Coordinator.Steps

/-!
# How nodes move

A transaction of the coordinator moves each row of `agent_nodes` in one of the ways of `Move`, and
adds at most one row.  `Host.Wf` says how the rows are related to what the calls in flight hold.

**Main results**: `Host.wf` (every reachable state is well formed), `Host.moves` (a step moves the
rows of nodes) and `Host.given` (what a call holds after a step).
-/

namespace PythonAI

open Library Budgets

namespace Coordinator

variable {h h' : Host} {a : Act} {n n' : Node} {x : Held}

/-- What one transaction does to a node. -/
inductive Move (h : Host) (a : Act) (n : Node) : Node → Prop
  /-- the node is stopped, returned to the queue, or left as it is -/
  | halts {n' : Node} (hh : Halts n n') : Move h a n n'
  /-- a worker starts -/
  | claimed (token : Token) (t : Time) (hq : n.state = .queued)
      (hw : .worker (Coordinator.claimed token t n) ∈ a.yields h.uuids h.db) :
      Move h a n (Coordinator.claimed token t n)
  /-- a human lets the node go on -/
  | requeued (ha : a = .requeue n.id) :
      Move h a n { n with state := .queued, lease := none, expires := none }
  /-- the worker publishes -/
  | published (env : Env) (w : Node) (r : Result) (t₁ t : Time) (ha : a = .publish env w r t₁ t)
      (hw : .worker w ∈ h.held) (hr : renewable w t n = true)
      (hy : .published w.id r (publishState w r) ∈ a.yields h.uuids h.db) :
      Move h a n (Coordinator.published w r t n)
  /-- the reviewer approves -/
  | approved (env : Env) (w : Node) (r : Result) (t₁ t : Time) (ha : a = .publish env w r t₁ t)
      (hw : .worker w ∈ h.held) (hk : w.reviewOf = some n.id) (hs : n.state = .reviewPending)
      (hr : publishState w r = .completed)
      (hy : .published w.id r (publishState w r) ∈ a.yields h.uuids h.db) :
      Move h a n (judged .reviewed w.id t n)
  /-- the reviewer has refused or stopped -/
  | refused (w : NodeId) (t : Time) (hs : n.state = .reviewPending) :
      Move h a n (judged .rejected w t n)
  /-- the node is taken for a merge -/
  | taken (m : Node) (token : Token) (t : Time) (hm : .mergeable m ∈ h.held) (hid : n.id = m.id)
      (hs : n.state = .reviewed) : Move h a n (Merge.taken token t n)
  /-- the node is merged -/
  | merged (m : Node) (token : Token) (r : Result) (e : Evidence) (t : Time)
      (hm : .merging m token ∈ h.held) (hid : n.id = m.id) (hr : m.result = some r)
      (hs : n.state = .merging) : Move h a n (Merge.merged r e t n)

theorem Move.refl : Move h a n n := .halts .refl

theorem Move.fixed (hm : Move h a n n') : n'.fixed = n.fixed := by
  cases hm with
  | halts hh => exact hh.fixed
  | _ => rfl

theorem Move.id (hm : Move h a n n') : n'.id = n.id := Node.id_of_fixed hm.fixed

/-- A row that `insert` adds. -/
structure Added (h : Host) (n : Node) : Prop where
  /-- the id is new -/
  fresh : ∀ x ∈ h.db.nodes, x.id ≠ n.id
  state : n.state = .queued
  result : n.result = none
  reviewedBy : n.reviewedBy = none
  /-- it reviews no node, or one that had no reviewer -/
  review : n.reviewOf = none ∨ ∃ m, .reviewable m ∈ h.held ∧ n.reviewOf = some m.id ∧
    n.persona = .reviewer ∧ n.payload.snapshot = (m.result.map (·.commit)).getD "" ∧
    ∀ x ∈ h.db.nodes, x.reviewOf ≠ some m.id

/-- The entry says nothing about the rows. -/
def Held.bare : Held → Bool
  | created _ | reserved _ | reported .. | recovered | requeue _ | snapshot .. => true
  | _ => false

/-- What is held after a transaction, besides what was held before. -/
inductive Given (h : Host) (a : Act) : Held → Prop
  | seen {n : Node} (hn : n ∈ h.db.nodes) : Given h a (.seen n)
  | reviewable {n : Node} (hs : .seen n ∈ h.held) (hp : n.state = .reviewPending) :
      Given h a (.reviewable n)
  | worker (n : Node) (token : Token) (t : Time) (hn : n ∈ h.db.nodes) (hq : n.state = .queued)
      (ha : (∃ env clock, a = .claim env clock) ∨ ∃ env g p, a = .graphClaim env g n.id p t) :
      Given h a (.worker (Coordinator.claimed token t n))
  | published (env : Env) (w : Node) (r : Result) (t₁ t : Time) (ha : a = .publish env w r t₁ t)
      (hw : .worker w ∈ h.held) (hn : ∃ n ∈ h.db.nodes, renewable w t n = true) :
      Given h a (.published w.id r (publishState w r))
  | marked {n : Node} (hs : .seen n ∈ h.held) : Given h a (.marked n)
  | mergeable {n : Node} (hs : .seen n ∈ h.held) (hr : n.state = .reviewed) :
      Given h a (.mergeable n)
  | merging {n : Node} {token : Token} (hm : .mergeable n ∈ h.held) : Given h a (.merging n token)
  | cancelled (env : Env) (owner : Owner) (k : NodeId) (clock : NodeId → Time)
      (ha : a = .cancel env owner k clock) (hsome : ((h.db.node k).filter (·.owner = owner)).isSome) :
      Given h a (.cancelled (closure h.db owner k))
  | stopped {k : NodeId} {state : Option NodeState}
      (hs : ∀ s, state = some s → s = .needsResolution ∨ s = .cancelled) :
      Given h a (.stopped k state)
  | budget {b : TaskBudget} {row : Budget} (hrow : h.db.budgets.budgets b.key = some row)
      (hl : b.limits = row.limits) : Given h a (.budget b)
  | checked {b : TaskBudget} (hb : .budget b ∈ h.held) : Given h a (.checked b)
  /-- nothing about the rows -/
  | other {x : Held} (hx : x.bare = true) : Given h a x

/-- What the rows of nodes and the calls in flight have in common. -/
structure Host.Wf (h : Host) : Prop where
  /-- the primary key -/
  ids : (h.db.nodes.map Node.id).Nodup
  /-- a node that was read is a row -/
  seen : ∀ n, .seen n ∈ h.held → ∃ x ∈ h.db.nodes, x.fixed = n.fixed
  /-- so is the node of a worker -/
  worker : ∀ n, .worker n ∈ h.held → ∃ x ∈ h.db.nodes, x.fixed = n.fixed
  reviewable : ∀ n, .reviewable n ∈ h.held → .seen n ∈ h.held ∧ n.state = .reviewPending
  mergeable : ∀ n, .mergeable n ∈ h.held → .seen n ∈ h.held ∧ n.state = .reviewed
  merging : ∀ n token, .merging n token ∈ h.held → .mergeable n ∈ h.held
  /-- only reviewers review -/
  reviewer : ∀ n ∈ h.db.nodes, n.reviewOf.isSome = true → n.persona = .reviewer
  /-- the states that `node_stopped` writes -/
  stopped : ∀ k s, .stopped k (some s) ∈ h.held → s = .needsResolution ∨ s = .cancelled

/-! ### The operations -/

section

variable {db db' : Db} {env : Env} {t t₁ t₂ : Time} {token : Token} {clock : NodeId → Time}

theorem lostState_cases {child : Option TaskRow} :
    (lostState child n).halted = true ∨ lostState child n = .queued := by
  have hlost : ∀ {c : Prop} [Decidable c], (if c then NodeState.failed else .queued).halted = true ∨
      (if c then NodeState.failed else .queued) = .queued := by
    intro c _
    split_ifs
    · exact .inl rfl
    · exact .inr rfl
  cases child with
  | none => exact hlost
  | some row =>
    simp only [lostState]
    split
    · exact .inl rfl
    split
    case h_4 => exact hlost
    all_goals exact .inl rfl

theorem recovered_state {s : NodeState} (hr : recovered db t n = some s) :
    s.halted = true ∨ n.state = .running ∧ s = .queued := by
  unfold recovered at hr
  dsimp only at hr
  generalize (stoppedRoot (db.rootState n) || decide (n.deadline ≤ t)) = stop at hr
  have hend : ∀ {live late : Prop} [Decidable live] [Decidable late],
      (if live then NodeState.cancelRequested else if late then .timedOut else .cancelled).halted =
        true := by
    intro live late _ _
    split_ifs <;> rfl
  by_cases hnative : db.native n = true
  · rw [if_pos hnative] at hr
    cases hr
  rw [if_neg hnative] at hr
  cases hst : n.state with
  | merging =>
    simp only [hst] at hr
    split_ifs at hr
    cases hr
    exact .inl rfl
  | queued =>
    simp only [hst] at hr
    split at hr <;> cases hr
    exact .inl hend
  | cancelRequested =>
    simp only [hst] at hr
    cases hr
    exact .inl hend
  | running =>
    simp only [hst] at hr
    split at hr
    · cases hr
      exact .inl hend
    split at hr <;> cases hr
    exact lostState_cases.imp_right fun hq => ⟨rfl, hq⟩
  | _ =>
    simp only [hst] at hr
    cases hr

theorem recoverNode_halts : Halts n (recoverNode db clock n) := by
  unfold recoverNode
  split
  case h_1 s hs =>
    exact ⟨rfl, rfl, rfl, .inl rfl, .inr (recovered_state hs)⟩
  case h_2 => exact .refl

theorem rejectNode_halts {rows : List Node} : Halts n (rejectNode rows t n) := by
  unfold rejectNode
  split_ifs
  · exact .of_halted rfl rfl rfl (.inl rfl) rfl
  · exact .refl

theorem cancelNode_halts : Halts n (cancelNode t n) := by
  unfold cancelNode
  split_ifs
  · exact .refl
  all_goals exact .of_halted rfl rfl rfl (.inl rfl) rfl

theorem Graphs.stopNode_halts : Halts n (Graphs.stopNode t n) := by
  unfold Graphs.stopNode
  split_ifs
  · exact .of_halted rfl rfl rfl (.inl rfl) rfl
  · exact .of_halted rfl rfl rfl (.inl rfl) rfl
  · exact .refl

theorem Graphs.doneNode_halts : Halts n (Graphs.doneNode t n) := by
  refine ⟨rfl, rfl, rfl, .inr rfl, ?_⟩
  unfold Graphs.doneNode
  dsimp only
  split_ifs
  · exact .inr (.inl rfl)
  · exact .inr (.inl rfl)
  · exact .inl rfl

theorem NodeState.halted_of_reported {s : NodeState} (h : s.reported = true) (hq : s ≠ .queued) :
    s.halted = true := by
  cases s with
  | queued => exact absurd rfl hq
  | running | reviewPending | reviewed | merging | merged | completed | conflict => cases h
  | cancelRequested => rfl
  | _ => rfl

theorem publishState_reviewPending {r : Result} (h : publishState n r = .reviewPending) :
    n.persona = .coder ∧ verified n r = true := by
  unfold publishState at h
  split_ifs at h with h₁ h₂
  exact h₂

theorem publishState_completed {r : Result} (h : publishState n r = .completed)
    (hp : n.persona = .reviewer) : verified n r = true ∧ r.approves = true := by
  unfold publishState at h
  rw [hp] at h
  split_ifs at h with h₁
  · exact h₁.2
  all_goals simp_all

theorem Host.Wf.persona_of_worker {w : Node} {k : NodeId} (hw : h.Wf) (hm : .worker w ∈ h.held)
    (hk : w.reviewOf = some k) : w.persona = .reviewer := by
  obtain ⟨x, hx, hf⟩ := hw.worker w hm
  have hr : x.reviewOf = w.reviewOf := show x.fixed.reviewOf = w.fixed.reviewOf by rw [hf]
  have hp : x.persona = w.persona := show x.fixed.persona = w.fixed.persona by rw [hf]
  rw [← hp]
  exact hw.reviewer x hx (by rw [hr, hk]; rfl)

theorem publish_moves {w : Node} {r : Result} {state : NodeState} (hw : h.Wf)
    (hm : .worker w ∈ h.held) (hp : publish env w r t₁ t₂ h.db = .ok (db', state))
    (hy : (Act.publish env w r t₁ t₂).yields h.uuids h.db = [.published w.id r state]) :
    Records.Rewrites (Move h (.publish env w r t₁ t₂)) h.db.nodes db'.nodes := by
  obtain ⟨-, rfl, heq⟩ := publish_ok hp
  have hy := hy ▸ List.mem_singleton_self _
  rw [heq]
  dsimp only
  rw [List.map_map]
  refine .of_map fun x _ => ?_
  rw [Function.comp]
  by_cases hr : renewable w t₂ x = true
  · rw [if_pos hr, if_neg]
    · exact .published env w r t₁ t₂ rfl hm hr hy
    · -- a reviewer's own result does not wait for a review
      rintro ⟨hk, hs⟩
      have hcoder := (publishState_reviewPending hs).1
      rw [hw.persona_of_worker hm hk] at hcoder
      cases hcoder
  · rw [if_neg hr]
    split_ifs with hj hc
    · exact .approved env w r t₁ t₂ rfl hm hj.1 hj.2 hc hy
    · exact .refused w.id t₂ hj.2
    · exact .refl

theorem fail_moves {w : Node} {state : NodeState} {out : Unit} (hw : h.Wf)
    (hs : state.reported = true) (hf : fail env w state t h.db = .ok (db', out)) :
    Records.Rewrites (Move h a) h.db.nodes db'.nodes := by
  obtain rfl | ⟨row, hrow, hid, -, hst, state', hstate', -, nodes, rfl, hnodes⟩ := fail_ok hf
  · exact .refl fun _ _ => .refl
  have hstop : state'.halted = true ∨ row.state = .running ∧ state' = .queued := by
    rw [hstate']
    split_ifs with hc
    · exact .inl rfl
    · by_cases hq : state = .queued
      · exact .inr ⟨hst.resolve_right hc, hq⟩
      · exact .inl (NodeState.halted_of_reported hs hq)
  have hreleased : ∀ x ∈ h.db.nodes, x.id = w.id → Halts x (released state' t x) := by
    intro x hx hxid
    obtain rfl := List.inj_on_of_nodup_map hw.ids hx hrow (hxid.trans hid.symm)
    exact ⟨rfl, rfl, rfl, .inr rfl, .inr hstop⟩
  have hpending : state' ≠ .reviewPending := by
    rintro rfl
    rcases hstop with hbad | ⟨-, hbad⟩ <;> cases hbad
  rcases hnodes with hnodes | hnodes
  · rw [hnodes]
    refine .of_map fun x hx => ?_
    split_ifs with hc
    · exact .halts (hreleased x hx hc.1)
    · exact .refl
  · rw [hnodes, List.map_map]
    refine .of_map fun x hx => ?_
    rw [Function.comp]
    by_cases hc : x.id = w.id ∧ x.holds w = true
    · rw [if_pos hc, if_neg fun hj => hpending hj.2]
      exact .halts (hreleased x hx hc.1)
    · rw [if_neg hc]
      split_ifs with hj
      · exact .refused w.id t hj.2
      · exact .refl

theorem insert_added {b : TaskBudget} {spec : NodeSpec} {key k : NodeId} {g : GraphId}
    (hi : insert env b spec key g t₁ t₂ h.db = .ok (db', k))
    (hs : spec.reviewOf = none ∨ ∃ m, .reviewable m ∈ h.held ∧ spec = reviewSpec m) :
    db'.nodes = h.db.nodes ∨ ∃ n, Added h n ∧ db'.nodes = h.db.nodes ++ [n] := by
  obtain rfl | ⟨row, db₁, payload, deadline, hnew, -, -, hpin, hfree, heq⟩ := insert_ok hi
  · exact .inl rfl
  obtain ⟨-, -, -, -, -, ⟨graph, tools, rfl⟩, -⟩ := pin_ok hpin
  refine .inr ⟨_, ⟨fun x hx hid => ?_, rfl, rfl, rfl, ?_⟩, by rw [heq]⟩
  · obtain ⟨y, hy⟩ := Records.find_isSome Node.id hx
    rw [hid] at hy
    exact absurd (hfree.symm.trans hy) (by simp)
  · rcases hs with hs | ⟨m, hm, rfl⟩
    · exact .inl hs
    · exact .inr ⟨m, hm, rfl, rfl, rfl, hnew m.id rfl⟩

theorem claimed_move {out : Option Node}
    (hy : a.yields h.uuids h.db = (out.map Held.worker).toList)
    (hc : Claimed clock token out n n') : Move h a n n' := by
  cases hc with
  | same => exact .refl
  | failed hq => exact .halts (.of_halted rfl rfl rfl (.inl rfl) rfl)
  | claimed hq ho =>
    refine .claimed token _ hq ?_
    rw [hy, ho]
    exact List.mem_singleton_self _

end

/-! ### Every transaction -/

theorem Act.yields_of_ok {u : Token} {db db' : Db} {new : List Held}
    (ha : a.attempt u db = .ok (db', new)) : a.yields u db = new := by
  rw [Act.yields, ha]

theorem Act.perform_of_ok {u : Token} {db db' : Db} {new : List Held}
    (ha : a.attempt u db = .ok (db', new)) : a.perform u db = db' := by
  rw [Act.perform, ha, settle_ok]

/-- A committed transaction moves the rows, and adds at most one. -/
theorem attempt_moves {db' : Db} {new : List Held} (hw : h.Wf) (hp : a.permitted h.held)
    (ha : a.attempt h.uuids h.db = .ok (db', new)) :
    ∃ moved, Records.Rewrites (Move h a) h.db.nodes moved ∧
      (db'.nodes = moved ∨ ∃ n, Added h n ∧ db'.nodes = moved ++ [n]) := by
  have hy := Act.yields_of_ok ha
  have hquiet : db'.nodes = h.db.nodes → ∃ moved, Records.Rewrites (Move h a) h.db.nodes moved ∧
      (db'.nodes = moved ∨ ∃ n, Added h n ∧ db'.nodes = moved ++ [n]) :=
    fun e => ⟨_, .refl fun _ _ => .refl, .inl e⟩
  have hmoved : Records.Rewrites (Move h a) h.db.nodes db'.nodes →
      ∃ moved, Records.Rewrites (Move h a) h.db.nodes moved ∧
        (db'.nodes = moved ∨ ∃ n, Added h n ∧ db'.nodes = moved ++ [n]) :=
    fun e => ⟨_, e, .inl rfl⟩
  have hadded : (db'.nodes = h.db.nodes ∨ ∃ n, Added h n ∧ db'.nodes = h.db.nodes ++ [n]) →
      ∃ moved, Records.Rewrites (Move h a) h.db.nodes moved ∧
        (db'.nodes = moved ∨ ∃ n, Added h n ∧ db'.nodes = moved ++ [n]) :=
    fun e => ⟨_, .refl fun _ _ => .refl, e⟩
  cases a with
  | create env k stored t | load k | check b active t | reserve b model prompt output t
  | reserveChild b depth t | get owner k | mergeable env site active n r t | probe env g t
  | nodeStopped g k =>
    simp only [Act.attempt, bind_eq_ok, pure_eq_ok] at ha
    obtain ⟨_, _, ha⟩ := ha
    cases ha
    exact hquiet rfl
  | reconcile | unreviewed | task | dispatched =>
    cases ha
    exact hquiet rfl
  | answer acc n text =>
    simp only [Act.attempt, Human.answer, bind_eq_ok, pure_eq_ok] at ha
    obtain ⟨x, ⟨-, -, y, -, rfl⟩, ha⟩ := ha
    cases ha
    exact hquiet rfl
  | mark n t =>
    simp only [Act.attempt, Human.mark, bind_eq_ok, pure_eq_ok] at ha
    obtain ⟨x, ⟨-, -, rfl⟩, ha⟩ := ha
    cases ha
    exact hquiet rfl
  | resolve acc n call text =>
    simp only [Act.attempt, Human.resolve, bind_eq_ok, pure_eq_ok] at ha
    obtain ⟨x, ⟨y, -, rfl⟩, ha⟩ := ha
    cases ha
    exact hquiet rfl
  | sealGraph g =>
    simp only [Act.attempt, Graphs.sealGraph, bind_eq_ok, pure_eq_ok] at ha
    obtain ⟨x, ⟨y, -, rfl⟩, ha⟩ := ha
    cases ha
    exact hquiet rfl
  | submit env b spec t₁ t₂ =>
    simp only [Act.attempt, bind_eq_ok, pure_eq_ok] at ha
    obtain ⟨⟨db₁, k⟩, hi, ha⟩ := ha
    cases ha
    exact hadded (insert_added hi (.inl hp.2.review))
  | review env b n t₁ t₂ =>
    simp only [Act.attempt, bind_eq_ok, pure_eq_ok] at ha
    obtain ⟨⟨db₁, k⟩, hi, ha⟩ := ha
    cases ha
    exact hadded (insert_added hi (.inr ⟨n, hp.2.1, rfl⟩))
  | unreviewable n =>
    cases ha
    exact hmoved (.of_ite (fun _ _ _ => .halts (.of_halted rfl rfl rfl (.inl rfl) rfl))
      fun _ _ => .refl)
  | recover env clock t =>
    simp only [Act.attempt, bind_eq_ok, pure_eq_ok] at ha
    obtain ⟨⟨db₁, k⟩, hr, ha⟩ := ha
    cases ha
    refine hmoved ?_
    rw [recover_ok hr]
    dsimp only
    rw [List.map_map]
    exact .of_map fun _ _ => .halts (recoverNode_halts.trans rejectNode_halts)
  | claim env clock =>
    simp only [Act.attempt, bind_eq_ok, pure_eq_ok] at ha
    obtain ⟨⟨db₁, out⟩, hc, ha⟩ := ha
    cases ha
    obtain ⟨-, hrew, -⟩ := claim_ok hw.ids hc
    exact hmoved (hrew.mono fun _ _ _ hx => claimed_move hy hx)
  | renew n t₁ t₂ =>
    cases ha
    exact hmoved (.of_ite (fun _ _ _ => .halts ⟨rfl, rfl, rfl, .inl rfl, .inl rfl⟩) fun _ _ => .refl)
  | publish env w r t₁ t₂ =>
    simp only [Act.attempt, bind_eq_ok, pure_eq_ok] at ha
    obtain ⟨⟨db₁, state⟩, hpub, ha⟩ := ha
    cases ha
    exact hmoved (publish_moves hw hp hpub hy)
  | fail env w state t =>
    simp only [Act.attempt, bind_eq_ok, pure_eq_ok] at ha
    obtain ⟨⟨db₁, _⟩, hf, ha⟩ := ha
    cases ha
    exact hmoved (fail_moves hw hp.2.1 hf)
  | cancel env owner k clock =>
    simp only [Act.attempt, cancel, bind_eq_ok, pure_eq_ok] at ha
    obtain ⟨x, ⟨-, -, -, -, rfl⟩, ha⟩ := ha
    cases ha
    refine hmoved (.of_map fun x _ => ?_)
    split_ifs
    · exact .halts cancelNode_halts
    · exact .refl
  | requeue k =>
    cases ha
    refine hmoved (.of_ite (fun x _ hx => .requeued ?_) fun _ _ => .refl)
    rw [of_decide_eq_true hx]
  | abandon env n t =>
    simp only [Act.attempt, bind_eq_ok, pure_eq_ok] at ha
    obtain ⟨⟨db₁, _⟩, hab, ha⟩ := ha
    cases ha
    refine hmoved ?_
    rw [(Human.abandon_ok hab).2]
    refine .of_map fun x _ => ?_
    split_ifs
    · exact .halts (.of_halted rfl rfl rfl (.inr rfl) rfl)
    · exact .refl
  | conflict n | abort n token =>
    cases ha
    exact hmoved (.of_ite (fun _ _ _ => .halts (.of_halted rfl rfl rfl (.inl rfl) rfl))
      fun _ _ => .refl)
  | start env site n t =>
    simp only [Act.attempt, bind_eq_ok, pure_eq_ok] at ha
    obtain ⟨⟨db₁, _⟩, hs, ha⟩ := ha
    cases ha
    refine hmoved ?_
    rw [Merge.start_ok hs]
    refine .of_map fun x _ => ?_
    split_ifs with hx
    · exact .taken n h.uuids t hp hx.1 hx.2
    · exact .refl
  | finish env site n token files archive t =>
    simp only [Act.attempt, bind_eq_ok, pure_eq_ok] at ha
    obtain ⟨⟨db₁, _⟩, hf, ha⟩ := ha
    cases ha
    obtain ⟨r, hr, heq⟩ := Merge.finish_ok hf
    refine hmoved ?_
    rw [heq]
    refine .of_map fun x _ => ?_
    split_ifs with hx
    · exact .merged n token r _ t hp hx.1 hr hx.2.1
    · exact .refl
  | stop g reason t =>
    simp only [Act.attempt, bind_eq_ok, pure_eq_ok] at ha
    obtain ⟨⟨db₁, _⟩, hs, ha⟩ := ha
    cases ha
    obtain ⟨graph, -, ⟨-, rfl | rfl⟩ | ⟨-, rfl⟩⟩ := Graphs.stop_ok hs
    · exact hquiet rfl
    · exact hquiet rfl
    · exact hmoved (.of_ite (fun _ _ _ => .halts Graphs.stopNode_halts) fun _ _ => .refl)
  | conclude g root t =>
    simp only [Act.attempt, bind_eq_ok, pure_eq_ok] at ha
    obtain ⟨⟨db₁, _⟩, hc, ha⟩ := ha
    cases ha
    obtain ⟨graph, -, _, rfl, hdb⟩ := Graphs.conclude_ok hc
    have hrew := (Graphs.failStuck_ok graph t (Graphs.order graph h.db) hw.ids).2.mono (S := Move h (.conclude g root t)) fun _ _ _ hh => .halts hh
    obtain rfl | ⟨state, -, -, rfl⟩ := hdb
    · exact hmoved hrew
    · exact hmoved hrew
  | graphClaim env g k p t =>
    simp only [Act.attempt, bind_eq_ok, pure_eq_ok] at ha
    obtain ⟨⟨db₁, out⟩, hc, ha⟩ := ha
    cases ha
    obtain ⟨-, rfl⟩ | ⟨graph, n, hn, rfl, heq⟩ := Graphs.claim_ok hc
    · exact hquiet rfl
    refine hmoved ?_
    rw [heq]
    refine .of_map fun x hx => ?_
    split_ifs with hid
    · obtain rfl := List.inj_on_of_nodup_map hw.ids hx hn.mem (hid.trans hn.id.symm)
      have hq := hn.ready
      simp only [Graphs.ready, Bool.and_eq_true, decide_eq_true_eq] at hq
      exact .claimed h.uuids t hq.1 (by rw [hy]; exact List.mem_singleton_self _)
    · exact .refl
  | fence k state t =>
    cases ha
    cases state with
    | none => exact hquiet rfl
    | some s =>
      refine hmoved (.of_map fun x _ => ?_)
      split_ifs
      · refine .halts (.of_halted rfl rfl rfl (.inl rfl) ?_)
        obtain rfl | rfl := hw.stopped k s hp <;> rfl
      · exact .refl
  | processDone g n t =>
    simp only [Act.attempt, bind_eq_ok, pure_eq_ok] at ha
    obtain ⟨⟨db₁, _⟩, hd, ha⟩ := ha
    cases ha
    refine hmoved ?_
    rw [Graphs.processDone_ok hd]
    refine .of_map fun x _ => ?_
    split_ifs
    · exact .halts Graphs.doneNode_halts
    · exact .refl
  | reap p t =>
    simp only [Act.attempt, bind_eq_ok, pure_eq_ok] at ha
    obtain ⟨⟨db₁, _⟩, hr, ha⟩ := ha
    cases ha
    exact hmoved ((Graphs.reap_ok hr).nodes.mono fun _ _ _ hh => .halts hh)

theorem given_of_reports {b : TaskBudget} {key : Token} {usage : Option Usage} {settle : Bool}
    {db : Budgets.Db} (hx : x ∈ Act.reports b key usage settle db) : Given h a x := by
  unfold Act.reports at hx
  split at hx
  · split at hx
    · split_ifs at hx
      · cases hx
      · rw [List.mem_singleton.1 hx]
        exact .other rfl
    · cases hx
  · cases hx

/-- What a committed transaction gives to its call. -/
theorem attempt_given {db' : Db} {new : List Held} (hw : h.Wf) (hp : a.permitted h.held)
    (ha : a.attempt h.uuids h.db = .ok (db', new)) (hx : x ∈ new) : Given h a x := by
  have hworker : ∀ {out : Option Node}, x ∈ (out.map Held.worker).toList →
      (∀ y, out = some y → ∃ n ∈ h.db.nodes, n.state = .queued ∧
        ∃ token t, y = Coordinator.claimed token t n ∧
          ((∃ env clock, a = .claim env clock) ∨ ∃ env g p, a = .graphClaim env g n.id p t)) →
      Given h a x := by
    intro out hx hout
    cases out with
    | none => cases hx
    | some y =>
      obtain ⟨n, hn, hq, token, t, rfl, ha⟩ := hout y rfl
      rw [List.mem_singleton.1 hx]
      exact .worker n token t hn hq ha
  cases a with
  | create env k stored t =>
    simp only [Act.attempt, bind_eq_ok, pure_eq_ok] at ha
    obtain ⟨_, _, ha⟩ := ha
    cases ha
    rw [List.mem_singleton.1 hx]
    exact .other rfl
  | load k =>
    simp only [Act.attempt, bind_eq_ok, pure_eq_ok] at ha
    obtain ⟨b, hb, ha⟩ := ha
    cases ha
    obtain ⟨rfl, row, hrow, hl⟩ := TaskBudget.load_ok hb
    rw [List.mem_singleton.1 hx]
    exact .budget hrow hl
  | check b active t =>
    simp only [Act.attempt, bind_eq_ok, pure_eq_ok] at ha
    obtain ⟨_, _, ha⟩ := ha
    cases ha
    rw [List.mem_singleton.1 hx]
    exact .checked hp
  | reserve b model prompt output t =>
    simp only [Act.attempt, bind_eq_ok, pure_eq_ok] at ha
    obtain ⟨⟨db₁, _⟩, _, ha⟩ := ha
    cases ha
    rw [Option.mem_toList, Option.map_eq_some_iff] at hx
    obtain ⟨c, -, rfl⟩ := hx
    exact .other rfl
  | reconcile b key usage settle =>
    cases ha
    exact given_of_reports hx
  | get owner k =>
    simp only [Act.attempt, bind_eq_ok, pure_eq_ok, require_eq_ok] at ha
    obtain ⟨n, hn, ha⟩ := ha
    cases ha
    rw [List.mem_singleton.1 hx]
    exact .seen (Records.mem_of_find (Option.filter_eq_some_iff.1 hn).1)
  | unreviewed n =>
    cases ha
    split_ifs at hx with hu
    · rw [List.mem_singleton.1 hx]
      simp only [Coordinator.unreviewed, Bool.and_eq_true, decide_eq_true_eq] at hu
      exact .reviewable hp hu.1
    · cases hx
  | claim env clock =>
    simp only [Act.attempt, bind_eq_ok, pure_eq_ok] at ha
    obtain ⟨⟨db₁, out⟩, hc, ha⟩ := ha
    cases ha
    refine hworker hx fun y hy => ?_
    obtain ⟨n, hn, rfl⟩ := (claim_ok hw.ids hc).2.2 y hy
    exact ⟨n, (Db.mem_queue hn).1, (Db.mem_queue hn).2.1, _, _, rfl, .inl ⟨env, clock, rfl⟩⟩
  | graphClaim env g k p t =>
    simp only [Act.attempt, bind_eq_ok, pure_eq_ok] at ha
    obtain ⟨⟨db₁, out⟩, hc, ha⟩ := ha
    cases ha
    refine hworker hx fun y hy => ?_
    obtain ⟨rfl, -⟩ | ⟨graph, n, hn, rfl, -⟩ := Graphs.claim_ok hc
    · cases hy
    · cases hy
      have hq := hn.ready
      simp only [Graphs.ready, Bool.and_eq_true, decide_eq_true_eq] at hq
      exact ⟨n, hn.mem, hq.1, _, _, rfl, .inr ⟨env, g, p, by rw [hn.id]⟩⟩
  | publish env w r t₁ t₂ =>
    simp only [Act.attempt, bind_eq_ok, pure_eq_ok] at ha
    obtain ⟨⟨db₁, state⟩, hpub, ha⟩ := ha
    cases ha
    obtain ⟨hrow, rfl, -⟩ := publish_ok hpub
    rw [List.mem_singleton.1 hx]
    exact .published env w r t₁ t₂ rfl hp hrow
  | cancel env owner k clock =>
    simp only [Act.attempt, cancel, bind_eq_ok, pure_eq_ok, require_eq_ok] at ha
    obtain ⟨y, ⟨n, hn, -, -, rfl⟩, ha⟩ := ha
    cases ha
    rw [List.mem_singleton.1 hx]
    exact .cancelled env owner k clock rfl (by rw [hn]; rfl)
  | answer acc n text =>
    simp only [Act.attempt, bind_eq_ok, pure_eq_ok] at ha
    obtain ⟨_, _, ha⟩ := ha
    cases ha
    rw [List.mem_singleton.1 hx]
    exact .other rfl
  | resolve acc n call text =>
    simp only [Act.attempt, bind_eq_ok, pure_eq_ok] at ha
    obtain ⟨_, _, ha⟩ := ha
    cases ha
    rw [List.mem_singleton.1 hx]
    exact .other rfl
  | mark n t =>
    simp only [Act.attempt, bind_eq_ok, pure_eq_ok] at ha
    obtain ⟨_, _, ha⟩ := ha
    cases ha
    rw [List.mem_singleton.1 hx]
    exact .marked hp
  | mergeable env site active n r t =>
    simp only [Act.attempt, bind_eq_ok, pure_eq_ok] at ha
    obtain ⟨_, hc, ha⟩ := ha
    cases ha
    rw [List.mem_singleton.1 hx]
    exact .mergeable hp.1 (Merge.check_ok hc).1
  | start env site n t =>
    simp only [Act.attempt, bind_eq_ok, pure_eq_ok] at ha
    obtain ⟨_, _, ha⟩ := ha
    cases ha
    rw [List.mem_singleton.1 hx]
    exact .merging hp
  | recover env clock t =>
    simp only [Act.attempt, bind_eq_ok, pure_eq_ok] at ha
    obtain ⟨_, _, ha⟩ := ha
    cases ha
    rw [List.mem_singleton.1 hx]
    exact .other rfl
  | probe env g t =>
    simp only [Act.attempt, bind_eq_ok, pure_eq_ok] at ha
    obtain ⟨found, _, ha⟩ := ha
    cases ha
    rw [Option.mem_toList, Option.map_eq_some_iff] at hx
    obtain ⟨c, -, rfl⟩ := hx
    exact .other rfl
  | nodeStopped g k =>
    simp only [Act.attempt, bind_eq_ok, pure_eq_ok] at ha
    obtain ⟨state, hs, ha⟩ := ha
    cases ha
    rw [List.mem_singleton.1 hx]
    exact .stopped (Graphs.nodeStopped_ok hs)
  | unreviewable | renew | requeue | conflict | abort | task | dispatched | fence =>
    cases ha
    cases hx
  | reserveChild | submit | review | fail | abandon | finish | stop | sealGraph | conclude
  | processDone | reap =>
    simp only [Act.attempt, bind_eq_ok, pure_eq_ok] at ha
    obtain ⟨_, _, ha⟩ := ha
    cases ha
    cases hx

/-! ### Every step -/

namespace Host

theorem moves (hw : h.Wf) (hs : lts.step h a h') :
    ∃ moved, Records.Rewrites (Move h a) h.db.nodes moved ∧
      (h'.db.nodes = moved ∨ ∃ n, Added h n ∧ h'.db.nodes = moved ++ [n]) := by
  obtain ⟨t, -, -, hp, rfl⟩ := hs
  cases hr : a.attempt h.uuids h.db with
  | error e =>
    refine ⟨_, .refl fun _ _ => .refl, .inl ?_⟩
    simp [after, Act.perform, hr]
  | ok x =>
    have hmoves := attempt_moves hw hp (hr.trans rfl : _ = Except.ok (x.1, x.2))
    rw [← Act.perform_of_ok (hr.trans rfl : _ = Except.ok (x.1, x.2))] at hmoves
    exact hmoves

theorem given (hw : h.Wf) (hs : lts.step h a h') :
    ∃ new, h'.held = h.held ++ new ∧ new = a.yields h.uuids h.db ∧ ∀ x ∈ new, Given h a x := by
  obtain ⟨t, -, -, hp, rfl⟩ := hs
  refine ⟨_, rfl, rfl, fun x hx => ?_⟩
  cases hr : a.attempt h.uuids h.db with
  | error e =>
    rw [Act.yields, hr] at hx
    cases hx
  | ok y =>
    rw [Act.yields_of_ok (hr.trans rfl : _ = Except.ok (y.1, y.2))] at hx
    exact attempt_given hw hp hr hx

/-- Every row comes from one that has moved, or is new. -/
theorem old_row (hw : h.Wf) (hs : lts.step h a h') (hn : n' ∈ h'.db.nodes) :
    (∃ n ∈ h.db.nodes, Move h a n n') ∨ Added h n' := by
  obtain ⟨moved, hrew, heq | ⟨m, hm, heq⟩⟩ := moves hw hs
  · exact .inl (hrew.old (heq ▸ hn))
  · rw [heq, List.mem_append, List.mem_singleton] at hn
    rcases hn with hn | rfl
    · exact .inl (hrew.old hn)
    · exact .inr hm

/-- Every row has moved. -/
theorem new_row (hw : h.Wf) (hs : lts.step h a h') (hn : n ∈ h.db.nodes) :
    ∃ n' ∈ h'.db.nodes, Move h a n n' := by
  obtain ⟨moved, hrew, heq | ⟨m, hm, heq⟩⟩ := moves hw hs
  · exact heq ▸ hrew.new hn
  · obtain ⟨n', hn', hmove⟩ := hrew.new hn
    exact ⟨n', heq ▸ List.mem_append_left _ hn', hmove⟩

/-- What is held after a step was held before, or is given by the step. -/
theorem held_step (hw : h.Wf) (hs : lts.step h a h') (hx : x ∈ h'.held) :
    x ∈ h.held ∨ Given h a x := by
  obtain ⟨new, heq, -, hnew⟩ := given hw hs
  rw [heq, List.mem_append] at hx
  exact hx.imp_right (hnew x)

theorem held_mono (hs : lts.step h a h') (hx : x ∈ h.held) : x ∈ h'.held := by
  obtain ⟨t, -, -, -, rfl⟩ := hs
  exact List.mem_append_left _ hx

theorem ids_step (hw : h.Wf) (hs : lts.step h a h') : (h'.db.nodes.map Node.id).Nodup := by
  obtain ⟨moved, hrew, hnodes⟩ := moves hw hs
  have hids : moved.map Node.id = h.db.nodes.map Node.id := hrew.map_key fun _ _ hm => hm.id
  rcases hnodes with heq | ⟨m, hm, heq⟩
  · rw [heq, hids]
    exact hw.ids
  · rw [heq]
    refine Records.nodup_append (hids ▸ hw.ids) fun y hy => ?_
    obtain ⟨z, hz, hmove⟩ := hrew.old hy
    rw [hmove.id]
    exact hm.fresh z hz

theorem wf_step (hw : h.Wf) (hs : lts.step h a h') : h'.Wf := by
  have hrow : ∀ {m : Node}, (∃ x ∈ h.db.nodes, x.fixed = m.fixed) →
      ∃ x ∈ h'.db.nodes, x.fixed = m.fixed := by
    rintro m ⟨x, hx, hf⟩
    obtain ⟨y, hy, hmove⟩ := new_row hw hs hx
    exact ⟨y, hy, hmove.fixed.trans hf⟩
  refine ⟨ids_step hw hs, fun m hm => ?_, fun m hm => ?_, fun m hm => ?_, fun m hm => ?_,
    fun m token hm => ?_, fun m hm hr => ?_, fun k s hm => ?_⟩
  · rcases held_step hw hs hm with hm | hm
    · exact hrow (hw.seen m hm)
    · cases hm with
      | seen hn => exact hrow ⟨m, hn, rfl⟩
      | other hx => cases hx
  · rcases held_step hw hs hm with hm | hm
    · exact hrow (hw.worker m hm)
    · cases hm with
      | worker n token t hn => exact hrow ⟨n, hn, rfl⟩
      | other hx => cases hx
  · rcases held_step hw hs hm with hm | hm
    · exact (hw.reviewable m hm).imp_left (held_mono hs)
    · cases hm with
      | reviewable hn hp => exact ⟨held_mono hs hn, hp⟩
      | other hx => cases hx
  · rcases held_step hw hs hm with hm | hm
    · exact (hw.mergeable m hm).imp_left (held_mono hs)
    · cases hm with
      | mergeable hn hp => exact ⟨held_mono hs hn, hp⟩
      | other hx => cases hx
  · rcases held_step hw hs hm with hm | hm
    · exact held_mono hs (hw.merging m token hm)
    · cases hm with
      | merging hn => exact held_mono hs hn
      | other hx => cases hx
  · rcases old_row hw hs hm with ⟨n, hn, hmove⟩ | hadd
    · have hrev : m.reviewOf = n.reviewOf :=
        show m.fixed.reviewOf = n.fixed.reviewOf by rw [hmove.fixed]
      have hper : m.persona = n.persona :=
        show m.fixed.persona = n.fixed.persona by rw [hmove.fixed]
      rw [hper]
      exact hw.reviewer n hn (hrev ▸ hr)
    · rcases hadd.review with hnone | ⟨-, -, -, hp, -⟩
      · rw [hnone] at hr
        cases hr
      · exact hp
  · rcases held_step hw hs hm with hm | hm
    · exact hw.stopped k s hm
    · cases hm with
      | stopped hst => exact hst s rfl
      | other hx => cases hx

theorem Initial.wf (hi : h.Initial) : h.Wf := by
  obtain ⟨hdb, hheld⟩ := hi
  refine ⟨?_, ?_, ?_, ?_, ?_, ?_, ?_, ?_⟩
  · rw [hdb]
    exact List.nodup_nil
  case refine_7 =>
    intro n hn
    rw [hdb] at hn
    cases hn
  all_goals
    intros
    rename_i hm
    rw [hheld] at hm
    cases hm

/-- **Every reachable state is well formed.** -/
theorem wf (hr : lts.Reachable Initial h) : h.Wf :=
  hr.invariant (fun _ => Initial.wf) fun _ _ _ => wf_step

end Host

end Coordinator

end PythonAI
