import PythonAI.Coordinator.Moves

/-!
# What happens to a node that a merge has taken

A merge takes a node with a token of its own.  Until it ends the node is `merging`, or its
cancellation is requested, or it needs a resolution, and the transactions of the other calls treat
it by rules that were written for workers.

**Main results**: `attempt_touches` (what a transaction does to such a node) and
`Host.worker_lease` (the token of a worker is the id that its claim has used).
-/

namespace PythonAI

open Library Budgets

namespace Coordinator

variable {h h' : Host} {a : Act} {n n' : Node} {t : Time}

/-- The states in which a merge may be open. -/
def NodeState.taken : NodeState → Bool
  | merging | cancelRequested | needsResolution => true
  | _ => false

/-- The transaction cancels the node, or stops its graph while it is merging. -/
def Act.cancels (h : Host) (n : Node) : Act → Prop
  | .cancel _ owner k _ => n.id ∈ closure h.db owner k
  | .stop g _ _ => n.state = .merging ∧ ∃ graph, h.db.graph g = some graph ∧
      Graphs.hasNode graph n = true
  | _ => False

/-- The transaction is the handler of a merge. -/
def Act.aborts : Act → Bool
  | .abort .. => true
  | _ => false

/-- What a transaction that ends at `t` does to a node that a merge may have taken. -/
inductive Touch (h : Host) (a : Act) (t : Time) (n : Node) : Node → Prop
  /-- nothing, and it is no abort under the token of the node -/
  | kept {n' : Node} (hs : n'.state = n.state) (hl : n'.lease = n.lease)
      (he : n'.expires = n.expires)
      (ha : ∀ m token, a = .abort m token → m.id = n.id → n.lease ≠ some token) : Touch h a t n n'
  /-- it needs a resolution -/
  | resolved {n' : Node} (hs : n'.state = .needsResolution) : Touch h a t n n'
  /-- its cancellation was requested, and its lease has expired -/
  | lapsed {n' : Node} (ha : a.aborts = false) (hs : n.state = .cancelRequested)
      (hdead : n.live t = false) : Touch h a t n n'
  /-- it is cancelled -/
  | cancelled {n' : Node} (hc : a.cancels h n) (hl : n'.lease = n.lease)
      (he : n'.expires = n.expires)
      (hs : n.lease.isSome = true → n.live t = true → n'.state = .cancelRequested) :
      Touch h a t n n'
  /-- a human lets it go on -/
  | requeued {n' : Node} (ha : a = .requeue n.id) : Touch h a t n n'
  /-- a human gives it up -/
  | abandoned {n' m : Node} {env : Env} {t₁ : Time} (ha : a = .abandon env m t₁)
      (hid : n.id = m.id) : Touch h a t n n'
  /-- `node_stopped` writes -/
  | fenced {n' : Node} {s : NodeState} {t₁ : Time} (ha : a = .fence n.id (some s) t₁)
      (hs : n'.state = s) : Touch h a t n n'
  /-- a worker that holds the lease ends it -/
  | released {n' w : Node} (hw : .worker w ∈ h.held) (hh : n.holds w = true)
      (hs : n.state = .needsResolution → n'.state = .needsResolution) : Touch h a t n n'
  /-- it is merged -/
  | merged {n' m : Node} {env : Env} {site : Merge.Site} {token : Token} {files : List String}
      {archive : String} {t₁ : Time} (ha : a = .finish env site m token files archive t₁)
      (hid : n.id = m.id) (hs : n.state = .merging) (hl : n.lease = some token) : Touch h a t n n'

theorem Act.ne_abort {m : Node} {token : Token} (ha : a.aborts = false) : a ≠ .abort m token := by
  rintro rfl
  cases ha

theorem Touch.same (ha : a.aborts = false) : Touch h a t n n :=
  .kept rfl rfl rfl fun _ _ heq => absurd heq (Act.ne_abort ha)

theorem NodeState.taken_ne {s s' : NodeState} (hs : s.taken = true) (hs' : s'.taken = false) :
    s ≠ s' := by
  rintro rfl
  rw [hs] at hs'
  cases hs'

theorem Node.live_of_le {t₁ : Time} (hl : n.live t = true) (ht : t₁ ≤ t) : n.live t₁ = true := by
  simp only [Node.live, Option.any_eq_true, decide_eq_true_eq] at hl ⊢
  obtain ⟨e, he, hlt⟩ := hl
  exact ⟨e, he, lt_of_le_of_lt ht hlt⟩

/-! ### The rows of a graph -/

/-- The loop of `snapshot` that fails queued nodes leaves the other ones alone. -/
theorem Graphs.failStuck_mem {db : Db} {graph : Graph} {keys : List NodeId}
    (hids : (db.nodes.map Node.id).Nodup) (hn : n ∈ db.nodes) (hq : n.state ≠ .queued) :
    n ∈ (Graphs.failStuck graph t keys db).nodes := by
  induction keys generalizing db with
  | nil => exact hn
  | cons k keys ih =>
    unfold Graphs.failStuck
    split
    · exact ih hids hn
    case h_2 m hm =>
      split_ifs with hstuck
      · refine ih ?_ (List.mem_map.mpr ⟨n, hn, if_neg fun hid => hq ?_⟩)
        · rw [Db.updateNodes, Records.map_key fun x _ => by split_ifs <;> rfl]
          exact hids
        · have hmem := (List.mem_filter.mp (Records.mem_of_find hm)).1
          have heq := List.inj_on_of_nodup_map hids hn hmem
            ((of_decide_eq_true hid).trans (Records.key_of_find hm).symm)
          simp only [Graphs.stuck, Bool.and_eq_true, decide_eq_true_eq] at hstuck
          rw [heq]
          exact hstuck.1
      · exact ih hids hn

/-- `reap` leaves a taken node alone, or reports it. -/
theorem Graphs.reapRun_taken {p : Graphs.Processes} {r : Run} {db db' : Db}
    (hr : Graphs.reapRun p t r db = .ok db') (hn : n ∈ db.nodes) (hs : n.state.taken = true) :
    ∃ n' ∈ db'.nodes, n'.id = n.id ∧ (n' = n ∨ n'.state = .needsResolution) := by
  unfold Graphs.reapRun at hr
  split_ifs at hr
  · cases hr
    exact ⟨n, hn, rfl, .inl rfl⟩
  · cases hr
    refine ⟨n, List.mem_map.mpr ⟨n, hn, if_neg fun hrun => ?_⟩, rfl, .inl rfl⟩
    simp only [Bool.and_eq_true, decide_eq_true_eq] at hrun
    exact NodeState.taken_ne hs rfl hrun.2
  · simp only [Graphs.get, bind_eq_ok, pure_eq_ok, require_eq_ok] at hr
    obtain ⟨graph, -, m, -, rfl⟩ := hr
    refine ⟨_, List.mem_map_of_mem hn, ?_⟩
    unfold Graphs.abandoned
    split_ifs
    · exact ⟨rfl, .inr rfl⟩
    · exact ⟨rfl, .inl rfl⟩
    · exact ⟨rfl, .inl rfl⟩

theorem Graphs.reapFrom_taken {p : Graphs.Processes} {rs : List Run} {db db' : Db}
    (hr : Graphs.reapFrom p t rs db = .ok db') (hn : n ∈ db.nodes) (hs : n.state.taken = true) :
    ∃ n' ∈ db'.nodes, n'.id = n.id ∧ (n' = n ∨ n'.state = .needsResolution) := by
  induction rs generalizing db n with
  | nil =>
    cases hr
    exact ⟨n, hn, rfl, .inl rfl⟩
  | cons r rs ih =>
    simp only [Graphs.reapFrom, bind_eq_ok] at hr
    obtain ⟨db₁, h₁, h₂⟩ := hr
    obtain ⟨n₁, hn₁, hid, heq⟩ := Graphs.reapRun_taken h₁ hn hs
    have hs₁ : n₁.state.taken = true := by
      rcases heq with rfl | heq
      · exact hs
      · rw [heq]
        rfl
    obtain ⟨n₂, hn₂, hid₂, heq₂⟩ := ih h₂ hn₁ hs₁
    refine ⟨n₂, hn₂, hid₂.trans hid, ?_⟩
    rcases heq₂ with rfl | heq₂
    · exact heq
    · exact .inr heq₂

theorem Graphs.reap_taken {p : Graphs.Processes} {out : Unit} {db db' : Db}
    (hr : Graphs.reap p t db = .ok (db', out)) (hn : n ∈ db.nodes) (hs : n.state.taken = true) :
    ∃ n' ∈ db'.nodes, n'.id = n.id ∧ (n' = n ∨ n'.state = .needsResolution) := by
  simp only [Graphs.reap, bind_eq_ok, pure_eq_ok] at hr
  obtain ⟨db₁, h₁, hr⟩ := hr
  cases hr
  obtain ⟨n₁, hn₁, hid, heq⟩ := Graphs.reapFrom_taken h₁ hn hs
  refine ⟨_, List.mem_map_of_mem hn₁, ?_⟩
  split_ifs
  · exact ⟨hid, .inr rfl⟩
  · exact ⟨hid, heq⟩

/-! ### Every transaction -/

theorem recoverNode_touch {clock : NodeId → Time} (ht : clock n.id ≤ t)
    (ha : a.aborts = false) (hs : n.state.taken = true) : Touch h a t n (recoverNode h.db clock n) := by
  unfold recoverNode
  split
  case h_2 => exact .same ha
  case h_1 s hrec =>
    unfold recovered at hrec
    dsimp only at hrec
    by_cases hnative : h.db.native n = true
    · rw [if_pos hnative] at hrec
      cases hrec
    rw [if_neg hnative] at hrec
    cases hst : n.state with
    | merging =>
      simp only [hst] at hrec
      split at hrec
      · cases hrec
      · cases hrec
        exact .resolved rfl
    | cancelRequested =>
      simp only [hst] at hrec
      by_cases hlive : n.live t = true
      · rw [if_pos (Node.live_of_le hlive ht)] at hrec
        cases hrec
        exact .kept hst.symm rfl rfl fun _ _ heq => absurd heq (Act.ne_abort ha)
      · exact .lapsed ha hst (by simpa using hlive)
    | needsResolution =>
      simp only [hst] at hrec
      cases hrec
    | _ =>
      rw [hst] at hs
      cases hs

theorem cancelNode_touch {c : Time} (hc : a.cancels h n) (ht : c ≤ t) (hs : n.state.taken = true) :
    Touch h a t n (cancelNode c n) := by
  unfold cancelNode
  rw [if_neg (NodeState.taken_ne hs rfl)]
  refine .cancelled hc rfl rfl fun hlease hlive => if_pos ?_
  simp [hlease, Node.live_of_le hlive ht]

theorem Graphs.stopNode_touch {c : Time} (hc : n.state = .merging → a.cancels h n)
    (ha : a.aborts = false) (hs : n.state.taken = true) : Touch h a t n (Graphs.stopNode c n) := by
  unfold Graphs.stopNode
  split_ifs with hstate hlease
  · rcases hstate with hq | hq | hq | hq
    · exact absurd hq (NodeState.taken_ne hs rfl)
    · exact absurd hq (NodeState.taken_ne hs rfl)
    · exact absurd hq (NodeState.taken_ne hs rfl)
    · exact .cancelled (hc hq) rfl rfl fun _ _ => rfl
  · rcases hstate with hq | hq | hq | hq
    · exact absurd hq (NodeState.taken_ne hs rfl)
    · exact absurd hq (NodeState.taken_ne hs rfl)
    · exact absurd hq (NodeState.taken_ne hs rfl)
    · exact .cancelled (hc hq) rfl rfl fun hl _ => absurd hl hlease
  · exact .same ha

/-- What a committed transaction does to a node that a merge may have taken. -/
theorem attempt_touches {db' : Db} {new : List Held} (hw : h.Wf) (hc : a.clocked h.db h.now t)
    (hp : a.permitted h.held) (ha : a.attempt h.uuids h.db = .ok (db', new)) (hn : n ∈ h.db.nodes)
    (hs : n.state.taken = true) : ∃ n' ∈ db'.nodes, n'.id = n.id ∧ Touch h a t n n' := by
  have hmap {f : Node → Node} {nodes : List Node} (hdb : nodes = h.db.nodes.map f)
      (hid : (f n).id = n.id) (htouch : Touch h a t n (f n)) :
      ∃ n' ∈ nodes, n'.id = n.id ∧ Touch h a t n n' :=
    ⟨f n, hdb ▸ List.mem_map_of_mem hn, hid, htouch⟩
  have hsame {nodes : List Node} (hmem : n ∈ nodes) (ha : a.aborts = false) :
      ∃ n' ∈ nodes, n'.id = n.id ∧ Touch h a t n n' := ⟨n, hmem, rfl, .same ha⟩
  cases a with
  | create env k stored t | load k | check b active t | reserve b model prompt output t
  | reserveChild b depth t | get owner k | mergeable env site active n r t | probe env g t
  | nodeStopped g k =>
    simp only [Act.attempt, bind_eq_ok, pure_eq_ok] at ha
    obtain ⟨_, _, ha⟩ := ha
    cases ha
    exact hsame hn rfl
  | reconcile | unreviewed | task | dispatched =>
    cases ha
    exact hsame hn rfl
  | answer acc m text =>
    simp only [Act.attempt, Human.answer, bind_eq_ok, pure_eq_ok] at ha
    obtain ⟨x, ⟨-, -, y, -, rfl⟩, ha⟩ := ha
    cases ha
    exact hsame hn rfl
  | mark m t =>
    simp only [Act.attempt, Human.mark, bind_eq_ok, pure_eq_ok] at ha
    obtain ⟨x, ⟨-, -, rfl⟩, ha⟩ := ha
    cases ha
    exact hsame hn rfl
  | resolve acc m call text =>
    simp only [Act.attempt, Human.resolve, bind_eq_ok, pure_eq_ok] at ha
    obtain ⟨x, ⟨y, -, rfl⟩, ha⟩ := ha
    cases ha
    exact hsame hn rfl
  | sealGraph g =>
    simp only [Act.attempt, Graphs.sealGraph, bind_eq_ok, pure_eq_ok] at ha
    obtain ⟨x, ⟨y, -, rfl⟩, ha⟩ := ha
    cases ha
    exact hsame hn rfl
  | submit env b spec t₁ t₂ =>
    simp only [Act.attempt, bind_eq_ok, pure_eq_ok] at ha
    obtain ⟨⟨db₁, k⟩, hi, ha⟩ := ha
    cases ha
    rcases insert_added hi (.inl hp.2.review) with heq | ⟨m, -, heq⟩
    · exact hsame (heq ▸ hn) rfl
    · exact hsame (heq ▸ List.mem_append_left _ hn) rfl
  | review env b m t₁ t₂ =>
    simp only [Act.attempt, bind_eq_ok, pure_eq_ok] at ha
    obtain ⟨⟨db₁, k⟩, hi, ha⟩ := ha
    cases ha
    rcases insert_added hi (.inr ⟨m, hp.2.1, rfl⟩) with heq | ⟨m, -, heq⟩
    · exact hsame (heq ▸ hn) rfl
    · exact hsame (heq ▸ List.mem_append_left _ hn) rfl
  | unreviewable m =>
    cases ha
    refine hsame (List.mem_map.mpr ⟨n, hn, if_neg fun hrow => ?_⟩) rfl
    simp only [Bool.and_eq_true, decide_eq_true_eq] at hrow
    exact NodeState.taken_ne hs rfl hrow.2
  | recover env clock t₁ =>
    simp only [Act.attempt, bind_eq_ok, pure_eq_ok] at ha
    obtain ⟨⟨db₁, k⟩, hr, ha⟩ := ha
    cases ha
    have htouch := recoverNode_touch (h := h) (a := .recover env clock t₁)
      (le_trans (hc.2.2 n hn).2 hc.2.1) rfl hs
    have hhalts : Halts n (recoverNode h.db clock n) := recoverNode_halts
    have htaken : (recoverNode h.db clock n).state ≠ .reviewPending := by
      intro hbad
      rcases hhalts.state with heq | hh | ⟨-, hq⟩
      · exact NodeState.taken_ne hs rfl (heq.symm.trans hbad)
      · rw [hbad] at hh
        cases hh
      · rw [hbad] at hq
        cases hq
    have hid := Node.id_of_fixed hhalts.fixed
    have hreject : rejectNode (h.db.nodes.map (recoverNode h.db clock)) t₁
        (recoverNode h.db clock n) = recoverNode h.db clock n := if_neg fun hbad => htaken hbad.1
    refine ⟨recoverNode h.db clock n, ?_, hid, htouch⟩
    rw [recover_ok hr]
    exact List.mem_map.mpr ⟨_, List.mem_map_of_mem hn, hreject⟩
  | claim env clock =>
    simp only [Act.attempt, bind_eq_ok, pure_eq_ok] at ha
    obtain ⟨⟨db₁, out⟩, hclaim, ha⟩ := ha
    cases ha
    obtain ⟨-, hrew, -⟩ := claim_ok hw.ids hclaim
    obtain ⟨n', hn', hmove⟩ := hrew.new hn
    cases hmove with
    | same => exact hsame hn' rfl
    | failed hq => exact absurd hq (NodeState.taken_ne hs rfl)
    | claimed hq => exact absurd hq (NodeState.taken_ne hs rfl)
  | renew m t₁ t₂ =>
    cases ha
    refine hsame (List.mem_map.mpr ⟨n, hn, if_neg fun hrow => ?_⟩) rfl
    exact NodeState.taken_ne hs rfl (renewable_iff.mp hrow).2.2.1
  | publish env w r t₁ t₂ =>
    simp only [Act.attempt, bind_eq_ok, pure_eq_ok] at ha
    obtain ⟨⟨db₁, state⟩, hpub, ha⟩ := ha
    cases ha
    rw [(publish_ok hpub).2.2]
    have hrenew : ¬ renewable w t₂ n = true := fun hrow =>
      NodeState.taken_ne hs rfl (renewable_iff.mp hrow).2.2.1
    refine hsame (List.mem_map.mpr ⟨n, List.mem_map.mpr ⟨n, hn, if_neg hrenew⟩, ?_⟩) rfl
    exact if_neg fun hrow => NodeState.taken_ne hs rfl hrow.2
  | fail env w state t₁ =>
    simp only [Act.attempt, bind_eq_ok, pure_eq_ok] at ha
    obtain ⟨⟨db₁, _⟩, hf, ha⟩ := ha
    cases ha
    obtain rfl | ⟨row, hrow, hrowid, -, hst, state', -, -, nodes, rfl, hnodes⟩ := fail_ok hf
    · exact hsame hn rfl
    by_cases hholds : n.id = w.id ∧ n.holds w = true
    · obtain ⟨m, hm, hid⟩ : ∃ m ∈ db₁.nodes, m.id = n.id := by
        rcases hnodes with hnodes | hnodes
        · rw [hnodes]
          refine ⟨_, List.mem_map_of_mem hn, ?_⟩
          rw [if_pos hholds]
          rfl
        · rw [hnodes, List.map_map]
          refine ⟨_, List.mem_map_of_mem hn, ?_⟩
          rw [Function.comp, if_pos hholds]
          split_ifs <;> rfl
      refine ⟨m, hm, hid, .released hp.1 hholds.2 fun hres => ?_⟩
      rw [← List.inj_on_of_nodup_map hw.ids hn hrow (hholds.1.trans hrowid.symm), hres] at hst
      rcases hst with hbad | hbad <;> cases hbad
    · refine hsame ?_ rfl
      rcases hnodes with hnodes | hnodes
      · rw [hnodes]
        exact List.mem_map.mpr ⟨n, hn, if_neg hholds⟩
      · rw [hnodes, List.map_map]
        refine List.mem_map.mpr ⟨n, hn, ?_⟩
        rw [Function.comp, if_neg hholds]
        exact if_neg fun hrow => NodeState.taken_ne hs rfl hrow.2
  | cancel env owner k clock =>
    simp only [Act.attempt, cancel, bind_eq_ok, pure_eq_ok] at ha
    obtain ⟨x, ⟨-, -, -, -, rfl⟩, ha⟩ := ha
    cases ha
    by_cases hsel : n.id ∈ closure h.db owner k
    · refine ⟨_, List.mem_map_of_mem hn, ?_⟩
      rw [if_pos hsel]
      exact ⟨Node.id_of_fixed cancelNode_halts.fixed, cancelNode_touch hsel (hc n hn).2 hs⟩
    · exact hsame (List.mem_map.mpr ⟨n, hn, if_neg hsel⟩) rfl
  | requeue k =>
    cases ha
    by_cases hid : n.id = k
    · refine ⟨_, List.mem_map_of_mem hn, ?_⟩
      rw [if_pos (decide_eq_true hid)]
      exact ⟨rfl, .requeued (hid ▸ rfl)⟩
    · exact hsame (List.mem_map.mpr ⟨n, hn, if_neg (by simpa using hid)⟩) rfl
  | abandon env m t₁ =>
    simp only [Act.attempt, bind_eq_ok, pure_eq_ok] at ha
    obtain ⟨⟨db₁, _⟩, hab, ha⟩ := ha
    cases ha
    refine hmap (by rw [(Human.abandon_ok hab).2]) ?_ ?_
    · split_ifs <;> rfl
    · split_ifs with hid
      · exact .abandoned rfl hid
      · exact .same rfl
  | conflict m =>
    cases ha
    refine hsame (List.mem_map.mpr ⟨n, hn, if_neg fun hrow => ?_⟩) rfl
    simp only [Bool.and_eq_true, decide_eq_true_eq] at hrow
    exact NodeState.taken_ne hs rfl hrow.2
  | abort m token =>
    cases ha
    by_cases hrow : n.id = m.id ∧ n.lease = some token
    · refine ⟨_, List.mem_map_of_mem hn, ?_⟩
      rw [if_pos (by simpa using hrow)]
      exact ⟨rfl, .resolved rfl⟩
    · refine ⟨n, List.mem_map.mpr ⟨n, hn, if_neg (by simpa using hrow)⟩, rfl,
        .kept rfl rfl rfl fun m' token' heq hid hlease => ?_⟩
      cases heq
      exact hrow ⟨hid.symm, hlease⟩
  | start env site m t₁ =>
    simp only [Act.attempt, bind_eq_ok, pure_eq_ok] at ha
    obtain ⟨⟨db₁, _⟩, hst, ha⟩ := ha
    cases ha
    rw [Merge.start_ok hst]
    exact hsame (List.mem_map.mpr ⟨n, hn, if_neg fun hrow => NodeState.taken_ne hs rfl hrow.2⟩) rfl
  | finish env site m token files archive t₁ =>
    simp only [Act.attempt, bind_eq_ok, pure_eq_ok] at ha
    obtain ⟨⟨db₁, _⟩, hf, ha⟩ := ha
    cases ha
    obtain ⟨r, -, heq⟩ := Merge.finish_ok hf
    refine hmap (by rw [heq]) ?_ ?_
    · split_ifs <;> rfl
    · split_ifs with hrow
      · exact .merged rfl hrow.1 hrow.2.1 hrow.2.2
      · exact .same rfl
  | stop g reason t₁ =>
    simp only [Act.attempt, bind_eq_ok, pure_eq_ok] at ha
    obtain ⟨⟨db₁, _⟩, hst, ha⟩ := ha
    cases ha
    obtain ⟨graph, hg, ⟨-, rfl | rfl⟩ | ⟨-, rfl⟩⟩ := Graphs.stop_ok hst
    · exact hsame hn rfl
    · exact hsame hn rfl
    · refine hmap rfl ?_ ?_
      · split_ifs
        · exact Node.id_of_fixed Graphs.stopNode_halts.fixed
        · rfl
      · split_ifs with hmine
        · exact Graphs.stopNode_touch (fun hm => ⟨hm, graph, hg, hmine⟩) rfl hs
        · exact .same rfl
  | conclude g root t₁ =>
    simp only [Act.attempt, bind_eq_ok, pure_eq_ok] at ha
    obtain ⟨⟨db₁, _⟩, hcon, ha⟩ := ha
    cases ha
    obtain ⟨graph, -, _, rfl, hdb⟩ := Graphs.conclude_ok hcon
    have hmem : n ∈ (Graphs.failStuck graph t₁ (Graphs.order graph h.db) h.db).nodes :=
      Graphs.failStuck_mem hw.ids hn (NodeState.taken_ne hs rfl)
    obtain rfl | ⟨state, -, -, rfl⟩ := hdb
    · exact hsame hmem rfl
    · exact hsame hmem rfl
  | graphClaim env g k p t₁ =>
    simp only [Act.attempt, bind_eq_ok, pure_eq_ok] at ha
    obtain ⟨⟨db₁, out⟩, hclaim, ha⟩ := ha
    cases ha
    obtain ⟨-, rfl⟩ | ⟨graph, m, hm, rfl, heq⟩ := Graphs.claim_ok hclaim
    · exact hsame hn rfl
    rw [heq]
    refine hsame (List.mem_map.mpr ⟨n, hn, if_neg fun hid => ?_⟩) rfl
    have hq := hm.ready
    simp only [Graphs.ready, Bool.and_eq_true, decide_eq_true_eq] at hq
    rw [← List.inj_on_of_nodup_map hw.ids hn hm.mem (hid.trans hm.id.symm)] at hq
    exact NodeState.taken_ne hs rfl hq.1
  | fence k state t₁ =>
    cases ha
    cases state with
    | none => exact hsame hn rfl
    | some s =>
      refine hmap rfl ?_ ?_
      · split_ifs <;> rfl
      · split_ifs with hid
        · exact .fenced (by rw [hid]) rfl
        · exact .same rfl
  | processDone g w t₁ =>
    simp only [Act.attempt, bind_eq_ok, pure_eq_ok] at ha
    obtain ⟨⟨db₁, _⟩, hd, ha⟩ := ha
    cases ha
    refine hmap (by rw [Graphs.processDone_ok hd]) ?_ ?_
    · split_ifs <;> rfl
    · split_ifs with hholds
      · refine .released hp hholds.2 fun hres => ?_
        unfold Graphs.doneNode
        rw [hres]
        rfl
      · exact .same rfl
  | reap p t₁ =>
    simp only [Act.attempt, bind_eq_ok, pure_eq_ok] at ha
    obtain ⟨⟨db₁, _⟩, hr, ha⟩ := ha
    cases ha
    obtain ⟨n', hn', hid, heq⟩ := Graphs.reap_taken hr hn hs
    refine ⟨n', hn', hid, ?_⟩
    rcases heq with rfl | heq
    · exact .same rfl
    · exact .resolved heq

/-! ### The tokens of the workers -/

namespace Host

/-- A worker claims under the next id. -/
theorem worker_lease {w : Node} (hw : h.Wf) (hst : lts.step h a h') (hx : .worker w ∈ h'.held) :
    .worker w ∈ h.held ∨ w.lease = some h.uuids := by
  obtain ⟨new, hheld, hyields, hgiven⟩ := given hw hst
  rw [hheld, List.mem_append] at hx
  refine hx.imp_right fun hx => ?_
  have hg := hgiven _ hx
  rw [hyields] at hx
  cases hr : a.attempt h.uuids h.db with
  | error e =>
    rw [Act.yields, hr] at hx
    cases hx
  | ok r =>
    obtain ⟨db', out⟩ := r
    rw [Act.yields_of_ok hr] at hx
    cases hg with
    | other hbare => cases hbare
    | worker n token t hn hq ha =>
      rcases ha with ⟨env, clock, rfl⟩ | ⟨env, g, p, rfl⟩
      · simp only [Act.attempt, bind_eq_ok, pure_eq_ok] at hr
        obtain ⟨⟨db₁, y⟩, hclaim, hr⟩ := hr
        cases hr
        obtain ⟨-, -, hout⟩ := claim_ok hw.ids hclaim
        obtain ⟨y', rfl, heq⟩ : ∃ y', y = some y' ∧ Held.worker y' = .worker (claimed token t n) := by
          cases y with
          | none => cases hx
          | some y' => exact ⟨y', rfl, (List.mem_singleton.mp hx).symm⟩
        cases heq
        obtain ⟨m, -, heq⟩ := hout _ rfl
        rw [heq]
        rfl
      · simp only [Act.attempt, bind_eq_ok, pure_eq_ok] at hr
        obtain ⟨⟨db₁, y⟩, hclaim, hr⟩ := hr
        cases hr
        obtain ⟨rfl, -⟩ | ⟨graph, m, -, rfl, -⟩ := Graphs.claim_ok hclaim
        · cases hx
        · rw [Held.worker.inj (List.mem_singleton.mp hx)]
          rfl

/-- The tokens of the workers were used. -/
theorem worker_lease_lt {w : Node} (hr : lts.Reachable Initial h) (hx : .worker w ∈ h.held) :
    ∃ u, w.lease = some u ∧ u < h.uuids := by
  refine (hr.invariant (I := fun h => h.Wf ∧ ∀ w, .worker w ∈ h.held →
    ∃ u, w.lease = some u ∧ u < h.uuids) (fun h hi => ⟨hi.wf, fun w hx => ?_⟩) ?_).2 w hx
  · rw [hi.held] at hx
    cases hx
  · rintro h a h' ⟨hw, hi⟩ hst
    refine ⟨wf_step hw hst, fun w hx => ?_⟩
    have huuids : h'.uuids = h.uuids + 2 := by
      obtain ⟨t, -, -, -, rfl⟩ := hst
      rfl
    rcases worker_lease hw hst hx with hx | hx
    · obtain ⟨u, hu, hlt⟩ := hi w hx
      exact ⟨u, hu, huuids ▸ Nat.lt_add_right 2 hlt⟩
    · exact ⟨h.uuids, hx, huuids ▸ Nat.lt_add_of_pos_right Nat.two_pos⟩

end Host

end Coordinator

end PythonAI
