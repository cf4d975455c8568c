import PythonAI.Coordinator.Taken
import PythonAI.Coordinator.Stopped

/-!
# The lease and the attempts of a node

`claim` gives a node a lease and counts an attempt.  Of the other transactions that are not about a
graph, one prolongs the lease, three bring a node back into the queue, each under a guard of its
own, and the rest leave the row alone or end it.

* `claimFrom_rows` : what the loop of `claim` has done when it returns;
* `Host.beats` : **what a transaction does to the state, the lease and the attempts of a node**.
-/

namespace PythonAI

open Library Budgets

namespace Coordinator

variable {h h' : Host} {a : Act} {n n' : Node} {db db' : Db} {env : Env} {t t₁ t₂ : Time}
  {token : Token} {clock : NodeId → Time}

/-- The transaction is about a graph that Temporal executes. -/
def Act.ofGraph : Act → Bool
  | stop .. | sealGraph .. | probe .. | conclude .. | graphClaim .. | nodeStopped .. | fence ..
  | processDone .. | dispatched .. | reap .. => true
  | _ => false

/-- What a transaction does to the state, the lease and the attempts of a node. -/
inductive Beat (h : Host) (a : Act) (n : Node) : Node → Prop
  /-- nothing -/
  | kept {n' : Node} (hid : n'.id = n.id) (hs : n'.state = n.state) (hl : n'.lease = n.lease)
      (he : n'.expires = n.expires) (ht : n'.attempts = n.attempts) : Beat h a n n'
  /-- the node is neither queued nor running any more -/
  | ended {n' : Node} (hid : n'.id = n.id) (hs : n'.state.active = false)
      (hl : n'.lease = n.lease ∨ n'.lease = none ∨ n'.lease = some h.uuids)
      (ht : n'.attempts = n.attempts) : Beat h a n n'
  /-- the worker is lost, and another one may follow -/
  | lost {n' : Node} (hid : n'.id = n.id) (hless : n.attempts < 3) (hs : n'.state = .queued)
      (hl : n'.lease = n.lease) (ht : n'.attempts = n.attempts) : Beat h a n n'
  /-- the worker returns the node -/
  | returned {n' w : Node} (hid : n'.id = n.id) (hw : .worker w ∈ h.held) (hk : n.id = w.id)
      (hh : n.holds w = true) (hless : w.attempts < 3) (hs : n'.state = .queued)
      (hl : n'.lease = none) (ht : n'.attempts = n.attempts) : Beat h a n n'
  /-- a human lets the node go on -/
  | requeued {n' : Node} (ha : a = .requeue n.id) (hid : n'.id = n.id) (hs : n'.state = .queued)
      (hl : n'.lease = none) (ht : n'.attempts = n.attempts) : Beat h a n n'
  /-- the worker prolongs its lease -/
  | renewed {n' w : Node} {t₁ t₂ : Time} (ha : a = .renew w t₁ t₂) (hr : renewable w t₂ n = true)
      (hid : n'.id = n.id) (hs : n'.state = n.state) (hl : n'.lease = n.lease)
      (ht : n'.attempts = n.attempts) : Beat h a n n'
  /-- a worker starts -/
  | claimed {env : Env} {clock : NodeId → Time} (ha : a = .claim env clock) (hq : n.state = .queued)
      (hy : .worker (Coordinator.claimed h.uuids (clock n.id) n) ∈ a.yields h.uuids h.db) :
      Beat h a n (Coordinator.claimed h.uuids (clock n.id) n)

theorem Beat.refl : Beat h a n n := .kept rfl rfl rfl rfl rfl

theorem Beat.id (hb : Beat h a n n') : n'.id = n.id := by
  cases hb with
  | claimed => rfl
  | _ => assumption

/-- A row that `insert` adds: no worker has claimed it. -/
structure Enters (h : Host) (n : Node) : Prop where
  /-- the id is new -/
  fresh : ∀ x ∈ h.db.nodes, x.id ≠ n.id
  state : n.state = .queued
  lease : n.lease = none
  attempts : n.attempts = 0

/-! ### The loop of `claim` -/

/-- The row as the loop leaves it before it claims: a queued one may have failed. -/
def Drops (n n' : Node) : Prop := n' = n ∨ n.state = .queued ∧ n' = { n with state := .failed }

theorem Drops.id (hd : Drops n n') : n'.id = n.id := by
  obtain rfl | ⟨-, rfl⟩ := hd <;> rfl

theorem Drops.trans {n'' : Node} (hd : Drops n n') (hd' : Drops n' n'') : Drops n n'' := by
  obtain rfl | ⟨hq, rfl⟩ := hd
  · exact hd'
  · obtain rfl | ⟨hbad, -⟩ := hd'
    · exact .inr ⟨hq, rfl⟩
    · cases hbad

/-- The loop has claimed the row of `n`, which its choice has found. -/
structure Takes (clock : NodeId → Time) (token : Token) (rows : List Node) (db db' : Db)
    (n : Node) : Prop where
  mem : n ∈ rows
  /-- the rows between the last failure and the claim -/
  claims : ∃ db₁, Records.Rewrites Drops db.nodes db₁.nodes ∧ n ∈ db₁.nodes ∧
    choice db₁ (clock n.id) n = .claim ∧
    db'.nodes = db₁.nodes.map fun x => if x.id = n.id then claimed token (clock n.id) x else x

/-- **The loop of `claim`** fails queued rows and claims none, or claims the row that it returns. -/
theorem claimFrom_rows {rows : List Node} {out : Option Node}
    (h : claimFrom env clock token rows db = .ok (db', out))
    (hrow : ∀ m ∈ rows, m ∈ db.nodes ∧ m.state = .queued) (hn : (rows.map Node.id).Nodup)
    (hids : (db.nodes.map Node.id).Nodup) :
    out = none ∧ Records.Rewrites Drops db.nodes db'.nodes ∨
      ∃ n, out = some (claimed token (clock n.id) n) ∧ Takes clock token rows db db' n := by
  induction rows generalizing db with
  | nil =>
    cases h
    exact .inl ⟨rfl, .refl fun _ _ => .inl rfl⟩
  | cons n rows ih =>
    rw [List.map_cons, List.nodup_cons] at hn
    have hrest : ∀ m ∈ rows, m ∈ db.nodes ∧ m.state = .queued := fun m hm =>
      hrow m (List.mem_cons_of_mem _ hm)
    obtain ⟨hmem, hq⟩ := hrow n List.mem_cons_self
    simp only [claimFrom] at h
    split at h
    · refine (ih h hrest hn.2 hids).imp_right ?_
      rintro ⟨m, hout, hm, hclaim⟩
      exact ⟨m, hout, List.mem_cons_of_mem _ hm, hclaim⟩
    · have hdrop : Records.Rewrites Drops db.nodes
          (db.updateNodes (·.id = n.id) fun n => { n with state := .failed }).nodes := by
        refine .of_ite (fun x hx hp => .inr ⟨?_, rfl⟩) fun x _ => .inl rfl
        rw [List.inj_on_of_nodup_map hids hx hmem (of_decide_eq_true hp)]
        exact hq
      have hids' := hids
      rw [← hdrop.map_key fun _ _ => Drops.id] at hids'
      have hrest' : ∀ m ∈ rows, m ∈ (db.updateNodes (·.id = n.id) fun n =>
          { n with state := .failed }).nodes ∧ m.state = .queued := by
        intro m hm
        refine ⟨List.mem_map.mpr ⟨m, (hrest m hm).1, if_neg fun hid => hn.1 ?_⟩, (hrest m hm).2⟩
        rw [← of_decide_eq_true hid]
        exact List.mem_map_of_mem hm
      obtain ⟨hout, hrew⟩ | ⟨m, hout, hm, db₁, hrew, hclaim⟩ := ih h hrest' hn.2 hids'
      · exact .inl ⟨hout, hdrop.trans hrew fun _ _ _ _ _ => Drops.trans⟩
      · exact .inr ⟨m, hout, List.mem_cons_of_mem _ hm, db₁,
          hdrop.trans hrew fun _ _ _ _ _ => Drops.trans, hclaim⟩
    case h_3 hchoice =>
      simp only [bind_eq_ok, pure_eq_ok] at h
      obtain ⟨db₁, hev, h⟩ := h
      cases h
      rw [event_ok hev]
      refine .inr ⟨n, rfl, List.mem_cons_self, db, .refl fun _ _ => .inl rfl, hmem, hchoice, ?_⟩
      simp [Db.updateNodes]

theorem claim_rows {out : Option Node} (hids : (db.nodes.map Node.id).Nodup)
    (h : claim env clock token db = .ok (db', out)) :
    out = none ∧ Records.Rewrites Drops db.nodes db'.nodes ∨
      ∃ n, out = some (claimed token (clock n.id) n) ∧ Takes clock token db.queue db db' n := by
  refine claimFrom_rows h (fun m hm => ⟨(Db.mem_queue hm).1, (Db.mem_queue hm).2.1⟩) ?_ hids
  refine List.Nodup.sublist ((List.take_sublist ..).map _) ?_
  rw [((List.perm_insertionSort _ _).map Node.id).nodup_iff]
  exact hids.sublist (List.filter_sublist.map _)

/-! ### The operations -/

theorem Drops.beat (hd : Drops n n') : Beat h a n n' := by
  obtain rfl | ⟨-, rfl⟩ := hd
  · exact .refl
  · exact .ended rfl rfl (.inl rfl) rfl

theorem lostState_queued {child : Option TaskRow} (hs : lostState child n = .queued) :
    n.attempts < 3 := by
  have hlost : (if 3 ≤ n.attempts then NodeState.failed else .queued) = .queued → n.attempts < 3 := by
    intro hq
    split_ifs at hq with hless
    exact Nat.lt_of_not_le hless
  cases child with
  | none => exact hlost hs
  | some row =>
    simp only [lostState] at hs
    split at hs
    · cases hs
    split at hs
    case h_4 => exact hlost hs
    all_goals cases hs

/-- `recover` queues only running nodes that have attempts left. -/
theorem recovered_queued (hr : recovered db t n = some .queued) : n.attempts < 3 := by
  obtain hbad | ⟨hrun, -⟩ := recovered_state hr
  · cases hbad
  unfold recovered at hr
  simp only [hrun] at hr
  split at hr
  · cases hr
  split at hr
  · split_ifs at hr <;> cases hr
  split at hr
  · cases hr
  · exact lostState_queued (Option.some.inj hr)

theorem recoverNode_beat : Beat h a n (recoverNode h.db clock n) := by
  unfold recoverNode
  split
  case h_1 s hs =>
    rcases recovered_state hs with hhalt | ⟨-, rfl⟩
    · exact .ended rfl (NodeState.inactive_of_halted hhalt) (.inl rfl) rfl
    · exact .lost rfl (recovered_queued hs) rfl rfl rfl
  case h_2 => exact .refl

theorem recoverNode_same (db : Db) (clock : NodeId → Time) (n : Node) :
    (recoverNode db clock n).id = n.id ∧
    (recoverNode db clock n).lease = n.lease ∧
    (recoverNode db clock n).attempts = n.attempts := by
  unfold recoverNode
  split <;> exact ⟨rfl, rfl, rfl⟩

theorem recover_beat {rows : List Node} :
    Beat h a n (rejectNode rows t (recoverNode h.db clock n)) := by
  unfold rejectNode
  split_ifs
  · obtain ⟨hid, hl, ht⟩ := recoverNode_same h.db clock n
    exact .ended hid rfl (.inl hl) ht
  · exact recoverNode_beat

theorem cancelNode_beat : Beat h a n (cancelNode t n) := by
  refine .ended ?_ cancelNode_inactive (.inl ?_) ?_
  all_goals
    unfold cancelNode
    split_ifs <;> rfl

theorem publishState_inactive {r : Result} : (publishState n r).active = false := by
  unfold publishState
  split_ifs <;> rfl

theorem judge_beat {w : Node} {s : NodeState} (hs : s.active = false) :
    Beat h a n (if w.reviewOf = some n.id ∧ n.state = .reviewPending then judged s w.id t n
      else n) := by
  split_ifs
  · exact .ended rfl hs (.inl rfl) rfl
  · exact .refl

theorem publish_beats {w : Node} {r : Result} {state : NodeState}
    (hp : publish env w r t₁ t₂ h.db = .ok (db', state)) :
    Records.Rewrites (Beat h a) h.db.nodes db'.nodes := by
  obtain ⟨-, rfl, heq⟩ := publish_ok hp
  rw [heq]
  dsimp only
  rw [List.map_map]
  refine .of_map fun x _ => ?_
  rw [Function.comp]
  have hverdict : (if publishState w r = .completed then NodeState.reviewed
      else .rejected).active = false := by
    split_ifs <;> rfl
  generalize (if publishState w r = .completed then NodeState.reviewed else .rejected) = s
    at hverdict ⊢
  by_cases hr : renewable w t₂ x = true
  · rw [if_pos hr]
    split_ifs
    · exact .ended rfl hverdict (.inr (.inl rfl)) rfl
    · exact .ended rfl publishState_inactive (.inr (.inl rfl)) rfl
  · rw [if_neg hr]
    exact judge_beat hverdict

theorem fail_beats {w : Node} {state : NodeState} {out : Unit} (hm : .worker w ∈ h.held)
    (hs : state.reported = true) (hless : state = .queued → w.attempts < 3)
    (hf : fail env w state t h.db = .ok (db', out)) :
    Records.Rewrites (Beat h a) h.db.nodes db'.nodes := by
  obtain rfl | ⟨row, -, -, -, -, state', hstate', -, nodes, rfl, hnodes⟩ := fail_ok hf
  · exact .refl fun _ _ => .refl
  have hreleased : ∀ x ∈ h.db.nodes,
      Beat h a x (if x.id = w.id ∧ x.holds w = true then released state' t x else x) := by
    intro x _
    split_ifs with hx
    · by_cases hq : state' = .queued
      · refine .returned rfl hm hx.1 hx.2 (hless ?_) hq rfl rfl
        rw [hq] at hstate'
        split_ifs at hstate' with hc
        exact hstate'.symm
      · refine .ended rfl ?_ (.inr (.inl rfl)) rfl
        show state'.active = false
        rw [hstate'] at hq ⊢
        split_ifs at hq ⊢ with hc
        · rfl
        · exact NodeState.inactive_of_halted (NodeState.halted_of_reported hs hq)
    · exact .refl
  rcases hnodes with hnodes | hnodes
  · rw [hnodes]
    exact .of_map hreleased
  · rw [hnodes, List.map_map]
    refine .of_map fun x hx => ?_
    rw [Function.comp]
    by_cases hc : x.id = w.id ∧ x.holds w = true
    · have hx := hreleased x hx
      rw [if_pos hc] at hx ⊢
      split_ifs
      · exact .ended rfl rfl (.inr (.inl rfl)) rfl
      · exact hx
    · rw [if_neg hc]
      exact judge_beat rfl

theorem insert_enters {b : TaskBudget} {spec : NodeSpec} {key k : NodeId} {g : GraphId}
    (hi : insert env b spec key g t₁ t₂ h.db = .ok (db', k)) :
    db'.nodes = h.db.nodes ∨ ∃ n, Enters h n ∧ db'.nodes = h.db.nodes ++ [n] := by
  obtain rfl | ⟨row, db₁, payload, deadline, -, -, -, -, hfree, heq⟩ := insert_ok hi
  · exact .inl rfl
  refine .inr ⟨_, ⟨fun x hx hid => ?_, rfl, rfl, rfl⟩, by rw [heq]⟩
  obtain ⟨y, hy⟩ := Records.find_isSome Node.id hx
  rw [hid] at hy
  exact absurd (hfree.symm.trans hy) (by simp)

theorem claim_beats {out : Option Node} (hw : h.Wf) (ha : a = .claim env clock)
    (hy : a.yields h.uuids h.db = (out.map Held.worker).toList)
    (hc : claim env clock h.uuids h.db = .ok (db', out)) :
    Records.Rewrites (Beat h a) h.db.nodes db'.nodes := by
  obtain ⟨-, hrew⟩ | ⟨n, rfl, hn, db₁, hrew, hmem, -, heq⟩ := claim_rows hw.ids hc
  · exact hrew.mono fun _ _ _ => Drops.beat
  have hids := hw.ids
  rw [← hrew.map_key fun _ _ => Drops.id] at hids
  have hq : n.state = .queued := (Db.mem_queue hn).2.1
  rw [heq]
  refine hrew.trans (S := fun x y => y = x ∨ x = n ∧ y = claimed h.uuids (clock n.id) n)
    (.of_map fun x hx => ?_) ?_
  · split_ifs with hid
    · obtain rfl := List.inj_on_of_nodup_map hids hx hmem hid
      exact .inr ⟨rfl, rfl⟩
    · exact .inl rfl
  · rintro x - y - z hd (rfl | ⟨rfl, rfl⟩)
    · exact hd.beat
    · obtain rfl | ⟨-, rfl⟩ := hd
      · refine .claimed ha hq ?_
        rw [hy]
        exact List.mem_singleton_self _
      · cases hq

/-! ### Every transaction -/

/-- A committed transaction that is not about a graph changes the rows, and adds at most one. -/
theorem attempt_beats {new : List Held} (hg : a.ofGraph = false) (hw : h.Wf)
    (hp : a.permitted h.held) (ha : a.attempt h.uuids h.db = .ok (db', new)) :
    ∃ moved, Records.Rewrites (Beat h a) h.db.nodes moved ∧
      (db'.nodes = moved ∨ ∃ n, Enters h n ∧ db'.nodes = moved ++ [n]) := by
  have hy := Act.yields_of_ok ha
  have hmoved : Records.Rewrites (Beat h a) h.db.nodes db'.nodes →
      ∃ moved, Records.Rewrites (Beat h a) h.db.nodes moved ∧
        (db'.nodes = moved ∨ ∃ n, Enters h n ∧ db'.nodes = moved ++ [n]) :=
    fun hrew => ⟨_, hrew, .inl rfl⟩
  have hquiet : db'.nodes = h.db.nodes → Records.Rewrites (Beat h a) h.db.nodes db'.nodes :=
    fun e => e ▸ .refl fun _ _ => .refl
  cases a with
  | create | load | check | reserve | reserveChild | get | mergeable =>
    simp only [Act.attempt, bind_eq_ok, pure_eq_ok] at ha
    obtain ⟨_, _, ha⟩ := ha
    cases ha
    exact hmoved (hquiet rfl)
  | reconcile | unreviewed | task =>
    cases ha
    exact hmoved (hquiet rfl)
  | answer acc n text =>
    simp only [Act.attempt, Human.answer, bind_eq_ok, pure_eq_ok] at ha
    obtain ⟨x, ⟨-, -, y, -, rfl⟩, ha⟩ := ha
    cases ha
    exact hmoved (hquiet rfl)
  | mark n t =>
    simp only [Act.attempt, Human.mark, bind_eq_ok, pure_eq_ok] at ha
    obtain ⟨x, ⟨-, -, rfl⟩, ha⟩ := ha
    cases ha
    exact hmoved (hquiet rfl)
  | resolve acc n call text =>
    simp only [Act.attempt, Human.resolve, bind_eq_ok, pure_eq_ok] at ha
    obtain ⟨x, ⟨y, -, rfl⟩, ha⟩ := ha
    cases ha
    exact hmoved (hquiet rfl)
  | submit | review =>
    simp only [Act.attempt, bind_eq_ok, pure_eq_ok] at ha
    obtain ⟨⟨db₁, k⟩, hi, ha⟩ := ha
    cases ha
    exact ⟨_, .refl fun _ _ => .refl, insert_enters hi⟩
  | recover env clock t =>
    simp only [Act.attempt, bind_eq_ok, pure_eq_ok] at ha
    obtain ⟨⟨db₁, _⟩, hr, ha⟩ := ha
    cases ha
    refine hmoved ?_
    rw [recover_ok hr]
    dsimp only
    rw [List.map_map]
    exact .of_map fun _ _ => recover_beat
  | claim env clock =>
    simp only [Act.attempt, bind_eq_ok, pure_eq_ok] at ha
    obtain ⟨⟨db₁, out⟩, hc, ha⟩ := ha
    cases ha
    exact hmoved (claim_beats hw rfl hy hc)
  | renew w t₁ t₂ =>
    cases ha
    exact hmoved (.of_ite (fun _ _ hr => .renewed rfl hr rfl rfl rfl rfl) fun _ _ => .refl)
  | publish env w r t₁ t₂ =>
    simp only [Act.attempt, bind_eq_ok, pure_eq_ok] at ha
    obtain ⟨⟨db₁, state⟩, hpub, ha⟩ := ha
    cases ha
    exact hmoved (publish_beats hpub)
  | fail env w state t =>
    simp only [Act.attempt, bind_eq_ok, pure_eq_ok] at ha
    obtain ⟨⟨db₁, _⟩, hf, ha⟩ := ha
    cases ha
    exact hmoved (fail_beats hp.1 hp.2.1 hp.2.2 hf)
  | cancel env owner k clock =>
    simp only [Act.attempt, cancel, bind_eq_ok, pure_eq_ok] at ha
    obtain ⟨x, ⟨-, -, -, -, rfl⟩, ha⟩ := ha
    cases ha
    refine hmoved (.of_map fun x _ => ?_)
    split_ifs
    · exact cancelNode_beat
    · exact .refl
  | requeue k =>
    cases ha
    refine hmoved (.of_ite (fun x _ hx => .requeued ?_ rfl rfl rfl rfl) fun _ _ => .refl)
    rw [of_decide_eq_true hx]
  | abandon env n t =>
    simp only [Act.attempt, bind_eq_ok, pure_eq_ok] at ha
    obtain ⟨⟨db₁, _⟩, hab, ha⟩ := ha
    cases ha
    refine hmoved ?_
    rw [(Human.abandon_ok hab).2]
    refine .of_map fun x _ => ?_
    split_ifs
    · exact .ended rfl rfl (.inr (.inl rfl)) rfl
    · exact .refl
  | conflict | abort | unreviewable =>
    cases ha
    exact hmoved (.of_ite (fun _ _ _ => .ended rfl rfl (.inl rfl) rfl) fun _ _ => .refl)
  | start env site n t =>
    simp only [Act.attempt, bind_eq_ok, pure_eq_ok] at ha
    obtain ⟨⟨db₁, _⟩, hs, ha⟩ := ha
    cases ha
    refine hmoved ?_
    rw [Merge.start_ok hs]
    refine .of_map fun x _ => ?_
    split_ifs
    · exact .ended rfl rfl (.inr (.inr rfl)) rfl
    · exact .refl
  | finish env site n token files archive t =>
    simp only [Act.attempt, bind_eq_ok, pure_eq_ok] at ha
    obtain ⟨⟨db₁, _⟩, hf, ha⟩ := ha
    cases ha
    obtain ⟨r, -, heq⟩ := Merge.finish_ok hf
    refine hmoved ?_
    rw [heq]
    refine .of_map fun x _ => ?_
    split_ifs
    · exact .ended rfl rfl (.inr (.inl rfl)) rfl
    · exact .refl
  | stop | sealGraph | probe | conclude | graphClaim | nodeStopped | fence | processDone
  | dispatched | reap => cases hg

/-- **What a step that is not about a graph does to the rows of nodes.** -/
theorem Host.beats (hg : a.ofGraph = false) (hw : h.Wf) (hs : lts.step h a h') :
    ∃ moved, Records.Rewrites (Beat h a) h.db.nodes moved ∧
      (h'.db.nodes = moved ∨ ∃ n, Enters h n ∧ h'.db.nodes = moved ++ [n]) := by
  obtain ⟨t, -, -, hp, rfl⟩ := hs
  cases hr : a.attempt h.uuids h.db with
  | error e =>
    refine ⟨_, .refl fun _ _ => .refl, .inl ?_⟩
    simp [after, Act.perform, hr]
  | ok x =>
    have hbeats := attempt_beats hg hw hp (hr.trans rfl : _ = Except.ok (x.1, x.2))
    rw [← Act.perform_of_ok (hr.trans rfl : _ = Except.ok (x.1, x.2))] at hbeats
    exact hbeats

/-- A claim that commits has given its row the lease that it returns. -/
theorem Host.claimed_row {w : Node} (hg : a.ofGraph = false) (hw : h.Wf) (hs : lts.step h a h')
    (hy : .worker w ∈ a.yields h.uuids h.db) :
    ∃ n ∈ h.db.nodes, ∃ t, w = claimed h.uuids t n ∧ w ∈ h'.db.nodes ∧
      a.yields h.uuids h.db = [.worker w] := by
  obtain ⟨new, -, rfl, hgiven⟩ := given hw hs
  obtain ⟨T, -, -, -, rfl⟩ := hs
  cases hr : a.attempt h.uuids h.db with
  | error e =>
    rw [Act.yields, hr] at hy
    cases hy
  | ok x =>
    obtain ⟨db₁, new⟩ := x
    have hgiven := hgiven _ hy
    rw [Act.yields_of_ok hr] at hy ⊢
    have hdb : (h.after a T).db = db₁ := Act.perform_of_ok hr
    rw [hdb]
    cases hgiven with
    | other hx => cases hx
    | worker n token t hn hq ha =>
      obtain ⟨env, clock, rfl⟩ | ⟨env, g, p, rfl⟩ := ha
      · simp only [Act.attempt, bind_eq_ok, pure_eq_ok] at hr
        obtain ⟨⟨db₂, out⟩, hc, hr⟩ := hr
        cases hr
        obtain ⟨rfl, -⟩ | ⟨m, rfl, hm, db₃, -, hmem, -, heq⟩ := claim_rows hw.ids hc
        · cases hy
        refine ⟨m, (Db.mem_queue hm).1, clock m.id, ?_, ?_, ?_⟩
        · exact Held.worker.inj (List.mem_singleton.1 hy)
        · rw [Held.worker.inj (List.mem_singleton.1 hy), heq]
          exact List.mem_map.mpr ⟨m, hmem, if_pos rfl⟩
        · rw [List.mem_singleton.1 hy]
          rfl
      · cases hg

end Coordinator

end PythonAI
