import PythonAI.Coordinator.Beats

/-!
# The nodes that a claim can find

`claim` looks at the 128 queued nodes that were updated first.  A node that waits for its
dependencies keeps its time, so that 128 nodes that wait hide every later one.

* `choice_claim` : a queued node is claimed exactly if it is ready;
* `claim_finds` : **where a node is ready, `claim` returns a ready node exactly if one is among the
  first 128** and there is room for the event.
-/

namespace PythonAI

open Library Budgets

namespace Coordinator

variable {n m : Node} {db db' : Db} {env : Env} {t : Time} {token : Token} {clock : NodeId → Time}
  {rows : List Node}

/-- The node may be claimed at `t`. -/
structure Ready (db : Db) (t : Time) (n : Node) : Prop where
  /-- it is a node of the store -/
  mem : n ∈ db.nodes
  /-- it waits in the queue -/
  queued : n.state = .queued
  /-- its root is not run by Temporal -/
  plain : db.native n = false
  /-- no worker has a lease on its child task -/
  idle : (db.child n).any (·.leased t) = false
  /-- fewer workers live than its concurrency allows -/
  free : db.workers t < n.payload.concurrency
  /-- its dependencies are there and have succeeded, or wait for the review that it is -/
  supplied : ∀ k ∈ n.dependencies, ∃ d, db.node k = some d ∧ d.owner = n.owner ∧
    satisfied n d = true

theorem satisfied_iff {d : Node} : satisfied n d = true ↔
    d.state.success = true ∨ n.reviewOf = some d.id ∧ d.state = .reviewPending := by
  simp [satisfied]

theorem satisfied_not_stopped {d : Node} (h : satisfied n d = true) : d.state.stopped = false := by
  rcases satisfied_iff.1 h with hs | ⟨-, hs⟩
  · cases hd : d.state <;> simp_all [NodeState.success, NodeState.stopped]
  · rw [hs]
    rfl

theorem satisfied_not_queued {d : Node} (h : satisfied n d = true) : d.state ≠ .queued := by
  intro hq
  rcases satisfied_iff.1 h with hs | ⟨-, hs⟩ <;> rw [hq] at hs <;> cases hs

/-- All the dependencies are present and satisfied. -/
theorem dependencies_iff :
    ((db.dependencies n).length = n.dependencies.length ∧
      (db.dependencies n).all (satisfied n) = true) ↔
    ∀ k ∈ n.dependencies, ∃ d, db.node k = some d ∧ d.owner = n.owner ∧ satisfied n d = true := by
  rw [Db.dependencies, List.filterMap_length_eq_length, List.all_eq_true]
  constructor
  · rintro ⟨hall, hsat⟩ k hk
    obtain ⟨d, hd⟩ := Option.isSome_iff_exists.1 (hall k hk)
    obtain ⟨hd', howner⟩ := Option.filter_eq_some_iff.1 hd
    exact ⟨d, hd', of_decide_eq_true howner, hsat d (List.mem_filterMap.2 ⟨k, hk, hd⟩)⟩
  · intro h
    constructor
    · intro k hk
      obtain ⟨d, hd, howner, -⟩ := h k hk
      rw [Option.filter_eq_some_iff.2 ⟨hd, decide_eq_true howner⟩]
      rfl
    · intro d hd
      obtain ⟨k, hk, hd⟩ := List.mem_filterMap.1 hd
      obtain ⟨d', hd', -, hsat⟩ := h k hk
      rw [(Option.filter_eq_some_iff.1 hd).1] at hd'
      rwa [Option.some.inj hd']

/-- A queued node is claimed exactly if it is ready. -/
theorem choice_claim (hm : n ∈ db.nodes) (hq : n.state = .queued) (hp : db.native n = false) :
    choice db t n = .claim ↔ Ready db t n := by
  constructor
  · intro h
    unfold choice at h
    split_ifs at h with hleased hfull hstopped hlen hall
    exact ⟨hm, hq, hp, by simpa using hleased, Nat.lt_of_not_le hfull,
      dependencies_iff.1 ⟨by simpa using hlen, hall⟩⟩
  · intro h
    obtain ⟨hlen, hall⟩ := dependencies_iff.2 h.supplied
    have hstopped : (db.dependencies n).any (·.state.stopped) = false := by
      rw [List.any_eq_false]
      intro d hd
      rw [satisfied_not_stopped (List.all_eq_true.1 hall d hd)]
      nofun
    unfold choice
    rw [h.idle, hstopped, if_neg (by nofun), if_neg (Nat.not_le.2 h.free), if_neg (by nofun),
      if_neg (not_not_intro hlen), if_pos hall]

/-! ### The loop -/

/-- The store as the loop has left it: some queued nodes have failed. -/
structure Behind (db db' : Db) : Prop where
  tasks : db'.tasks = db.tasks
  backends : db'.backends = db.backends
  nodes : Records.Rewrites Drops db.nodes db'.nodes

theorem Behind.refl : Behind db db := ⟨rfl, rfl, .refl fun _ _ => .inl rfl⟩

theorem Behind.workers (h : Behind db db') : db'.workers t = db.workers t := by
  obtain ⟨f, hf, hdrops⟩ := h.nodes
  rw [Db.workers, Db.workers, hf, List.countP_map]
  refine List.countP_congr fun n hn => ?_
  rcases hdrops n hn with heq | ⟨hq, heq⟩
  · simp [heq]
  · simp [heq, hq]

/-- A node that has not failed meanwhile is ready if it was. -/
theorem Behind.ready_iff (h : Behind db db') (hm : n ∈ db.nodes) (hm' : n ∈ db'.nodes) :
    Ready db' t n ↔ Ready db t n := by
  have hchild : db'.child n = db.child n := by rw [Db.child, Db.child, h.tasks]
  have hnative : db'.native n = db.native n := by rw [Db.native, Db.native, h.backends]
  have hnode : ∀ k d, satisfied n d = true → (db'.node k = some d ↔ db.node k = some d) := by
    intro k d hsat
    obtain ⟨f, hf, hdrops⟩ := h.nodes
    rw [Db.node, Db.node, hf, Records.find_map fun x hx => (hdrops x hx).id]
    constructor
    · intro hk
      obtain ⟨x, hx, rfl⟩ := Option.map_eq_some_iff.1 hk
      rcases hdrops x (Records.mem_of_find hx) with heq | ⟨-, heq⟩
      · rw [hx, heq]
      · rw [heq, satisfied_iff] at hsat
        rcases hsat with hs | ⟨-, hs⟩ <;> cases hs
    · intro hk
      rw [hk, Option.map_some]
      rcases hdrops d (Records.mem_of_find hk) with heq | ⟨hq, -⟩
      · rw [heq]
      · exact absurd hq (satisfied_not_queued hsat)
  constructor
  · intro hr
    refine ⟨hm, hr.queued, hnative ▸ hr.plain, hchild ▸ hr.idle, h.workers ▸ hr.free,
      fun k hk => ?_⟩
    obtain ⟨d, hd, howner, hsat⟩ := hr.supplied k hk
    exact ⟨d, (hnode k d hsat).1 hd, howner, hsat⟩
  · intro hr
    refine ⟨hm', hr.queued, hnative.trans hr.plain, (congrArg _ hchild).trans hr.idle,
      h.workers.trans_lt hr.free, fun k hk => ?_⟩
    obtain ⟨d, hd, howner, hsat⟩ := hr.supplied k hk
    exact ⟨d, (hnode k d hsat).2 hd, howner, hsat⟩

/-- The rows that the loop has before it. -/
structure Pending (db : Db) (rows : List Node) : Prop where
  row : ∀ m ∈ rows, m ∈ db.nodes ∧ m.state = .queued ∧ db.native m = false
  nodup : (rows.map Node.id).Nodup

theorem Pending.tail (h : Pending db (n :: rows)) : Pending db rows :=
  ⟨fun m hm => h.row m (List.mem_cons_of_mem _ hm), (List.nodup_cons.1 h.nodup).2⟩

/-- The loop goes on after a node has failed. -/
theorem Pending.fail {d : Db} (hids : (db'.nodes.map Node.id).Nodup) (hb : Behind db db')
    (h : Pending db' (n :: rows))
    (hd : d = db'.updateNodes (·.id = n.id) fun n => { n with state := .failed }) :
    (d.nodes.map Node.id).Nodup ∧ Behind db d ∧ Pending d rows := by
  subst hd
  obtain ⟨hmem, hq, -⟩ := h.row n List.mem_cons_self
  have hdrop : Records.Rewrites Drops db'.nodes
      (db'.updateNodes (·.id = n.id) fun n => { n with state := .failed }).nodes := by
    refine .of_ite (fun x hx hp => .inr ⟨?_, rfl⟩) fun x _ => .inl rfl
    rw [List.inj_on_of_nodup_map hids hx hmem (of_decide_eq_true hp)]
    exact hq
  refine ⟨?_, ⟨hb.tasks, hb.backends, hb.nodes.trans hdrop fun _ _ _ _ _ => Drops.trans⟩,
    fun m hm => ⟨?_, (h.tail.row m hm).2⟩, h.tail.nodup⟩
  · rw [hdrop.map_key fun _ _ => Drops.id]
    exact hids
  · refine List.mem_map.2 ⟨m, (h.tail.row m hm).1, if_neg fun hid => ?_⟩
    refine (List.nodup_cons.1 h.nodup).1 ?_
    rw [← of_decide_eq_true hid]
    exact List.mem_map_of_mem hm

/-- The loop claims a ready row if there is one, and there is room. -/
theorem claimFrom_ready (hb : Behind db db') (hids : (db'.nodes.map Node.id).Nodup)
    (hp : Pending db' rows) (hroom : env.room = true) (hex : ∃ n ∈ rows, Ready db (clock n.id) n)
    (hmem : ∀ m ∈ rows, m ∈ db.nodes) :
    ∃ d n, n ∈ rows ∧ Ready db (clock n.id) n ∧
      claimFrom env clock token rows db' = .ok (d, some (claimed token (clock n.id) n)) := by
  induction rows generalizing db' with
  | nil =>
    obtain ⟨n, hn, -⟩ := hex
    cases hn
  | cons n rows ih =>
    obtain ⟨hmem', hq, hplain⟩ := hp.row n List.mem_cons_self
    have hready := (choice_claim hmem' hq hplain).trans
      (hb.ready_iff (t := clock n.id) (hmem n List.mem_cons_self) hmem')
    have hlater : ¬ Ready db (clock n.id) n → ∃ n ∈ rows, Ready db (clock n.id) n := by
      intro hn
      obtain ⟨x, hx, hr⟩ := hex
      rcases List.mem_cons.1 hx with rfl | hx
      · exact absurd hr hn
      · exact ⟨x, hx, hr⟩
    have hrest : ∀ m ∈ rows, m ∈ db.nodes := fun m hm => hmem m (List.mem_cons_of_mem _ hm)
    simp only [claimFrom]
    cases hc : choice db' (clock n.id) n with
    | skip =>
      rw [hc] at hready
      obtain ⟨d, m, hm, hr, hok⟩ := ih hb hids hp.tail (hlater fun h => by cases hready.2 h) hrest
      exact ⟨d, m, List.mem_cons_of_mem _ hm, hr, hok⟩
    | fail =>
      rw [hc] at hready
      obtain ⟨hids', hb', hp'⟩ := hp.fail hids hb rfl
      obtain ⟨d, m, hm, hr, hok⟩ := ih hb' hids' hp' (hlater fun h => by cases hready.2 h) hrest
      exact ⟨d, m, List.mem_cons_of_mem _ hm, hr, hok⟩
    | claim =>
      obtain ⟨d, hd⟩ : ∃ d, event env n "claimed"
          (db'.updateNodes (·.id = n.id) (claimed token (clock n.id))) = .ok d := by
        simp [event, capacity, hroom]
      refine ⟨d, n, List.mem_cons_self, hready.1 hc, ?_⟩
      simp only [bind_eq_ok, pure_eq_ok]
      exact ⟨d, hd, rfl⟩

/-- What the loop claims is ready. -/
theorem claimFrom_some {o : Db × Node} (hb : Behind db db') (hids : (db'.nodes.map Node.id).Nodup)
    (hp : Pending db' rows) (hmem : ∀ m ∈ rows, m ∈ db.nodes)
    (h : claimFrom env clock token rows db' = .ok (o.1, some o.2)) :
    env.room = true ∧ ∃ n ∈ rows, Ready db (clock n.id) n ∧
      o.2 = claimed token (clock n.id) n := by
  induction rows generalizing db' with
  | nil => cases h
  | cons n rows ih =>
    have hrest : ∀ m ∈ rows, m ∈ db.nodes := fun m hm => hmem m (List.mem_cons_of_mem _ hm)
    simp only [claimFrom] at h
    split at h
    · obtain ⟨hroom, m, hm, hr⟩ := ih hb hids hp.tail hrest h
      exact ⟨hroom, m, List.mem_cons_of_mem _ hm, hr⟩
    · obtain ⟨hids', hb', hp'⟩ := hp.fail hids hb rfl
      obtain ⟨hroom, m, hm, hr⟩ := ih hb' hids' hp' hrest h
      exact ⟨hroom, m, List.mem_cons_of_mem _ hm, hr⟩
    case h_3 hchoice =>
      obtain ⟨hmem', hq, hplain⟩ := hp.row n List.mem_cons_self
      have hready := (hb.ready_iff (hmem n List.mem_cons_self) hmem').1
        ((choice_claim hmem' hq hplain).1 hchoice)
      simp only [event, capacity, bind_eq_ok, pure_eq_ok, ensure_eq_ok, Prod.mk.injEq,
        Option.some.injEq] at h
      obtain ⟨_, ⟨_, hroom, -⟩, -, hout⟩ := h
      exact ⟨hroom, n, List.mem_cons_self, hready, hout.symm⟩

theorem Db.queue_pending (hids : (db.nodes.map Node.id).Nodup) : Pending db db.queue := by
  refine ⟨fun m hm => Db.mem_queue hm, List.Nodup.sublist ((List.take_sublist ..).map _) ?_⟩
  rw [((List.perm_insertionSort _ _).map Node.id).nodup_iff]
  exact hids.sublist (List.filter_sublist.map _)

/-- `claim` returns a node that was ready. -/
def Finds (env : Env) (clock : NodeId → Time) (token : Token) (db : Db) : Prop :=
  ∃ d n, claim env clock token db = .ok (d, some (claimed token (clock n.id) n)) ∧
    Ready db (clock n.id) n

/-- **Where some node is ready, a claim finds one** exactly if the store has room for an event and
one of the ready nodes is among the first 128 of the queue. -/
theorem claim_finds (hids : (db.nodes.map Node.id).Nodup) :
    ((∃ n, Ready db (clock n.id) n) → Finds env clock token db) ↔
    ((∃ n, Ready db (clock n.id) n) →
      env.room = true ∧ ∃ n ∈ db.queue, Ready db (clock n.id) n) := by
  have hmem : ∀ m ∈ db.queue, m ∈ db.nodes := fun m hm => (Db.mem_queue hm).1
  refine imp_congr_right fun _ => ⟨?_, ?_⟩
  · rintro ⟨d, n, h, -⟩
    obtain ⟨hroom, m, hm, hr, -⟩ := claimFrom_some (o := (d, claimed token (clock n.id) n)) .refl
      hids (Db.queue_pending hids) hmem h
    exact ⟨hroom, m, hm, hr⟩
  · rintro ⟨hroom, hex⟩
    obtain ⟨d, n, -, hr, h⟩ := claimFrom_ready .refl hids (Db.queue_pending hids) hroom hex hmem
    exact ⟨d, n, h, hr⟩

namespace Sample

/-- A node that runs. -/
def busy : Node :=
  { newNode spec payload 0 600 0 with state := .running, lease := some 1, expires := some 90 }

/-- A node that waits for it. -/
def waiting (i : ℕ) : Node := newNode { spec with dependencies := [0] } payload (i + 1) 600 i

/-- A node without dependencies, the last of `k + 1` in the queue. -/
def free (k : ℕ) : Node := newNode spec payload (k + 1) 600 k

/-- A root task with a worker, `k` nodes that wait for it, and one more node. -/
def crowd (k : ℕ) : Db :=
  { Db.empty with
    tasks := { TaskDb.empty with
      tasks := Table.empty.set root { TaskStore.newRow "goal" [] none none with state := .running } }
    nodes := busy :: ((List.range k).map waiting ++ [free k]) }

/-- The time of the claim. -/
def noon : NodeId → Time := fun _ => 10

end Sample

/-- 128 nodes that wait hide a node that is ready, in a store that `recover` leaves as it is. -/
theorem claim_hidden :
    (recover {} Sample.noon 10 (Sample.crowd 128)).map (·.1.nodes) = .ok (Sample.crowd 128).nodes ∧
    (∃ n, Ready (Sample.crowd 128) (Sample.noon n.id) n) ∧
    ¬ Finds {} Sample.noon 2 (Sample.crowd 128) := by
  refine ⟨by decide, ?_, ?_⟩
  · have hc : choice (Sample.crowd 128) 10 (Sample.free 128) = .claim := by decide
    exact ⟨_, (choice_claim (by simp [Sample.crowd]) rfl rfl).1 hc⟩
  · have hnone : (claim {} Sample.noon 2 (Sample.crowd 128)).map (·.2) = .ok none := by
      decide
    rintro ⟨d, n, h, -⟩
    rw [h] at hnone
    cases hnone

/-- One node that waits does not hide the other one. -/
theorem claim_finds_crowd :
    ((∃ n, Ready (Sample.crowd 1) (Sample.noon n.id) n) → Finds {} Sample.noon 2 (Sample.crowd 1)) ↔
    ((∃ n, Ready (Sample.crowd 1) (Sample.noon n.id) n) →
      ({} : Env).room = true ∧
        ∃ n ∈ (Sample.crowd 1).queue, Ready (Sample.crowd 1) (Sample.noon n.id) n) :=
  claim_finds (by decide)

end Coordinator

end PythonAI
