import PythonAI.Budgets.Conservation
import PythonAI.Coordinator.Host

/-!
# What each operation does when it succeeds

One lemma for each operation that changes the rows of nodes, graphs or runs: the guards that have
passed, and the new database in terms of the old one.
-/

namespace PythonAI

open Library Budgets

namespace Coordinator

variable {env : Env} {db db' : Db} {b : TaskBudget} {n : Node} {t t₁ t₂ : Time} {token : Token}
  {clock : NodeId → Time}

/-! ### Nodes -/

/-- What no operation changes. -/
def Node.fixed (n : Node) : Node :=
  { n with
    payload := { n.payload with humanDisposition := none }
    state := .queued
    result := none
    reviewedBy := none
    lease := none
    expires := none
    attempts := 0
    updated := 0 }

/-- A node in this state does not go on, unless a human lets it. -/
def NodeState.halted (s : NodeState) : Bool := s.stopped || s = .cancelRequested

/-- The node is stopped, returned to the queue, or left as it is. -/
structure Halts (n n' : Node) : Prop where
  fixed : n'.fixed = n.fixed
  result : n'.result = n.result
  reviewedBy : n'.reviewedBy = n.reviewedBy
  lease : n'.lease = n.lease ∨ n'.lease = none
  state : n'.state = n.state ∨ n'.state.halted = true ∨ n.state = .running ∧ n'.state = .queued

namespace Halts

variable {n n' n'' : Node}

theorem refl : Halts n n := ⟨rfl, rfl, rfl, .inl rfl, .inl rfl⟩

theorem of_halted (hf : n'.fixed = n.fixed) (hr : n'.result = n.result)
    (hb : n'.reviewedBy = n.reviewedBy) (hl : n'.lease = n.lease ∨ n'.lease = none)
    (hs : n'.state.halted = true) : Halts n n' := ⟨hf, hr, hb, hl, .inr (.inl hs)⟩

theorem trans (h : Halts n n') (h' : Halts n' n'') : Halts n n'' where
  fixed := h'.fixed.trans h.fixed
  result := h'.result.trans h.result
  reviewedBy := h'.reviewedBy.trans h.reviewedBy
  lease := h'.lease.elim (fun e => h.lease.imp e.trans e.trans) .inr
  state := by
    rcases h'.state with e | hs | ⟨hrun, hq⟩
    · rw [e]
      exact h.state
    · exact .inr (.inl hs)
    · rcases h.state with e | hs | ⟨-, hq'⟩
      · exact .inr (.inr ⟨e ▸ hrun, hq⟩)
      · rw [hrun] at hs
        cases hs
      · rw [hrun] at hq'
        cases hq'

end Halts

theorem Node.id_of_fixed {n n' : Node} (h : n'.fixed = n.fixed) : n'.id = n.id :=
  show n'.fixed.id = n.fixed.id from congrArg Node.id h

/-- The rows of a table that an operation stops. -/
theorem Halts.rewrites_trans {rows rows' rows'' : List Node} (h : Records.Rewrites Halts rows rows')
    (h' : Records.Rewrites Halts rows' rows'') : Records.Rewrites Halts rows rows'' :=
  h.trans h' fun _ _ _ _ _ => Halts.trans

theorem event_ok {name : String} (h : event env n name db = .ok db') :
    db' = { db with events := db.events ++ [⟨n.id, n.owner, name⟩] } := by
  simp only [event, bind_eq_ok, pure_eq_ok] at h
  obtain ⟨-, -, h⟩ := h
  exact h.symm

/-! ### `insert` -/

theorem pinBackend_ok {owner : Owner} {root : TaskId} {backend : Backend}
    (h : pinBackend env owner root db = .ok (db', backend)) :
    db' = { db with backends := db'.backends } ∧ db'.backends (owner, root) = some backend ∧
      (∀ k, k ≠ (owner, root) → db'.backends k = db.backends k) ∧
      (db.backends (owner, root) = some backend ∨
        db.backends (owner, root) = none ∧ (db.nodesOf owner root ≠ [] → backend = .sqlite)) := by
  unfold pinBackend at h
  split at h
  case h_1 old hold =>
    cases h
    exact ⟨rfl, hold, fun _ _ => rfl, .inl hold⟩
  case h_2 hnone =>
    split_ifs at h with hempty
    · simp only [bind_eq_ok, pure_eq_ok] at h
      obtain ⟨x, -, h⟩ := h
      cases h
      exact ⟨rfl, Table.set_same .., fun k hk => Table.set_of_ne _ _ _ hk,
        .inr ⟨hnone, fun hne => absurd (List.isEmpty_iff.1 hempty) hne⟩⟩
    · cases h
      exact ⟨rfl, Table.set_same .., fun k hk => Table.set_of_ne _ _ _ hk, .inr ⟨hnone, fun _ => rfl⟩⟩

/-- A node joins the graph of its root, or no graph, or comes with a new graph. -/
theorem pin_ok {spec : NodeSpec} {key : NodeId} {g : GraphId} {payload : Payload}
    (h : pin env b spec key g t db = .ok (db', payload)) :
    ∃ backend, db'.backends (spec.owner, spec.root) = some backend ∧
      (∀ k, k ≠ (spec.owner, spec.root) → db'.backends k = db.backends k) ∧
      (db.backends (spec.owner, spec.root) = some backend ∨
        db.backends (spec.owner, spec.root) = none ∧
          (db.nodesOf spec.owner spec.root ≠ [] → backend = .sqlite)) ∧
      db' = { db with backends := db'.backends, graphs := db'.graphs } ∧
      (∃ graph tools, payload =
        { spec.payload with temporalGraph := graph, parentTools := tools }) ∧
      (db'.graphs = db.graphs ∨
        backend = .temporal ∧ db.graph g = none ∧ db.graphOf spec.owner spec.root = none ∧
          ∃ contract, contractOf env b.key db = .ok contract ∧ db'.graphs = db.graphs ++
            [{ id := g, owner := spec.owner, root := spec.root, anchor := key,
               contract := contract, place := env.place }]) := by
  simp only [pin, bind_eq_ok] at h
  obtain ⟨⟨db₁, backend⟩, hpin, h⟩ := h
  obtain ⟨heq, hback, hother, hold⟩ := pinBackend_ok hpin
  dsimp only at h
  by_cases hsql : backend = .sqlite
  · rw [if_pos hsql] at h
    cases h
    exact ⟨backend, hback, hother, hold, by rw [heq], ⟨_, _, rfl⟩, .inl (by rw [heq])⟩
  rw [if_neg hsql] at h
  generalize (if spec.reviewOf.isSome = true then spec.payload.parentTools else env.allowedTools) =
    tools at h
  simp only [bind_eq_ok, ensure_eq_ok] at h
  obtain ⟨-, -, -, -, -, -, h⟩ := h
  split at h
  case h_1 old hsome =>
    simp only [bind_eq_ok, ensure_eq_ok, pure_eq_ok] at h
    obtain ⟨-, -, -, -, x, rfl, h⟩ := h
    cases h
    exact ⟨backend, hback, hother, hold, by rw [heq], ⟨_, _, rfl⟩, .inl (by rw [heq])⟩
  case h_2 hnone =>
    simp only [newGraph, bind_eq_ok, ensure_eq_ok, pure_eq_ok] at h
    obtain ⟨-, -, new, ⟨-, -, -, -, -, -, -, -, contract, hcontract, -, -, -, hfree, rfl⟩, x, rfl, h⟩ := h
    cases h
    refine ⟨backend, hback, hother, hold, by rw [heq], ⟨_, _, rfl⟩,
      .inr ⟨?_, ?_, ?_, contract, ?_, by rw [heq]⟩⟩
    · cases backend with
      | sqlite => exact absurd rfl hsql
      | temporal => rfl
    · rw [heq] at hfree
      exact Option.isNone_iff_eq_none.1 hfree
    · rw [heq] at hnone
      exact hnone
    · rw [heq] at hcontract
      exact hcontract

/-- `insert` finds the reviewer of the node, or admits a child and inserts it. -/
theorem insert_ok {spec : NodeSpec} {key k : NodeId} {g : GraphId}
    (h : insert env b spec key g t₁ t₂ db = .ok (db', k)) :
    db' = db ∨
    ∃ row db₁ payload deadline,
      (∀ c, spec.reviewOf = some c → ∀ x ∈ db.nodes, x.reviewOf ≠ some c) ∧
      db.budgets.budgets b.key = some row ∧
      b.admits row (b.limits.depth < spec.payload.depth) t₁ = .ok () ∧
      pin env b spec key g t₁ db = .ok (db₁, payload) ∧ db.node key = none ∧
      db' = { db₁ with
        budgets := TaskBudget.addChild b.key db.budgets
        nodes := db.nodes ++ [newNode spec payload key deadline t₂]
        events := db'.events } := by
  simp only [insert, bind_eq_ok, ensure_eq_ok, require_eq_ok] at h
  obtain ⟨seconds, -, -, -, h⟩ := h
  split at h
  case h_1 => cases h; exact .inl rfl
  case h_2 hnone =>
    simp only [bind_eq_ok, pure_eq_ok, ensure_eq_ok, require_eq_ok] at h
    obtain ⟨-, -, -, -, row, hrow, _, hadmits, ⟨db₁, payload⟩, hpin, -, hfree, db₂, hev, h⟩ := h
    cases h
    obtain ⟨backend, -, -, -, heq, -⟩ := pin_ok hpin
    have hev := event_ok hev
    refine .inr ⟨row, db₁, payload, min row.deadline (t₂ + seconds), fun c hc x hx => ?_, hrow,
      hadmits, hpin, ?_, ?_⟩
    · rw [hc] at hnone
      simpa using List.find?_eq_none.1 hnone x hx
    · rw [heq] at hfree
      exact Option.isNone_iff_eq_none.1 hfree
    · rw [hev, heq]

/-! ### `recover` and `claim` -/

theorem recover_ok {out : Unit} (h : recover env clock t db = .ok (db', out)) :
    db' = { db with
      tasks := db'.tasks
      nodes := (db.nodes.map (recoverNode db clock)).map
        (rejectNode (db.nodes.map (recoverNode db clock)) t)
      events := db'.events } := by
  simp only [recover, bind_eq_ok, pure_eq_ok] at h
  obtain ⟨-, -, h⟩ := h
  cases h
  rfl

/-- What `claim` does to a row when it returns `out`. -/
inductive Claimed (clock : NodeId → Time) (token : Token) (out : Option Node) (n : Node) : Node → Prop
  /-- the row is left alone -/
  | same : Claimed clock token out n n
  /-- a dependency has stopped -/
  | failed (hq : n.state = .queued) : Claimed clock token out n { n with state := .failed }
  /-- the worker starts -/
  | claimed (hq : n.state = .queued) (ho : out = some (claimed token (clock n.id) n)) :
    Claimed clock token out n (claimed token (clock n.id) n)

/-- The loop of `claim` over queued rows with different ids. -/
theorem claimFrom_ok {rows : List Node} {out : Option Node}
    (h : claimFrom env clock token rows db = .ok (db', out)) (hq : ∀ n ∈ rows, n.state = .queued)
    (hn : (rows.map Node.id).Nodup) (hrow : ∀ n ∈ rows, ∀ x ∈ db.nodes, x.id = n.id → x = n) :
    db' = { db with nodes := db'.nodes, events := db'.events } ∧
      Records.Rewrites (Claimed clock token out) db.nodes db'.nodes ∧
      ∀ y, out = some y → ∃ n ∈ rows, y = claimed token (clock n.id) n := by
  induction rows generalizing db with
  | nil =>
    cases h
    exact ⟨rfl, .refl fun _ _ => .same, fun _ h => nomatch h⟩
  | cons n rows ih =>
    rw [List.map_cons, List.nodup_cons] at hn
    have hqs : ∀ m ∈ rows, m.state = .queued := fun m hm => hq m (List.mem_cons_of_mem _ hm)
    have hqn : n.state = .queued := hq n List.mem_cons_self
    have hself : ∀ x ∈ db.nodes, x.id = n.id → x = n := hrow n List.mem_cons_self
    simp only [claimFrom] at h
    split at h
    · obtain ⟨heq, hrew, hout⟩ := ih h hqs hn.2 fun m hm => hrow m (List.mem_cons_of_mem _ hm)
      exact ⟨heq, hrew, fun y hy => (hout y hy).imp fun m hm => ⟨List.mem_cons_of_mem _ hm.1, hm.2⟩⟩
    · have hne : ∀ m ∈ rows, m.id ≠ n.id := fun m hm he => hn.1 (he ▸ List.mem_map_of_mem hm)
      obtain ⟨heq, hrew, hout⟩ := ih h hqs hn.2 fun m hm x hx hid => by
        obtain ⟨z, hz, rfl⟩ := List.mem_map.1 hx
        by_cases hzn : z.id = n.id
        · rw [if_pos (by simpa using hzn)] at hid
          exact absurd (hid.symm.trans hzn) (hne m hm)
        · rw [if_neg (by simpa using hzn)] at hid ⊢
          exact hrow m (List.mem_cons_of_mem _ hm) z hz hid
      refine ⟨heq, ?_, fun y hy => (hout y hy).imp fun m hm => ⟨List.mem_cons_of_mem _ hm.1, hm.2⟩⟩
      -- the failed row is not queued any more, so the rest of the loop leaves it alone
      refine Records.Rewrites.trans (R := fun x y => y = x ∨ x.state = .queued ∧
          y = { x with state := .failed }) (.of_ite (fun x hx hp => ?_) fun x _ => .inl rfl) hrew ?_
      · have hxn := hself x hx (by simpa using hp)
        exact .inr ⟨hxn ▸ hqn, rfl⟩
      · rintro x - y - z (rfl | ⟨hx, rfl⟩) hz
        · exact hz
        · cases hz with
          | same => exact .failed hx
          | failed hbad => cases hbad
          | claimed hbad => cases hbad
    · simp only [bind_eq_ok, pure_eq_ok] at h
      obtain ⟨db₁, hev, h⟩ := h
      cases h
      rw [event_ok hev]
      refine ⟨rfl, .of_ite (fun x hx hp => ?_) fun x _ => .same, fun y hy => ?_⟩
      · have hxn := hself x hx (by simpa using hp)
        subst hxn
        exact .claimed hqn rfl
      · cases hy
        exact ⟨n, List.mem_cons_self, rfl⟩

theorem Db.mem_queue (h : n ∈ db.queue) : n ∈ db.nodes ∧ n.state = .queued ∧ db.native n = false := by
  have h := List.mem_of_mem_take h
  rw [List.mem_insertionSort, List.mem_filter] at h
  simpa using h

theorem claim_ok {out : Option Node} (hn : (db.nodes.map Node.id).Nodup)
    (h : claim env clock token db = .ok (db', out)) :
    db' = { db with nodes := db'.nodes, events := db'.events } ∧
      Records.Rewrites (Claimed clock token out) db.nodes db'.nodes ∧
      ∀ y, out = some y → ∃ n ∈ db.queue, y = claimed token (clock n.id) n := by
  refine claimFrom_ok h (fun n hm => (Db.mem_queue hm).2.1) ?_ fun n hm x hx hid =>
    List.inj_on_of_nodup_map hn hx (Db.mem_queue hm).1 hid
  refine List.Nodup.sublist ((List.take_sublist ..).map _) ?_
  rw [((List.perm_insertionSort _ _).map Node.id).nodup_iff]
  exact hn.sublist (List.filter_sublist.map _)

/-! ### The worker of a node -/

theorem judge_eq {state : NodeState} :
    judge n state t db = { db with
      nodes := db.nodes.map fun row =>
        if n.reviewOf = some row.id ∧ row.state = .reviewPending then judged state n.id t row
        else row } := by
  unfold judge
  split
  case h_1 hnone => simp [hnone]
  case h_2 k hk =>
    rw [hk, Db.updateNodes]
    congr 1
    refine List.map_congr_left fun row _ => ?_
    simp only [Bool.and_eq_true, decide_eq_true_eq, Option.some.injEq, @eq_comm _ k]

/-- The row that `renew` and `publish` write is running under the lease of the worker. -/
theorem renewable_iff {row : Node} :
    renewable n t row = true ↔
      row.id = n.id ∧ row.holds n = true ∧ row.state = .running ∧ row.live t = true := by
  simp [renewable, and_assoc]

theorem publish_ok {r : Result} {state : NodeState}
    (h : publish env n r t₁ t₂ db = .ok (db', state)) :
    (∃ row ∈ db.nodes, renewable n t₂ row = true) ∧ state = publishState n r ∧
      db' = { db with
        nodes := (db.nodes.map fun row =>
          if renewable n t₂ row then published n r t₂ row else row).map fun row =>
            if n.reviewOf = some row.id ∧ row.state = .reviewPending then
              judged (if publishState n r = .completed then .reviewed else .rejected) n.id t₂ row
            else row
        events := db'.events } := by
  simp only [publish, bind_eq_ok, pure_eq_ok, ensure_eq_ok] at h
  obtain ⟨-, -, -, -, -, -, -, hrow, db₁, hev, h⟩ := h
  cases h
  rw [event_ok hev, judge_eq]
  exact ⟨by simpa using hrow, rfl, rfl⟩

/-- `fail` finds its lease gone, or releases the row. -/
theorem fail_ok {state : NodeState} {out : Unit} (h : fail env n state t db = .ok (db', out)) :
    db' = db ∨ ∃ row ∈ db.nodes, row.id = n.id ∧ row.holds n = true ∧
      (row.state = .running ∨ row.state = .cancelRequested) ∧
      ∃ state', state' = (if row.state = .cancelRequested then .cancelled else state) ∧
        db' = { db with tasks := db'.tasks, nodes := db'.nodes, events := db'.events } ∧
        ∃ nodes, (nodes = db.nodes.map fun row =>
            if row.id = n.id ∧ row.holds n = true then released state' t row else row) ∧
          (db'.nodes = nodes ∨ db'.nodes = nodes.map fun row =>
            if n.reviewOf = some row.id ∧ row.state = .reviewPending then
              judged .rejected n.id t row else row) := by
  unfold fail at h
  split at h
  case h_1 => cases h; exact .inl rfl
  case h_2 row hfind =>
    by_cases hstate : row.state = .running ∨ row.state = .cancelRequested
    · have hrow := List.find?_some hfind
      simp only [Bool.and_eq_true, decide_eq_true_eq] at hrow
      refine .inr ⟨row, List.mem_of_find?_eq_some hfind, hrow.1, hrow.2, hstate, _, rfl, ?_⟩
      rw [if_pos hstate] at h
      dsimp only at h
      generalize (if row.state = .cancelRequested then NodeState.cancelled else state) = state' at h ⊢
      simp only [bind_eq_ok, pure_eq_ok] at h
      obtain ⟨db₁, hev, h⟩ := h
      cases h
      rw [event_ok hev]
      by_cases hstop : state'.stopped = true
      · rw [if_pos hstop, judge_eq]
        exact ⟨rfl, _, rfl, .inr (by simp [Db.updateNodes])⟩
      · rw [if_neg hstop]
        exact ⟨rfl, _, rfl, .inl (by simp [Db.updateNodes])⟩
    · rw [if_neg hstate] at h
      cases h
      exact .inl rfl

/-! ### Humans and merges -/

theorem Human.abandon_ok {out : Unit} (h : Human.abandon env n t db = .ok (db', out)) :
    n.state = .needsResolution ∧
      db' = { db with
        tasks := db'.tasks
        nodes := db.nodes.map fun row => if row.id = n.id then Human.abandonedNode t row else row
        events := db'.events } := by
  simp only [Human.abandon, bind_eq_ok, pure_eq_ok, ensure_eq_ok, require_eq_ok] at h
  obtain ⟨-, hstate, -, -, row, -, -, -, -, -, db₁, hev, h⟩ := h
  cases h
  rw [event_ok hev]
  exact ⟨by simpa using hstate, by simp [Db.updateNodes]⟩

theorem Merge.check_ok {site : Merge.Site} {active : Bool} {r : Node} {u : Unit}
    (h : Merge.check env site active n r t db = .ok u) :
    n.state = .reviewed ∧ n.reviewedBy = some r.id ∧ Merge.approved r = true := by
  simp only [Merge.check, bind_eq_ok, ensure_eq_ok] at h
  obtain ⟨-, -, -, -, -, -, -, -, -, -, -, hstate, -, happ, -⟩ := h
  simp only [Bool.and_eq_true, decide_eq_true_eq] at hstate
  exact ⟨hstate.1, hstate.2, happ⟩

theorem Merge.start_ok {site : Merge.Site} {out : Unit}
    (h : Merge.start env site n token t db = .ok (db', out)) :
    db' = { db with
      nodes := db.nodes.map fun row =>
        if row.id = n.id ∧ row.state = .reviewed then Merge.taken token t row else row
      events := db'.events } := by
  simp only [Merge.start, bind_eq_ok, pure_eq_ok, ensure_eq_ok] at h
  obtain ⟨-, -, -, -, db₁, hev, h⟩ := h
  cases h
  rw [event_ok hev]
  simp [Db.updateNodes]

theorem Merge.finish_ok {site : Merge.Site} {files : List String} {archive : String} {out : Unit}
    (h : Merge.finish env site n token files archive t db = .ok (db', out)) :
    ∃ r, n.result = some r ∧ db' = { db with
      nodes := db.nodes.map fun row =>
        if row.id = n.id ∧ row.state = .merging ∧ row.lease = some token then
          Merge.merged r (Merge.evidence n r files archive t) t row else row
      events := db'.events } := by
  simp only [Merge.finish, bind_eq_ok, pure_eq_ok, ensure_eq_ok, require_eq_ok] at h
  obtain ⟨r, hr, -, -, -, -, db₁, hev, h⟩ := h
  cases h
  rw [event_ok hev]
  exact ⟨r, hr, by simp [Db.updateNodes, and_assoc]⟩

/-! ### Graphs -/

namespace Graphs

variable {g : GraphId} {k : NodeId}

theorem stop_ok {reason : StopReason} {out : Unit} (h : stop g reason t db = .ok (db', out)) :
    ∃ graph, db.graph g = some graph ∧
      (graph.state.terminal = true ∧ (db' = db ∨
          db' = update g (fun x => { x with stopReason := some reason, isSealed := true }) db) ∨
        graph.state.terminal = false ∧ db' = (update g (fun x =>
            { x with isSealed := true, state := .cancelling, stopReason := some reason }) db).updateNodes
          (hasNode graph) (stopNode t)) := by
  simp only [stop, get, bind_eq_ok, require_eq_ok] at h
  obtain ⟨graph, hg, h⟩ := h
  refine ⟨graph, hg, ?_⟩
  split_ifs at h with hterm hcomp
  · cases h
    exact .inl ⟨hterm, .inr rfl⟩
  · cases h
    exact .inl ⟨hterm, .inl rfl⟩
  · cases h
    exact .inr ⟨by simpa using hterm, rfl⟩

/-- The loop of `snapshot` fails queued rows and leaves the others alone. -/
theorem failStuck_ok (graph : Graph) (t : Time) (keys : List NodeId)
    (hn : (db.nodes.map Node.id).Nodup) :
    failStuck graph t keys db = { db with nodes := (failStuck graph t keys db).nodes } ∧
      Records.Rewrites Halts db.nodes (failStuck graph t keys db).nodes := by
  induction keys generalizing db with
  | nil => exact ⟨rfl, .refl fun _ _ => .refl⟩
  | cons k keys ih =>
    unfold failStuck
    split
    · exact ih hn
    split_ifs with hstuck
    · have hids : ((db.updateNodes (·.id = k) fun n =>
          { n with state := .failed, updated := t }).nodes.map Node.id).Nodup := by
        rw [Db.updateNodes, Records.map_key fun x _ => by split_ifs <;> rfl]
        exact hn
      obtain ⟨heq, hrew⟩ := ih hids
      refine ⟨heq, Halts.rewrites_trans ?_ hrew⟩
      exact .of_ite (fun x _ _ => .of_halted rfl rfl rfl (.inl rfl) rfl) fun _ _ => .refl
    · exact ih hn

theorem conclude_ok {root : Option TaskState} {out : Status}
    (h : conclude g root t db = .ok (db', out)) :
    ∃ graph, db.graph g = some graph ∧
      ∃ db₁, db₁ = failStuck graph t (order graph db) db ∧ (db' = db₁ ∨
        ∃ state, (state = .completed → ∀ n ∈ nodes graph db₁, n.state.success = true) ∧
          state.terminal = true ∧
          db' = update g (fun x => { x with state := state, isSealed := true }) db₁) := by
  simp only [conclude, get, bind_eq_ok, require_eq_ok] at h
  obtain ⟨graph, hg, h⟩ := h
  refine ⟨graph, hg, _, rfl, ?_⟩
  split at h
  · cases h
    refine .inr ⟨_, fun hstate => ?_, ?_, rfl⟩
    · split at hstate
      · cases hstate
      · split_ifs at hstate with hall
        simpa using hall
    · split
      · rfl
      · split_ifs <;> rfl
  · cases h
    exact .inl rfl

/-- A claim of a node that no worker has claimed yet. -/
structure Claims (env : Env) (g : GraphId) (k : NodeId) (t : Time) (db : Db) (graph : Graph)
    (n : Node) : Prop where
  found : db.graph g = some graph
  claimable : graph.state.claimable = true
  mem : n ∈ db.nodes
  id : n.id = k
  hasNode : hasNode graph n = true
  run : db.run k = none
  ready : ready n (nodes graph db) = true

theorem claim_ok {p : Process} {out : Option Node}
    (h : claim env g k token p t db = .ok (db', out)) :
    out = none ∧ db' = db ∨ ∃ graph n, Claims env g k t db graph n ∧
      out = some (claimed token t n) ∧ db' = { db with
        nodes := db.nodes.map fun n => if n.id = k then claimed token t n else n
        events := db'.events
        bindings := db'.bindings
        runs := db.runs ++ [⟨k, g, .started, token, p, t⟩] } := by
  simp only [claim, get, bind_eq_ok, require_eq_ok, ensure_eq_ok] at h
  obtain ⟨graph, hg, anchor, -, c, -, -, hclaim, n, hn, h⟩ := h
  split_ifs at h with hrun
  · cases h
    exact .inl ⟨rfl, rfl⟩
  simp only [bind_eq_ok, pure_eq_ok, ensure_eq_ok] at h
  obtain ⟨-, hready, -, -, -, -, -, -, -, -, -, -, db₁, hev, h⟩ := h
  cases h
  have hmem := Records.mem_of_find hn
  simp only [nodes, Db.nodesOf, List.mem_filter] at hmem
  simp only [Bool.and_eq_true, decide_eq_true_eq] at hclaim
  refine .inr ⟨graph, n, ⟨hg, hclaim.1, hmem.1, Records.key_of_find hn, hmem.2, ?_, hready⟩, rfl, ?_⟩
  · simpa using hrun
  · rw [event_ok hev]
    simp [Db.updateNodes]

theorem nodeStopped_ok {out : Option NodeState} (h : nodeStopped g k db = .ok out) :
    ∀ s, out = some s → s = .needsResolution ∨ s = .cancelled := by
  simp only [nodeStopped, get, bind_eq_ok, require_eq_ok, ensure_eq_ok] at h
  obtain ⟨graph, -, n, -, -, -, h⟩ := h
  rintro s rfl
  split_ifs at h with hstate hrun
  · cases h
    exact .inl rfl
  · cases h
    exact .inr rfl
  · cases h

theorem processDone_ok {out : Unit} (h : processDone g n t db = .ok (db', out)) :
    db' = { db with
      nodes := db.nodes.map fun row =>
        if row.id = n.id ∧ row.holds n = true then doneNode t row else row
      runs := db.runs.map fun r =>
        if r.node = n.id ∧ n.lease = some r.lease then { r with state := .completed, updated := t }
        else r } := by
  simp only [processDone, get, bind_eq_ok, pure_eq_ok, require_eq_ok, ensure_eq_ok] at h
  obtain ⟨graph, -, row, -, -, -, h⟩ := h
  cases h
  simp [Db.updateNodes]

/-- A run stays the run of its node. -/
def SameRun (r r' : Run) : Prop := r'.node = r.node ∧ r'.graph = r.graph

theorem updateRun_rewrites {f : Run → Run} (hf : ∀ r, SameRun r (f r)) :
    Records.Rewrites SameRun db.runs (updateRun k f db).runs := by
  refine .of_map fun r _ => ?_
  split_ifs
  · exact hf r
  · exact ⟨rfl, rfl⟩

/-- Nodes are stopped, and the states of runs change. -/
structure Reaps (db db' : Db) : Prop where
  frame : db' = { db with tasks := db'.tasks, nodes := db'.nodes, runs := db'.runs }
  nodes : Records.Rewrites Halts db.nodes db'.nodes
  runs : Records.Rewrites SameRun db.runs db'.runs

theorem Reaps.refl : Reaps db db :=
  ⟨rfl, .refl fun _ _ => .refl, .refl fun _ _ => ⟨rfl, rfl⟩⟩

theorem Reaps.trans {db'' : Db} (h : Reaps db db') (h' : Reaps db' db'') : Reaps db db'' where
  frame := by
    rw [h'.frame, h.frame]
  nodes := Halts.rewrites_trans h.nodes h'.nodes
  runs := h.runs.trans h'.runs fun _ _ _ _ _ hr hr' => ⟨hr'.1.trans hr.1, hr'.2.trans hr.2⟩

theorem abandoned_halts : Halts n (abandoned t n) := by
  unfold abandoned
  split_ifs
  · exact .of_halted rfl rfl rfl (.inr rfl) rfl
  · exact .refl

theorem reapRun_ok {h : Processes} {r : Run} (hr : reapRun h t r db = .ok db') : Reaps db db' := by
  unfold reapRun at hr
  split_ifs at hr
  · cases hr
    exact ⟨rfl, .refl fun _ _ => .refl, updateRun_rewrites fun _ => ⟨rfl, rfl⟩⟩
  · cases hr
    exact ⟨rfl, .of_ite (fun _ _ _ => .of_halted rfl rfl rfl (.inl rfl) rfl) fun _ _ => .refl,
      updateRun_rewrites fun _ => ⟨rfl, rfl⟩⟩
  · simp only [get, bind_eq_ok, pure_eq_ok, require_eq_ok] at hr
    obtain ⟨graph, -, n, -, rfl⟩ := hr
    exact ⟨rfl, .of_ite (fun _ _ _ => abandoned_halts) fun _ _ => .refl,
      updateRun_rewrites fun _ => ⟨rfl, rfl⟩⟩

theorem reapFrom_ok {h : Processes} {rs : List Run} (hr : reapFrom h t rs db = .ok db') :
    Reaps db db' := by
  induction rs generalizing db with
  | nil => cases hr; exact .refl
  | cons r rs ih =>
    simp only [reapFrom, bind_eq_ok] at hr
    obtain ⟨db₁, h₁, h₂⟩ := hr
    exact (reapRun_ok h₁).trans (ih h₂)

theorem reap_ok {h : Processes} {out : Unit} (hr : reap h t db = .ok (db', out)) :
    Reaps db db' := by
  simp only [reap, bind_eq_ok, pure_eq_ok] at hr
  obtain ⟨db₁, h₁, hr⟩ := hr
  cases hr
  refine (reapFrom_ok h₁).trans ⟨rfl, ?_, .refl fun _ _ => ⟨rfl, rfl⟩⟩
  exact .of_ite (fun _ _ _ => .of_halted rfl rfl rfl (.inr rfl) rfl) fun _ _ => .refl

end Graphs

end Coordinator

end PythonAI
