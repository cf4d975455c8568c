import PythonAI.Coordinator.Moves

/-!
# The claims of the nodes of a graph

The first node of a root fixes its backend, so the coordinator's own `claim` never takes the node
of a graph; `Graphs.claim` takes it once, because the row that it inserts into the table of runs
stays.

**Main results**: the nodes of a graph are claimed at most once (`Host.graph_claims`), only behind
dependencies that have succeeded, never after `stop`, and a graph is completed only by its nodes.
-/

namespace PythonAI

open Library Budgets

namespace Coordinator

variable {h h' : Host} {a : Act} {db db' : Db} {n : Node} {g g' : Graph} {k : NodeId}

/-! ### The rows of graphs and runs -/

/-- What one transaction does to the row of a graph. -/
structure Graphs.Moves (db' : Db) (g g' : Graph) : Prop where
  id : g'.id = g.id
  owner : g'.owner = g.owner
  root : g'.root = g.root
  claimable : g'.state.claimable = true → g.state.claimable = true
  completed : g'.state = .completed →
    g.state = .completed ∨ ∀ n ∈ Graphs.nodes g db', n.state.success = true

theorem Graphs.Moves.refl : Graphs.Moves db' g g := ⟨rfl, rfl, rfl, fun h => h, .inl⟩

/-- What one transaction does to the backends, the graphs and the runs. -/
structure Frames (db db' : Db) : Prop where
  /-- a root stays with Temporal -/
  backends : ∀ k, db.backends k = some .temporal → db'.backends k = some .temporal
  /-- the root of a node does not change to Temporal -/
  native : ∀ n ∈ db.nodes, db'.native n = true → db.native n = true
  /-- a run is never deleted -/
  runs : ∀ k, (db.run k).isSome = true → (db'.run k).isSome = true
  /-- at most one graph is added, for a root without one -/
  graphs : ∃ moved, Records.Rewrites (Graphs.Moves db') db.graphs moved ∧
    (db'.graphs = moved ∨ ∃ g, db'.graphs = moved ++ [g] ∧ db.graph g.id = none ∧
      db.graphOf g.owner g.root = none ∧ g.state = .pending ∧
      db'.backends (g.owner, g.root) = some .temporal)

namespace Frames

theorem of_graphs (hb : db'.backends = db.backends) (hr : db'.runs = db.runs)
    (hg : Records.Rewrites (Graphs.Moves db') db.graphs db'.graphs) : Frames db db' where
  backends k hk := by rw [hb]; exact hk
  native n _ hn := by rw [Db.native, hb] at hn; exact hn
  runs k hk := by rw [Db.run, hr]; exact hk
  graphs := ⟨_, hg, .inl rfl⟩

theorem of_same (hb : db'.backends = db.backends) (hr : db'.runs = db.runs)
    (hg : db'.graphs = db.graphs) : Frames db db' :=
  of_graphs hb hr (hg ▸ .refl fun _ _ => .refl)

theorem of_runs (hb : db'.backends = db.backends) (hg : db'.graphs = db.graphs)
    (hr : ∀ k, (db.run k).isSome = true → (db'.run k).isSome = true) : Frames db db' where
  backends k hk := by rw [hb]; exact hk
  native n _ hn := by rw [Db.native, hb] at hn; exact hn
  runs := hr
  graphs := ⟨_, .refl fun _ _ => .refl, .inl hg⟩

end Frames

theorem Graphs.run_of_rewrites (hr : Records.Rewrites Graphs.SameRun db.runs db'.runs)
    (hk : (db.run k).isSome = true) : (db'.run k).isSome = true := by
  obtain ⟨f, heq, hf⟩ := hr
  rw [Db.run, heq, Records.find_map fun x hx => (hf x hx).1, Option.isSome_map]
  exact hk

theorem Graphs.update_moves (id : GraphId) {f : Graph → Graph}
    (hg : db'.graphs = (Graphs.update id f db).graphs)
    (hf : ∀ g ∈ db.graphs, g.id = id → Graphs.Moves db' g (f g)) :
    Records.Rewrites (Graphs.Moves db') db.graphs db'.graphs := by
  rw [hg]
  refine .of_map fun g hm => ?_
  split_ifs with hid
  · exact hf g hm hid
  · exact .refl

theorem insert_frames {env : Env} {b : TaskBudget} {spec : NodeSpec} {key c : NodeId} {id : GraphId}
    {t₁ t₂ : Time} (hi : insert env b spec key id t₁ t₂ db = .ok (db', c)) : Frames db db' := by
  obtain rfl | ⟨row, db₁, payload, deadline, -, -, -, hpin, -, heq⟩ := insert_ok hi
  · exact .of_same rfl rfl rfl
  obtain ⟨backend, hback, hother, hold, hpinned, -, hgraphs⟩ := pin_ok hpin
  have hb : db'.backends = db₁.backends := by rw [heq]
  have hkey : ∀ c, db.backends c = some .temporal → db'.backends c = some .temporal := by
    intro c hc
    rw [hb]
    by_cases hroot : c = (spec.owner, spec.root)
    · subst hroot
      rcases hold with hold | ⟨hnone, -⟩
      · rw [hback, ← hold, hc]
      · rw [hc] at hnone
        cases hnone
    · rw [hother c hroot, hc]
  refine ⟨hkey, fun n hn hnat => ?_, fun c hc => ?_, ⟨_, .refl fun _ _ => .refl, ?_⟩⟩
  · -- the root of a node without a backend stays with the coordinator
    simp only [Db.native, decide_eq_true_eq] at hnat ⊢
    rw [hb] at hnat
    by_cases hroot : n.rootKey = (spec.owner, spec.root)
    · rw [hroot, hback] at hnat
      rcases hold with hold | ⟨-, hsql⟩
      · rw [hroot, hold, hnat]
      · have hmem : n ∈ db.nodesOf spec.owner spec.root := by
          have ho : n.owner = spec.owner := congrArg Prod.fst hroot
          have hr : n.root = spec.root := congrArg Prod.snd hroot
          simp [Db.nodesOf, hn, ho, hr]
        rw [hsql (List.ne_nil_of_mem hmem)] at hnat
        cases hnat
    · rw [← hother _ hroot, hnat]
  · rw [heq, hpinned]
    exact hc
  · have hg : db'.graphs = db₁.graphs := by rw [heq]
    rw [hg]
    rcases hgraphs with hsame | ⟨rfl, hfree, hnew, contract, -, hadd⟩
    · exact .inl hsame
    · refine .inr ⟨_, hadd, hfree, hnew, rfl, ?_⟩
      rw [hb]
      exact hback

theorem GraphState.not_claimable_of_terminal {s : GraphState} (hs : s.terminal = true) :
    s.claimable = false := by
  cases s with
  | pending | running | cancelling => cases hs
  | completed | ended => rfl

theorem conclude_frames {root : Option TaskState} {t : Time} {out : Graphs.Status}
    (hn : (db.nodes.map Node.id).Nodup) (hg : (db.graphs.map Graph.id).Nodup)
    (hc : Graphs.conclude k root t db = .ok (db', out)) : Frames db db' := by
  obtain ⟨graph, hfind, db₁, rfl, hdb⟩ := Graphs.conclude_ok hc
  have hframe := (Graphs.failStuck_ok graph t (Graphs.order graph db) hn).1
  obtain rfl | ⟨state, hcomp, hterm, rfl⟩ := hdb
  · exact .of_same (by rw [hframe]) (by rw [hframe]) (by rw [hframe])
  refine .of_graphs (by rw [Graphs.update, hframe]) (by rw [Graphs.update, hframe])
    (Graphs.update_moves k (by rw [Graphs.update, hframe, Graphs.update]) fun x hx hid => ?_)
  have hgraph : x = graph := List.inj_on_of_nodup_map hg hx (Records.mem_of_find hfind)
    (hid.trans (Records.key_of_find hfind).symm)
  refine ⟨rfl, rfl, rfl, fun hclaim => ?_, fun hstate => .inr ?_⟩
  · rw [GraphState.not_claimable_of_terminal hterm] at hclaim
    cases hclaim
  · rw [hgraph]
    exact hcomp hstate

theorem stop_frames {reason : StopReason} {t : Time} {out : Unit}
    (hs : Graphs.stop k reason t db = .ok (db', out)) : Frames db db' := by
  obtain ⟨graph, hfind, ⟨hterm, rfl | rfl⟩ | ⟨hterm, rfl⟩⟩ := Graphs.stop_ok hs
  · exact .of_same rfl rfl rfl
  · exact .of_graphs rfl rfl (Graphs.update_moves k rfl fun x _ _ =>
      ⟨rfl, rfl, rfl, fun hc => hc, .inl⟩)
  · exact .of_graphs rfl rfl (Graphs.update_moves k rfl fun x _ _ =>
      ⟨rfl, rfl, rfl, (nomatch ·), (nomatch ·)⟩)

theorem dispatched_frames : Frames db (Graphs.dispatched k db) := by
  refine .of_graphs rfl rfl (Graphs.update_moves k rfl fun x _ _ =>
    ⟨rfl, rfl, rfl, fun hc => ?_, fun hc => ?_⟩)
  · by_cases hp : x.state = .pending
    · rw [hp]
      rfl
    · simpa only [if_neg hp] using hc
  · by_cases hp : x.state = .pending
    · simp only [if_pos hp] at hc
      cases hc
    · exact .inl (by simpa only [if_neg hp] using hc)

/-- A committed transaction keeps the backends, the graphs and the runs. -/
theorem attempt_frames {u : Token} {new : List Held} (hn : (db.nodes.map Node.id).Nodup)
    (hg : (db.graphs.map Graph.id).Nodup) (ha : a.attempt u db = .ok (db', new)) :
    Frames db db' := by
  cases a with
  | create | load | check | reserve | reserveChild | get | mergeable | probe | nodeStopped =>
    simp only [Act.attempt, bind_eq_ok, pure_eq_ok] at ha
    obtain ⟨_, _, ha⟩ := ha
    cases ha
    exact .of_same rfl rfl rfl
  | reconcile | unreviewed | unreviewable | task | renew | requeue | conflict | abort =>
    cases ha
    exact .of_same rfl rfl rfl
  | answer acc n text =>
    simp only [Act.attempt, Human.answer, bind_eq_ok, pure_eq_ok] at ha
    obtain ⟨x, ⟨-, -, y, -, rfl⟩, ha⟩ := ha
    cases ha
    exact .of_same rfl rfl rfl
  | mark n t =>
    simp only [Act.attempt, Human.mark, bind_eq_ok, pure_eq_ok] at ha
    obtain ⟨x, ⟨-, -, rfl⟩, ha⟩ := ha
    cases ha
    exact .of_same rfl rfl rfl
  | resolve acc n call text =>
    simp only [Act.attempt, Human.resolve, bind_eq_ok, pure_eq_ok] at ha
    obtain ⟨x, ⟨y, -, rfl⟩, ha⟩ := ha
    cases ha
    exact .of_same rfl rfl rfl
  | cancel env owner k clock =>
    simp only [Act.attempt, cancel, bind_eq_ok, pure_eq_ok] at ha
    obtain ⟨x, ⟨-, -, -, -, rfl⟩, ha⟩ := ha
    cases ha
    exact .of_same rfl rfl rfl
  | submit | review =>
    simp only [Act.attempt, bind_eq_ok, pure_eq_ok] at ha
    obtain ⟨⟨db₁, c⟩, hi, ha⟩ := ha
    cases ha
    exact insert_frames hi
  | recover env clock t =>
    simp only [Act.attempt, bind_eq_ok, pure_eq_ok] at ha
    obtain ⟨⟨db₁, _⟩, hr, ha⟩ := ha
    cases ha
    rw [recover_ok hr]
    exact .of_same rfl rfl rfl
  | claim env clock =>
    simp only [Act.attempt, bind_eq_ok, pure_eq_ok] at ha
    obtain ⟨⟨db₁, _⟩, hr, ha⟩ := ha
    cases ha
    rw [(claim_ok hn hr).1]
    exact .of_same rfl rfl rfl
  | publish env w r t₁ t₂ =>
    simp only [Act.attempt, bind_eq_ok, pure_eq_ok] at ha
    obtain ⟨⟨db₁, _⟩, hr, ha⟩ := ha
    cases ha
    rw [(publish_ok hr).2.2]
    exact .of_same rfl rfl rfl
  | fail env w state t =>
    simp only [Act.attempt, bind_eq_ok, pure_eq_ok] at ha
    obtain ⟨⟨db₁, _⟩, hr, ha⟩ := ha
    cases ha
    obtain rfl | ⟨-, -, -, -, -, -, -, heq, -⟩ := fail_ok hr
    · exact .of_same rfl rfl rfl
    · rw [heq]
      exact .of_same rfl rfl rfl
  | abandon env n t =>
    simp only [Act.attempt, bind_eq_ok, pure_eq_ok] at ha
    obtain ⟨⟨db₁, _⟩, hr, ha⟩ := ha
    cases ha
    rw [(Human.abandon_ok hr).2]
    exact .of_same rfl rfl rfl
  | start env site n t =>
    simp only [Act.attempt, bind_eq_ok, pure_eq_ok] at ha
    obtain ⟨⟨db₁, _⟩, hr, ha⟩ := ha
    cases ha
    rw [Merge.start_ok hr]
    exact .of_same rfl rfl rfl
  | finish env site n token files archive t =>
    simp only [Act.attempt, bind_eq_ok, pure_eq_ok] at ha
    obtain ⟨⟨db₁, _⟩, hr, ha⟩ := ha
    cases ha
    obtain ⟨r, -, heq⟩ := Merge.finish_ok hr
    rw [heq]
    exact .of_same rfl rfl rfl
  | stop g reason t =>
    simp only [Act.attempt, bind_eq_ok, pure_eq_ok] at ha
    obtain ⟨⟨db₁, _⟩, hr, ha⟩ := ha
    cases ha
    exact stop_frames hr
  | sealGraph g =>
    simp only [Act.attempt, Graphs.sealGraph, bind_eq_ok, pure_eq_ok] at ha
    obtain ⟨x, ⟨y, -, rfl⟩, ha⟩ := ha
    cases ha
    exact .of_graphs rfl rfl (Graphs.update_moves g rfl fun x _ _ =>
      ⟨rfl, rfl, rfl, fun hc => hc, .inl⟩)
  | conclude g root t =>
    simp only [Act.attempt, bind_eq_ok, pure_eq_ok] at ha
    obtain ⟨⟨db₁, _⟩, hr, ha⟩ := ha
    cases ha
    exact conclude_frames hn hg hr
  | dispatched g =>
    cases ha
    exact dispatched_frames
  | graphClaim env g k p t =>
    simp only [Act.attempt, bind_eq_ok, pure_eq_ok] at ha
    obtain ⟨⟨db₁, _⟩, hr, ha⟩ := ha
    cases ha
    obtain ⟨-, rfl⟩ | ⟨graph, n, -, -, heq⟩ := Graphs.claim_ok hr
    · exact .of_same rfl rfl rfl
    · rw [heq]
      refine .of_runs rfl rfl fun c hc => ?_
      obtain ⟨r, hr⟩ := Option.isSome_iff_exists.1 hc
      rw [Db.run, Records.find_append_of_some hr]
      rfl
  | fence k state t =>
    cases ha
    refine .of_runs rfl rfl fun c hc => Graphs.run_of_rewrites (.of_map fun r _ => ?_) hc
    split_ifs <;> exact ⟨rfl, rfl⟩
  | processDone g n t =>
    simp only [Act.attempt, bind_eq_ok, pure_eq_ok] at ha
    obtain ⟨⟨db₁, _⟩, hr, ha⟩ := ha
    cases ha
    rw [Graphs.processDone_ok hr]
    refine .of_runs rfl rfl fun c hc => Graphs.run_of_rewrites (.of_map fun r _ => ?_) hc
    split_ifs <;> exact ⟨rfl, rfl⟩
  | reap p t =>
    simp only [Act.attempt, bind_eq_ok, pure_eq_ok] at ha
    obtain ⟨⟨db₁, _⟩, hr, ha⟩ := ha
    cases ha
    have hreap := Graphs.reap_ok hr
    exact .of_runs (by rw [hreap.frame]) (by rw [hreap.frame]) fun c hc =>
      Graphs.run_of_rewrites hreap.runs hc

/-! ### The claims of a node -/

/-- The entry is a claim of the node `k`. -/
def Held.claims (k : NodeId) : Held → Bool
  | worker n => n.id = k
  | _ => false

namespace Host

/-- The number of times that workers have claimed the node `k`. -/
def claims (h : Host) (k : NodeId) : ℕ := h.held.countP (·.claims k)

theorem frames (hw : h.Wf) (hg : (h.db.graphs.map Graph.id).Nodup) (hs : lts.step h a h') :
    Frames h.db h'.db := by
  obtain ⟨t, -, -, hp, rfl⟩ := hs
  cases hr : a.attempt h.uuids h.db with
  | error e =>
    have hsame : (h.after a t).db = h.db := by simp [after, Act.perform, hr]
    rw [hsame]
    exact .of_same rfl rfl rfl
  | ok x =>
    have hok : a.attempt h.uuids h.db = .ok (x.1, x.2) := hr
    have hdb : (h.after a t).db = x.1 := Act.perform_of_ok hok
    rw [hdb]
    exact attempt_frames hw.ids hg hok

/-- A worker claims `n`: through the coordinator, if its root is not run by Temporal, or through
the graph of its root, which then has a run of the node. -/
inductive Starts (h : Host) (a : Act) (h' : Host) (n : Node) : Prop
  | coordinator (hn : h.db.native n = false)
  | graph (env : Env) (g : GraphId) (p : Process) (t : Time) (graph : Graph)
      (ha : a = .graphClaim env g n.id p t) (hc : Graphs.Claims env g n.id t h.db graph n)
      (hr : (h'.db.run n.id).isSome = true)

/-- A step yields no claim, or one. -/
theorem yields_claim (hw : h.Wf) (hs : lts.step h a h') :
    (∀ m, .worker m ∉ a.yields h.uuids h.db) ∨
      ∃ n ∈ h.db.nodes, ∃ token t, a.yields h.uuids h.db = [.worker (claimed token t n)] ∧
        Starts h a h' n := by
  by_cases hnone : ∀ m, .worker m ∉ a.yields h.uuids h.db
  · exact .inl hnone
  refine .inr ?_
  push Not at hnone
  obtain ⟨m, hm⟩ := hnone
  obtain ⟨new, -, rfl, hnew⟩ := given hw hs
  obtain ⟨T, -, -, -, rfl⟩ := hs
  cases hr : a.attempt h.uuids h.db with
  | error e =>
    rw [Act.yields, hr] at hm
    cases hm
  | ok x =>
    obtain ⟨db₁, new⟩ := x
    have hgiven := hnew _ hm
    rw [Act.yields_of_ok hr] at hm ⊢
    have hdb : (h.after a T).db = db₁ := Act.perform_of_ok hr
    cases hgiven with
    | other hx => cases hx
    | worker n token t hn hq ha =>
      rcases ha with ⟨env, clock, rfl⟩ | ⟨env, g, p, rfl⟩
      · simp only [Act.attempt, bind_eq_ok, pure_eq_ok] at hr
        obtain ⟨⟨db₂, out⟩, hc, hr⟩ := hr
        cases hr
        rw [Option.mem_toList, Option.map_eq_some_iff] at hm
        obtain ⟨y, rfl, -⟩ := hm
        obtain ⟨n', hn', rfl⟩ := (claim_ok hw.ids hc).2.2 y rfl
        obtain ⟨hmem, -, hnative⟩ := Db.mem_queue hn'
        exact ⟨n', hmem, _, _, rfl, .coordinator hnative⟩
      · simp only [Act.attempt, bind_eq_ok, pure_eq_ok] at hr
        obtain ⟨⟨db₂, out⟩, hc, hr⟩ := hr
        cases hr
        obtain ⟨rfl, -⟩ | ⟨graph, n', hn', rfl, heq⟩ := Graphs.claim_ok hc
        · cases hm
        refine ⟨n', hn'.mem, _, _, rfl, .graph env g p _ graph (by rw [hn'.id]) (hn'.id ▸ hn') ?_⟩
        rw [hdb, heq, Db.run, Records.find_append, hn'.id]
        simp [Records.find]

/-- A claim of a node is a claim of a row. -/
theorem claims_eq_zero (hw : h.Wf) (hk : ∀ n ∈ h.db.nodes, n.id ≠ k) : h.claims k = 0 := by
  rw [claims, List.countP_eq_zero]
  rintro x hx hc
  cases x with
  | worker m =>
    obtain ⟨n, hn, hf⟩ := hw.worker m hx
    exact hk n hn ((Node.id_of_fixed hf).trans (by simpa [Held.claims] using hc))
  | _ => cases hc

/-- One step claims a node at most once. -/
theorem claims_step (hw : h.Wf) (hs : lts.step h a h') :
    (∀ k, h'.claims k = h.claims k) ∨
      ∃ n ∈ h.db.nodes, (∃ token t, .worker (claimed token t n) ∈ a.yields h.uuids h.db) ∧
        Starts h a h' n ∧ ∀ k, h'.claims k = h.claims k + if n.id = k then 1 else 0 := by
  obtain ⟨new, hheld, rfl, -⟩ := given hw hs
  have hcount : ∀ k, h'.claims k = h.claims k + (a.yields h.uuids h.db).countP (·.claims k) :=
    fun k => by rw [claims, hheld, List.countP_append, claims]
  rcases yields_claim hw hs with hnone | ⟨n, hn, token, t, heq, hstart⟩
  · refine .inl fun k => ?_
    rw [hcount, Nat.add_eq_left, List.countP_eq_zero]
    rintro x hx hc
    cases x with
    | worker m => exact hnone m hx
    | _ => cases hc
  · refine .inr ⟨n, hn, ⟨token, t, by rw [heq]; exact List.mem_singleton_self _⟩, hstart, fun k => ?_⟩
    rw [hcount, heq, List.countP_singleton]
    by_cases hid : n.id = k <;> simp [Held.claims, claimed, hid]

/-! ### Graphs -/

/-- How the graphs, the runs and the claims hang together. -/
structure Rooted (h : Host) : Prop where
  /-- the primary key of graphs -/
  ids : (h.db.graphs.map Graph.id).Nodup
  /-- a root has one graph -/
  roots : (h.db.graphs.map fun g => (g.owner, g.root)).Nodup
  /-- the root of a graph is run by Temporal -/
  native : ∀ g ∈ h.db.graphs, h.db.backends (g.owner, g.root) = some .temporal
  /-- a node of such a root is claimed once, and has a run then -/
  once : ∀ n ∈ h.db.nodes, h.db.native n = true → h.claims n.id ≤ 1 ∧
    (h.claims n.id = 1 → (h.db.run n.id).isSome = true)

theorem native_of_hasNode (hr : h.Rooted) (hg : g ∈ h.db.graphs) (hn : Graphs.hasNode g n = true) :
    h.db.native n = true := by
  simp only [Graphs.hasNode, Bool.and_eq_true, decide_eq_true_eq] at hn
  simp only [Db.native, Node.rootKey, decide_eq_true_eq, hn.1, hn.2]
  exact hr.native g hg

theorem native_of_fixed {m : Node} (hf : m.fixed = n.fixed) : h.db.native m = h.db.native n := by
  have ho : m.owner = n.owner := show m.fixed.owner = n.fixed.owner by rw [hf]
  have hr : m.root = n.root := show m.fixed.root = n.fixed.root by rw [hf]
  rw [Db.native, Db.native, Node.rootKey, Node.rootKey, ho, hr]

/-- The graphs after a step are the moved ones, and at most one for a root without a graph. -/
theorem graphs_step (hr : h.Rooted) (hf : Frames h.db h'.db) :
    (h'.db.graphs.map Graph.id).Nodup ∧ (h'.db.graphs.map fun g => (g.owner, g.root)).Nodup ∧
      ∀ g ∈ h'.db.graphs, h'.db.backends (g.owner, g.root) = some .temporal := by
  obtain ⟨moved, hrew, hnew⟩ := hf.graphs
  have hids : moved.map Graph.id = h.db.graphs.map Graph.id := hrew.map_key fun _ _ hm => hm.id
  have hroots : (moved.map fun g => (g.owner, g.root)) = h.db.graphs.map fun g => (g.owner, g.root) :=
    hrew.map_key fun _ _ hm => by rw [hm.owner, hm.root]
  have hmoved : ∀ g ∈ moved, h'.db.backends (g.owner, g.root) = some .temporal := by
    intro g hg
    obtain ⟨g₀, hg₀, hm⟩ := hrew.old hg
    rw [hm.owner, hm.root]
    exact hf.backends _ (hr.native g₀ hg₀)
  rcases hnew with heq | ⟨g, heq, hfree, hroot, -, hback⟩
  · rw [heq, hids, hroots]
    exact ⟨hr.ids, hr.roots, hmoved⟩
  rw [heq]
  refine ⟨Records.nodup_append (hids ▸ hr.ids) fun y hy hid => ?_,
    Records.nodup_append (hroots ▸ hr.roots) fun y hy hid => ?_, fun y hy => ?_⟩
  · obtain ⟨z, hz, hm⟩ := hrew.old hy
    obtain ⟨w, hw⟩ := Records.find_isSome Graph.id hz
    rw [← hm.id, hid] at hw
    cases hfree.symm.trans hw
  · obtain ⟨z, hz, hm⟩ := hrew.old hy
    have hno := List.find?_eq_none.1 hroot z hz
    rw [Prod.mk.injEq, hm.owner, hm.root] at hid
    simp [hid.1, hid.2] at hno
  · rcases List.mem_append.1 hy with hy | hy
    · exact hmoved y hy
    · rw [List.mem_singleton.1 hy]
      exact hback

theorem rooted_step (hw : h.Wf) (hr : h.Rooted) (hs : lts.step h a h') : h'.Rooted := by
  have hf := frames hw hr.ids hs
  obtain ⟨hids, hroots, hnative⟩ := graphs_step hr hf
  refine ⟨hids, hroots, hnative, fun n' hn' hnat => ?_⟩
  have hclaims := claims_step hw hs
  rcases old_row hw hs hn' with ⟨n, hn, hm⟩ | hadd
  · rw [native_of_fixed hm.fixed] at hnat
    obtain ⟨hle, hrun⟩ := hr.once n hn (hf.native n hn hnat)
    rw [hm.id]
    rcases hclaims with hsame | ⟨n₀, hn₀, -, hstart, hone⟩
    · rw [hsame]
      exact ⟨hle, fun h₁ => hf.runs _ (hrun h₁)⟩
    rw [hone]
    by_cases hid : n₀.id = n.id
    · obtain rfl := List.inj_on_of_nodup_map hw.ids hn₀ hn hid
      cases hstart with
      | coordinator hnot => exact absurd (hf.native n₀ hn hnat) (by simp [hnot])
      | graph env g p t graph ha hc hsome =>
        have hzero : h.claims n₀.id ≠ 1 := fun h₁ => by
          have hold := hrun h₁
          rw [hc.run] at hold
          cases hold
        rw [if_pos rfl]
        exact ⟨by omega, fun _ => hsome⟩
    · rw [if_neg hid, Nat.add_zero]
      exact ⟨hle, fun h₁ => hf.runs _ (hrun h₁)⟩
  · have hzero := claims_eq_zero hw hadd.fresh
    have hkeep : h'.claims n'.id = 0 := by
      rcases hclaims with hsame | ⟨n₀, hn₀, -, -, hone⟩
      · rw [hsame, hzero]
      · rw [hone, if_neg (hadd.fresh n₀ hn₀), hzero]
    rw [hkeep]
    exact ⟨Nat.zero_le _, (nomatch ·)⟩

theorem rooted (hr : lts.Reachable Initial h) : h.Wf ∧ h.Rooted := by
  refine hr.invariant (I := fun h => h.Wf ∧ h.Rooted) (fun h hi => ⟨hi.wf, ?_⟩)
    fun _ _ _ hI hs => ⟨wf_step hI.1 hs, rooted_step hI.1 hI.2 hs⟩
  refine ⟨?_, ?_, fun g hg => ?_, fun n hn => ?_⟩
  · rw [hi.db]
    exact List.nodup_nil
  · rw [hi.db]
    exact List.nodup_nil
  · rw [hi.db] at hg
    cases hg
  · rw [hi.db] at hn
    cases hn

/-! ### What a claim needs, and what a stop ends -/

/-- The node of a graph is claimed through its graph, which may be claimed, and every dependency
has succeeded or waits for the review that the node is. -/
theorem starts_of_hasNode (hr : h.Rooted) (hg : g ∈ h.db.graphs)
    (hn : Graphs.hasNode g n = true) (hst : Starts h a h' n) :
    g.state.claimable = true ∧
      ∀ k ∈ n.dependencies, ∃ d ∈ Graphs.nodes g h.db, d.id = k ∧ satisfied n d = true := by
  cases hst with
  | coordinator hnot =>
    rw [native_of_hasNode hr hg hn] at hnot
    cases hnot
  | graph env id p t graph ha hc hrun =>
    have hgraph : graph = g := by
      have hmem := Records.mem_of_find hc.found
      have h₁ := hc.hasNode
      simp only [Graphs.hasNode, Bool.and_eq_true, decide_eq_true_eq] at h₁ hn
      refine List.inj_on_of_nodup_map hr.roots hmem hg ?_
      rw [← h₁.1, ← h₁.2, hn.1, hn.2]
    subst hgraph
    refine ⟨hc.claimable, fun k hk => ?_⟩
    have hready := hc.ready
    simp only [Graphs.ready, Bool.and_eq_true, List.all_eq_true, Option.any_eq_true] at hready
    obtain ⟨d, hd, hsat⟩ := hready.2 k hk
    exact ⟨d, Records.mem_of_find hd, Records.key_of_find hd, hsat⟩

/-- The graph `k`, if it may not be claimed any more, is the one of the root `root`. -/
def Closed (h : Host) (k : GraphId) (root : TaskKey) : Prop :=
  ∃ g ∈ h.db.graphs, g.id = k ∧ (g.owner, g.root) = root ∧ g.state.claimable = false

theorem closed_step {root : TaskKey} (hw : h.Wf) (hr : h.Rooted) (hc : h.Closed k root)
    (hs : lts.step h a h') : h'.Closed k root := by
  obtain ⟨g, hg, hid, hroot, hclosed⟩ := hc
  obtain ⟨moved, hrew, hnew⟩ := (frames hw hr.ids hs).graphs
  obtain ⟨g', hg', hm⟩ := hrew.new hg
  refine ⟨g', ?_, hm.id.trans hid, by rw [hm.owner, hm.root, hroot], ?_⟩
  · rcases hnew with heq | ⟨x, heq, -⟩
    · rw [heq]
      exact hg'
    · rw [heq]
      exact List.mem_append_left _ hg'
  · exact Bool.eq_false_iff.2 fun hbad => by rw [hm.claimable hbad] at hclosed; cases hclosed

/-- The nodes of a closed graph are not claimed. -/
theorem claims_of_closed {root : TaskKey} (hw : h.Wf) (hr : h.Rooted) (hc : h.Closed k root)
    (hs : lts.step h a h') {n' : Node} (hn' : n' ∈ h'.db.nodes) (hroot : n'.rootKey = root) :
    h'.claims n'.id = h.claims n'.id := by
  obtain ⟨g, hg, -, hgroot, hclosed⟩ := hc
  rcases claims_step hw hs with hsame | ⟨n₀, hn₀, -, hstart, hone⟩
  · exact hsame _
  rw [hone]
  by_cases hid : n₀.id = n'.id
  · exfalso
    rcases old_row hw hs hn' with ⟨n, hn, hm⟩ | hadd
    · obtain rfl := List.inj_on_of_nodup_map hw.ids hn₀ hn (hid.trans hm.id)
      have ho : n'.owner = n₀.owner := show n'.fixed.owner = n₀.fixed.owner by rw [hm.fixed]
      have hro : n'.root = n₀.root := show n'.fixed.root = n₀.fixed.root by rw [hm.fixed]
      have hhas : Graphs.hasNode g n₀ = true := by
        rw [Node.rootKey, ho, hro, ← hgroot, Prod.mk.injEq] at hroot
        simp [Graphs.hasNode, hroot.1, hroot.2]
      rw [(starts_of_hasNode hr hg hhas hstart).1] at hclosed
      cases hclosed
    · exact hadd.fresh n₀ hn₀ hid
  · rw [if_neg hid, Nat.add_zero]

/-- A run claims no node of a closed graph. -/
theorem claims_of_run {root : TaskKey} {as : List Act} (hw : h.Wf) (hr : h.Rooted)
    (hc : h.Closed k root) (hrun : lts.Run h as h') :
    ∀ n ∈ h'.db.nodes, n.rootKey = root → h'.claims n.id = h.claims n.id := by
  have hinv := hrun.preserves (P := fun m => (m.Wf ∧ m.Rooted ∧ m.Closed k root) ∧
      (∀ c, h.claims c ≤ m.claims c) ∧
      ∀ n ∈ m.db.nodes, n.rootKey = root → m.claims n.id = h.claims n.id)
    (fun m a m' ⟨⟨hw, hr, hc⟩, hle, hsame⟩ hs => by
      have hle' : ∀ c, m.claims c ≤ m'.claims c := by
        intro c
        rcases claims_step hw hs with heq | ⟨n, -, -, -, heq⟩ <;> rw [heq]
        exact Nat.le_add_right ..
      refine ⟨⟨wf_step hw hs, rooted_step hw hr hs, closed_step hw hr hc hs⟩,
        fun c => (hle c).trans (hle' c), fun n' hn' hroot => ?_⟩
      rw [claims_of_closed hw hr hc hs hn' hroot]
      rcases old_row hw hs hn' with ⟨n, hn, hm⟩ | hadd
      · have hkey : n'.rootKey = n.rootKey := by
          show n'.fixed.rootKey = n.fixed.rootKey
          rw [hm.fixed]
        rw [hm.id]
        exact hsame n hn (hkey ▸ hroot)
      · have hzero := claims_eq_zero hw hadd.fresh
        have := hle n'.id
        omega)
    ⟨⟨hw, hr, hc⟩, fun _ => le_rfl, fun _ _ _ => rfl⟩
  exact hinv.2.2

/-- A committed `stop` closes the graph. -/
theorem closed_of_stop {reason : StopReason} {t : Time} {root : TaskKey} (hr : h.Rooted)
    (hg : g ∈ h.db.graphs) (hroot : (g.owner, g.root) = root)
    (hs : lts.step h (.stop g.id reason t) h') : h'.Closed g.id root := by
  obtain ⟨T, -, -, -, rfl⟩ := hs
  have hfind : h.db.graph g.id = some g := Records.find_of_mem hr.ids hg
  obtain ⟨db', hok⟩ : ∃ db', Graphs.stop g.id reason t h.db = .ok (db', ()) := by
    rw [Graphs.stop, Graphs.get, hfind]
    simp only [require, bind, Except.bind]
    split_ifs <;> exact ⟨_, rfl⟩
  have hattempt : (Act.stop g.id reason t).attempt h.uuids h.db = .ok (db', []) := by
    simp [Act.attempt, hok, bind, Except.bind, pure, Except.pure]
  have hdb : (h.after (.stop g.id reason t) T).db = db' := Act.perform_of_ok hattempt
  rw [Closed, hdb]
  obtain ⟨graph, hgraph, hcases⟩ := Graphs.stop_ok hok
  obtain rfl : g = graph := Option.some.inj (hfind.symm.trans hgraph)
  obtain ⟨hterm, rfl | rfl⟩ | ⟨-, rfl⟩ := hcases
  · exact ⟨g, hg, rfl, hroot, GraphState.not_claimable_of_terminal hterm⟩
  · refine ⟨_, List.mem_map_of_mem hg, ?_⟩
    rw [if_pos rfl]
    exact ⟨rfl, hroot, GraphState.not_claimable_of_terminal hterm⟩
  · refine ⟨_, List.mem_map_of_mem hg, ?_⟩
    rw [if_pos rfl]
    exact ⟨rfl, hroot, rfl⟩

/-- A graph becomes completed only when its nodes have succeeded. -/
theorem completed_step (hw : h.Wf) (hr : h.Rooted) (hs : lts.step h a h') (hg : g ∈ h.db.graphs)
    (hg' : g' ∈ h'.db.graphs) (hid : g'.id = g.id) (hold : g.state ≠ .completed)
    (hnew : g'.state = .completed) : ∀ n ∈ Graphs.nodes g' h'.db, n.state.success = true := by
  have hf := frames hw hr.ids hs
  obtain ⟨moved, hrew, hgraphs⟩ := hf.graphs
  obtain ⟨g₁, hg₁, hm⟩ := hrew.new hg
  have hmem : g₁ ∈ h'.db.graphs := by
    rcases hgraphs with heq | ⟨x, heq, -⟩
    · exact heq ▸ hg₁
    · exact heq ▸ List.mem_append_left _ hg₁
  obtain rfl := List.inj_on_of_nodup_map (graphs_step hr hf).1 hg' hmem (hid.trans hm.id.symm)
  have hall := (hm.completed hnew).resolve_left hold
  rw [Graphs.nodes, hm.owner, hm.root]
  exact hall

/-- What the execution of graphs keeps. -/
structure Executes (h : Host) : Prop where
  /-- a node is claimed at most once -/
  once : ∀ g ∈ h.db.graphs, ∀ n ∈ Graphs.nodes g h.db, h.claims n.id ≤ 1
  /-- when it is claimed, its dependencies have succeeded, or wait for the review that it is -/
  dependencies : ∀ a h', lts.step h a h' → ∀ g ∈ h.db.graphs, ∀ n,
    .worker n ∈ a.yields h.uuids h.db → Graphs.hasNode g n = true → ∀ k ∈ n.dependencies,
      ∃ d ∈ Graphs.nodes g h.db, d.id = k ∧
        (d.state.success = true ∨ n.reviewOf = some d.id ∧ d.state = .reviewPending)
  /-- after `stop` has committed, no node is claimed -/
  stopped : ∀ g ∈ h.db.graphs, ∀ reason t h', lts.step h (.stop g.id reason t) h' →
    ∀ as h'', lts.Run h' as h'' → ∀ n ∈ Graphs.nodes g h''.db, h''.claims n.id = h'.claims n.id
  /-- a graph becomes completed only if all of its nodes have succeeded -/
  completed : ∀ a h', lts.step h a h' → ∀ g ∈ h.db.graphs, ∀ g' ∈ h'.db.graphs, g'.id = g.id →
    g.state ≠ .completed → g'.state = .completed →
      ∀ n ∈ Graphs.nodes g' h'.db, n.state.success = true

/-- **Every node of a graph is claimed at most once**, behind dependencies that have succeeded and
never after a stop; and a graph is completed only by the success of its nodes. -/
theorem graph_claims (hr : lts.Reachable Initial h) : h.Executes := by
  obtain ⟨hw, hroot⟩ := rooted hr
  have hnodes : ∀ {g : Graph} {db : Db} {n : Node}, n ∈ Graphs.nodes g db →
      n ∈ db.nodes ∧ Graphs.hasNode g n = true := fun hn => List.mem_filter.1 hn
  refine ⟨fun g hg n hn => ?_, fun a h' hs g hg n hn hhas k hk => ?_,
    fun g hg reason t h' hs as h'' hrun n hn => ?_, fun a h' hs g hg g' hg' hid hold hnew =>
      completed_step hw hroot hs hg hg' hid hold hnew⟩
  · obtain ⟨hmem, hhas⟩ := hnodes hn
    exact (hroot.once n hmem (native_of_hasNode hroot hg hhas)).1
  · rcases yields_claim hw hs with hnone | ⟨m, -, token, t, heq, hstart⟩
    · exact absurd hn (hnone n)
    rw [heq, List.mem_singleton] at hn
    cases hn
    have hhas' : Graphs.hasNode g m = true := hhas
    obtain ⟨d, hd, hdk, hsat⟩ := (starts_of_hasNode hroot hg hhas' hstart).2 k hk
    refine ⟨d, hd, hdk, ?_⟩
    simpa [satisfied, claimed] using hsat
  · obtain ⟨hmem, hhas⟩ := hnodes hn
    refine claims_of_run (wf_step hw hs) (rooted_step hw hroot hs)
      (closed_of_stop hroot hg rfl hs) hrun n hmem ?_
    simpa [Graphs.hasNode, Node.rootKey] using hhas

/-- The node of a graph is claimed, and later the graph stopped. -/
theorem graph_claims_sample :
    let h := Sample.host.script (Sample.began { backend := some .temporal } ++
      [fun _ => (.graphClaim { backend := some .temporal } 10 9 7 1, 1),
        fun _ => (.stop 10 .cancelled 2, 2)])
    h.claims 9 = 1 ∧ h.Executes := by
  intro h
  exact ⟨by decide,
    graph_claims (.run (.of_init Sample.host_initial) (run_script (by decide)))⟩

end Host

end Coordinator

end PythonAI
