import PythonAI.Coordinator.Store

/-!
# `Graphs`: the graphs that Temporal executes

The nodes of a root with the backend `temporal` form a graph.  `claim` starts a node once and
records it in the table of runs; the worker publishes through the coordinator.  A workflow asks
`snapshot` what to start, and `node_stopped` fences the node of an activity whose result is lost.
`reap` does so for processes that are gone.
-/

namespace PythonAI

open Library Budgets

namespace Coordinator

namespace Graphs

/-- `get`. -/
def get (g : GraphId) (db : Db) : Except Error Graph := require (db.graph g) (.missing "DAG not found")

/-- `contract`. -/
def contract (g : Graph) (db : Db) : Except Error Contract := do
  let row ← require (db.budgets.budgets (g.owner, g.root))
    (.permission "DAG root budget disappeared")
  ensure (g.contract = ⟨row.deadline, row.limits⟩) (.permission "DAG root budget contract changed")
  pure g.contract

/-- `authority`. -/
def authority (env : Env) (g : Graph) (admission : Bool) (db : Db) : Except Error Payload := do
  ensure (g.place = env.place) (.permission "DAG host configuration changed")
  let anchor ← require ((db.node g.anchor).filter (·.owner = g.owner)) (.missing "agent_nodes")
  ensure (anchor.payload.temporalGraph = some g.id && anchor.payload.role = "admin")
    (.permission "DAG anchor authority changed")
  ensure (env.authority g) (.permission "DAG owner or budget binding changed")
  ensure (!admission || env.admission g.owner) (.permission "DAG trial admission closed")
  pure anchor.payload

/-- `nodes`, without their order. -/
def nodes (g : Graph) (db : Db) : List Node := db.nodesOf g.owner g.root

/-- The node is one of the graph. -/
def hasNode (g : Graph) (n : Node) : Bool := n.owner = g.owner && n.root = g.root

/-- `ready`. -/
def ready (n : Node) (nodes : List Node) : Bool :=
  n.state = .queued && n.dependencies.all fun k =>
    (Records.find Node.id k nodes).any (satisfied n)

/-- `UPDATE temporal_agent_graphs SET … WHERE id=?`. -/
def update (g : GraphId) (f : Graph → Graph) (db : Db) : Db :=
  { db with graphs := db.graphs.map fun x => if x.id = g then f x else x }

/-- The node of a graph that is stopped. -/
def stopNode (t : Time) (n : Node) : Node :=
  if n.state = .queued ∨ n.state = .running ∨ n.state = .reviewPending ∨ n.state = .merging then
    { n with state := if n.lease.isSome then .cancelRequested else .cancelled, updated := t }
  else n

/-- `stop`, at time `t`. -/
def stop (g : GraphId) (reason : StopReason) (t : Time) (db : Db) : Except Error (Db × Unit) := do
  let graph ← get g db
  if graph.state.terminal then
    if graph.state = .completed then
      pure (update g (fun x => { x with stopReason := some reason, isSealed := true }) db, ())
    else pure (db, ())
  else
    let db := update g
      (fun x => { x with isSealed := true, state := .cancelling, stopReason := some reason }) db
    pure (db.updateNodes (hasNode graph) (stopNode t), ())

/-- `seal`, by an operator. -/
def sealGraph (g : GraphId) (db : Db) : Except Error (Db × Unit) := do
  let _ ← get g db
  pure (update g (fun x => { x with isSealed := true }) db, ())

/-! ### `snapshot` -/

/-- The first transaction of `snapshot`, at time `t`, for a graph that has not ended: the state of
the root task, and the reason to call `stop`, if there is one. -/
def probe (env : Env) (g : GraphId) (t : Time) (db : Db) :
    Except Error (Option (Option TaskState × Option StopReason)) := do
  let graph ← get g db
  if graph.state.terminal then pure none
  else
    let root := (db.tasks.tasks (graph.owner, graph.root)).map (·.state)
    let expired := match authority env graph true db, contract graph db with
      | .ok _, .ok c => decide (c.deadline ≤ t)
      | _, _ => true
    let reason := if stoppedRoot root || expired then
        some (if root = some .cancelled then StopReason.cancelled else .needsInput)
      else none
    pure (some (root, reason))

/-- A dependency of the queued node has stopped or is missing. -/
def stuck (n : Node) (nodes : List Node) : Bool :=
  n.state = .queued && n.dependencies.any fun k =>
    (Records.find Node.id k nodes).all (·.state.stopped)

/-- The loop of `snapshot` that fails the nodes which cannot start; it sees what it has failed. -/
def failStuck (g : Graph) (t : Time) : List NodeId → Db → Db
  | [], db => db
  | k :: rest, db =>
    match Records.find Node.id k (nodes g db) with
    | none => failStuck g t rest db
    | some n =>
      if stuck n (nodes g db) then
        failStuck g t rest
          (db.updateNodes (·.id = k) fun n => { n with state := .failed, updated := t })
      else failStuck g t rest db

/-- What `snapshot` returns. -/
structure Status where
  done : Bool
  stop : Bool
  ready : List NodeId
  concurrency : ℕ
  deriving DecidableEq, Repr

/-- The states of a root task in `{'completed','failed','cancelled'}`, and a missing one. -/
def rootEnded (root : Option TaskState) : Bool := root.all (·.terminal)

/-- The nodes in the order of `nodes`. -/
def order (g : Graph) (db : Db) : List NodeId :=
  ((nodes g db).insertionSort fun a b => a.updated < b.updated ∨ a.updated = b.updated ∧ a.id ≤ b.id).map
    (·.id)

/-- The last transaction of `snapshot`, at time `t`: `root` is what the first one has read. -/
def conclude (g : GraphId) (root : Option TaskState) (t : Time) (db : Db) :
    Except Error (Db × Status) := do
  let graph ← get g db
  let db := failStuck graph t (order graph db) db
  let ns := nodes graph db
  let stop := graph.state = .cancelling
  let concurrency := ((ns.map (·.payload.concurrency)).min?).getD 1
  if ns.all (fun n => n.state.success || n.state.stopped) &&
      (stop || graph.isSealed || rootEnded root) then
    let state := match graph.stopReason with
      | some reason => GraphState.ended reason
      | none => if ns.all (·.state.success) then .completed else .ended .needsInput
    pure (update g (fun x => { x with state := state, isSealed := true }) db,
      ⟨true, state ≠ .completed, [], concurrency⟩)
  else
    pure (db, ⟨false, stop,
      if stop then [] else (ns.filter fun n => ready n ns).map (·.id), concurrency⟩)

/-! ### `claim` -/

/-- The payload has the authority of the anchor. -/
def sameAuthority (p anchor : Payload) : Bool :=
  p.source = anchor.source && p.identity = anchor.identity && p.project = anchor.project &&
    p.session = anchor.session && p.role = anchor.role && p.repository = anchor.repository &&
    p.storage = anchor.storage && p.budgetOwner = anchor.budgetOwner &&
    p.budgetRoot = anchor.budgetRoot && p.temporalGraph = anchor.temporalGraph

/-- The child task of a node does not belong to the other backend. -/
def bindable (n : Node) (db : Db) : Except Error Unit :=
  match db.bindings n.taskKey with
  | some backend =>
    ensure (backend = .temporal) (.permission "Legacy child task cannot migrate into this DAG")
  | none =>
    ensure (db.child n).isNone (.permission "Existing child task cannot migrate into this DAG")

/-- `claim`, at time `t`, by the process `p`: the node under its lease, or `none` if it was claimed
before. -/
def claim (env : Env) (g : GraphId) (k : NodeId) (token : Token) (p : Process) (t : Time) (db : Db) :
    Except Error (Db × Option Node) := do
  let graph ← get g db
  let anchor ← authority env graph true db
  let c ← contract graph db
  ensure (graph.state.claimable && t < c.deadline) (.permission "DAG has stopped")
  let n ← require (Records.find Node.id k (nodes graph db))
    (.permission "Node belongs to another DAG")
  if (db.run k).isSome then pure (db, none)
  else
    ensure (ready n (nodes graph db)) (.permission "DAG dependency has not succeeded")
    ensure (t < n.deadline) (.permission "Node deadline expired")
    ensure (sameAuthority n.payload anchor) (.permission "Node authority differs from root")
    ensure (n.payload.depth ≤ c.limits.depth) (.permission "Node depth changed")
    ensure (db.workers t < n.payload.concurrency) (.runtime "Coordinator concurrency is full")
    bindable n db
    let db ← event env n "temporal_claimed" { db.updateNodes (·.id = k) (claimed token t) with
      bindings := db.bindings.set n.taskKey .temporal
      runs := db.runs ++ [⟨k, g, .started, token, p, t⟩] }
    pure (db, some (claimed token t n))

/-! ### The end of a process -/

/-- What `node_stopped` has read: the state it will write, if it writes one. -/
def nodeStopped (g : GraphId) (k : NodeId) (db : Db) : Except Error (Option NodeState) := do
  let graph ← get g db
  let n ← require ((db.node k).filter (·.owner = graph.owner)) (.missing "agent_nodes")
  ensure (n.root = graph.root) (.permission "Node belongs to another DAG")
  let run := (db.run k).isSome
  if n.state = .running ∨ n.state = .cancelRequested ∨ n.state = .queued ∨ n.state = .failed ∧ run then
    pure (some (if run then .needsResolution else .cancelled))
  else pure none

/-- The statements of `node_stopped` that write, at time `t`. -/
def fence (k : NodeId) (state : Option NodeState) (t : Time) (db : Db) : Db :=
  { db with
    nodes := match state with
      | some state =>
        db.nodes.map fun n => if n.id = k then { n with state := state, updated := t } else n
      | none => db.nodes
    runs := db.runs.map fun r =>
      if r.node = k ∧ r.state = .started then { r with state := .uncertain, updated := t } else r }

/-- The node as `process_done` leaves it, if it holds the lease. -/
def doneNode (t : Time) (n : Node) : Node :=
  { n with
    state := if n.state = .cancelRequested then .cancelled
      else if n.state = .running ∨ n.state = .queued then .needsResolution
      else n.state
    lease := none
    expires := none
    updated := if n.state = .running ∨ n.state = .cancelRequested ∨ n.state = .queued then t
      else n.updated }

/-- `process_done`, at time `t`. -/
def processDone (g : GraphId) (n : Node) (t : Time) (db : Db) : Except Error (Db × Unit) := do
  let graph ← get g db
  let row ← require ((db.node n.id).filter (·.owner = graph.owner)) (.missing "agent_nodes")
  ensure (row.root = graph.root) (.permission "Node belongs to another DAG")
  pure ({ db.updateNodes (fun row => row.id = n.id && row.holds n) (doneNode t) with
      runs := db.runs.map fun r =>
        if r.node = n.id ∧ n.lease = some r.lease then { r with state := .completed, updated := t }
        else r }, ())

/-- The last statement of `dispatch`. -/
def dispatched (g : GraphId) (db : Db) : Db :=
  update g (fun x =>
    { x with dispatched := true, state := if x.state = .pending then .running else x.state }) db

/-- What `reap` finds in the process table, and in the tables of processes and operations. -/
structure Processes where
  /-- the process is alive -/
  alive : Process → Bool := fun _ => false
  /-- a process or an operation of the node is alive -/
  live : NodeId → Bool := fun _ => false
  /-- the nodes of the operations whose process is gone -/
  orphans : List NodeId := []

/-- `UPDATE temporal_agent_runs SET … WHERE node_id=?`. -/
def updateRun (k : NodeId) (f : Run → Run) (db : Db) : Db :=
  { db with runs := db.runs.map fun r => if r.node = k then f r else r }

/-- The node whose processes are gone. -/
def abandoned (t : Time) (n : Node) : Node :=
  if n.state = .running ∨ n.state = .cancelRequested then released .needsResolution t n else n

/-- The task of a node whose processes are gone. -/
def abandonedTask (n : Node) (tasks : TaskDb) : TaskDb :=
  if n.state = .running ∨ n.state = .cancelRequested then
    { tasks with
      tasks := tasks.tasks.update n.taskKey
        (fun row => row.state = .running || row.state = .suspended)
        fun row => { row.release with state := .uncertain } }
  else tasks

/-- `reap`, at the run `r`. -/
def reapRun (h : Processes) (t : Time) (r : Run) (db : Db) : Except Error Db :=
  if h.alive r.process then pure (updateRun r.node (fun r => { r with updated := t }) db)
  else if h.live r.node then
    pure (updateRun r.node (fun r => { r with state := .uncertain, updated := t })
      (db.updateNodes (fun n => n.id = r.node && n.state = .running) fun n =>
        { n with state := .cancelRequested, updated := t }))
  else do
    let graph ← get r.graph db
    let n ← require ((db.node r.node).filter (·.owner = graph.owner)) (.missing "agent_nodes")
    pure (updateRun r.node (fun r => { r with state := .completed, updated := t })
      { db.updateNodes (·.id = r.node) (abandoned t) with tasks := abandonedTask n db.tasks })

/-- The loop of `reap` over the runs. -/
def reapFrom (h : Processes) (t : Time) : List Run → Db → Except Error Db
  | [], db => .ok db
  | r :: rest, db => do
    let db ← reapRun h t r db
    reapFrom h t rest db

/-- The runs that `reap` looks at, the oldest first. -/
def openRuns (db : Db) : List Run :=
  ((db.runs.filter fun r => r.state = .started || r.state = .uncertain).insertionSort
    fun a b => a.updated ≤ b.updated).take 32

/-- `reap`, at time `t`. -/
def reap (h : Processes) (t : Time) (db : Db) : Except Error (Db × Unit) := do
  let db ← reapFrom h t (openRuns db) db
  pure (db.updateNodes (fun n => n.id ∈ h.orphans && n.state = .merging) fun n =>
    { n with state := .needsResolution, lease := none, expires := none }, ())

end Graphs

end Coordinator

end PythonAI
