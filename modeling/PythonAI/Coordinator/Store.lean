import Mathlib.Data.List.Sort
import PythonAI.Budgets.Store
import PythonAI.Coordinator.Types
import PythonAI.Tasks.Store

/-!
# `Coordinator`: the operations on agent nodes

A node is inserted `queued`, claimed by a worker under a lease, and published with its result; a
verified result of a coder waits for the reviewer that `ensure_review` inserts.  `recover` moves the
nodes whose worker is lost, `cancel` stops a node with its descendants and reviewers, and `fail`
ends a worker without a result.

A transaction that goes over several nodes reads the clock at each of them: `clock k` is what it
reads at the node `k`.
-/

namespace PythonAI

open Library Budgets

namespace Coordinator

/-- What an operation finds outside of the database. -/
structure Env where
  /-- `capacity` finds room -/
  room : Bool := true
  /-- the serialized value is within the limit of the operation -/
  fits : Bool := true
  /-- `AGENT_SUBAGENT_TIMEOUT_SECONDS`, if it is a number -/
  seconds : Option Time := some 120
  /-- `AGENT_COORDINATOR_BACKEND`, if it is known -/
  backend : Option Backend := some .sqlite
  /-- `new_backend(owner,'temporal') == 'temporal'` -/
  admission : Owner → Bool := fun _ => true
  /-- `current_role()` -/
  role : String := "admin"
  /-- `Settings.load()` and the queue of the host -/
  place : Place := ⟨"", "", ""⟩
  /-- the context belongs to an agent -/
  delegated : Bool := false
  allowedTools : Option (List String) := none
  /-- `validate_budget_contract` accepts the contract, and it fits into 64 KiB -/
  contract : Bool := true
  /-- the owner is active, and its role, source and workspace still authorize the graph -/
  authority : Graph → Bool := fun _ => true

/-- The duration of the lease of a node. -/
def leaseTerm : Time := 90

/-- `capacity`. -/
def capacity (env : Env) : Except Error Unit :=
  ensure env.room (.value "Agent logical storage exceeds 64 MiB")

/-- `event`. -/
def event (env : Env) (n : Node) (name : String) (db : Db) : Except Error Db := do
  capacity env
  pure { db with events := db.events ++ [⟨n.id, n.owner, name⟩] }

/-- The task of a node. -/
def Db.child (db : Db) (n : Node) : Option TaskRow := db.tasks.tasks n.taskKey

/-- The state of the task that the agents of a node's root work for. -/
def Db.rootState (db : Db) (n : Node) : Option TaskState :=
  (db.tasks.tasks n.budgetKey).map (·.state)

/-- The root task has stopped, or is missing. -/
def stoppedRoot : Option TaskState → Bool
  | none | some .cancelled | some .failed => true
  | _ => false

/-! ### `insert` -/

/-- The arguments of `insert`. -/
structure NodeSpec where
  owner : Owner
  root : TaskId
  parent : Option NodeId
  persona : Persona
  goal : String
  dependencies : List NodeId
  payload : Payload
  reviewOf : Option NodeId := none
  deriving DecidableEq, Repr

/-- The nodes of a root. -/
def Db.nodesOf (db : Db) (owner : Owner) (root : TaskId) : List Node :=
  db.nodes.filter fun n => n.owner = owner && n.root = root

/-- The graph of a root. -/
def Db.graphOf (db : Db) (owner : Owner) (root : TaskId) : Option Graph :=
  db.graphs.find? fun g => g.owner = owner && g.root = root

/-- `budget.contract()`. -/
def contractOf (env : Env) (k : TaskKey) (db : Db) : Except Error Contract := do
  let row ← require (db.budgets.budgets k) (.type "'NoneType' object is not iterable")
  ensure env.contract (.value "Invalid root budget contract")
  pure ⟨row.deadline, row.limits⟩

/-- The first lines of `pin`: the backend of the root, which an earlier node has fixed. -/
def pinBackend (env : Env) (owner : Owner) (root : TaskId) (db : Db) :
    Except Error (Db × Backend) :=
  match db.backends (owner, root) with
  | some backend => .ok (db, backend)
  | none => do
    let backend ← if (db.nodesOf owner root).isEmpty then
        require env.backend (.value "Unknown coordinator backend")
      else pure .sqlite
    pure ({ db with backends := db.backends.set (owner, root) backend }, backend)

/-- The graph of a root, for a further node. -/
def joinGraph (env : Env) (b : TaskBudget) (g : Graph) (review : Bool) (db : Db) :
    Except Error Unit := do
  let contract ← contractOf env b.key db
  ensure (g.contract = contract) (.permission "DAG root budget contract changed")
  ensure (g.place = env.place) (.permission "DAG host configuration changed")
  ensure (!(g.state.terminal || g.state = .cancelling || (g.isSealed && !review)))
    (.permission "DAG admission is closed; use a new root task")

/-- The sources in `{'local','api','websocket','communication'}`. -/
def trustedSource (source : String) : Bool :=
  source = "local" || source = "api" || source = "websocket" || source = "communication"

/-- The graph that the first node of a root creates. -/
def newGraph (env : Env) (b : TaskBudget) (spec : NodeSpec) (key : NodeId) (g : GraphId) (t : Time)
    (db : Db) : Except Error Graph := do
  ensure (!env.delegated) (.permission "A delegated context cannot create a DAG root")
  ensure (trustedSource spec.payload.source) (.permission "Untrusted DAG source")
  ensure (!(spec.payload.identity = "local" && spec.payload.source ≠ "local"))
    (.permission "Invalid local DAG identity")
  ensure (db.graphs.length < 1000) (.value "DAG capacity reached")
  let contract ← contractOf env b.key db
  ensure (t < contract.deadline && contract.deadline ≤ t + 3600)
    (.value "DAG root requires a remaining deadline within one hour")
  ensure (db.graph g).isNone (.integrity "temporal_agent_graphs.id")
  pure {
    id := g, owner := spec.owner, root := spec.root, anchor := key, contract := contract,
    place := env.place }

/-- `pin`: the node joins the graph of its root, or creates it. -/
def pin (env : Env) (b : TaskBudget) (spec : NodeSpec) (key : NodeId) (g : GraphId) (t : Time)
    (db : Db) : Except Error (Db × Payload) := do
  let (db, backend) ← pinBackend env spec.owner spec.root db
  if backend = .sqlite then pure (db, spec.payload)
  else
    ensure (env.admission spec.owner) (.permission "DAG owner is outside the Temporal trial")
    ensure (env.role = "admin" && spec.payload.role = "admin")
      (.permission "Temporal DAG requires explicit admin authority")
    ensure (spec.payload.budgetOwner = spec.owner && spec.payload.budgetRoot = spec.root)
      (.permission "DAG must retain the original root budget")
    let old := db.graphOf spec.owner spec.root
    match old with
    | some g => joinGraph env b g spec.reviewOf.isSome db
    | none => pure ()
    ensure ((db.nodesOf spec.owner spec.root).length < 128)
      (.value "DAG is limited to 128 nodes including Reviewers")
    let (db, id) ← match old with
      | some g => pure (db, g.id)
      | none => do
        let new ← newGraph env b spec key g t db
        pure ({ db with graphs := db.graphs ++ [new] }, new.id)
    let tools := if spec.reviewOf.isSome then spec.payload.parentTools else env.allowedTools
    pure (db, { spec.payload with temporalGraph := some id, parentTools := tools })

/-- The node that `insert` adds. -/
def newNode (spec : NodeSpec) (payload : Payload) (key : NodeId) (deadline t : Time) : Node :=
  { id := key, owner := spec.owner, root := spec.root, parent := spec.parent,
    persona := spec.persona, goal := spec.goal, dependencies := spec.dependencies,
    payload := payload, state := .queued, reviewOf := spec.reviewOf, deadline := deadline,
    updated := t }

/-- `insert`, after `budget.check()`: the budget is tested at `t₁`, and the deadline of the node
computed at `t₂`. -/
def insert (env : Env) (b : TaskBudget) (spec : NodeSpec) (key : NodeId) (g : GraphId)
    (t₁ t₂ : Time) (db : Db) : Except Error (Db × NodeId) := do
  let seconds ← require env.seconds (.value "could not convert string to float")
  ensure (0 < seconds && seconds ≤ 600) (.value "Subagent timeout must be 1..600 seconds")
  match spec.reviewOf.bind fun k => db.nodes.find? (·.reviewOf = some k) with
  | some old => pure (db, old.id)
  | none =>
    ensure (db.nodes.length < 10000) (.value "Agent storage capacity reached")
    capacity env
    let row ← require (db.budgets.budgets b.key) (.type "'NoneType' object is not subscriptable")
    b.admits row (b.limits.depth < spec.payload.depth) t₁
    let (db, payload) ← pin env b spec key g t₁ db
    ensure (db.node key).isNone (.integrity "agent_nodes.id")
    let node := newNode spec payload key (min row.deadline (t₂ + seconds)) t₂
    let db ← event env node "submitted" { db with
      budgets := TaskBudget.addChild b.key db.budgets
      nodes := db.nodes ++ [node] }
    pure (db, key)

/-! ### `recover` and `claim` -/

/-- The state of a `running` node whose lease has expired. -/
def lostState (child : Option TaskRow) (n : Node) : NodeState :=
  match child with
  | some row =>
    if row.phase.started then .needsResolution
    else match row.state with
      | .suspended => .needsInput
      | .failed => .failed
      | .cancelled => .cancelled
      | _ => if 3 ≤ n.attempts then .failed else .queued
  | none => if 3 ≤ n.attempts then .failed else .queued

/-- The state `recover` moves the node to at time `t`, if it moves it. -/
def recovered (db : Db) (t : Time) (n : Node) : Option NodeState :=
  let stop := stoppedRoot (db.rootState n) || n.deadline ≤ t
  if db.native n then none
  else match n.state with
    | .merging => if n.live t then none else some .needsResolution
    | .queued =>
      if stop then
        some (if n.live t then .cancelRequested else if n.deadline ≤ t then .timedOut else .cancelled)
      else none
    | .cancelRequested =>
      some (if n.live t then .cancelRequested else if n.deadline ≤ t then .timedOut else .cancelled)
    | .running =>
      if stop then
        some (if n.live t then .cancelRequested else if n.deadline ≤ t then .timedOut else .cancelled)
      else if n.live t then none
      else some (lostState (db.child n) n)
    | _ => none

/-- `fence_child`. -/
def fenceChild (n : Node) (tasks : TaskDb) : TaskDb :=
  { tasks with
    tasks := tasks.tasks.update n.taskKey (fun row => row.state = .running && !row.phase.started)
      fun row => { row.release with
        state := .pending, reply := some "Coordinator recovered a stopped worker" } }

/-- The node as `recover` leaves it. -/
def recoverNode (db : Db) (clock : NodeId → Time) (n : Node) : Node :=
  match recovered db (clock n.id) n with
  | some state => { n with state := state, updated := clock n.id }
  | none => n

/-- The states of a reviewer that will not publish. -/
def NodeState.refuses : NodeState → Bool
  | failed | rejected | cancelled | timedOut | needsInput | needsResolution => true
  | _ => false

/-- The coder whose reviewer has stopped. -/
def rejectNode (nodes : List Node) (t : Time) (n : Node) : Node :=
  if n.state = .reviewPending ∧
      nodes.any (fun r => r.reviewOf = some n.id && r.state.refuses) = true then
    { n with state := .rejected, updated := t }
  else n

/-- `recover`; its last statement is executed at `t`. -/
def recover (env : Env) (clock : NodeId → Time) (t : Time) (db : Db) : Except Error (Db × Unit) := do
  let moved := db.nodes.filter fun n => (recovered db (clock n.id) n).isSome
  ensure (moved.isEmpty || env.room) (.value "Agent logical storage exceeds 64 MiB")
  let requeued := db.nodes.filter fun n =>
    n.state = .running && recovered db (clock n.id) n = some .queued
  let nodes := db.nodes.map (recoverNode db clock)
  pure ({ db with
      tasks := requeued.foldl (fun tasks n => fenceChild n tasks) db.tasks
      nodes := nodes.map (rejectNode nodes t)
      events := db.events ++ moved.map fun n => ⟨n.id, n.owner, "recovery"⟩ }, ())

/-- The rows of the dependencies of a node. -/
def Db.dependencies (db : Db) (n : Node) : List Node :=
  n.dependencies.filterMap fun k => (db.node k).filter (·.owner = n.owner)

/-- The dependency has succeeded, or waits for the review that `n` is. -/
def satisfied (n d : Node) : Bool :=
  d.state.success || (n.reviewOf = some d.id && d.state = .reviewPending)

/-- The number of workers at time `t`. -/
def Db.workers (db : Db) (t : Time) : ℕ :=
  db.nodes.countP fun n => (n.state = .running || n.state = .cancelRequested) && n.live t

/-- What `claim` does with a queued node. -/
inductive Choice
  | skip | fail | claim
  deriving DecidableEq, Repr

/-- `claim`, at the queued node `n`. -/
def choice (db : Db) (t : Time) (n : Node) : Choice :=
  if (db.child n).any (·.leased t) then .skip
  else if n.payload.concurrency ≤ db.workers t then .skip
  else if (db.dependencies n).any (·.state.stopped) then .fail
  else if (db.dependencies n).length ≠ n.dependencies.length then .skip
  else if (db.dependencies n).all (satisfied n) then .claim
  else .skip

/-- The node under a new lease. -/
def claimed (token : Token) (t : Time) (n : Node) : Node :=
  { n with
    state := .running
    lease := some token
    expires := some (t + leaseTerm)
    attempts := n.attempts + 1
    updated := t }

/-- The loop of `claim` over the queued nodes. -/
def claimFrom (env : Env) (clock : NodeId → Time) (token : Token) :
    List Node → Db → Except Error (Db × Option Node)
  | [], db => .ok (db, none)
  | n :: rest, db =>
    match choice db (clock n.id) n with
    | .skip => claimFrom env clock token rest db
    | .fail =>
      claimFrom env clock token rest
        (db.updateNodes (·.id = n.id) fun n => { n with state := .failed })
    | .claim => do
      let db ← event env n "claimed" (db.updateNodes (·.id = n.id) (claimed token (clock n.id)))
      pure (db, some (claimed token (clock n.id) n))

/-- The queued nodes that `claim` looks at, the oldest first. -/
def Db.queue (db : Db) : List Node :=
  ((db.nodes.filter fun n => n.state = .queued && !db.native n).insertionSort
    fun a b => a.updated ≤ b.updated).take 128

/-- `claim`, after `recover`. -/
def claim (env : Env) (clock : NodeId → Time) (token : Token) (db : Db) :
    Except Error (Db × Option Node) :=
  claimFrom env clock token db.queue db

/-! ### The worker of a node -/

/-- `lease = ?`; no lease is equal to `NULL`. -/
def Node.holds (row n : Node) : Bool := n.lease.isSome && row.lease = n.lease

/-- The row that `renew` extends. -/
def renewable (n : Node) (t : Time) (row : Node) : Bool :=
  row.id = n.id && row.holds n && row.state = .running && row.live t

/-- `renew`: the new end of the lease is computed at `t₁`, the old one tested with `t₂`. -/
def renew (n : Node) (t₁ t₂ : Time) (db : Db) : Db × Bool :=
  (db.updateNodes (renewable n t₂) fun row => { row with expires := some (t₁ + leaseTerm) },
    db.nodes.any (renewable n t₂))

/-- The result passes: it is verified and successful. -/
def Result.passed (r : Result) : Bool := r.verified && r.success

/-- `verified`, in `publish`. -/
def verified (n : Node) (r : Result) : Bool :=
  r.passed && !(n.persona = .reviewer && n.payload.temporalGraph.isSome && !r.review.any (·.valid))

/-- The review approves without findings. -/
def Result.approves (r : Result) : Bool :=
  r.review.any fun v => v.approve && v.findings = some []

/-- The state of a node with a result. -/
def publishState (n : Node) (r : Result) : NodeState :=
  if n.persona = .reviewer ∧ verified n r = true ∧ r.approves = true then .completed
  else if n.persona = .coder ∧ verified n r = true then .reviewPending
  else if n.persona = .planner ∧ r.success = true then .completed
  else if n.persona = .reviewer then .rejected
  else .needsInput

/-- The row with its result. -/
def published (n : Node) (r : Result) (t : Time) (row : Node) : Node :=
  { row with
    state := publishState n r
    result := some r
    lease := none
    expires := none
    updated := t }

/-- The coder with the outcome of its review. -/
def judged (state : NodeState) (reviewer : NodeId) (t : Time) (row : Node) : Node :=
  { row with state := state, reviewedBy := some reviewer, updated := t }

/-- `UPDATE agent_nodes SET state=?,reviewed_by=? WHERE id=? AND state='review_pending'`. -/
def judge (n : Node) (state : NodeState) (t : Time) (db : Db) : Db :=
  match n.reviewOf with
  | none => db
  | some k =>
    db.updateNodes (fun row => row.id = k && row.state = .reviewPending) (judged state n.id t)

/-- `publish`: the deadline is tested at `t₁`, the lease at `t₂`. -/
def publish (env : Env) (n : Node) (r : Result) (t₁ t₂ : Time) (db : Db) :
    Except Error (Db × NodeState) := do
  ensure env.fits (.value "Invalid agent result")
  ensure (!(stoppedRoot (db.rootState n) || n.deadline ≤ t₁))
    (.runtime "Parent task stopped or agent deadline expired")
  capacity env
  ensure (db.nodes.any (renewable n t₂)) (.runtime "Agent lease lost")
  let db ← event env n "finished" (db.updateNodes (renewable n t₂) (published n r t₂))
  let state := publishState n r
  pure (judge n (if state = .completed then .reviewed else .rejected) t₂ db, state)

/-- `UPDATE tasks SET state='uncertain' …`, of the task of a node. -/
def markChild (n : Node) (tasks : TaskDb) : TaskDb :=
  { tasks with
    tasks := tasks.tasks.update n.taskKey (fun row => row.state = .running && row.phase.started)
      fun row => { row.release with state := .uncertain } }

/-- The states with which a worker or its supervisor calls `fail`. -/
def NodeState.reported : NodeState → Bool
  | queued | needsInput | needsResolution | timedOut | cancelled | failed | rejected => true
  | _ => false

/-- The node that a worker has ended without a result. -/
def released (state : NodeState) (t : Time) (row : Node) : Node :=
  { row with state := state, lease := none, expires := none, updated := t }

/-- `fail`, at time `t`. -/
def fail (env : Env) (n : Node) (state : NodeState) (t : Time) (db : Db) :
    Except Error (Db × Unit) :=
  match db.nodes.find? fun row => row.id = n.id && row.holds n with
  | none => .ok (db, ())
  | some row =>
    if row.state = .running ∨ row.state = .cancelRequested then do
      let state := if row.state = .cancelRequested then .cancelled else state
      let tasks := if state = .queued then fenceChild n db.tasks
        else if state = .needsResolution then markChild n db.tasks
        else db.tasks
      let db := { db with tasks := tasks }.updateNodes (fun row => row.id = n.id && row.holds n)
        (released state t)
      let db ← event env n "worker_stopped" db
      pure (if state.stopped then judge n .rejected t db else db, ())
    else .ok (db, ())

/-! ### `ensure_review` -/

/-- `ensure_review` goes on: the result waits, and no reviewer exists. -/
def unreviewed (n : Node) (db : Db) : Bool :=
  n.state = .reviewPending && !db.nodes.any (·.reviewOf = some n.id)

/-- The reviewer of the node. -/
def reviewSpec (n : Node) : NodeSpec where
  owner := n.owner
  root := n.root
  parent := n.parent
  persona := .reviewer
  goal := "Evaluate the supplied result and return review JSON."
  dependencies := [n.id]
  payload := { n.payload with snapshot := ((n.result.map (·.commit)).getD "") }
  reviewOf := some n.id

/-- The handler of `ensure_review`: no reviewer could be inserted. -/
def unreviewable (n : Node) (db : Db) : Db :=
  db.updateNodes (fun row => row.id = n.id && row.state = .reviewPending)
    fun row => { row with state := .needsInput }

/-! ### `cancel` -/

/-- The children and reviewers of the nodes `selected`. -/
def relatives (rows : List Node) (selected : List NodeId) : List NodeId :=
  (rows.filter fun n => !(n.id ∈ selected) &&
    (n.parent.any (· ∈ selected) || n.reviewOf.any (· ∈ selected))).map (·.id)

/-- The loop of `cancel`: it ends when no row is added. -/
def select (rows : List Node) : ℕ → List NodeId → List NodeId
  | 0, selected => selected
  | fuel + 1, selected =>
    match relatives rows selected with
    | [] => selected
    | extra => select rows fuel (selected ++ extra)

/-- The nodes that `cancel` stops; each turn of the loop adds a row. -/
def closure (db : Db) (owner : Owner) (key : NodeId) : List NodeId :=
  select (db.nodes.filter (·.owner = owner)) db.nodes.length [key]

/-- The node as `cancel` leaves it. -/
def cancelNode (t : Time) (n : Node) : Node :=
  if n.state = .merged then n
  else
    { n with
      state := if n.lease.isSome && n.live t then .cancelRequested else .cancelled
      updated := t }

/-- `cancel`: the nodes it selects. -/
def cancel (env : Env) (owner : Owner) (key : NodeId) (clock : NodeId → Time) (db : Db) :
    Except Error (Db × List NodeId) := do
  let _ ← require ((db.node key).filter (·.owner = owner)) (.missing "agent_nodes")
  let selected := closure db owner key
  let stopped := db.nodes.filter fun n => n.id ∈ selected && n.state ≠ .merged
  ensure (stopped.isEmpty || env.room) (.value "Agent logical storage exceeds 64 MiB")
  pure ({ db with
      nodes := db.nodes.map fun n => if n.id ∈ selected then cancelNode (clock n.id) n else n
      events := db.events ++ stopped.map fun n => ⟨n.id, n.owner, "cancelled"⟩ }, selected)

end Coordinator

end PythonAI
