import PythonAI.Budgets.Types

/-!
# The coordinator: the rows of the agent tables

`agent_nodes` holds the agents that a root task has started, `agent_root_backends` which backend
runs the agents of a root.  The agents of a root with the backend `temporal` form a graph
(`temporal_agent_graphs`), and a node of a graph has a row in `temporal_agent_runs` from its claim
on.  The tables of tasks and budgets live in the same database.

JSON columns are records of the fields the modelled functions read or write.
-/

namespace PythonAI

open Library

namespace Coordinator

/-- The key of `agent_nodes`. -/
abbrev NodeId := Token

/-- The key of `temporal_agent_graphs`. -/
abbrev GraphId := Token

/-- `agent_nodes.state`. -/
inductive NodeState
  | queued | running | reviewPending | reviewed | merging | merged | completed | failed | rejected
  | cancelRequested | cancelled | timedOut | needsInput | needsResolution | conflict
  deriving DecidableEq, Repr

namespace NodeState

/-- `SUCCESS`. -/
def success : NodeState → Bool
  | completed | reviewed | merged => true
  | _ => false

/-- `STOPPED`. -/
def stopped : NodeState → Bool
  | failed | rejected | cancelled | timedOut | needsInput | needsResolution | conflict => true
  | _ => false

/-- A worker runs the node, or may. -/
def active : NodeState → Bool
  | queued | running => true
  | _ => false

end NodeState

/-- `PERSONAS`. -/
inductive Persona
  | planner | coder | reviewer
  deriving DecidableEq, Repr

/-- The reply of a reviewer. -/
structure Review where
  /-- `approve is True` -/
  approve : Bool
  /-- `findings`, if it is a list -/
  findings : Option (List String)
  /-- `review_result` accepts the reply: it has no other key, and no malformed finding -/
  valid : Bool := true
  deriving DecidableEq, Repr

/-- `{'approve': True, 'findings': []}`. -/
def Review.approval : Review := ⟨true, some [], true⟩

/-- The evidence of a merge. -/
structure Evidence where
  reviewer : Option NodeId
  files : List String
  archive : String
  base : String
  commit : String
  mergedAt : Time
  deriving DecidableEq, Repr

/-- `agent_nodes.result`. -/
structure Result where
  /-- `success is True` -/
  success : Bool
  /-- `verified is True` -/
  verified : Bool
  reply : String := ""
  base : String := ""
  commit : String := ""
  review : Option Review := none
  merge : Option Evidence := none
  deriving DecidableEq, Repr

/-- `agent_nodes.payload`. -/
structure Payload where
  source : String
  identity : String
  project : String
  session : String
  role : String
  repository : String
  workspace : String
  storage : String
  snapshot : String
  depth : ℕ
  concurrency : ℕ
  budgetOwner : Owner
  budgetRoot : TaskId
  temporalGraph : Option GraphId := none
  parentTools : Option (List String) := none
  humanDisposition : Option String := none
  deriving DecidableEq, Repr

/-- A row of `agent_nodes`. -/
structure Node where
  id : NodeId
  owner : Owner
  root : TaskId
  parent : Option NodeId
  persona : Persona
  goal : String
  dependencies : List NodeId
  payload : Payload
  state : NodeState
  result : Option Result := none
  reviewOf : Option NodeId := none
  reviewedBy : Option NodeId := none
  lease : Option Token := none
  expires : Option Time := none
  deadline : Time
  attempts : ℕ := 0
  updated : Time
  deriving DecidableEq, Repr

namespace Node

/-- `expires > t`; a missing lease is not live. -/
def live (n : Node) (t : Time) : Bool := n.expires.any (t < ·)

/-- The key of `agent_root_backends`. -/
def rootKey (n : Node) : TaskKey := (n.owner, n.root)

/-- The task of the root in the scope of the budget. -/
def budgetKey (n : Node) : TaskKey := (n.payload.budgetOwner, n.root)

/-- `node_task_owner` and the id of the child task. -/
def taskKey (n : Node) : TaskKey :=
  ("[\"subagent\",\"" ++ n.payload.identity ++ "\",\"" ++ n.payload.project ++ "\",\"" ++
    n.payload.session ++ "\"]", "subagent:" ++ toString n.id)

end Node

/-- A row of `agent_events`; nothing reads its data. -/
structure Event where
  node : NodeId
  owner : Owner
  event : String
  deriving DecidableEq, Repr

/-- The backend of a root or of a task. -/
inductive Backend
  | sqlite | temporal
  deriving DecidableEq, Repr

/-- `address`, `namespace` and `queue`. -/
structure Place where
  address : String
  /-- `namespace` -/
  space : String
  queue : String
  deriving DecidableEq, Repr

/-- `temporal_agent_graphs.contract`: the part of a budget that never changes. -/
structure Contract where
  deadline : Time
  limits : Budgets.Limits
  deriving DecidableEq, Repr

/-- The reasons for which a graph is stopped. -/
inductive StopReason
  | cancelled | needsInput
  deriving DecidableEq, Repr

/-- `temporal_agent_graphs.state`. -/
inductive GraphState
  | pending | running | cancelling | completed
  /-- the graph ended for this reason -/
  | ended (reason : StopReason)
  deriving DecidableEq, Repr

namespace GraphState

/-- `TERMINAL`. -/
def terminal : GraphState → Bool
  | completed | ended _ => true
  | _ => false

/-- Nodes may be claimed. -/
def claimable : GraphState → Bool
  | pending | running => true
  | _ => false

end GraphState

/-- A row of `temporal_agent_graphs`. -/
structure Graph where
  id : GraphId
  owner : Owner
  root : TaskId
  /-- `anchor`: the first node -/
  anchor : NodeId
  contract : Contract
  /-- `address`, `namespace` and `queue` -/
  place : Place
  state : GraphState := .pending
  /-- `sealed` -/
  isSealed : Bool := false
  dispatched : Bool := false
  stopReason : Option StopReason := none
  deriving DecidableEq, Repr

/-- `temporal_agent_runs.state`. -/
inductive RunState
  | started | uncertain | completed
  deriving DecidableEq, Repr

/-- A process: its `pid` with the stamp of its start. -/
abbrev Process := ℕ

/-- A row of `temporal_agent_runs`. -/
structure Run where
  /-- `node_id` -/
  node : NodeId
  /-- `graph_id` -/
  graph : GraphId
  state : RunState
  lease : Token
  /-- `pid` and `process` -/
  process : Process
  updated : Time
  deriving DecidableEq, Repr

/-- The database of the coordinator. -/
structure Db where
  /-- the tables of `TaskStore` -/
  tasks : TaskDb
  /-- the budget tables -/
  budgets : Budgets.Db
  /-- `agent_nodes` -/
  nodes : List Node
  /-- `agent_events` -/
  events : List Event
  /-- `agent_root_backends` -/
  backends : Table TaskKey Backend
  /-- `execution_bindings` -/
  bindings : Table TaskKey Backend
  /-- `temporal_agent_graphs` -/
  graphs : List Graph
  /-- `temporal_agent_runs` -/
  runs : List Run

namespace Db

/-- The database that `Coordinator` creates. -/
def empty : Db := ⟨.empty, .empty, [], [], .empty, .empty, [], []⟩

/-- The node with the id `k`. -/
def node (db : Db) (k : NodeId) : Option Node := Records.find Node.id k db.nodes

/-- The graph with the id `g`. -/
def graph (db : Db) (g : GraphId) : Option Graph := Records.find Graph.id g db.graphs

/-- The run of the node `k`. -/
def run (db : Db) (k : NodeId) : Option Run := Records.find Run.node k db.runs

/-- The nodes of a root are run by Temporal. -/
def native (db : Db) (n : Node) : Bool := db.backends n.rootKey = some .temporal

/-- `UPDATE agent_nodes SET … WHERE p`. -/
def updateNodes (db : Db) (p : Node → Bool) (f : Node → Node) : Db :=
  { db with nodes := db.nodes.map fun n => if p n then f n else n }

end Db

end Coordinator

end PythonAI
