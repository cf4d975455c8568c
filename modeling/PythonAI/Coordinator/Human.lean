import PythonAI.Coordinator.Graphs

/-!
# `human_agent_command` and `merge_node`

A human answers a suspended agent or states what an uncertain tool call did, and the agent is
queued again; the commands read the node first and write it last, in transactions of their own.
`merge_node` applies the reviewed result of a coder to the workspace of its parent, between a
transaction that takes the node and one that completes it.
-/

namespace PythonAI

open Library Budgets

namespace Coordinator

namespace Human

/-- `assert_claim_backend`, for the task of the node. -/
def access (acc : Access) (n : Node) (db : Db) : Access :=
  { acc with
    claimBackend :=
      if db.bindings n.taskKey = some .temporal then
        .error (.permission "Temporal task cannot be claimed by a legacy executor")
      else acc.claimBackend }

/-- The error for a node in another state. -/
def mismatch : Error :=
  .value ("No matching suspended/uncertain action; merge/preparation conflicts need manual " ++
    "inspection and follow-up")

/-- `answer`: the task of the node that was read as `n` goes on. -/
def answer (acc : Access) (n : Node) (text : String) (db : Db) : Except Error (Db × Unit) := do
  ensure (n.state = .needsInput) mismatch
  let (tasks, _) ← TaskStore.answer (access acc n db) n.taskKey.1 n.taskKey.2 text db.tasks
  pure ({ db with tasks := tasks }, ())

/-- The first transaction of `resolve`: `mark_uncertain`. -/
def mark (n : Node) (t : Time) (db : Db) : Except Error (Db × Unit) := do
  ensure (n.state = .needsResolution) mismatch
  pure ({ db with tasks := TaskStore.markUncertain n.taskKey.1 n.taskKey.2 t db.tasks }, ())

/-- The second transaction of `resolve`. -/
def resolve (acc : Access) (n : Node) (call text : String) (db : Db) : Except Error (Db × Unit) := do
  let (tasks, _) ← TaskStore.resolve (access acc n db) n.taskKey.1 n.taskKey.2 call text db.tasks
  pure ({ db with tasks := tasks }, ())

/-- The last transaction of `answer` and `resolve`. -/
def requeue (k : NodeId) (db : Db) : Db :=
  db.updateNodes (·.id = k) fun n => { n with state := .queued, lease := none, expires := none }

/-- The node that a human has given up. -/
def abandonedNode (t : Time) (n : Node) : Node :=
  { n with
    state := .conflict
    payload := { n.payload with humanDisposition := some "abandoned after inspection" }
    lease := none
    expires := none
    updated := t }

/-- `abandon`, at time `t`: the node was read as `n`. -/
def abandon (env : Env) (n : Node) (t : Time) (db : Db) : Except Error (Db × Unit) := do
  ensure (n.state = .needsResolution) mismatch
  ensure env.fits (.value "Inspection note exceeds 16000 bytes")
  let row ← require ((db.node n.id).filter fun row => row.owner = n.owner &&
      row.state = .needsResolution) (.value "Agent recovery state changed")
  ensure (!(row.live t || (db.child row).any (·.leased t)))
    (.value "Wait for worker leases to expire before abandoning")
  capacity env
  let db ← event env n "human_abandoned" { db.updateNodes (·.id = n.id) (abandonedNode t) with
    tasks := { db.tasks with
      tasks := db.tasks.tasks.update row.taskKey (fun _ => true)
        fun task => { task.release with state := .cancelled } } }
  pure (db, ())

end Human

namespace Merge

/-- What `merge_node` finds outside of the database. -/
structure Site where
  /-- the node of the context -/
  caller : Option NodeId
  /-- the workspace is that of the node -/
  workspace : Bool
  /-- no other lifecycle operation owns the merge -/
  permit : Bool

/-- `merge_guard`, at time `t`. -/
def guard (env : Env) (permit : Bool) (n : Node) (t : Time) (db : Db) : Except Error Unit :=
  match n.payload.temporalGraph with
  | none => .ok ()
  | some g => do
    let graph ← Graphs.get g db
    let _ ← Graphs.authority env graph false db
    let c ← Graphs.contract graph db
    ensure (!(graph.stopReason.isSome || graph.state = .cancelling ||
        graph.state = .ended .cancelled ||
        stoppedRoot ((db.tasks.tasks (graph.owner, graph.root)).map (·.state)) || c.deadline ≤ t))
      (.permission "DAG merge fenced by cancellation or deadline")
    ensure permit (.permission "DAG merge belongs to a durable lifecycle intent")

/-- The reviewer has approved. -/
def approved (r : Node) : Bool :=
  r.state = .completed && r.result.any fun x => x.verified && x.review = some .approval

/-- The checks of `merge_node`, for the coder and the reviewer that it has read. -/
def check (env : Env) (site : Site) (active : Bool) (n r : Node) (t : Time) (db : Db) :
    Except Error Unit := do
  ensure (env.role = "admin") (.permission "Merging requires admin role")
  guard env site.permit n t db
  let b ← TaskBudget.load n.budgetKey db.budgets
  b.check active t db.budgets
  ensure (!stoppedRoot (db.rootState n)) (.value "Parent task has stopped")
  ensure (n.state = .reviewed && n.reviewedBy = some r.id)
    (.value "Coder result has not passed its independent Reviewer")
  ensure (approved r) (.value "Reviewer has not approved verified evidence")
  ensure (n.parent = site.caller) (.value "Only the immediate parent may merge this result")
  ensure site.workspace (.value "Parent workspace changed")

/-- The content of the parent's workspace has changed. -/
def conflict (n : Node) (db : Db) : Db :=
  db.updateNodes (fun row => row.id = n.id && row.state = .reviewed)
    fun row => { row with state := .conflict }

/-- The node that is taken for a merge. -/
def taken (token : Token) (t : Time) (row : Node) : Node :=
  { row with state := .merging, lease := some token, expires := some (t + leaseTerm) }

/-- `merge_started`, at time `t`. -/
def start (env : Env) (site : Site) (n : Node) (token : Token) (t : Time) (db : Db) :
    Except Error (Db × Unit) := do
  guard env site.permit n t db
  ensure (db.nodes.any fun row => row.id = n.id && row.state = .reviewed)
    (.value "Merge already owned or result changed")
  let db ← event env n "merge_started" (db.updateNodes
    (fun row => row.id = n.id && row.state = .reviewed) (taken token t))
  pure (db, ())

/-- The evidence of a merge at time `t`. -/
def evidence (n : Node) (r : Result) (files : List String) (archive : String) (t : Time) : Evidence :=
  { reviewer := n.reviewedBy, files := files, archive := archive, base := r.base,
    commit := r.commit, mergedAt := t }

/-- The row that is merged: `r` is the result that was read. -/
def merged (r : Result) (e : Evidence) (t : Time) (row : Node) : Node :=
  { row with
    state := .merged
    result := some { r with merge := some e }
    lease := none
    expires := none
    updated := t }

/-- `merged`, at time `t`, after the files are written. -/
def finish (env : Env) (site : Site) (n : Node) (token : Token) (files : List String)
    (archive : String) (t : Time) (db : Db) : Except Error (Db × Unit) := do
  let r ← require n.result (.type "'NoneType' object is not subscriptable")
  guard env site.permit n t db
  let mine (row : Node) : Bool := row.id = n.id && row.state = .merging && row.lease = some token
  ensure (db.nodes.any mine) (.runtime "Merge lease lost")
  let db ← event env n "merged"
    (db.updateNodes mine (merged r (evidence n r files archive t) t))
  pure (db, ())

/-- The handler of `merge_node`, after the files are restored. -/
def abort (n : Node) (token : Token) (db : Db) : Db :=
  db.updateNodes (fun row => row.id = n.id && row.lease = some token)
    fun row => { row with state := .needsResolution }

end Merge

end Coordinator

end PythonAI
