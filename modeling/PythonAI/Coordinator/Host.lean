import PythonAI.Coordinator.Human
import PythonAI.Library.Lts
import PythonAI.Tasks.Calls

/-!
# One host: the coordinator, its workers and its graphs

Supervisors, workers, humans, the activities of Temporal workflows and the processes that only use
a budget or a task all share one database.  `Host.lts` performs one transaction at a time under a
clock that does not go back.

Between its transactions a call remembers what it has read: `Host.held` lists what the calls in
flight hold, and what they have committed.  A call may stop anywhere, and a transaction that is
repeated starts from what was held.
-/

namespace PythonAI

open Library Budgets

namespace Coordinator

/-- What a call holds after a transaction: what it has read, and what it has committed. -/
inductive Held
  /-- `TaskBudget.__init__` has inserted the row, or found it -/
  | created (k : TaskKey)
  /-- a `TaskBudget` -/
  | budget (b : TaskBudget)
  /-- `check` has passed -/
  | checked (b : TaskBudget)
  /-- the call is reserved -/
  | reserved (c : ModelCall)
  /-- a report for the call is committed, with its tokens and its cost -/
  | reported (key : Token) (total : ℤ) (cost : Option ℚ)
  /-- `get` has read the node -/
  | seen (n : Node)
  /-- `ensure_review` has found no reviewer of the node -/
  | reviewable (n : Node)
  /-- `recover` is committed -/
  | recovered
  /-- a worker has claimed the node -/
  | worker (n : Node)
  /-- `publish` is committed -/
  | published (k : NodeId) (r : Result) (state : NodeState)
  /-- `cancel` is committed -/
  | cancelled (selected : List NodeId)
  /-- `mark_uncertain` is committed -/
  | marked (n : Node)
  /-- a human has answered or resolved the task of the node -/
  | requeue (k : NodeId)
  /-- `merge_node` has checked the node -/
  | mergeable (n : Node)
  /-- `merge_node` has taken the node -/
  | merging (n : Node) (token : Token)
  /-- `snapshot` has read the root task -/
  | snapshot (g : GraphId) (root : Option TaskState)
  /-- `node_stopped` has read the node, and will write this state -/
  | stopped (k : NodeId) (state : Option NodeState)
  deriving DecidableEq, Repr

/-- One transaction of a call. -/
inductive Act
  | create (env : Environ) (k : TaskKey) (stored : ℕ) (t : Time)
  | load (k : TaskKey)
  | check (b : TaskBudget) (active : Bool) (t : Time)
  | reserve (b : TaskBudget) (model : String) (prompt output : ℤ) (t : Time)
  | reconcile (b : TaskBudget) (key : Token) (usage : Option Usage) (settle : Bool)
  | reserveChild (b : TaskBudget) (depth : ℕ) (t : Time)
  | get (owner : Owner) (k : NodeId)
  /-- `submit` -/
  | submit (env : Env) (b : TaskBudget) (spec : NodeSpec) (t₁ t₂ : Time)
  /-- `ensure_review` looks for a reviewer -/
  | unreviewed (n : Node)
  /-- `ensure_review` inserts a reviewer -/
  | review (env : Env) (b : TaskBudget) (n : Node) (t₁ t₂ : Time)
  /-- `ensure_review` has failed to insert a reviewer -/
  | unreviewable (n : Node)
  | recover (env : Env) (clock : NodeId → Time) (t : Time)
  | claim (env : Env) (clock : NodeId → Time)
  | renew (n : Node) (t₁ t₂ : Time)
  | publish (env : Env) (n : Node) (r : Result) (t₁ t₂ : Time)
  | fail (env : Env) (n : Node) (state : NodeState) (t : Time)
  | cancel (env : Env) (owner : Owner) (k : NodeId) (clock : NodeId → Time)
  | answer (acc : Access) (n : Node) (text : String)
  | mark (n : Node) (t : Time)
  | resolve (acc : Access) (n : Node) (call text : String)
  | requeue (k : NodeId)
  | abandon (env : Env) (n : Node) (t : Time)
  /-- the checks of `merge_node` -/
  | mergeable (env : Env) (site : Merge.Site) (active : Bool) (n r : Node) (t : Time)
  | conflict (n : Node)
  | start (env : Env) (site : Merge.Site) (n : Node) (t : Time)
  | finish (env : Env) (site : Merge.Site) (n : Node) (token : Token) (files : List String)
      (archive : String) (t : Time)
  | abort (n : Node) (token : Token)
  /-- a transaction of `TaskStore` -/
  | task (c : PythonAI.Call)
  | stop (g : GraphId) (reason : StopReason) (t : Time)
  | sealGraph (g : GraphId)
  | probe (env : Env) (g : GraphId) (t : Time)
  | conclude (g : GraphId) (root : Option TaskState) (t : Time)
  /-- `Graphs.claim` -/
  | graphClaim (env : Env) (g : GraphId) (k : NodeId) (p : Process) (t : Time)
  /-- `node_stopped` reads -/
  | nodeStopped (g : GraphId) (k : NodeId)
  /-- `node_stopped` writes -/
  | fence (k : NodeId) (state : Option NodeState) (t : Time)
  | processDone (g : GraphId) (n : Node) (t : Time)
  | dispatched (g : GraphId)
  | reap (h : Graphs.Processes) (t : Time)

namespace Act

/-- What a report leaves with its caller, if it is written for an open call. -/
def reports (b : TaskBudget) (key : Token) (usage : Option Usage) (settle : Bool)
    (db : Budgets.Db) : List Held :=
  match usage, b.openCall key db with
  | some usage, some c =>
    match usage.total with
    | .int total =>
      if total < 0 ∨ ¬ TaskBudget.Bindable settle total c then []
      else [.reported c.id total (TaskBudget.reportedCost (db.rates c.id) usage total)]
    | _ => []
  | _, _ => []

/-- The transaction, with the ids from `u` on, and what its call holds afterwards. -/
def attempt (u : Token) (db : Db) : Act → Except Error (Db × List Held)
  | create env k stored t => do
    let (budgets, _) ← TaskBudget.create env k stored t db.budgets
    pure ({ db with budgets := budgets }, [.created k])
  | load k => do
    let b ← TaskBudget.load k db.budgets
    pure (db, [.budget b])
  | check b active t => do
    b.check active t db.budgets
    pure (db, [.checked b])
  | reserve b model prompt output t => do
    let (budgets, _) ← b.reserve model prompt output u t db.budgets
    pure ({ db with budgets := budgets }, (budgets.calls.getLast?.map Held.reserved).toList)
  | reconcile b key usage settle =>
    .ok ({ db with budgets := (b.reconcile key usage settle db.budgets).1 },
      reports b key usage settle db.budgets)
  | reserveChild b depth t => do
    let (budgets, _) ← b.reserveChild depth t db.budgets
    pure ({ db with budgets := budgets }, [])
  | get owner k => do
    let n ← require ((db.node k).filter (·.owner = owner)) (.missing "agent_nodes")
    pure (db, [.seen n])
  | submit env b spec t₁ t₂ => do
    let (db, _) ← insert env b spec u (u + 1) t₁ t₂ db
    pure (db, [])
  | unreviewed n => .ok (db, if Coordinator.unreviewed n db then [.reviewable n] else [])
  | review env b n t₁ t₂ => do
    let (db, _) ← insert env b (reviewSpec n) u (u + 1) t₁ t₂ db
    pure (db, [])
  | unreviewable n => .ok (Coordinator.unreviewable n db, [])
  | recover env clock t => do
    let (db, _) ← Coordinator.recover env clock t db
    pure (db, [.recovered])
  | claim env clock => do
    let (db, n) ← Coordinator.claim env clock u db
    pure (db, (n.map Held.worker).toList)
  | renew n t₁ t₂ => .ok ((Coordinator.renew n t₁ t₂ db).1, [])
  | publish env n r t₁ t₂ => do
    let (db, state) ← Coordinator.publish env n r t₁ t₂ db
    pure (db, [.published n.id r state])
  | fail env n state t => do
    let (db, _) ← Coordinator.fail env n state t db
    pure (db, [])
  | cancel env owner k clock => do
    let (db, selected) ← Coordinator.cancel env owner k clock db
    pure (db, [.cancelled selected])
  | answer acc n text => do
    let (db, _) ← Human.answer acc n text db
    pure (db, [.requeue n.id])
  | mark n t => do
    let (db, _) ← Human.mark n t db
    pure (db, [.marked n])
  | resolve acc n call text => do
    let (db, _) ← Human.resolve acc n call text db
    pure (db, [.requeue n.id])
  | requeue k => .ok (Human.requeue k db, [])
  | abandon env n t => do
    let (db, _) ← Human.abandon env n t db
    pure (db, [])
  | mergeable env site active n r t => do
    Merge.check env site active n r t db
    pure (db, [.mergeable n])
  | conflict n => .ok (Merge.conflict n db, [])
  | start env site n t => do
    let (db, _) ← Merge.start env site n u t db
    pure (db, [.merging n u])
  | finish env site n token files archive t => do
    let (db, _) ← Merge.finish env site n token files archive t db
    pure (db, [])
  | abort n token => .ok (Merge.abort n token db, [])
  | task c => .ok ({ db with tasks := c.perform u db.tasks }, [])
  | stop g reason t => do
    let (db, _) ← Graphs.stop g reason t db
    pure (db, [])
  | sealGraph g => do
    let (db, _) ← Graphs.sealGraph g db
    pure (db, [])
  | probe env g t => do
    let found ← Graphs.probe env g t db
    pure (db, (found.map fun x => Held.snapshot g x.1).toList)
  | conclude g root t => do
    let (db, _) ← Graphs.conclude g root t db
    pure (db, [])
  | graphClaim env g k p t => do
    let (db, n) ← Graphs.claim env g k u p t db
    pure (db, (n.map Held.worker).toList)
  | nodeStopped g k => do
    let state ← Graphs.nodeStopped g k db
    pure (db, [.stopped k state])
  | fence k state t => .ok (Graphs.fence k state t db, [])
  | processDone g n t => do
    let (db, _) ← Graphs.processDone g n t db
    pure (db, [])
  | dispatched g => .ok (Graphs.dispatched g db, [])
  | reap h t => do
    let (db, _) ← Graphs.reap h t db
    pure (db, [])

/-- The database after the transaction. -/
def perform (u : Token) (db : Db) (a : Act) : Db := settle db (a.attempt u db)

/-- What the call holds in addition after the transaction. -/
def yields (u : Token) (db : Db) (a : Act) : List Held :=
  match a.attempt u db with
  | .ok (_, new) => new
  | .error _ => []

/-- What `submit` calls `insert` with. -/
structure Submits (b : TaskBudget) (spec : NodeSpec) : Prop where
  /-- the node belongs to the root of the budget -/
  root : spec.root = b.key.2
  /-- `budget_owner` -/
  owner : spec.payload.budgetOwner = b.key.1
  /-- `budget_root` -/
  budget : spec.payload.budgetRoot = b.key.2
  /-- it is no reviewer of another node -/
  review : spec.reviewOf = none
  /-- the payload names no graph yet -/
  graph : spec.payload.temporalGraph = none
  /-- no human has given it up -/
  human : spec.payload.humanDisposition = none
  /-- the bounds of the concurrency -/
  concurrency : 1 ≤ spec.payload.concurrency ∧ spec.payload.concurrency ≤ 8

instance (b : TaskBudget) (spec : NodeSpec) : Decidable (Submits b spec) :=
  decidable_of_iff (spec.root = b.key.2 ∧ spec.payload.budgetOwner = b.key.1 ∧
      spec.payload.budgetRoot = b.key.2 ∧ spec.reviewOf = none ∧
      spec.payload.temporalGraph = none ∧ spec.payload.humanDisposition = none ∧
      1 ≤ spec.payload.concurrency ∧ spec.payload.concurrency ≤ 8)
    ⟨fun ⟨h₁, h₂, h₃, h₄, h₅, h₆, h₇⟩ => ⟨h₁, h₂, h₃, h₄, h₅, h₆, h₇⟩,
      fun ⟨h₁, h₂, h₃, h₄, h₅, h₆, h₇⟩ => ⟨h₁, h₂, h₃, h₄, h₅, h₆, h₇⟩⟩

/-- The call holds what the transaction starts from. -/
def permitted (held : List Held) : Act → Prop
  | load k => .created k ∈ held
  | check b _ _ | reserve b _ _ _ _ | reconcile b _ _ _ | reserveChild b _ _ => .budget b ∈ held
  | submit _ b spec _ _ => .checked b ∈ held ∧ Submits b spec
  | unreviewed n | answer _ n _ | mark n _ | abandon _ n _ => .seen n ∈ held
  | review _ b n _ _ => .checked b ∈ held ∧ .reviewable n ∈ held ∧ b.key = n.budgetKey
  | unreviewable n => .reviewable n ∈ held
  | claim _ _ => .recovered ∈ held
  | renew n _ _ | publish _ n _ _ _ | processDone _ n _ => .worker n ∈ held
  | fail _ n state _ =>
    .worker n ∈ held ∧ state.reported = true ∧ (state = .queued → n.attempts < 3)
  | resolve _ n _ _ => .marked n ∈ held
  | requeue k => .requeue k ∈ held
  | mergeable _ _ _ n r _ => .seen n ∈ held ∧ .seen r ∈ held
  | conflict n | start _ _ n _ => .mergeable n ∈ held
  | finish _ _ n token _ _ _ | abort n token => .merging n token ∈ held
  | conclude g root _ => .snapshot g root ∈ held
  | fence k state _ => .stopped k state ∈ held
  | _ => True

/-- The clock values of the transaction lie between its ends; `renew` and the statements that take
no lock first read the clock before. -/
def clocked (db : Db) (t t' : Time) : Act → Prop
  | create _ _ _ t₁ | check _ _ t₁ | reserve _ _ _ _ t₁ | reserveChild _ _ t₁ | fail _ _ _ t₁
  | abandon _ _ t₁ | mergeable _ _ _ _ _ t₁ | start _ _ _ t₁ | finish _ _ _ _ _ _ t₁ | stop _ _ t₁
  | probe _ _ t₁ | conclude _ _ t₁ | graphClaim _ _ _ _ t₁ | processDone _ _ t₁ | reap _ t₁ =>
    t ≤ t₁ ∧ t₁ ≤ t'
  | submit _ _ _ t₁ t₂ | review _ _ _ t₁ t₂ | publish _ _ _ t₁ t₂ => t ≤ t₁ ∧ t₁ ≤ t₂ ∧ t₂ ≤ t'
  | recover _ clock t₁ =>
    t ≤ t₁ ∧ t₁ ≤ t' ∧ ∀ n ∈ db.nodes, t ≤ clock n.id ∧ clock n.id ≤ t₁
  | claim _ clock | cancel _ _ _ clock => ∀ n ∈ db.nodes, t ≤ clock n.id ∧ clock n.id ≤ t'
  | renew _ t₁ t₂ => t₁ ≤ t₂ ∧ t₂ ≤ t'
  | mark _ t₁ | fence _ _ t₁ => t₁ ≤ t'
  | task c => c.clocked t t'
  | _ => True

instance (held : List Held) : (a : Act) → Decidable (a.permitted held)
  | load .. | check .. | reserve .. | reconcile .. | reserveChild .. | unreviewed .. | answer ..
  | mark .. | abandon .. | unreviewable .. | claim .. | renew .. | publish .. | processDone ..
  | resolve .. | requeue .. | conflict .. | start .. | finish .. | abort .. | conclude ..
  | fence .. => inferInstanceAs (Decidable (_ ∈ held))
  | submit .. | review .. | fail .. | mergeable .. => inferInstanceAs (Decidable (_ ∧ _))
  | create .. | get .. | recover .. | cancel .. | task .. | stop .. | sealGraph .. | probe ..
  | graphClaim .. | nodeStopped .. | dispatched .. | reap .. => inferInstanceAs (Decidable True)

instance (db : Db) (t t' : Time) : (a : Act) → Decidable (a.clocked db t t')
  | create .. | check .. | reserve .. | reserveChild .. | fail .. | abandon .. | mergeable ..
  | start .. | finish .. | stop .. | probe .. | conclude .. | graphClaim .. | processDone ..
  | reap .. | renew .. => inferInstanceAs (Decidable (_ ∧ _))
  | submit .. | review .. | publish .. => inferInstanceAs (Decidable (_ ∧ _ ∧ _))
  | recover _ clock t₁ => inferInstanceAs
      (Decidable (t ≤ t₁ ∧ t₁ ≤ t' ∧ ∀ n ∈ db.nodes, t ≤ clock n.id ∧ clock n.id ≤ t₁))
  | claim _ clock | cancel _ _ _ clock =>
    inferInstanceAs (Decidable (∀ n ∈ db.nodes, t ≤ clock n.id ∧ clock n.id ≤ t'))
  | mark .. | fence .. => inferInstanceAs (Decidable (_ ≤ _))
  | task c => inferInstanceAs (Decidable (c.clocked t t'))
  | load .. | reconcile .. | get .. | unreviewed .. | unreviewable .. | answer .. | resolve ..
  | requeue .. | conflict .. | abort .. | sealGraph .. | nodeStopped .. | dispatched .. =>
    inferInstanceAs (Decidable True)

end Act

/-- The database with the clock, the supply of ids and what the calls in flight hold. -/
structure Host where
  /-- the database -/
  db : Db
  /-- the clock -/
  now : Time
  /-- the next id; every id handed out so far is smaller -/
  uuids : Token
  /-- what the calls in flight hold, and what they have committed -/
  held : List Held

namespace Host

/-- The state after the transaction `a`, which ends at `t`. -/
def after (h : Host) (a : Act) (t : Time) : Host :=
  ⟨a.perform h.uuids h.db, t, h.uuids + 2, h.held ++ a.yields h.uuids h.db⟩

/-- One transaction at a time. -/
def lts : Lts Host Act where
  step h a h' := ∃ t, h.now ≤ t ∧ a.clocked h.db h.now t ∧ a.permitted h.held ∧ h' = h.after a t

/-- New tables, and no call in flight. -/
structure Initial (h : Host) : Prop where
  /-- the database -/
  db : h.db = .empty
  /-- no call in flight -/
  held : h.held = []

/-! ### Scripts -/

/-- The state after the script `fs`, which chooses each transaction and its end in the state that
it starts from. -/
def script (h : Host) : List (Host → Act × Time) → Host
  | [] => h
  | f :: fs => (h.after (f h).1 (f h).2).script fs

/-- The transactions of the script. -/
def acts (h : Host) : List (Host → Act × Time) → List Act
  | [] => []
  | f :: fs => (f h).1 :: (h.after (f h).1 (f h).2).acts fs

/-- Each transaction of the script may be performed. -/
def fits (h : Host) : List (Host → Act × Time) → Bool
  | [] => true
  | f :: fs => decide (h.now ≤ (f h).2 ∧ (f h).1.clocked h.db h.now (f h).2 ∧
      (f h).1.permitted h.held) && (h.after (f h).1 (f h).2).fits fs

/-- A script that fits is a run. -/
theorem run_script {h : Host} {fs : List (Host → Act × Time)} (hf : h.fits fs = true) :
    lts.Run h (h.acts fs) (h.script fs) := by
  induction fs generalizing h with
  | nil => exact .nil h
  | cons f fs ih =>
    simp only [fits, Bool.and_eq_true, decide_eq_true_eq] at hf
    obtain ⟨⟨ht, hc, hp⟩, hf⟩ := hf
    exact .cons ⟨_, ht, hc, hp, rfl⟩ (ih hf)

/-- The transactions of the script meet the condition. -/
def meets (p : Host → Act → Bool) (h : Host) : List (Host → Act × Time) → Bool
  | [] => true
  | f :: fs => p h (f h).1 && (h.after (f h).1 (f h).2).meets p fs

/-- A script that fits and meets the condition is a run under the condition. -/
theorem run_script_restrict {p : Host → Act → Bool} {h : Host} {fs : List (Host → Act × Time)}
    (hf : h.fits fs = true) (hm : h.meets p fs = true) :
    (lts.restrict fun h a => p h a = true).Run h (h.acts fs) (h.script fs) := by
  induction fs generalizing h with
  | nil => exact .nil h
  | cons f fs ih =>
    simp only [fits, Bool.and_eq_true, decide_eq_true_eq] at hf
    obtain ⟨⟨ht, hc, hp⟩, hf⟩ := hf
    obtain ⟨hhead, hm⟩ := Bool.and_eq_true _ _ ▸ hm
    exact .cons ⟨⟨_, ht, hc, hp, rfl⟩, hhead⟩ (ih hf hm)

end Host

/-! ### Sample scripts -/

namespace Sample

/-- A script: each transaction with its end, in the state that it starts from. -/
abbrev Script := List (Host → Act × Time)

/-- A host with new tables. -/
def host : Host := ⟨.empty, 0, 1, []⟩

theorem host_initial : host.Initial := ⟨rfl, rfl⟩

/-- The root task. -/
def root : TaskKey := ("owner", "root")

/-- The first budget that was loaded. -/
def budget (h : Host) : TaskBudget :=
  (h.held.findSome? fun
    | .budget b => some b
    | _ => none).getD ⟨root, ⟨0, 0, 0, 0, 0, 0, none⟩, []⟩

/-- The payload of the nodes. -/
def payload : Payload where
  source := "local"
  identity := "local"
  project := "default"
  session := "local"
  role := "admin"
  repository := "/r"
  workspace := "/r"
  storage := "/s"
  snapshot := "s"
  depth := 1
  concurrency := 2
  budgetOwner := "owner"
  budgetRoot := "root"

/-- A coder without dependencies. -/
def spec : NodeSpec where
  owner := "owner"
  root := "root"
  parent := none
  persona := .coder
  goal := "goal"
  dependencies := []
  payload := payload

/-- The row of the node `k`. -/
def node (h : Host) (k : NodeId) : Node := (h.db.node k).getD (newNode spec payload 0 0 0)

/-- The last node that a worker has claimed. -/
def worker (h : Host) : Node :=
  (h.held.reverse.findSome? fun
    | .worker n => some n
    | _ => none).getD (newNode spec payload 0 0 0)

/-- A verified result. -/
def verified (commit : String) : Result := { success := true, verified := true, commit := commit }

/-- The root task starts, and the first node is submitted; its id is `9`. -/
def began (env : Env) : Script :=
  [fun _ => (.create {} root 0 0, 0), fun _ => (.load root, 0),
    fun _ => (.task (.claim {} root.1 root.2 "goal" [] none none 0 0), 0),
    fun h => (.check (budget h) true 0, 0), fun h => (.submit env (budget h) spec 0 0, 0)]

/-- The last worker publishes. -/
def publishes (r : Result) (t : Time) : Script := [fun h => (.publish {} (worker h) r t t, t)]

end Sample

end Coordinator

end PythonAI
