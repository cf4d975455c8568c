import PythonAI.Library.Records
import PythonAI.Limits
import PythonAI.Tasks.Store

/-!
# `ApprovalStore`: human decisions

A request for an action waits for the decision of a human, and an approved request may be consumed
once.  A request that is bound to an operation of the Temporal backend has a row in
`temporal_approval_bindings`, and each decision on it leaves an event in
`temporal_approval_outbox`.  Every transaction is recorded in `approval_events`.

Arguments are compared through the digest of their canonical text, which is represented by the
text.  The columns that no modelled function reads (the times of the audit) are left out.
-/

namespace PythonAI

open Library

namespace Approvals

/-- `approvals.id`. -/
abbrev ApprovalId := Token

/-- `approvals.state`. -/
inductive State
  | pending | approved | denied | consumed | cancelled
  deriving DecidableEq, Repr

/-- The states that are never left. -/
def State.final : State → Bool
  | denied | consumed | cancelled => true
  | pending | approved => false

/-- The arguments of an action. -/
structure Arguments where
  /-- the keys with their values -/
  items : List (String × String)
  /-- every number is finite -/
  finite : Bool := true
  deriving DecidableEq, Repr

/-- The canonical text of arguments: the keys in order, with their values. -/
abbrev Canonical := List (String × String)

/-- The keys that `canonical` leaves out. -/
def unbound : List String := ["confirm", "approval_id", "memory", "episode_id"]

/-- `canonical`. -/
def canonical (arguments : Arguments) : Except Error Canonical := do
  ensure arguments.finite (.value "Out of range float values are not JSON compliant")
  pure ((arguments.items.filter fun x => x.1 ∉ unbound).mergeSort fun x y => x.1 ≤ y.1)

/-- A row of `approvals`. -/
structure Approval where
  id : ApprovalId
  identity : String
  session : String
  action : String
  /-- `arguments`, and their `digest` -/
  arguments : Canonical
  expires : Time
  state : State := .pending
  deriving DecidableEq, Repr

/-- An approval operation binding. -/
structure Binding where
  /-- `submission_id` -/
  submission : String
  queue : String
  /-- `operation_id` -/
  operation : String
  owner : Owner
  /-- `task_id` -/
  task : TaskId
  deriving DecidableEq, Repr

/-- A row of `temporal_approval_bindings`. -/
structure Bound where
  binding : Binding
  /-- `approval_id` -/
  approval : ApprovalId
  deriving DecidableEq, Repr

/-- A row of `temporal_approval_outbox`. -/
structure Outgoing where
  id : Token
  /-- `approval_id` -/
  approval : ApprovalId
  state : State
  /-- `delivery` is `sent` -/
  sent : Bool := false
  deriving DecidableEq, Repr

/-- `approval_events.event`. -/
inductive Event
  | requested
  /-- `approved` or `denied` -/
  | decided (approve : Bool)
  /-- `approved_duplicate` or `denied_duplicate` -/
  | duplicate (approve : Bool)
  | decisionRejected
  | consumed
  | consumeRejected
  deriving DecidableEq, Repr

/-- A row of `approval_events`. -/
structure Audit where
  /-- `approval_id` -/
  approval : ApprovalId
  identity : String
  session : String
  event : Event
  deriving DecidableEq, Repr

/-- The approval database. -/
structure Db where
  approvals : List Approval
  /-- `temporal_approval_bindings` -/
  bindings : List Bound
  /-- `temporal_approval_outbox` -/
  outbox : List Outgoing
  /-- `approval_events` -/
  events : List Audit
  deriving DecidableEq, Repr

/-- The database `ApprovalStore` creates. -/
def Db.empty : Db := ⟨[], [], [], []⟩

/-- The row of an approval. -/
def Db.approval (db : Db) (id : ApprovalId) : Option Approval :=
  Records.find Approval.id id db.approvals

/-- `get_binding`. -/
def Db.binding (db : Db) (id : ApprovalId) : Option Binding :=
  (Records.find Bound.approval id db.bindings).map Bound.binding

/-- `audit`. -/
def audit (id : ApprovalId) (identity session : String) (event : Event) (db : Db) : Db :=
  { db with events := db.events ++ [⟨id, identity, session, event⟩] }

/-- `UPDATE approvals SET state=… WHERE id=… AND p`. -/
def setState (id : ApprovalId) (p : Approval → Bool) (state : State) (db : Db) : Db :=
  { db with
    approvals := db.approvals.map fun row =>
      if row.id = id ∧ p row = true then { row with state := state } else row }

/-- The row count of the update is `1`. -/
def selects (id : ApprovalId) (p : Approval → Bool) (db : Db) : Bool := (db.approval id).any p

/-! ### The outbox -/

/-- `binding_data`. -/
def bindingData (b : Binding) : Except Error Binding := do
  let texts := [b.submission, b.queue, b.operation, b.owner, b.task]
  ensure (texts.all (fun s => s ≠ "" && s.utf8ByteSize ≤ 1024) && isHex 32 b.submission)
    (.value "Invalid approval operation binding")
  pure b

/-- `record_decision`, with the id `u` of the event. -/
def recordDecision (env : Access) (id : ApprovalId) (state : State) (u : Token) (db : Db) :
    Except Error Db := do
  if (db.binding id).isNone || db.outbox.any (fun e => e.approval = id && e.state = state) then
    pure db
  else
    ensure env.room (.capacity "Approval decision outbox capacity reached")
    -- `INSERT OR IGNORE`
    if db.outbox.any (·.id = u) then pure db
    else pure { db with outbox := db.outbox ++ [{ id := u, approval := id, state := state }] }

/-- `same_decision`. -/
def sameDecision (id : ApprovalId) (identity session : String) (state : State) (t : Time)
    (db : Db) : Bool :=
  (db.binding id).isSome && selects id (fun row => row.identity = identity &&
    row.session = session && row.state = state && t < row.expires) db

/-- `validate_consumption`. -/
def validateConsumption (id : ApprovalId) (binding : Option Binding) (db : Db) :
    Except Error Unit := do
  let data : Except Error (Option Binding) :=
    match binding with
    | none => .ok none
    | some b => (bindingData b).map some
  let actual ← data
  ensure (actual = db.binding id)
    (.permission "Approval requires its original durable operation binding")

/-- `sent`. -/
def sent (event : Token) (db : Db) : Db :=
  { db with outbox := db.outbox.map fun e => if e.id = event then { e with sent := true } else e }

/-- The insertion of a new approval, with the id `u`. -/
def insert (row : Approval) (db : Db) : Except Error Db := do
  ensure (db.approval row.id).isNone (.integrity "approvals")
  pure (audit row.id row.identity row.session .requested
    { db with approvals := db.approvals ++ [row] })

/-- `request_bound`, at time `t`, with the id `u`. -/
def requestBound (env : Access) (identity session action : String) (arguments : Arguments)
    (ttl : Option ℤ) (binding : Binding) (u : ApprovalId) (t : Time) (db : Db) :
    Except Error (Db × ApprovalId) := do
  let ttl ← require (ttl.filter (0 < ·)) (.value "Invalid approval lifetime")
  let target ← bindingData binding
  let data ← canonical arguments
  ensure env.fits (.capacity "Approval arguments exceed 1 MiB")
  let joined := (db.bindings.find? fun b =>
    b.binding = target && (db.approval b.approval).isSome).bind fun b => db.approval b.approval
  match joined with
  | some old =>
    ensure (old.identity = identity && old.session = session && old.action = action &&
      old.arguments = data) (.permission "Approval binding cannot change its operation")
    -- Also a decided, expired or consumed one: no second approval is created.
    pure (db, old.id)
  | none =>
    ensure env.countFree (.capacity "Approval binding capacity reached")
    ensure env.room (.capacity "Approval authority storage capacity reached")
    let db ← insert
      { id := u, identity := identity, session := session, action := action, arguments := data
        expires := (t + ttl).toNat } db
    ensure (!db.bindings.any fun b => b.binding = target || b.approval = u)
      (.integrity "temporal_approval_bindings")
    pure ({ db with bindings := db.bindings ++ [⟨target, u⟩] }, u)

/-! ### `ApprovalStore` -/

namespace ApprovalStore

/-- `request` without a binding: the rows are read at `t₁` and the expiry is computed at `t₂`. -/
def request (identity session action : String) (arguments : Arguments) (ttl : ℤ)
    (u : ApprovalId) (t₁ t₂ : Time) (db : Db) : Except Error (Db × ApprovalId) := do
  let data ← canonical arguments
  match db.approvals.find? fun row => row.identity = identity && row.session = session &&
      row.action = action && row.arguments = data && row.state = .pending && t₁ < row.expires with
  | some row => pure (db, row.id)
  | none =>
    let db ← insert
      { id := u, identity := identity, session := session, action := action, arguments := data
        expires := (t₂ + ttl).toNat } db
    pure (db, u)

/-- The decision that `decide` records. -/
def decision (approve : Bool) : State := if approve then .approved else .denied

/-- `decide`: `target` is the outcome of `validate_target` and `u` the id of the event.  The clock
is read at `t₁` for the first `same_decision`, at `t₂` for the update and at `t₃` for the second
`same_decision`.  The value is the exception that is raised after the commit. -/
protected def decide (env : Access) (target : Except Error Unit) (id : ApprovalId)
    (identity session : String) (approve : Bool) (u : Token) (t₁ t₂ t₃ : Time) (db : Db) :
    Except Error (Db × Option Error) := do
  let state := decision approve
  let validated : Except Error Unit :=
    if (db.binding id).isSome && !sameDecision id identity session state t₁ db then target
    else .ok ()
  validated
  let p (row : Approval) : Bool := row.identity = identity && row.session = session &&
    row.state = .pending && t₂ < row.expires
  let updated := selects id p db
  let duplicate := !updated && sameDecision id identity session state t₃ db
  let event : Event := if updated then .decided approve
    else if duplicate then .duplicate approve else .decisionRejected
  let db := audit id identity session event (setState id p state db)
  if updated || duplicate then
    let db ← recordDecision env id state u db
    pure (db, none)
  else
    pure (db, some (.permission
      "Approval is missing, expired, decided, or belongs to another session"))

/-- `consume`, at time `t`, with the id `u` of the event.  The value is the exception that is
raised after the commit. -/
def consume (env : Access) (id : ApprovalId) (identity session action : String)
    (arguments : Arguments) (binding : Option Binding) (u : Token) (t : Time) (db : Db) :
    Except Error (Db × Option Error) := do
  let data ← canonical arguments
  validateConsumption id binding db
  let p (row : Approval) : Bool := row.identity = identity && row.session = session &&
    row.action = action && row.arguments = data && row.state = .approved && t < row.expires
  let updated := selects id p db
  let event : Event := if updated then .consumed else .consumeRejected
  let db := audit id identity session event (setState id p .consumed db)
  if updated then
    let db ← recordDecision env id .consumed u db
    pure (db, none)
  else
    pure (db, some (.permission ("Approval does not authorize this identity, session, action or " ++
      "arguments; it may be expired or already used")))

/-- `cancel_wait`, with the id `u` of the event. -/
def cancelWait (env : Access) (id : ApprovalId) (identity session : String) (u : Token)
    (db : Db) : Except Error (Db × Unit) := do
  let p (row : Approval) : Bool := row.identity = identity && row.session = session &&
    (row.state = .pending || row.state = .approved)
  let recorded : Except Error Db :=
    if selects id p db then recordDecision env id .cancelled u (setState id p .cancelled db)
    else .ok db
  let db ← recorded
  pure (db, ())

end ApprovalStore

end Approvals

end PythonAI
