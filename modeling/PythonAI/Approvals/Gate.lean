import PythonAI.Approvals.Grants
import PythonAI.Library.Table

/-!
# The approval gate of a Temporal operation

A tool of a submission that needs an approval passes through three calls.  `probe` records the
intent of the operation in the task database, requests the approval in the approval database and
stores what it has read there; `authorize` reads the stored approval and consumes it; and the
adapter that writes files checks with `assert_consumed` that this has happened.  Each call is taken
apart at its transactions; any number of calls, in any number of processes, run at once, and any of
them may crash.  What the checks of the roles, the scope and the budget decide is up to the step.

* `Host.Inv` : the intents, the bindings, the calls and the grants agree
* `Host.gated` : **an operation is granted at most once**, on the one approval that was ever bound
  to it, which a human gave for exactly this tool and these arguments
-/

namespace PythonAI

open Library

namespace Approvals

namespace Gate

/-! ### The intent -/

/-- What `payload` returns. -/
structure Payload where
  tool : String
  arguments : Canonical
  /-- `file_precondition` -/
  plan : Option String
  deriving DecidableEq, Repr

/-- The arguments that `payload` leaves out. -/
def unshown : List String := ["trusted_asset_roots", "memory", "episode_id"]

/-- `payload`. -/
def payload (name : String) (arguments : Arguments) (plan : Option String) :
    Except Error Payload := do
  let clean := { arguments with items := arguments.items.filter fun x => x.1 ∉ unshown }
  let value ← canonical clean
  pure ⟨name, value, plan⟩

/-- The payload as the arguments of an approval; `render` writes an object as a text. -/
def Payload.data (render : Canonical → String) (p : Payload) : Arguments where
  items := ("tool", p.tool) :: ("arguments", render p.arguments) ::
    (p.plan.map fun plan => ("file_precondition", plan)).toList

/-- `temporal_approval_waits.state`. -/
inductive WaitState
  | preparing
  | expired
  /-- the state of the approval -/
  | of (state : State)
  deriving DecidableEq, Repr

/-- A row of `temporal_approval_waits`. -/
structure Wait where
  /-- `submission_id` -/
  submission : String
  revision : ℕ
  /-- `operation_id` -/
  operation : String
  /-- `call_id` -/
  call : String
  /-- `payload`, and its `fingerprint` -/
  payload : Payload
  binding : Binding
  action : String
  expires : Time
  /-- `approval_id` -/
  approval : Option ApprovalId := none
  state : WaitState := .preparing
  deriving DecidableEq, Repr

/-- The primary key. -/
def Wait.place (w : Wait) : String × ℕ := (w.submission, w.revision)

/-- The other key. -/
def Wait.key (w : Wait) : String × String := (w.submission, w.operation)

/-- The row as it was inserted. -/
def Wait.intent (w : Wait) : Wait := { w with approval := none, state := .preparing }

/-- The tool that `probe` finds at the boundary of a step, and the context it is called in. -/
structure Boundary where
  /-- `ledger.key` -/
  submission : String
  /-- `row['queue']` -/
  queue : String
  /-- `ledger.owner` -/
  owner : Owner
  /-- `ledger.task` -/
  task : TaskId
  /-- `cursor['revision']` -/
  revision : ℕ
  /-- `iteration` of the checkpoint -/
  iteration : ℕ
  /-- the id of the tool call -/
  call : String
  /-- its name -/
  name : String
  /-- its arguments -/
  arguments : Arguments
  /-- the plan of a file write -/
  plan : Option String
  /-- `context.project` -/
  project : String
  /-- `context.identity` -/
  identity : String
  /-- `context.session` -/
  session : String
  deriving DecidableEq, Repr

namespace Boundary

/-- `operation`. -/
def operation (b : Boundary) : String := "model:" ++ toString b.iteration ++ ":tool:" ++ b.call

/-- `target`. -/
def target (b : Boundary) : Binding := ⟨b.submission, b.queue, b.operation, b.owner, b.task⟩

/-- `category`. -/
def category (b : Boundary) : String :=
  if b.plan.isSome then "temporal_file_write" else "temporal_read"

/-- `action`. -/
def action (b : Boundary) : String :=
  b.project ++ ":" ++ b.category ++ ":" ++ b.submission ++ ":" ++ b.operation

end Boundary

/-! ### `probe` -/

/-- How far a call of `probe` is. -/
inductive Stage
  /-- the intent is stored; the approval it had is known -/
  | intended (known : Option ApprovalId)
  /-- the approval is requested -/
  | asked (key : ApprovalId)
  /-- its state is read -/
  | seen (key : ApprovalId) (state : WaitState)
  deriving DecidableEq, Repr

/-- A call of `probe`. -/
structure Probe where
  /-- the tool -/
  boundary : Boundary
  data : Payload
  expires : Time
  /-- how far it is -/
  stage : Stage
  deriving DecidableEq, Repr

/-- The first transaction: the intent is stored, or found.  `checked` is the outcome of the checks
of the cursor, the scope, the run, the task and the tool; a run that is completed and the tool
`ask_user` need no approval. -/
def intend (checked : Except Error Unit) (deadline : Option Time) (room : Bool) (b : Boundary)
    (t : Time) (waits : List Wait) : Except Error (List Wait × Probe) := do
  checked
  let data ← payload b.name b.arguments b.plan
  let binding ← bindingData b.target
  let deadline ← require deadline (.permission "Approval requires a pinned root deadline")
  match Records.find Wait.place (b.submission, b.revision) waits with
  | some old =>
    ensure (old.payload = data && old.binding = binding && old.action = b.action)
      (.permission "Approval operation changed")
    pure (waits, ⟨b, data, old.expires, .intended old.approval⟩)
  | none =>
    ensure room (.capacity "Temporal operation storage capacity reached")
    ensure (waits.all fun w => w.key ≠ (b.submission, b.operation))
      (.integrity "temporal_approval_waits")
    let expires := min (t + 300) deadline
    pure (waits ++ [{ submission := b.submission, revision := b.revision, operation := b.operation
                      call := b.call, payload := data, binding := binding, action := b.action
                      expires := expires }], ⟨b, data, expires, .intended none⟩)

section

variable (render : Canonical → String)

/-- The approval is requested, or the known one is found; `checked` is the outcome of the checks of
the budget and of the path of the database, and `u` the id of a new approval. -/
def ask (env : Access) (checked : Except Error Unit) (p : Probe) (u : ApprovalId) (t : Time)
    (db : Db) : Except Error (Db × ApprovalId) := do
  checked
  match p.stage with
  | .intended none =>
    -- A lifetime of at least one tick, also where the wait is over.
    requestBound env p.boundary.identity p.boundary.session p.boundary.action (p.data.data render)
      (some (max 1 ((p.expires : ℤ) - t))) p.boundary.target u t db
  | .intended (some key) =>
    ensure (db.binding key = some p.boundary.target)
      (.permission "Persisted approval authority is missing; do not reissue")
    pure (db, key)
  | _ => .error (.busy "probe")

/-- The state of the approval is read. -/
def look (p : Probe) (key : ApprovalId) (t : Time) (db : Db) : Except Error WaitState := do
  let data ← canonical (p.data.data render)
  let grant ← require ((db.approval key).filter fun row => row.identity = p.boundary.identity &&
      row.session = p.boundary.session && row.action = p.boundary.action && row.arguments = data)
    (.permission "Approval authority does not match the intent")
  pure (if min p.expires grant.expires ≤ t then .expired else .of grant.state)

/-- The second transaction: the approval and its state are stored. -/
def settle (checked : Except Error Unit) (room : Bool) (p : Probe) (key : ApprovalId)
    (state : WaitState) (waits : List Wait) : Except Error (List Wait) := do
  checked
  ensure (state ≠ .of .consumed)
    (.uncertain "Approval was consumed without confirmed tool completion")
  ensure room (.capacity "Durable task storage capacity reached")
  pure (waits.map fun w => if w.place = (p.boundary.submission, p.boundary.revision) then
    { w with approval := some key, state := state } else w)

/-! ### `authorize` and `assert_consumed` -/

/-- The operation that a tool is called in, with the arguments of the call. -/
structure Call where
  /-- `ledger.key` -/
  submission : String
  operation : String
  /-- `context.identity` -/
  identity : String
  /-- `context.session` -/
  session : String
  name : String
  arguments : Arguments
  plan : Option String
  deriving DecidableEq, Repr

/-- A call of `authorize` or `assert_consumed` that has read its intent. -/
structure Running where
  /-- the call -/
  call : Call
  /-- its payload -/
  data : Payload
  /-- `grant`: the row it has read -/
  wait : Wait
  deriving DecidableEq, Repr

/-- `authorize` reads the intent of its operation; `checked` is the outcome of the checks of the
policy, the roles, the plan, the budget and the scope, and `running` is whether the operation is
running. -/
def authorize (checked : Except Error Unit) (running : Bool) (c : Call) (t : Time)
    (waits : List Wait) : Except Error Running := do
  checked
  let data ← payload c.name c.arguments c.plan
  let grant ← require ((Records.find Wait.key (c.submission, c.operation) waits).filter fun w =>
      w.state = .of .approved && t < w.expires && running && w.payload = data)
    (.permission "No exact approved operation at this execution boundary")
  pure ⟨c, data, grant⟩

/-- `authorize` consumes the approval.  The checks that follow only raise. -/
def consume (env : Access) (r : Running) (u : Token) (t : Time) (db : Db) :
    Except Error (Db × Option Error) :=
  match r.wait.approval with
  | none => .error (.permission "Approval requires its original durable operation binding")
  | some key => ApprovalStore.consume env key r.call.identity r.call.session r.wait.action
      (r.data.data render) (some r.wait.binding) u t db

/-- `assert_consumed` reads the intent of its operation. -/
def inspect (c : Call) (waits : List Wait) : Except Error Running := do
  let data ← payload c.name c.arguments c.plan
  let grant ← require ((Records.find Wait.key (c.submission, c.operation) waits).filter fun w =>
      w.payload = data)
    (.permission "File adapter requires an exact consumed approval")
  pure ⟨c, data, grant⟩

/-- `assert_consumed` reads the approval. -/
def assertConsumed (r : Running) (db : Db) : Except Error ApprovalId := do
  let data ← canonical (r.data.data render)
  let approval ← require ((r.wait.approval.bind db.approval).filter fun row =>
      row.state = .consumed && row.identity = r.call.identity && row.session = r.call.session &&
      row.action = r.wait.action && row.arguments = data &&
      db.binding row.id = some r.wait.binding)
    (.permission "File adapter requires an exact consumed approval")
  pure approval.id

end

/-! ### The host -/

/-- An approval that was consumed for a call. -/
structure Grant where
  /-- the approval -/
  approval : ApprovalId
  /-- the intent of the operation -/
  intent : Wait
  /-- the call -/
  call : Call
  /-- when it was consumed, or confirmed -/
  time : Time
  deriving DecidableEq, Repr

/-- The grant of a call. -/
def Running.grant (r : Running) (key : ApprovalId) (t : Time) : Grant :=
  ⟨key, r.wait.intent, r.call, t⟩

/-- The two databases and the calls; each call has a number of its own. -/
structure Host where
  /-- the approval database -/
  base : Approvals.Host
  /-- `temporal_approval_waits` -/
  waits : List Wait := []
  /-- the calls of `probe` -/
  probes : Table ℕ Probe := .empty
  /-- the calls of `authorize` -/
  calls : Table ℕ Running := .empty
  /-- the calls of `assert_consumed` -/
  adapters : Table ℕ Running := .empty
  /-- the grants -/
  granted : List Grant := []
  /-- the grants that `assert_consumed` has confirmed -/
  confirmed : List Grant := []

/-- A step. -/
inductive Act
  /-- an operation on the approval database -/
  | store (a : Approvals.Act)
  | intend (k : ℕ) (checked : Except Error Unit) (deadline : Option Time) (room : Bool)
      (b : Boundary)
  | ask (k : ℕ) (env : Access) (checked : Except Error Unit)
  | look (k : ℕ)
  | settle (k : ℕ) (checked : Except Error Unit) (room : Bool)
  | authorize (k : ℕ) (checked : Except Error Unit) (running : Bool) (c : Call)
  | consume (k : ℕ) (env : Access)
  | inspect (k : ℕ) (c : Call)
  | assertConsumed (k : ℕ)
  /-- a call returns, or its process ends -/
  | stop (k : ℕ)

namespace Act

/-- The operations that are not left to the gate: nobody else requests an approval for an operation
or consumes one with a binding. -/
def outside : Approvals.Act → Bool
  | .requestBound .. => false
  | .consume _ _ _ _ _ _ binding _ => binding.isNone
  | _ => true

/-- The number of the call. -/
def number : Act → Option ℕ
  | store _ => none
  | intend k .. | ask k .. | look k | settle k .. | authorize k .. | consume k .. | inspect k _
  | assertConsumed k | stop k => some k

/-- The clock values of the step lie between `t` and `t'`; an operation on the approval database
is one that is not left to the gate. -/
def allowed (t t' : Time) : Act → Prop
  | store a => outside a = true ∧ a.clocked t t'
  | _ => t ≤ t'

end Act

namespace Host

variable (render : Canonical → String)

/-- The calls with the number `k` end. -/
def stop (k : ℕ) (h : Host) : Host :=
  { h with probes := h.probes.erase k, calls := h.calls.erase k, adapters := h.adapters.erase k }

/-- What a step does at time `t`. -/
def attempt (h : Host) (t : Time) : Act → Except Error Host
  | .store a => .ok { h with base := h.base.after a t }
  | .intend k checked deadline room b => do
    let (waits, p) ← intend checked deadline room b t h.waits
    pure { h with waits := waits, probes := h.probes.set k p }
  | .ask k env checked => do
    let p ← require (h.probes k) (.busy "probe")
    let (db, key) ← ask render env checked p h.base.uuids t h.base.db
    pure { h with
      base := ⟨db, t, h.base.uuids + 1⟩
      probes := h.probes.set k { p with stage := .asked key } }
  | .look k => do
    let p ← require (h.probes k) (.busy "probe")
    match p.stage with
    | .asked key =>
      let state ← look render p key t h.base.db
      pure { h with probes := h.probes.set k { p with stage := .seen key state } }
    | _ => .error (.busy "probe")
  | .settle k checked room => do
    let p ← require (h.probes k) (.busy "probe")
    match p.stage with
    | .seen key state =>
      let waits ← settle checked room p key state h.waits
      pure { h with waits := waits, probes := h.probes.erase k }
    | _ => .error (.busy "probe")
  | .authorize k checked running c => do
    let r ← authorize checked running c t h.waits
    pure { h with calls := h.calls.set k r }
  | .consume k env => do
    let r ← require (h.calls k) (.busy "authorize")
    let (db, raised) ← consume render env r h.base.uuids t h.base.db
    let key ← require r.wait.approval (.busy "authorize")
    pure { h with
      base := ⟨db, t, h.base.uuids + 1⟩
      calls := h.calls.erase k
      granted := if raised.isNone then h.granted ++ [r.grant key t] else h.granted }
  | .inspect k c => do
    let r ← inspect c h.waits
    pure { h with adapters := h.adapters.set k r }
  | .assertConsumed k => do
    let r ← require (h.adapters k) (.busy "assert_consumed")
    let key ← assertConsumed render r h.base.db
    pure { h with
      adapters := h.adapters.erase k
      confirmed := h.confirmed ++ [r.grant key t] }
  | .stop k => .ok (h.stop k)

/-- A step that raises ends its call. -/
def failed (h : Host) (a : Act) : Host :=
  match a.number with
  | some k => h.stop k
  | none => h

/-- The state after a step that ends at `t`. -/
def after (h : Host) (a : Act) (t : Time) : Host :=
  let h' : Host := match h.attempt render t a with
    | .ok h' => h'
    | .error _ => h.failed a
  { h' with base := { h'.base with now := t } }

/-- One step at a time. -/
def lts : Lts Host Act where
  step h a h' := ∃ t, a.allowed h.base.now t ∧ h' = h.after render a t

/-- New tables. -/
def Initial (h : Host) : Prop := ∃ base : Approvals.Host, base.Initial ∧ h = { base := base }

end Host

/-! ### What an operation does to the approvals -/

section

variable {db db' : Db} {u : Token} {t : Time} {env : Access} {id : ApprovalId}

/-- What is left of the approvals later. -/
structure Later (db db' : Db) : Prop where
  /-- a binding is kept -/
  bindings : ∀ b ∈ db.bindings, b ∈ db'.bindings
  /-- an approval keeps its binding -/
  binding : ∀ id b, db.binding id = some b → db'.binding id = some b
  /-- the audit is kept -/
  events : ∀ e ∈ db.events, e ∈ db'.events
  /-- a consumed approval stays as it is -/
  consumed : ∀ id row, db.approval id = some row → row.state = .consumed →
    db'.approval id = some row

/-- No approval of an operation is consumed: those that are consumed were it before. -/
def Quiet (db db' : Db) : Prop :=
  ∀ b ∈ db'.bindings, ∀ row, db'.approval b.approval = some row → row.state = .consumed →
    b ∈ db.bindings ∧ db.approval b.approval = some row

theorem Later.refl (db : Db) : Later db db :=
  ⟨fun _ h => h, fun _ _ h => h, fun _ h => h, fun _ _ h _ => h⟩

theorem Quiet.refl (db : Db) : Quiet db db := fun _ hb _ hrow _ => ⟨hb, hrow⟩

/-- **Every operation keeps what is left later.** -/
theorem later_of_change {a : Approvals.Act} (hc : Change a u db db') : Later db db' := by
  cases hc with
  | audited new _ happrovals hbindings hevents _ =>
    refine ⟨fun b hb => by rw [hbindings]; exact hb, fun id b hb => ?_, fun e he => ?_,
      fun id row hrow _ => ?_⟩
    · rw [binding_of_bindings hbindings]
      exact hb
    · rw [hevents]
      exact List.mem_append_left _ he
    · rw [Db.approval, happrovals]
      exact hrow
  | created row b _ _ happrovals hbindings _ _ hevents _ =>
    refine ⟨fun x hx => ?_, fun id x hx => ?_, fun e he => ?_, fun id row' hrow' _ => ?_⟩
    · rw [hbindings]
      exact List.mem_append_left _ hx
    · obtain ⟨y, hy, rfl⟩ := Option.map_eq_some_iff.1 hx
      rw [Db.binding, hbindings, Records.find_append_of_some hy, Option.map_some]
    · rw [hevents]
      exact List.mem_append_left _ he
    · rw [Db.approval, happrovals]
      exact Records.find_append_of_some hrow'
  | turned row state new hrow hturn happroval _ hbindings hevents _ =>
    refine ⟨fun b hb => by rw [hbindings]; exact hb, fun id b hb => ?_, fun e he => ?_,
      fun id row' hrow' hs => ?_⟩
    · rw [binding_of_bindings hbindings]
      exact hb
    · rw [hevents]
      exact List.mem_append_left _ he
    · have hne : id ≠ row.id := fun hid => by
        rw [hid, hrow] at hrow'
        cases hrow'
        exact hturn.not_consumed hs
      rw [happroval, if_neg hne]
      exact hrow'

theorem recordDecision_bindings {state : State} (hok : recordDecision env id state u db = .ok db') :
    db'.bindings = db.bindings := by
  unfold recordDecision at hok
  split at hok
  · cases hok
    rfl
  · simp only [bind_eq_ok, ensure_eq_ok] at hok
    obtain ⟨_, _, hok⟩ := hok
    split at hok <;> cases hok <;> rfl

theorem consume_bindings {identity session action : String} {arguments : Arguments}
    {binding : Option Binding} {out : Option Error}
    (hok : ApprovalStore.consume env id identity session action arguments binding u t db =
      .ok (db', out)) : db'.bindings = db.bindings := by
  simp only [ApprovalStore.consume, bind_eq_ok] at hok
  obtain ⟨_, _, _, _, hok⟩ := hok
  split at hok
  · simp only [bind_eq_ok, pure_eq_ok, Prod.mk.injEq] at hok
    obtain ⟨db₁, hrec, rfl, -⟩ := hok
    rw [recordDecision_bindings hrec]
    rfl
  · simp only [pure_eq_ok, Prod.mk.injEq] at hok
    obtain ⟨rfl, -⟩ := hok
    rfl

/-- Nobody but the gate binds an approval. -/
theorem outside_bindings {a : Approvals.Act} (ha : Act.outside a = true)
    (hok : a.attempt u db = .ok db') : db'.bindings = db.bindings := by
  cases a with
  | requestBound => cases ha
  | request identity session action arguments ttl t₁ t₂ =>
    obtain ⟨out, hok⟩ := outcome_eq_ok.1 hok
    simp only [ApprovalStore.request, bind_eq_ok] at hok
    obtain ⟨data, -, hok⟩ := hok
    split at hok
    · simp only [pure_eq_ok, Prod.mk.injEq] at hok
      obtain ⟨rfl, -⟩ := hok
      rfl
    · simp only [bind_eq_ok, pure_eq_ok, Prod.mk.injEq] at hok
      obtain ⟨db₁, hi, rfl, -⟩ := hok
      rw [insert_ok hi]
      rfl
  | decide env target id identity session approve t₁ t₂ t₃ =>
    obtain ⟨out, hok⟩ := outcome_eq_ok.1 hok
    simp only [ApprovalStore.decide, bind_eq_ok] at hok
    obtain ⟨_, _, hok⟩ := hok
    split at hok
    · simp only [bind_eq_ok, pure_eq_ok, Prod.mk.injEq] at hok
      obtain ⟨db₁, hrec, rfl, -⟩ := hok
      rw [recordDecision_bindings hrec]
      rfl
    · simp only [pure_eq_ok, Prod.mk.injEq] at hok
      obtain ⟨rfl, -⟩ := hok
      rfl
  | consume env id identity session action arguments binding t =>
    obtain ⟨out, hok⟩ := outcome_eq_ok.1 hok
    exact consume_bindings hok
  | cancelWait env id identity session =>
    obtain ⟨out, hok⟩ := outcome_eq_ok.1 hok
    simp only [ApprovalStore.cancelWait, bind_eq_ok, pure_eq_ok, Prod.mk.injEq] at hok
    obtain ⟨db₁, hrec, rfl, -⟩ := hok
    split at hrec
    · rw [recordDecision_bindings hrec]
      rfl
    · cases hrec
      rfl
  | sent event =>
    cases hok
    rfl

theorem unbound_of_binding {id : ApprovalId} (hnone : db.binding id = none) :
    ∀ b ∈ db.bindings, b.approval ≠ id := by
  intro b hb hid
  obtain ⟨b', hfind⟩ := Records.find_isSome Bound.approval hb
  rw [Db.binding, ← hid, hfind] at hnone
  cases hnone

theorem mem_of_binding {b : Binding} (h : db.binding id = some b) : ⟨b, id⟩ ∈ db.bindings := by
  obtain ⟨x, hx, rfl⟩ := Option.map_eq_some_iff.1 h
  have hmem := Records.mem_of_find hx
  obtain rfl := Records.key_of_find hx
  exact hmem

/-- An operation that is not left to the gate consumes no approval of an operation. -/
theorem quiet_of_outside {h h' : Approvals.Host} {a : Approvals.Act} (hw : h.Wf)
    (ha : Act.outside a = true) (hst : Approvals.Host.lts.step h a h') : Quiet h.db h'.db := by
  intro b hb row hrow hs
  have hbind : h'.db.bindings = h.db.bindings := by
    obtain ⟨t, -, rfl⟩ := hst
    cases hr : a.attempt h.uuids h.db with
    | error e => rw [Approvals.Host.after, hr, commit_error]
    | ok db' =>
      rw [Approvals.Host.after, hr, commit_ok]
      exact outside_bindings ha hr
  rw [hbind] at hb
  refine ⟨hb, ?_⟩
  rcases (Approvals.Host.lawful hw hst).consumed b.approval row hrow hs with hold | hnew
  · exact hold
  · obtain ⟨row₀, env, arguments, t, -, rfl, -⟩ := hnew
    have hnone : h.db.binding b.approval = none := by simpa [Act.outside] using ha
    exact absurd rfl (unbound_of_binding hnone b hb)

theorem later_of_step {h h' : Approvals.Host} {a : Approvals.Act} (hw : h.Wf)
    (hst : Approvals.Host.lts.step h a h') : Later h.db h'.db := by
  rcases Approvals.Host.step_cases hw hst with ⟨-, heq⟩ | ⟨-, hchange⟩
  · rw [heq]
    exact .refl _
  · exact later_of_change hchange

/-- What `request_bound` does to the bindings. -/
theorem requestBound_bindings {identity session action : String} {arguments : Arguments}
    {ttl : Option ℤ} {target : Binding} {key : ApprovalId}
    (hok : requestBound env identity session action arguments ttl target u t db =
      .ok (db', key)) :
    ⟨target, key⟩ ∈ db'.bindings ∧
      ∀ b ∈ db'.bindings, b ∈ db.bindings ∨ b.binding = target ∧ b.approval = u := by
  simp only [requestBound, bind_eq_ok, require_eq_ok, bindingData, ensure_eq_ok, pure_eq_ok] at hok
  obtain ⟨n, -, target', ⟨-, -, rfl⟩, data, -, -, -, hok⟩ := hok
  split at hok
  · next old hold =>
    simp only [bind_eq_ok, ensure_eq_ok, pure_eq_ok, Prod.mk.injEq] at hok
    obtain ⟨-, -, rfl, rfl⟩ := hok
    obtain ⟨x, hx, hrow⟩ := Option.bind_eq_some_iff.1 hold
    have hp := List.find?_some hx
    simp only [Bool.and_eq_true, decide_eq_true_eq] at hp
    obtain rfl := hp.1
    refine ⟨?_, fun b hb => .inl hb⟩
    rw [id_of_approval hrow]
    exact List.mem_of_find?_eq_some hx
  · simp only [bind_eq_ok, ensure_eq_ok, pure_eq_ok, Prod.mk.injEq] at hok
    obtain ⟨-, -, -, -, db₁, hi, -, -, rfl, rfl⟩ := hok
    rw [insert_ok hi]
    refine ⟨List.mem_append_right _ (List.mem_singleton_self _), fun b hb => ?_⟩
    rcases List.mem_append.1 hb with hold | hnew
    · exact .inl hold
    · rw [List.mem_singleton.1 hnew]
      exact .inr ⟨rfl, rfl⟩

/-- A request consumes no approval of an operation. -/
theorem quiet_of_request {h h' : Approvals.Host} {identity session action : String}
    {arguments : Arguments} {ttl : Option ℤ} {target : Binding} (hw : h.Wf)
    (hst : Approvals.Host.lts.step h
      (.requestBound env identity session action arguments ttl target t) h')
    (hnew : ∀ b ∈ h'.db.bindings, b ∈ h.db.bindings ∨ b.binding = target ∧ b.approval = h.uuids) :
    Quiet h.db h'.db := by
  intro b hb row hrow hs
  rcases (Approvals.Host.lawful hw hst).consumed b.approval row hrow hs with hold | hcon
  · rcases hnew b hb with hmem | ⟨-, hid⟩
    · exact ⟨hmem, hold⟩
    · rw [hid, Db.Wf.approval_new hw] at hold
      cases hold
  · obtain ⟨_, _, _, _, _, ha, -⟩ := hcon
    cases ha

/-- What `consume` does: the approval was approved for the call, or nothing is consumed. -/
theorem consume_cases {identity session action : String} {arguments : Arguments}
    {binding : Option Binding} {out : Option Error} (hw : db.Wf u)
    (hok : ApprovalStore.consume env id identity session action arguments binding u t db =
      .ok (db', out)) :
    binding = db.binding id ∧
      ((out = none ∧ ∃ row, db.approval id = some row ∧ row.identity = identity ∧
          row.session = session ∧ row.action = action ∧ canonical arguments = .ok row.arguments ∧
          row.state = .approved ∧ t < row.expires ∧
          ∀ id', db'.approval id' =
            if id' = id then some { row with state := .consumed } else db.approval id') ∨
        out.isSome = true ∧ db'.approvals = db.approvals) := by
  simp only [ApprovalStore.consume, bind_eq_ok] at hok
  obtain ⟨data, hdata, ⟨⟩, hvalid, hok⟩ := hok
  refine ⟨validateConsumption_ok hvalid, ?_⟩
  let p (row : Approval) : Bool := row.identity = identity && row.session = session &&
    row.action = action && row.arguments = data && row.state = .approved && t < row.expires
  by_cases hup : selects id p db = true
  · rw [if_pos hup, if_pos hup] at hok
    simp only [bind_eq_ok, pure_eq_ok, Prod.mk.injEq] at hok
    obtain ⟨db₁, hrec, rfl, rfl⟩ := hok
    obtain ⟨row, hrow, hp⟩ := selects_iff.1 hup
    have hp' := hp
    simp only [p, Bool.and_eq_true, decide_eq_true_eq] at hp'
    obtain ⟨⟨⟨⟨⟨hidentity, hsession⟩, haction⟩, hargs⟩, hstate⟩, ht⟩ := hp'
    refine .inl ⟨rfl, row, hrow, hidentity, hsession, haction, hargs ▸ hdata, hstate, ht,
      fun id' => ?_⟩
    rw [recordDecision_ok hrec fun e he => (hw.outbox e he).1]
    exact setState_of_selects hrow hp id'
  · have hno : selects id p db = false := by simpa using hup
    rw [if_neg hup, if_neg hup] at hok
    simp only [pure_eq_ok, Prod.mk.injEq] at hok
    obtain ⟨rfl, rfl⟩ := hok
    refine .inr ⟨rfl, ?_⟩
    rw [setState_of_not_selects hw.nodup hno]
    rfl

end

/-! ### What holds of the intents, the calls and the grants -/

/-- The intents, and the bindings of the approval database. -/
structure Waits (waits : List Wait) (bindings : List Bound) : Prop where
  /-- a step has one intent -/
  places : (waits.map Wait.place).Nodup
  /-- an operation has one intent -/
  keys : (waits.map Wait.key).Nodup
  /-- an intent has the binding of its operation -/
  own : ∀ w ∈ waits, (w.binding.submission, w.binding.operation) = w.key
  /-- the approval of an intent is bound to its operation -/
  known : ∀ w ∈ waits, ∀ id, w.approval = some id → ⟨w.binding, id⟩ ∈ bindings
  /-- no approval is bound without an intent -/
  intended : ∀ b ∈ bindings, ∃ w ∈ waits, w.binding = b.binding

/-- The intent is stored, in whatever state its row is. -/
def Stored (waits : List Wait) (intent : Wait) : Prop := ∃ w ∈ waits, w.intent = intent

/-- Every intent stays stored. -/
def Grows (waits waits' : List Wait) : Prop := ∀ i, Stored waits i → Stored waits' i

/-- The approval that a call of `probe` has requested. -/
def Stage.key : Stage → Option ApprovalId
  | intended _ => none
  | asked key | seen key _ => some key

/-- A call of `probe` has an intent, and its approval is bound to the operation. -/
structure Probe.Sound (waits : List Wait) (bindings : List Bound) (p : Probe) : Prop where
  /-- the intent -/
  intent : ∃ w, Stored waits w ∧ w.place = (p.boundary.submission, p.boundary.revision) ∧
    w.binding = p.boundary.target
  /-- the approval -/
  bound : ∀ id, p.stage.key = some id → ⟨p.boundary.target, id⟩ ∈ bindings

/-- A call has the intent of its operation. -/
structure Running.Sound (waits : List Wait) (bindings : List Bound) (r : Running) : Prop where
  /-- the intent -/
  intent : Stored waits r.wait.intent
  /-- it is the one of the operation -/
  key : r.wait.key = (r.call.submission, r.call.operation)
  /-- the payload is the one of the call -/
  payload : Gate.payload r.call.name r.call.arguments r.call.plan = .ok r.data
  /-- and of the intent -/
  same : r.wait.payload = r.data
  /-- the approval that was known is bound to the operation -/
  bound : ∀ id, r.wait.approval = some id → ⟨r.wait.binding, id⟩ ∈ bindings

section

variable (render : Canonical → String)

/-- What a grant rests on: the one approval of the operation was given to the identity and the
session of the call, for the tool and the arguments of the call, and is consumed. -/
structure Grant.Spent (waits : List Wait) (db : Db) (g : Grant) : Prop where
  /-- the intent is stored -/
  intent : Stored waits g.intent
  /-- it is the one of the operation -/
  key : g.intent.key = (g.call.submission, g.call.operation)
  /-- it is for the tool and the arguments of the call -/
  payload : payload g.call.name g.call.arguments g.call.plan = .ok g.intent.payload
  /-- the approval is bound to the operation -/
  bound : db.binding g.approval = some g.intent.binding
  /-- the approval is for the call, and was consumed before it expired -/
  row : ∃ row, db.approval g.approval = some row ∧ row.state = .consumed ∧
    row.identity = g.call.identity ∧ row.session = g.call.session ∧
    row.action = g.intent.action ∧ canonical (g.intent.payload.data render) = .ok row.arguments ∧
    g.time < row.expires
  /-- this identity approved it in this session -/
  approved : ⟨g.approval, g.call.identity, g.call.session, .decided true⟩ ∈ db.events

/-- The grants `g` and `g'` are for the same operation, payload and caller. -/
def Grant.Same (g g' : Grant) : Prop :=
  g'.approval = g.approval ∧ g'.intent = g.intent ∧ g'.call.submission = g.call.submission ∧
    g'.call.operation = g.call.operation ∧ g'.call.identity = g.call.identity ∧
    g'.call.session = g.call.session

/-- The grants, the intents and the approval database. -/
structure Grants (waits : List Wait) (db : Db) (granted confirmed : List Grant) : Prop where
  /-- what each of them rests on -/
  spent : ∀ g ∈ granted, g.Spent render waits db
  /-- an approval is granted once -/
  once : (granted.map Grant.approval).Nodup
  /-- an approval of an operation is consumed by a grant -/
  known : ∀ b ∈ db.bindings, ∀ row, db.approval b.approval = some row → row.state = .consumed →
    ∃ g ∈ granted, g.approval = b.approval
  /-- the adapter confirms grants only -/
  confirmed : ∀ g ∈ confirmed, ∃ g' ∈ granted, g.Same g'

/-- What holds of a host in any order of steps. -/
structure Host.Inv (h : Host) : Prop where
  /-- the approval database is well formed -/
  wf : h.base.Wf
  /-- the intents -/
  waits : Waits h.waits h.base.db.bindings
  /-- the calls of `probe` -/
  probes : ∀ k p, h.probes k = some p → p.Sound h.waits h.base.db.bindings
  /-- the calls of `authorize` -/
  calls : ∀ k r, h.calls k = some r → r.Sound h.waits h.base.db.bindings
  /-- the calls of `assert_consumed` -/
  adapters : ∀ k r, h.adapters k = some r → r.Sound h.waits h.base.db.bindings
  /-- the grants -/
  grants : Grants render h.waits h.base.db h.granted h.confirmed

end

section

variable {waits waits' : List Wait} {bindings bindings' : List Bound} {db db' : Db}
  {render : Canonical → String}

theorem stored_of_mem {w : Wait} (hw : w ∈ waits) : Stored waits w.intent := ⟨w, hw, rfl⟩

theorem Grows.refl (waits : List Wait) : Grows waits waits := fun _ h => h

theorem grows_append (waits new : List Wait) : Grows waits (waits ++ new) := by
  rintro i ⟨w, hw, heq⟩
  exact ⟨w, List.mem_append_left _ hw, heq⟩

/-- A write to the approvals and the states. -/
theorem grows_map {f : Wait → Wait} (hf : ∀ w, (f w).intent = w.intent) :
    Grows waits (waits.map f) := by
  rintro i ⟨w, hw, heq⟩
  exact ⟨f w, List.mem_map_of_mem hw, (hf w).trans heq⟩

/-- An operation has one stored intent. -/
theorem Waits.unique (hw : Waits waits bindings) {i₁ i₂ : Wait} (h₁ : Stored waits i₁)
    (h₂ : Stored waits i₂) (hk : i₁.key = i₂.key) : i₁ = i₂ := by
  obtain ⟨x, hx, rfl⟩ := h₁
  obtain ⟨y, hy, rfl⟩ := h₂
  rw [List.inj_on_of_nodup_map hw.keys hx hy hk]

/-- A stored intent has the binding of its operation. -/
theorem Waits.own_stored (hw : Waits waits bindings) {i : Wait} (h : Stored waits i) :
    (i.binding.submission, i.binding.operation) = i.key := by
  obtain ⟨x, hx, rfl⟩ := h
  exact hw.own x hx

/-- The intents after bindings are added for them. -/
theorem Waits.bind (hw : Waits waits bindings) (hb : ∀ b ∈ bindings, b ∈ bindings')
    (hnew : ∀ b ∈ bindings', b ∈ bindings ∨ ∃ w ∈ waits, w.binding = b.binding) :
    Waits waits bindings' := by
  refine { hw with known := fun w hmem id hid => hb _ (hw.known w hmem id hid), intended := ?_ }
  intro b hmem
  rcases hnew b hmem with hold | hintent
  · exact hw.intended b hold
  · exact hintent

theorem Probe.Sound.mono {p : Probe} (hp : p.Sound waits bindings) (hg : Grows waits waits')
    (hb : ∀ b ∈ bindings, b ∈ bindings') : p.Sound waits' bindings' := by
  obtain ⟨w, hw, hplace, hbinding⟩ := hp.intent
  exact ⟨⟨w, hg w hw, hplace, hbinding⟩, fun id hid => hb _ (hp.bound id hid)⟩

theorem Running.Sound.mono {r : Running} (hr : r.Sound waits bindings) (hg : Grows waits waits')
    (hb : ∀ b ∈ bindings, b ∈ bindings') : r.Sound waits' bindings' :=
  ⟨hg _ hr.intent, hr.key, hr.payload, hr.same, fun id hid => hb _ (hr.bound id hid)⟩

theorem Grant.Spent.later {g : Grant} (hs : g.Spent render waits db) (hg : Grows waits waits')
    (hl : Later db db') : g.Spent render waits' db' := by
  obtain ⟨row, hrow, hstate, hrest⟩ := hs.row
  exact ⟨hg _ hs.intent, hs.key, hs.payload, hl.binding _ _ hs.bound,
    ⟨row, hl.consumed _ _ hrow hstate, hstate, hrest⟩, hl.events _ hs.approved⟩

/-- A change that consumes no approval of an operation. -/
theorem Grants.later {granted confirmed : List Grant}
    (hgr : Grants render waits db granted confirmed) (hg : Grows waits waits') (hl : Later db db')
    (hq : Quiet db db') : Grants render waits' db' granted confirmed := by
  refine ⟨fun g hmem => (hgr.spent g hmem).later hg hl, hgr.once, fun b hb row hrow hs => ?_,
    hgr.confirmed⟩
  obtain ⟨hold, hrow'⟩ := hq b hb row hrow hs
  exact hgr.known b hold row hrow' hs

end

/-! ### What a step does -/

section

variable {waits waits' : List Wait} {bindings : List Bound} {db db' : Db} {u : Token} {t : Time}
  {checked : Except Error Unit} {room running : Bool} {deadline : Option Time} {b : Boundary}
  {p : Probe} {r : Running} {c : Call} {key : ApprovalId} {state : WaitState}
  {render : Canonical → String}

/-- **The first transaction of `probe`.** -/
theorem intend_ok (hw : Waits waits bindings)
    (hok : intend checked deadline room b t waits = .ok (waits', p)) :
    Waits waits' bindings ∧ Grows waits waits' ∧ p.Sound waits' bindings := by
  simp only [intend, bind_eq_ok, require_eq_ok] at hok
  obtain ⟨_, -, data, -, target, htarget, d, -, hok⟩ := hok
  obtain rfl := bindingData_ok htarget
  split at hok
  · next old hold =>
    simp only [bind_eq_ok, ensure_eq_ok, Bool.and_eq_true, decide_eq_true_eq, pure_eq_ok,
      Prod.mk.injEq] at hok
    obtain ⟨_, ⟨⟨-, hbinding⟩, -⟩, rfl, rfl⟩ := hok
    have hmem := Records.mem_of_find hold
    have hplace : old.place = (b.submission, b.revision) := Records.key_of_find hold
    refine ⟨hw, .refl _, ⟨old.intent, stored_of_mem hmem, hplace, hbinding⟩, ?_⟩
    intro id hid
    cases hid
  · next hnone =>
    simp only [bind_eq_ok, ensure_eq_ok, pure_eq_ok, Prod.mk.injEq] at hok
    obtain ⟨_, -, _, hfresh, rfl, rfl⟩ := hok
    have hplace : ∀ w ∈ waits, w.place ≠ (b.submission, b.revision) := fun w hmem => by
      simpa using List.find?_eq_none.1 hnone w hmem
    have hkey : ∀ w ∈ waits, w.key ≠ (b.submission, b.operation) := fun w hmem => by
      simpa using List.all_eq_true.1 hfresh w hmem
    refine ⟨⟨Records.nodup_append hw.places hplace, Records.nodup_append hw.keys hkey, ?_, ?_, ?_⟩,
      grows_append _ _, ⟨_, ⟨_, List.mem_append_right _ (List.mem_singleton_self _), rfl⟩, rfl, rfl⟩,
      fun id hid => (by cases hid)⟩
    · intro w hmem
      rcases List.mem_append.1 hmem with hold | hnew
      · exact hw.own w hold
      · rw [List.mem_singleton.1 hnew]
        rfl
    · intro w hmem id hid
      rcases List.mem_append.1 hmem with hold | hnew
      · exact hw.known w hold id hid
      · rw [List.mem_singleton.1 hnew] at hid
        cases hid
    · intro x hx
      obtain ⟨w, hmem, hbinding⟩ := hw.intended x hx
      exact ⟨w, List.mem_append_left _ hmem, hbinding⟩

/-- **The second transaction of `probe`.** -/
theorem settle_ok (hw : Waits waits bindings) (hp : p.Sound waits bindings)
    (hkey : p.stage.key = some key) (hok : settle checked room p key state waits = .ok waits') :
    Waits waits' bindings ∧ Grows waits waits' := by
  simp only [settle, bind_eq_ok, pure_eq_ok] at hok
  obtain ⟨_, -, _, -, _, -, rfl⟩ := hok
  have hintent : ∀ w : Wait, (if w.place = (p.boundary.submission, p.boundary.revision) then
      { w with approval := some key, state := state } else w).intent = w.intent := by
    intro w
    split_ifs <;> rfl
  refine ⟨⟨?_, ?_, ?_, ?_, ?_⟩, grows_map hintent⟩
  · rw [Records.map_key fun w _ => by split_ifs <;> rfl]
    exact hw.places
  · rw [Records.map_key fun w _ => by split_ifs <;> rfl]
    exact hw.keys
  · intro w' hmem
    obtain ⟨w, hw₀, rfl⟩ := List.mem_map.1 hmem
    have hown := hw.own w hw₀
    split_ifs <;> exact hown
  · intro w' hmem id hid
    obtain ⟨w, hw₀, rfl⟩ := List.mem_map.1 hmem
    split_ifs at hid ⊢ with hplace
    · obtain ⟨_, ⟨x, hx, rfl⟩, hxplace, hxbinding⟩ := hp.intent
      have hxw : x = w := List.inj_on_of_nodup_map hw.places hx hw₀ (hxplace.trans hplace.symm)
      subst hxw
      cases hid
      have hbound := hp.bound key hkey
      rw [← hxbinding] at hbound
      exact hbound
    · exact hw.known w hw₀ id hid
  · intro x hx
    obtain ⟨w, hw₀, hbinding⟩ := hw.intended x hx
    refine ⟨_, List.mem_map_of_mem hw₀, ?_⟩
    split_ifs <;> exact hbinding

theorem authorize_ok (hw : Waits waits bindings)
    (hok : authorize checked running c t waits = .ok r) : r.Sound waits bindings := by
  simp only [authorize, bind_eq_ok, require_eq_ok, Option.filter_eq_some_iff, Bool.and_eq_true,
    decide_eq_true_eq, pure_eq_ok] at hok
  obtain ⟨_, -, data, hdata, w, ⟨hfind, -, hsame⟩, rfl⟩ := hok
  have hmem := Records.mem_of_find hfind
  exact ⟨stored_of_mem hmem, Records.key_of_find hfind, hdata, hsame, hw.known w hmem⟩

theorem inspect_ok (hw : Waits waits bindings) (hok : inspect c waits = .ok r) :
    r.Sound waits bindings := by
  simp only [inspect, bind_eq_ok, require_eq_ok, Option.filter_eq_some_iff, decide_eq_true_eq,
    pure_eq_ok] at hok
  obtain ⟨data, hdata, w, ⟨hfind, hsame⟩, rfl⟩ := hok
  have hmem := Records.mem_of_find hfind
  exact ⟨stored_of_mem hmem, Records.key_of_find hfind, hdata, hsame, hw.known w hmem⟩

/-- **The request of an approval**, or the search for the known one: its binding is the one of the
operation, and a new binding is one of an operation with an intent. -/
theorem ask_ok {base : Approvals.Host} {env : Access} (hb : base.Wf)
    (hw : Waits waits base.db.bindings) (hp : p.Sound waits base.db.bindings)
    (ht : base.now ≤ t) (hok : ask render env checked p base.uuids t base.db = .ok (db', key)) :
    Approvals.Host.Wf ⟨db', t, base.uuids + 1⟩ ∧ Later base.db db' ∧ Quiet base.db db' ∧
      Waits waits db'.bindings ∧ ⟨p.boundary.target, key⟩ ∈ db'.bindings := by
  simp only [ask, bind_eq_ok] at hok
  obtain ⟨_, -, hok⟩ := hok
  split at hok
  · obtain ⟨hmem, hnew⟩ := requestBound_bindings hok
    have hst : Approvals.Host.lts.step base (.requestBound env p.boundary.identity
        p.boundary.session p.boundary.action (p.data.data render)
        (some (max 1 ((p.expires : ℤ) - t))) p.boundary.target t) ⟨db', t, base.uuids + 1⟩ := by
      refine ⟨t, ⟨ht, le_rfl⟩, ?_⟩
      rw [Approvals.Host.after, Approvals.Act.attempt, outcome_eq_ok.2 ⟨key, hok⟩, commit_ok]
    have hlater := later_of_step hb hst
    refine ⟨hb.step hst, hlater, quiet_of_request hb hst hnew, hw.bind hlater.bindings ?_, hmem⟩
    intro b hb'
    rcases hnew b hb' with hold | ⟨htarget, -⟩
    · exact .inl hold
    · obtain ⟨_, ⟨x, hx, rfl⟩, -, hxbinding⟩ := hp.intent
      exact .inr ⟨x, hx, hxbinding.trans htarget.symm⟩
  · simp only [bind_eq_ok, ensure_eq_ok, decide_eq_true_eq, pure_eq_ok, Prod.mk.injEq] at hok
    obtain ⟨_, hbound, rfl, rfl⟩ := hok
    exact ⟨Db.Wf.mono hb (Nat.le_succ _), .refl _, .refl _, hw, mem_of_binding hbound⟩
  · cases hok

/-- **The consumption of an approval.** -/
theorem consume_ok {base : Approvals.Host} {env : Access} {out : Option Error}
    {granted confirmed : List Grant} (hb : base.Wf)
    (hr : r.Sound waits base.db.bindings) (hg : Grants render waits base.db granted confirmed)
    (ht : base.now ≤ t) (hkey : r.wait.approval = some key)
    (hok : consume render env r base.uuids t base.db = .ok (db', out)) :
    Approvals.Host.Wf ⟨db', t, base.uuids + 1⟩ ∧ db'.bindings = base.db.bindings ∧
      Grants render waits db' (if out.isNone then granted ++ [r.grant key t] else granted)
        confirmed := by
  rw [consume, hkey] at hok
  have hst : Approvals.Host.lts.step base (.consume env key r.call.identity r.call.session
      r.wait.action (r.data.data render) (some r.wait.binding) t) ⟨db', t, base.uuids + 1⟩ := by
    refine ⟨t, ⟨ht, le_rfl⟩, ?_⟩
    rw [Approvals.Host.after, Approvals.Act.attempt, outcome_eq_ok.2 ⟨out, hok⟩, commit_ok]
  have hlater : Later base.db db' := later_of_step hb hst
  have hbindings := consume_bindings hok
  obtain ⟨hbound, hcases⟩ := consume_cases hb hok
  refine ⟨hb.step hst, hbindings, ?_⟩
  rcases hcases with ⟨rfl, row, hrow, hidentity, hsession, haction, hargs, hstate, hlt, hafter⟩ |
    ⟨hraised, hsame⟩
  · rw [Option.isNone_none, if_pos rfl]
    have hmine : db'.approval key = some { row with state := .consumed } := by
      rw [hafter, if_pos rfl]
    have hnew : ∀ g ∈ granted, g.approval ≠ key := by
      intro g hmem hid
      obtain ⟨row', hrow', hstate', -⟩ := (hg.spent g hmem).row
      rw [hid, hrow] at hrow'
      cases hrow'
      rw [hstate] at hstate'
      cases hstate'
    refine ⟨fun g hmem => ?_, Records.nodup_append hg.once hnew, fun b hmem row' hrow' hs => ?_,
      fun g hmem => ?_⟩
    · rcases List.mem_append.1 hmem with hold | hlast
      · exact (hg.spent g hold).later (.refl _) hlater
      · rw [List.mem_singleton.1 hlast]
        have happroved := hb.approved key row hrow hstate
        rw [hidentity, hsession] at happroved
        exact ⟨hr.intent, hr.key, hr.same ▸ hr.payload, hlater.binding _ _ hbound.symm,
          ⟨_, hmine, rfl, hidentity, hsession, haction, by
            rw [show (r.grant key t).intent.payload = r.data from hr.same]
            exact hargs, hlt⟩,
          hlater.events _ happroved⟩
    · by_cases hid : b.approval = key
      · exact ⟨r.grant key t, List.mem_append_right _ (List.mem_singleton_self _), hid.symm⟩
      · rw [hafter, if_neg hid] at hrow'
        obtain ⟨g, hmem', hgid⟩ := hg.known b (hbindings ▸ hmem) row' hrow' hs
        exact ⟨g, List.mem_append_left _ hmem', hgid⟩
    · obtain ⟨g', hmem', hsame⟩ := hg.confirmed g hmem
      exact ⟨g', List.mem_append_left _ hmem', hsame⟩
  · have hno : ¬ out.isNone = true := by
      cases out with
      | none => cases hraised
      | some e => exact fun hc => by cases hc
    rw [if_neg hno]
    refine hg.later (.refl _) hlater fun b hmem row hrow hs => ?_
    rw [approval_of_approvals hsame] at hrow
    exact ⟨hbindings ▸ hmem, hrow⟩

/-- **`assert_consumed` confirms grants only.** -/
theorem assertConsumed_ok {granted confirmed : List Grant} (hw : Waits waits db.bindings)
    (hr : r.Sound waits db.bindings) (hg : Grants render waits db granted confirmed)
    (hok : assertConsumed render r db = .ok key) : ∃ g ∈ granted, (r.grant key t).Same g := by
  simp only [assertConsumed, bind_eq_ok, require_eq_ok, Option.filter_eq_some_iff,
    Option.bind_eq_some_iff, Bool.and_eq_true, decide_eq_true_eq, pure_eq_ok] at hok
  obtain ⟨data, -, row, ⟨⟨id, hid, hrow⟩, ⟨⟨⟨⟨hstate, hidentity⟩, hsession⟩, -⟩, -⟩, hbound⟩, rfl⟩ :=
    hok
  obtain rfl := id_of_approval hrow
  obtain ⟨g, hmem, hgid⟩ := hg.known _ (hr.bound _ hid) row hrow hstate
  have hspent := hg.spent g hmem
  have hbinding : g.intent.binding = r.wait.binding := by
    have hb := hspent.bound
    rw [hgid] at hb
    exact Option.some.inj (hb.symm.trans hbound)
  have hkey : g.intent.key = r.wait.intent.key := by
    rw [← hw.own_stored hspent.intent, ← hw.own_stored hr.intent, hbinding]
    rfl
  have hintent := hw.unique hspent.intent hr.intent hkey
  have hcall : (g.call.submission, g.call.operation) = (r.call.submission, r.call.operation) := by
    rw [← hspent.key, hkey]
    exact hr.key
  obtain ⟨row', hrow', -, hidentity', hsession', -⟩ := hspent.row
  rw [hgid, hrow] at hrow'
  cases hrow'
  exact ⟨g, hmem, hgid, hintent, congrArg Prod.fst hcall, congrArg Prod.snd hcall,
    hidentity'.symm.trans hidentity, hsession'.symm.trans hsession⟩

end

/-! ### Runs -/

namespace Host

variable {render : Canonical → String} {h h' : Host} {a : Act} {t : Time}

/-- A step that keeps the intents and the bindings: the calls it changes are sound. -/
theorem Inv.grow (hi : Inv render h) (hwf : h'.base.Wf)
    (hw : Waits h'.waits h'.base.db.bindings) (hg : Grows h.waits h'.waits)
    (hb : ∀ b ∈ h.base.db.bindings, b ∈ h'.base.db.bindings)
    (hp : ∀ k p, h'.probes k = some p →
      h.probes k = some p ∨ p.Sound h'.waits h'.base.db.bindings)
    (hc : ∀ k r, h'.calls k = some r → h.calls k = some r ∨ r.Sound h'.waits h'.base.db.bindings)
    (ha : ∀ k r, h'.adapters k = some r →
      h.adapters k = some r ∨ r.Sound h'.waits h'.base.db.bindings)
    (hgr : Grants render h'.waits h'.base.db h'.granted h'.confirmed) : Inv render h' := by
  refine ⟨hwf, hw, fun k p hk => ?_, fun k r hk => ?_, fun k r hk => ?_, hgr⟩
  · rcases hp k p hk with hold | hnew
    · exact (hi.probes k p hold).mono hg hb
    · exact hnew
  · rcases hc k r hk with hold | hnew
    · exact (hi.calls k r hold).mono hg hb
    · exact hnew
  · rcases ha k r hk with hold | hnew
    · exact (hi.adapters k r hold).mono hg hb
    · exact hnew

theorem of_set {V : Type} {m : Table ℕ V} {k k' : ℕ} {v x : V} (hx : m.set k v k' = some x) :
    m k' = some x ∨ x = v := by
  rw [Table.set_apply] at hx
  split_ifs at hx
  · cases hx
    exact .inr rfl
  · exact .inl hx

/-- Calls may end at any time. -/
theorem Inv.stop (hi : Inv render h) (k : ℕ) : Inv render (h.stop k) :=
  hi.grow hi.wf hi.waits (.refl _) (fun _ hb => hb)
    (fun _ _ hk => .inl (Table.erase_eq_some hk).2) (fun _ _ hk => .inl (Table.erase_eq_some hk).2)
    (fun _ _ hk => .inl (Table.erase_eq_some hk).2) hi.grants

/-- **A step that succeeds keeps the invariant.** -/
theorem Inv.attempt (hi : Inv render h) (ha : a.allowed h.base.now t)
    (hok : h.attempt render t a = .ok h') : Inv render h' := by
  cases a with
  | store a =>
    cases hok
    have hst : Approvals.Host.lts.step h.base a (h.base.after a t) := ⟨t, ha.2, rfl⟩
    have hlater := later_of_step hi.wf hst
    have hquiet := quiet_of_outside hi.wf ha.1 hst
    refine hi.grow (hi.wf.step hst) (hi.waits.bind hlater.bindings ?_) (.refl _) hlater.bindings
      (fun _ _ hk => .inl hk) (fun _ _ hk => .inl hk) (fun _ _ hk => .inl hk)
      (hi.grants.later (.refl _) hlater hquiet)
    intro b hb
    refine .inl ?_
    cases hr : a.attempt h.base.uuids h.base.db with
    | error e => rwa [Approvals.Host.after, hr, commit_error] at hb
    | ok db' =>
      rw [Approvals.Host.after, hr, commit_ok] at hb
      rwa [outside_bindings ha.1 hr] at hb
  | intend k checked deadline room b =>
    simp only [Host.attempt, bind_eq_ok, pure_eq_ok] at hok
    obtain ⟨⟨waits, p⟩, hint, rfl⟩ := hok
    obtain ⟨hw, hg, hp⟩ := intend_ok hi.waits hint
    refine hi.grow hi.wf hw hg (fun _ hb => hb) (fun k' p' hk => ?_) (fun _ _ hk => .inl hk)
      (fun _ _ hk => .inl hk) (hi.grants.later hg (.refl _) (.refl _))
    rcases of_set hk with hold | rfl
    · exact .inl hold
    · exact .inr hp
  | ask k env checked =>
    simp only [Host.attempt, bind_eq_ok, require_eq_ok, pure_eq_ok] at hok
    obtain ⟨p, hp, ⟨db, key⟩, hask, rfl⟩ := hok
    obtain ⟨hwf, hlater, hquiet, hw, hbound⟩ := ask_ok hi.wf hi.waits (hi.probes k p hp) ha hask
    refine hi.grow hwf hw (.refl _) hlater.bindings (fun k' p' hk => ?_) (fun _ _ hk => .inl hk)
      (fun _ _ hk => .inl hk) (hi.grants.later (.refl _) hlater hquiet)
    rcases of_set hk with hold | rfl
    · exact .inl hold
    · refine .inr ⟨(hi.probes k p hp).intent, fun id hid => ?_⟩
      cases hid
      exact hbound
  | look k =>
    simp only [Host.attempt, bind_eq_ok, require_eq_ok] at hok
    obtain ⟨p, hp, hok⟩ := hok
    split at hok
    · next key hkey =>
      simp only [bind_eq_ok, pure_eq_ok] at hok
      obtain ⟨state, -, rfl⟩ := hok
      refine hi.grow hi.wf hi.waits (.refl _) (fun _ hb => hb) (fun k' p' hk => ?_)
        (fun _ _ hk => .inl hk) (fun _ _ hk => .inl hk) hi.grants
      rcases of_set hk with hold | rfl
      · exact .inl hold
      · refine .inr ⟨(hi.probes k p hp).intent, fun id hid => (hi.probes k p hp).bound id ?_⟩
        rw [hkey]
        exact hid
    · cases hok
  | settle k checked room =>
    simp only [Host.attempt, bind_eq_ok, require_eq_ok] at hok
    obtain ⟨p, hp, hok⟩ := hok
    split at hok
    · next key state hkey =>
      simp only [bind_eq_ok, pure_eq_ok] at hok
      obtain ⟨waits, hset, rfl⟩ := hok
      obtain ⟨hw, hg⟩ := settle_ok hi.waits (hi.probes k p hp) (by rw [hkey]; rfl) hset
      exact hi.grow hi.wf hw hg (fun _ hb => hb) (fun _ _ hk => .inl (Table.erase_eq_some hk).2)
        (fun _ _ hk => .inl hk) (fun _ _ hk => .inl hk) (hi.grants.later hg (.refl _) (.refl _))
    · cases hok
  | authorize k checked running c =>
    simp only [Host.attempt, bind_eq_ok, pure_eq_ok] at hok
    obtain ⟨r, hr, rfl⟩ := hok
    refine hi.grow hi.wf hi.waits (.refl _) (fun _ hb => hb) (fun _ _ hk => .inl hk)
      (fun k' r' hk => ?_) (fun _ _ hk => .inl hk) hi.grants
    rcases of_set hk with hold | rfl
    · exact .inl hold
    · exact .inr (authorize_ok hi.waits hr)
  | consume k env =>
    simp only [Host.attempt, bind_eq_ok, require_eq_ok, pure_eq_ok] at hok
    obtain ⟨r, hr, ⟨db, raised⟩, hcon, key, hkey, rfl⟩ := hok
    obtain ⟨hwf, hbindings, hgr⟩ := consume_ok hi.wf (hi.calls k r hr) hi.grants ha hkey hcon
    refine hi.grow hwf ?_ (.refl _) (fun b hb => ?_) (fun _ _ hk => .inl hk)
      (fun _ _ hk => .inl (Table.erase_eq_some hk).2) (fun _ _ hk => .inl hk) hgr
    · show Waits h.waits db.bindings
      rw [hbindings]
      exact hi.waits
    · show b ∈ db.bindings
      rw [hbindings]
      exact hb
  | inspect k c =>
    simp only [Host.attempt, bind_eq_ok, pure_eq_ok] at hok
    obtain ⟨r, hr, rfl⟩ := hok
    refine hi.grow hi.wf hi.waits (.refl _) (fun _ hb => hb) (fun _ _ hk => .inl hk)
      (fun _ _ hk => .inl hk) (fun k' r' hk => ?_) hi.grants
    rcases of_set hk with hold | rfl
    · exact .inl hold
    · exact .inr (inspect_ok hi.waits hr)
  | assertConsumed k =>
    simp only [Host.attempt, bind_eq_ok, require_eq_ok, pure_eq_ok] at hok
    obtain ⟨r, hr, key, hcon, rfl⟩ := hok
    have hsame := assertConsumed_ok (t := t) hi.waits (hi.adapters k r hr) hi.grants hcon
    refine hi.grow hi.wf hi.waits (.refl _) (fun _ hb => hb) (fun _ _ hk => .inl hk)
      (fun _ _ hk => .inl hk) (fun _ _ hk => .inl (Table.erase_eq_some hk).2)
      { hi.grants with confirmed := fun g hmem => ?_ }
    rcases List.mem_append.1 hmem with hold | hlast
    · exact hi.grants.confirmed g hold
    · rw [List.mem_singleton.1 hlast]
      exact hsame
  | stop k =>
    cases hok
    exact hi.stop k

/-- **Every step keeps the invariant.** -/
theorem Inv.step (hi : Inv render h) (hst : (lts render).step h a h') : Inv render h' := by
  obtain ⟨t, ha, rfl⟩ := hst
  have htick : ∀ h₁ : Host, Inv render h₁ → Inv render { h₁ with base := { h₁.base with now := t } } :=
    fun h₁ h₁i => ⟨h₁i.wf, h₁i.waits, h₁i.probes, h₁i.calls, h₁i.adapters, h₁i.grants⟩
  unfold after
  cases hr : h.attempt render t a with
  | ok h₁ => exact htick h₁ (hi.attempt ha hr)
  | error e =>
    refine htick _ ?_
    unfold failed
    cases a.number with
    | none => exact hi
    | some k => exact hi.stop k

/-- A step keeps what is bound to an operation. -/
theorem Inv.keeps_bound (hi : Inv render h) (ha : a.allowed h.base.now t)
    (hok : h.attempt render t a = .ok h') {b : Bound} (hb : b ∈ h.base.db.bindings) :
    b ∈ h'.base.db.bindings := by
  cases a with
  | store a =>
    cases hok
    have hst : Approvals.Host.lts.step h.base a (h.base.after a t) := ⟨t, ha.2, rfl⟩
    exact (later_of_step hi.wf hst).bindings b hb
  | ask k env checked =>
    simp only [Host.attempt, bind_eq_ok, require_eq_ok, pure_eq_ok] at hok
    obtain ⟨p, hp, ⟨db, key⟩, hask, rfl⟩ := hok
    exact (ask_ok hi.wf hi.waits (hi.probes k p hp) ha hask).2.1.bindings b hb
  | consume k env =>
    simp only [Host.attempt, bind_eq_ok, require_eq_ok, pure_eq_ok] at hok
    obtain ⟨r, hr, ⟨db, raised⟩, hcon, key, hkey, rfl⟩ := hok
    have hbindings := (consume_ok hi.wf (hi.calls k r hr) hi.grants ha hkey hcon).2.1
    show b ∈ db.bindings
    rw [hbindings]
    exact hb
  | look k | settle k checked room =>
    simp only [Host.attempt, bind_eq_ok, require_eq_ok] at hok
    obtain ⟨p, -, hok⟩ := hok
    split at hok
    · simp only [bind_eq_ok, pure_eq_ok] at hok
      obtain ⟨_, -, rfl⟩ := hok
      exact hb
    · cases hok
  | intend k checked deadline room b' =>
    simp only [Host.attempt, bind_eq_ok, pure_eq_ok] at hok
    obtain ⟨_, -, rfl⟩ := hok
    exact hb
  | authorize k checked running c =>
    simp only [Host.attempt, bind_eq_ok, pure_eq_ok] at hok
    obtain ⟨_, -, rfl⟩ := hok
    exact hb
  | inspect k c =>
    simp only [Host.attempt, bind_eq_ok, pure_eq_ok] at hok
    obtain ⟨_, -, rfl⟩ := hok
    exact hb
  | assertConsumed k =>
    simp only [Host.attempt, bind_eq_ok, require_eq_ok, pure_eq_ok] at hok
    obtain ⟨_, -, _, -, rfl⟩ := hok
    exact hb
  | stop k =>
    cases hok
    exact hb

/-- What is bound to an operation stays bound to it in every run. -/
theorem Inv.bound_run (hi : Inv render h) {as : List Act} (hrun : (lts render).Run h as h')
    {b : Bound} (hb : b ∈ h.base.db.bindings) : b ∈ h'.base.db.bindings := by
  refine (hrun.preserves (P := fun s => Inv render s ∧ b ∈ s.base.db.bindings) ?_ ⟨hi, hb⟩).2
  rintro s a s' ⟨hi, hb⟩ hst
  refine ⟨hi.step hst, ?_⟩
  obtain ⟨t, ha, rfl⟩ := hst
  unfold after
  cases hr : s.attempt render t a with
  | ok s₁ => exact hi.keeps_bound ha hr hb
  | error e =>
    show b ∈ (s.failed a).base.db.bindings
    unfold failed
    cases a.number with
    | none => exact hb
    | some k => exact hb

theorem Initial.inv (hi : h.Initial) : Inv render h := by
  obtain ⟨base, hbase, rfl⟩ := hi
  have hdb : base.db = .empty := hbase
  have hnone : ∀ b, b ∉ base.db.bindings := fun b hb => by
    rw [hdb] at hb
    cases hb
  refine ⟨hbase.wf, ⟨List.nodup_nil, List.nodup_nil, ?_, ?_, fun b hb => absurd hb (hnone b)⟩,
    fun k p hk => (by cases hk), fun k r hk => (by cases hk), fun k r hk => (by cases hk),
    ⟨?_, List.nodup_nil, fun b hb => absurd hb (hnone b), ?_⟩⟩ <;> intro x hx <;> cases hx

theorem inv (hr : (lts render).Reachable Initial h) : Inv render h :=
  hr.invariant (fun _ hi => hi.inv) fun _ _ _ hi hst => hi.step hst

/-- An operation has one approval. -/
theorem Inv.bindings_nodup (hi : Inv render h) :
    (h.base.db.bindings.map fun b => (b.binding.submission, b.binding.operation)).Nodup := by
  have hn : (h.base.db.bindings.map Bound.binding).Nodup := hi.wf.bindings
  refine (List.nodup_map_iff_inj_on (hn.of_map _)).2 fun b hb b' hb' heq => ?_
  obtain ⟨w, hw, hwb⟩ := hi.waits.intended b hb
  obtain ⟨w', hw', hwb'⟩ := hi.waits.intended b' hb'
  have hkey : w.key = w'.key := by
    rw [← hi.waits.own w hw, ← hi.waits.own w' hw', hwb, hwb']
    exact heq
  have hww : w = w' := List.inj_on_of_nodup_map hi.waits.keys hw hw' hkey
  refine List.inj_on_of_nodup_map hn hb hb' ?_
  rw [← hwb, ← hwb', hww]

/-- An operation is granted once. -/
theorem Inv.granted_nodup (hi : Inv render h) :
    (h.granted.map fun g => (g.call.submission, g.call.operation)).Nodup := by
  refine (List.nodup_map_iff_inj_on (hi.grants.once.of_map _)).2 fun g hg g' hg' heq => ?_
  have hs := hi.grants.spent g hg
  have hs' := hi.grants.spent g' hg'
  have hintent : g.intent = g'.intent :=
    hi.waits.unique hs.intent hs'.intent (by rw [hs.key, hs'.key]; exact heq)
  have hmem := mem_of_binding hs.bound
  have hmem' := mem_of_binding hs'.bound
  rw [← hintent] at hmem'
  have hbound := List.inj_on_of_nodup_map hi.wf.bindings hmem hmem' rfl
  exact List.inj_on_of_nodup_map hi.grants.once hg hg' (congrArg Bound.approval hbound)

/-- **An operation is granted at most once**, and only on the one approval that was ever bound to
it: one that is for exactly this tool, these arguments and this plan, that the identity of the call
has approved in its session, and that had not expired.  No approval is requested for an operation
without its stored intent, none is ever unbound, and the adapter that writes files goes on only after
the grant. -/
theorem gated (hr : (lts render).Reachable Initial h) :
    (∀ g ∈ h.granted, g.Spent render h.waits h.base.db) ∧
      (h.granted.map fun g => (g.call.submission, g.call.operation)).Nodup ∧
      (h.base.db.bindings.map fun b => (b.binding.submission, b.binding.operation)).Nodup ∧
      (∀ b ∈ h.base.db.bindings, ∃ w ∈ h.waits, w.binding = b.binding) ∧
      (∀ as h', (lts render).Run h as h' → ∀ b ∈ h.base.db.bindings, b ∈ h'.base.db.bindings) ∧
      ∀ g ∈ h.confirmed, ∃ g' ∈ h.granted, g.Same g' := by
  have hi := inv hr
  exact ⟨hi.grants.spent, hi.granted_nodup, hi.bindings_nodup, hi.waits.intended,
    fun _ _ hrun _ hb => hi.bound_run hrun hb, hi.grants.confirmed⟩

/-! ### One operation -/

namespace Sample

/-- A file write. -/
def boundary : Boundary where
  submission := "0123456789abcdef0123456789abcdef"
  queue := "q"
  owner := "o"
  task := "t"
  revision := 3
  iteration := 1
  call := "c"
  name := "write_file"
  arguments := ⟨[("content", "\"x\""), ("path", "\"a/b\"")], true⟩
  plan := some "{}"
  project := "p"
  identity := "human"
  session := "s"

/-- Its call. -/
def call : Call :=
  ⟨boundary.submission, boundary.operation, "human", "s", "write_file", boundary.arguments,
    some "{}"⟩

/-- An object as a text. -/
def shown (items : Canonical) : String := ",".intercalate (items.map fun x => x.1 ++ ":" ++ x.2)

/-- `probe`, as often as it is called. -/
def probe : List Act :=
  [.intend 0 (.ok ()) (some 1000) true boundary, .ask 0 {} (.ok ()), .look 0,
    .settle 0 (.ok ()) true]

/-- The request and its approval. -/
def asked : List Act := probe ++ [.store (.decide {} (.ok ()) 0 "human" "s" true 0 0 0)]

/-- The write. -/
def written : List Act :=
  [.authorize 1 (.ok ()) true call, .consume 1 {}, .inspect 2 call, .assertConsumed 2]

/-- All of it. -/
def acts : List Act := asked ++ probe ++ written

/-- The steps at time `0`. -/
def play (h : Host) (acts : List Act) : Host := acts.foldl (fun h a => h.after shown a 0) h

theorem play_reachable {h : Host} (hr : (lts shown).Reachable Initial h) (hnow : h.base.now = 0)
    {acts : List Act} (ha : ∀ a ∈ acts, a.allowed 0 0) :
    (lts shown).Reachable Initial (play h acts) := by
  induction acts generalizing h with
  | nil => exact hr
  | cons a acts ih =>
    have hst : (lts shown).step h a (h.after shown a 0) :=
      ⟨0, hnow ▸ ha a List.mem_cons_self, rfl⟩
    exact ih (hr.step hst) rfl fun b hb => ha b (List.mem_cons_of_mem _ hb)

/-- New tables. -/
def start : Host := { base := ⟨.empty, 0, 0⟩ }

theorem reachable : (lts shown).Reachable Initial (play start acts) := by
  refine play_reachable (.of_init ⟨⟨.empty, 0, 0⟩, rfl, rfl⟩) rfl ?_
  simp [acts, asked, probe, written, Act.allowed, Act.outside, Approvals.Act.clocked]

/-- What `payload` returns for the write. -/
def data : Payload := ⟨"write_file", [("content", "\"x\""), ("path", "\"a/b\"")], some "{}"⟩

/-- The arguments of its approval. -/
def asText : Canonical :=
  [("arguments", shown data.arguments), ("file_precondition", "{}"), ("tool", "write_file")]

/-- Its approval. -/
def row (state : State) : Approval :=
  ⟨0, boundary.identity, boundary.session, boundary.action, asText, 300, state⟩

/-- Its intent, with what `probe` has seen of the approval. -/
def wait (seen : State) : Wait where
  submission := boundary.submission
  revision := boundary.revision
  operation := boundary.operation
  call := boundary.call
  payload := data
  binding := boundary.target
  action := boundary.action
  expires := 300
  approval := some 0
  state := .of seen

/-- The approval database before the decision. -/
def pending : Db :=
  ⟨[row .pending], [⟨boundary.target, 0⟩], [],
    [⟨0, boundary.identity, boundary.session, .requested⟩]⟩

/-- The approval database after the decision. -/
def approved : Db :=
  ⟨[row .approved], [⟨boundary.target, 0⟩], [⟨1, 0, .approved, false⟩],
    [⟨0, boundary.identity, boundary.session, .requested⟩,
      ⟨0, boundary.identity, boundary.session, .decided true⟩]⟩

/-- The approval database after the write. -/
def consumed : Db :=
  ⟨[row .consumed], [⟨boundary.target, 0⟩], [⟨1, 0, .approved, false⟩, ⟨3, 0, .consumed, false⟩],
    [⟨0, boundary.identity, boundary.session, .requested⟩,
      ⟨0, boundary.identity, boundary.session, .decided true⟩,
      ⟨0, boundary.identity, boundary.session, .consumed⟩]⟩

/-- The tables between two calls. -/
def between (db : Db) (uuids : ℕ) (seen : State) : Host where
  base := ⟨db, 0, uuids⟩
  waits := [wait seen]
  probes := Table.empty.erase 0

-- `canonical` sorts, which only rewriting evaluates.
theorem canonical_arguments :
    canonical { boundary.arguments with
      items := boundary.arguments.items.filter fun x => x.1 ∉ unshown } = .ok data.arguments := by
  simp +decide [canonical, boundary, unshown, unbound, data, ensure, bind, Except.bind, pure,
    Except.pure, List.mergeSort, List.MergeSort.Internal.splitInTwo]

theorem payload_boundary : payload boundary.name boundary.arguments boundary.plan = .ok data := by
  rw [payload, canonical_arguments]
  rfl

theorem payload_call : payload call.name call.arguments call.plan = .ok data := payload_boundary

theorem canonical_data : canonical (data.data shown) = .ok asText := by
  simp +decide [canonical, Payload.data, data, asText, unbound, ensure, bind, Except.bind, pure,
    Except.pure, List.mergeSort, List.MergeSort.Internal.splitInTwo]

theorem bindingData_target : bindingData boundary.target = .ok boundary.target := by
  decide +kernel

/-- A call of `probe`, from what its transactions give. -/
theorem play_probe {h : Host} {waits waits' : List Wait} {p : Probe} {db : Db} {key : ApprovalId}
    {seen : WaitState}
    (hintend : intend (.ok ()) (some 1000) true boundary 0 h.waits = .ok (waits, p))
    (hask : ask shown {} (.ok ()) p h.base.uuids 0 h.base.db = .ok (db, key))
    (hlook : look shown { p with stage := .asked key } key 0 db = .ok seen)
    (hsettle : settle (.ok ()) true { p with stage := .seen key seen } key seen waits =
      .ok waits') :
    play h probe = { h with
      base := ⟨db, 0, h.base.uuids + 1⟩
      waits := waits'
      probes := h.probes.erase 0 } := by
  simp [play, probe, after, attempt, hintend, hask, hlook, hsettle, Table.set_set, Table.erase_set,
    require, bind, Except.bind, pure, Except.pure]

theorem intend_new : intend (.ok ()) (some 1000) true boundary 0 [] =
    .ok ([(wait .pending).intent], ⟨boundary, data, 300, .intended none⟩) := by
  simp [intend, payload_boundary, bindingData_target, wait, Wait.intent, Records.find]

theorem intend_known (seen : State) : intend (.ok ()) (some 1000) true boundary 0 [wait seen] =
    .ok ([wait seen], ⟨boundary, data, 300, .intended (some 0)⟩) := by
  simp [intend, payload_boundary, bindingData_target, wait, Wait.place, Records.find]

theorem ask_new : ask shown {} (.ok ()) ⟨boundary, data, 300, .intended none⟩ 0 0 .empty =
    .ok (pending, 0) := by
  simp +decide [ask, requestBound, bindingData_target, canonical_data, insert, audit, pending, row,
    Db.empty, Db.approval, Records.find]

theorem ask_known (u : Token) : ask shown {} (.ok ()) ⟨boundary, data, 300, .intended (some 0)⟩ u 0
    approved = .ok (approved, 0) := by
  simp [ask, approved, Db.binding, Records.find]

theorem look_row {db : Db} {state : State} (hrow : db.approval 0 = some (row state))
    (stage : Stage) : look shown ⟨boundary, data, 300, stage⟩ 0 0 db = .ok (.of state) := by
  simp [look, canonical_data, hrow, row, require, Option.filter, bind, Except.bind, pure,
    Except.pure]

theorem settle_wait {w : Wait} (hplace : w.place = (boundary.submission, boundary.revision))
    {seen : State} (hseen : seen ≠ .consumed) (stage : Stage) :
    settle (.ok ()) true ⟨boundary, data, 300, stage⟩ 0 (.of seen) [w] =
      .ok [{ w with approval := some 0, state := .of seen }] := by
  simp [settle, hplace, hseen]

/-- The approval is requested. -/
theorem play_first : play start probe = between pending 1 .pending :=
  play_probe intend_new ask_new (look_row rfl _) (settle_wait rfl (by decide) _)

/-- The human approves it. -/
theorem play_decided : play (between pending 1 .pending)
    [.store (.decide {} (.ok ()) 0 "human" "s" true 0 0 0)] = between approved 2 .pending := rfl

/-- The same call of `probe` finds it approved. -/
theorem play_again : play (between approved 2 .pending) probe = between approved 3 .approved := by
  rw [play_probe (h := between approved 2 .pending) (intend_known .pending) (ask_known 2)
    (look_row rfl _) (settle_wait rfl (by decide) _)]
  simp only [between, Table.erase_erase, wait]

theorem find_wait (seen : State) :
    Records.find Wait.key (call.submission, call.operation) [wait seen] = some (wait seen) := rfl

theorem authorize_wait : authorize (.ok ()) true call 0 [wait .approved] =
    .ok ⟨call, data, wait .approved⟩ := by
  simp only [authorize, payload_call, find_wait]
  simp [wait, Option.filter, require, bind, Except.bind, pure, Except.pure]

theorem inspect_wait : inspect call [wait .approved] = .ok ⟨call, data, wait .approved⟩ := by
  simp only [inspect, payload_call, find_wait]
  simp [wait, Option.filter, require, bind, Except.bind, pure, Except.pure]

theorem call_identity : call.identity = boundary.identity := rfl

theorem call_session : call.session = boundary.session := rfl

theorem consume_row : consume shown {} ⟨call, data, wait .approved⟩ 3 0 approved =
    .ok (consumed, none) := by
  simp [consume, ApprovalStore.consume, validateConsumption, bindingData_target, canonical_data,
    wait, approved, consumed, row, call_identity, call_session, Except.map, Db.binding,
    Db.approval, Records.find, selects, setState, audit, recordDecision]

theorem assertConsumed_row :
    assertConsumed shown ⟨call, data, wait .approved⟩ consumed = .ok 0 := by
  simp [assertConsumed, canonical_data, wait, consumed, row, call_identity, call_session,
    Db.binding, Db.approval, Records.find, Option.filter, require, bind, Except.bind, pure,
    Except.pure]

/-- The tool consumes it and writes. -/
theorem play_written : (play (between approved 3 .approved) written).confirmed.length = 1 := by
  have happroval : (wait .approved).approval = some 0 := rfl
  simp [play, written, between, after, attempt, authorize_wait, consume_row, happroval,
    inspect_wait, assertConsumed_row, require, bind, Except.bind, pure, Except.pure]

theorem play_append (h : Host) (as bs : List Act) :
    play h (as ++ bs) = play (play h as) bs := List.foldl_append

theorem confirmed_length : (play start acts).confirmed.length = 1 := by
  rw [acts, asked, play_append, play_append, play_append, play_first, play_decided, play_again]
  exact play_written

end Sample

/-- The write was confirmed, and rests on its grant. -/
theorem gated_sample : (Sample.play Sample.start Sample.acts).confirmed.length = 1 ∧
    ∀ g ∈ (Sample.play Sample.start Sample.acts).confirmed,
      ∃ g' ∈ (Sample.play Sample.start Sample.acts).granted, g.Same g' := by
  obtain ⟨-, -, -, -, -, hconfirmed⟩ := gated Sample.reachable
  exact ⟨Sample.confirmed_length, hconfirmed⟩

end Host

end Gate

end Approvals

end PythonAI
