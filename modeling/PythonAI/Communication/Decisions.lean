import PythonAI.Approvals.Grants
import PythonAI.Communication.Live

/-!
# A human decides on an approval

A turn asks for an approval under the identity and the session of the command that it runs for
(`agent_runtime_command_runner`).  The human decides with a message of the same conversation, which
`_process_next` passes to `human_command` under the session `platform:conversation`.

* `answer` : `human_command`;
* `Host.lts` : the processes of the worker, the turns that ask, and everybody else who uses the
  approval database;
* `Host.decided_where_asked` : **a decision is accepted exactly if the command that asked belongs to
  the first session of its conversation**, the sender is an admin, and a bound operation still waits;
* `Host.asked_elsewhere` : after `/new-session` no decision is accepted.
-/

namespace PythonAI

open Library

namespace Communication

/-- The identity of the sender. -/
def Command.identity (c : Command) : String := c.platform ++ ":" ++ c.sender

/-- `platform:conversation`: the first session of a conversation. -/
def Command.firstSession (c : Command) : String := c.platform ++ ":" ++ c.conversation

namespace Decisions

open Approvals (ApprovalId)

/-! ### `human_command` -/

/-- What the text of a human command asks for. -/
inductive Order
  /-- `/approvals` -/
  | pending
  /-- `/approve` or `/deny` without one id -/
  | usage
  /-- `/approve` or `/deny` -/
  | decide (id : ApprovalId) (approve : Bool)
  deriving DecidableEq, Repr

/-- The order of a text that `human_command` takes; `key` reads the id of an approval. -/
def order (key : String → ApprovalId) (text : String) : Order :=
  if Worker.firstWord text = "/approvals" then .pending
  else
    match (words text).tail with
    | [id] => .decide (key id) (Worker.firstWord text = "/approve")
    | _ => .usage

/-- What `human_command` reads outside the approval database, and the clock. -/
structure Reading where
  /-- `current_role() == 'admin'` -/
  admin : Bool := true
  /-- the room in the outbox -/
  env : Access := {}
  /-- the outcome of `validate_target` -/
  target : Except Error Unit := .ok ()
  /-- the clock values of `ApprovalStore.decide` -/
  t₁ : Time
  /-- the second one -/
  t₂ : Time
  /-- the third one -/
  t₃ : Time

/-- The answer of `human_command`. -/
inductive Answer
  /-- the role is not `admin` -/
  | denied
  /-- the pending approvals -/
  | pending (rows : List Approvals.Approval)
  /-- the usage -/
  | usage
  /-- the decision is saved; `task` is the task of the bound operation -/
  | saved (task : Option TaskId)
  /-- the decision is refused -/
  | refused (message : String)
  deriving DecidableEq, Repr

/-- The text of the answer; `dumps` writes the rows. -/
def Answer.text (dumps : List Approvals.Approval → String) : Answer → String
  | denied => "Permission denied: approval decisions require admin role."
  | pending rows => dumps rows
  | usage => "Usage: /approve <approval_id> or /deny <approval_id>"
  | saved (some task) =>
    "Approval decision saved. The original Temporal task will continue or stop; use /resume " ++
      task ++ " to retrieve its result."
  | saved none =>
    "Approval decision saved. Retry the identical operation with this approval_id."
  | refused message => message

/-- The call of `ApprovalStore.decide` that `human_command` makes. -/
def Reading.call (x : Reading) (o : Order) (identity session : String) : Option Approvals.Act :=
  match o with
  | .decide id approve =>
    if x.admin then some (.decide x.env x.target id identity session approve x.t₁ x.t₂ x.t₃)
    else none
  | _ => none

/-- `pending`, at time `t`. -/
def pendingRows (identity session : String) (t : Time) (db : Approvals.Db) :
    List Approvals.Approval :=
  db.approvals.filter fun row => row.identity = identity && row.session = session &&
    row.state = .pending && t < row.expires

/-- `human_command`, with the id `u` of the event that it may record. -/
def answer (x : Reading) (o : Order) (identity session : String) (u : Token)
    (db : Approvals.Db) : Except Error Answer :=
  if !x.admin then .ok .denied
  else
    match o with
    | .pending => .ok (.pending (pendingRows identity session x.t₁ db))
    | .usage => .ok .usage
    | .decide id approve =>
      match Approvals.ApprovalStore.decide x.env x.target id identity session approve u x.t₁ x.t₂
        x.t₃ db with
      | .ok (db', none) => .ok (.saved ((db'.binding id).map Approvals.Binding.task))
      -- only a `PermissionError` is caught
      | .ok (_, some (.permission message)) | .error (.permission message) =>
        .ok (.refused message)
      | .ok (_, some e) | .error e => .error e

/-! ### The processes -/

/-- A request for an approval. -/
inductive Request
  /-- `request` without a binding -/
  | plain (action : String) (arguments : Approvals.Arguments) (ttl : ℤ) (t₁ t₂ : Time)
  /-- `request` with the binding of an operation of the Temporal backend -/
  | bound (env : Access) (action : String) (arguments : Approvals.Arguments) (ttl : Option ℤ)
      (binding : Approvals.Binding) (t : Time)

/-- The call of a turn that is run for the command `c`. -/
def Request.call (c : Command) : Request → Approvals.Act
  | plain action arguments ttl t₁ t₂ =>
    .request c.identity c.sessionName action arguments ttl t₁ t₂
  | bound env action arguments ttl binding t =>
    .requestBound env c.identity c.sessionName action arguments ttl binding t

/-- What the call returns. -/
def Request.outcome (c : Command) (u : Token) (db : Approvals.Db) :
    Request → Except Error (Approvals.Db × ApprovalId)
  | plain action arguments ttl t₁ t₂ =>
    Approvals.ApprovalStore.request c.identity c.sessionName action arguments ttl u t₁ t₂ db
  | bound env action arguments ttl binding t =>
    Approvals.requestBound env c.identity c.sessionName action arguments ttl binding u t db

/-- The approval that the turn is given, if the call returns. -/
def Request.id (c : Command) (u : Token) (db : Approvals.Db) (r : Request) : Option ApprovalId :=
  match r.outcome c u db with
  | .ok (_, id) => some id
  | .error _ => none

/-- The worker and the approval database. -/
structure Host where
  /-- the processes of the worker, with their databases -/
  worker : Worker.Host
  /-- the approval database -/
  approvals : Approvals.Host
  /-- the approvals that turns were given, with the command of the turn -/
  asked : List (ApprovalId × Command)

/-- A step. -/
inductive Act
  /-- a step of the worker, other than a call of `human_command` -/
  | work (a : Worker.Act)
  /-- anybody else uses the approval database, up to the time `t` -/
  | approval (a : Approvals.Act) (t : Time)
  /-- a turn that is run for the command `c` asks for an approval -/
  | ask (c : Command) (r : Request) (t : Time)
  /-- the poller of the process `w` calls `human_command` -/
  | human (w : ℕ) (x : Reading) (t : Time)

namespace Host

variable (owner : Command → Owner) (key : String → ApprovalId)
  (dumps : List Approvals.Approval → String)

/-- The command that the poller of the process `w` passes to `human_command`. -/
def commanded (h : Host) (w : ℕ) : Option Command :=
  match h.worker.pollers w with
  | .marked c => if Worker.humanCommand c.text then some c else none
  | _ => none

/-- A step of the worker is the call of `human_command`. -/
def calls (h : Host) : Worker.Act → Bool
  | .poll w (.dispatch ..) => (h.commanded w).isSome
  | _ => false

/-- The answer to the command `c`. -/
def answer (h : Host) (x : Reading) (c : Command) : Except Error Answer :=
  Decisions.answer x (order key c.text) c.identity c.firstSession h.approvals.uuids h.approvals.db

/-- What the poller of the process `w` does with the answer. -/
def replies (w : ℕ) (t : Time) : Except Error Answer → Worker.Act
  | .ok a => .poll w (.dispatch none (a.text dumps) t)
  | .error _ => .poll w .abort

/-- The approval database after a call, if there is one. -/
def decidedAfter (h : Approvals.Host) (t : Time) : Option Approvals.Act → Approvals.Host
  | some a => h.after a t
  | none => h

/-- A turn is run for a command that is stored. -/
def turns (h : Host) (c : Command) : Prop :=
  ∃ j, h.worker.db.job c.id = some j ∧ attachmentOwner j.command = attachmentOwner c ∧
    j.command.session = c.session

/-- One step at a time. -/
def lts : Lts Host Act where
  step h a h' :=
    match a with
    | .work a => h.calls a = false ∧ h' = { h with worker := h.worker.act owner a }
    | .approval a t =>
      a.clocked h.approvals.now t ∧ h' = { h with approvals := h.approvals.after a t }
    | .ask c r t =>
      h.turns c ∧ (r.call c).clocked h.approvals.now t ∧
        h' = { h with
          approvals := h.approvals.after (r.call c) t
          asked := h.asked ++
            ((r.id c h.approvals.uuids h.approvals.db).map fun id => (id, c)).toList }
    | .human w x t =>
      ∃ c, h.commanded w = some c ∧
        (∀ a, x.call (order key c.text) c.identity c.firstSession = some a →
          a.clocked h.approvals.now t) ∧
        h' = { h with
          worker := h.worker.act owner (replies dumps w t (h.answer key x c))
          approvals := decidedAfter h.approvals t
            (x.call (order key c.text) c.identity c.firstSession) }

/-- New databases. -/
structure Initial (h : Host) : Prop where
  /-- the worker -/
  worker : Worker.Host.Initial h.worker
  /-- the approval database -/
  approvals : Approvals.Host.Initial h.approvals
  /-- no turn has asked -/
  asked : h.asked = []

/-! ### What a turn was given -/

end Host

section

variable {c : Command} {r : Request} {id : ApprovalId} {u : Token} {db db' : Approvals.Db}

/-- The approval is one of the sender and of the session of the command. -/
def Given (db : Approvals.Db) (id : ApprovalId) (c : Command) : Prop :=
  ∃ row, db.approval id = some row ∧ row.identity = c.identity ∧ row.session = c.sessionName

theorem insert_given {row : Approvals.Approval} (h : Approvals.insert row db = .ok db') :
    db'.approval row.id = some row := by
  have hnew : (db.approval row.id).isNone = true := by
    simp only [Approvals.insert, bind_eq_ok, ensure_eq_ok] at h
    exact h.choose_spec.1
  rw [Approvals.insert_ok h]
  refine Records.find_append_new fun x hx hid => ?_
  obtain ⟨y, hy⟩ := Records.find_isSome Approvals.Approval.id hx
  rw [hid] at hy
  rw [Option.isNone_iff_eq_none] at hnew
  rw [Approvals.Db.approval, hy] at hnew
  cases hnew

theorem request_given {identity session action : String} {arguments : Approvals.Arguments}
    {ttl : ℤ} {t₁ t₂ : Time} (hw : db.Wf u)
    (h : Approvals.ApprovalStore.request identity session action arguments ttl u t₁ t₂ db =
      .ok (db', id)) :
    ∃ row, db'.approval id = some row ∧ row.identity = identity ∧ row.session = session := by
  simp only [Approvals.ApprovalStore.request, bind_eq_ok] at h
  obtain ⟨data, -, h⟩ := h
  split at h
  · next row hrow =>
    simp only [pure_eq_ok, Prod.mk.injEq] at h
    obtain ⟨rfl, rfl⟩ := h
    have hp := List.find?_some hrow
    simp only [Bool.and_eq_true, decide_eq_true_eq] at hp
    exact ⟨row, Records.find_of_mem hw.nodup (List.mem_of_find?_eq_some hrow), hp.1.1.1.1.1,
      hp.1.1.1.1.2⟩
  · simp only [bind_eq_ok, pure_eq_ok, Prod.mk.injEq] at h
    obtain ⟨db₁, hi, rfl, rfl⟩ := h
    exact ⟨_, insert_given hi, rfl, rfl⟩

theorem requestBound_given {env : Access} {identity session action : String}
    {arguments : Approvals.Arguments} {ttl : Option ℤ} {binding : Approvals.Binding} {t : Time}
    (h : Approvals.requestBound env identity session action arguments ttl binding u t db =
      .ok (db', id)) :
    ∃ row, db'.approval id = some row ∧ row.identity = identity ∧ row.session = session := by
  simp only [Approvals.requestBound, bind_eq_ok] at h
  obtain ⟨n, -, target, -, data, -, -, -, h⟩ := h
  split at h
  · next old hold =>
    simp only [bind_eq_ok, ensure_eq_ok, pure_eq_ok, Prod.mk.injEq, Bool.and_eq_true,
      decide_eq_true_eq] at h
    obtain ⟨-, hp, rfl, rfl⟩ := h
    obtain ⟨b, -, hb⟩ := Option.bind_eq_some_iff.1 hold
    exact ⟨old, by rw [Approvals.id_of_approval hb]; exact hb, hp.1.1.1, hp.1.1.2⟩
  · simp only [bind_eq_ok, pure_eq_ok, Prod.mk.injEq] at h
    obtain ⟨-, -, -, -, db₁, hi, -, -, rfl, rfl⟩ := h
    exact ⟨_, insert_given hi, rfl, rfl⟩

/-- What a turn is given is its own. -/
theorem Request.given (hw : db.Wf u) (h : r.id c u db = some id) :
    Given (commit db ((r.call c).attempt u db)) id c := by
  unfold Request.id at h
  split at h
  · next db' id' hok =>
    cases h
    cases r with
    | plain action arguments ttl t₁ t₂ =>
      show Given (commit db (Library.outcome _)) id c
      rw [show Approvals.ApprovalStore.request _ _ _ _ _ _ _ _ _ = _ from hok]
      exact request_given hw hok
    | bound env action arguments ttl binding t =>
      show Given (commit db (Library.outcome _)) id c
      rw [show Approvals.requestBound _ _ _ _ _ _ _ _ _ _ = _ from hok]
      exact requestBound_given hok
  · cases h

end

namespace Host

variable {owner : Command → Owner} {key : String → ApprovalId}
  {dumps : List Approvals.Approval → String} {h h' : Host} {a : Act}

/-- The approval database is well formed, and what a turn was given is its own. -/
structure Inv (h : Host) : Prop where
  /-- the approval database -/
  wf : h.approvals.Wf
  /-- the approvals of the turns -/
  given : ∀ x ∈ h.asked, Given h.approvals.db x.1 x.2

theorem Initial.inv (hi : h.Initial) : h.Inv :=
  ⟨Approvals.Host.Initial.wf hi.approvals, fun x hx => by rw [hi.asked] at hx; cases hx⟩

/-- A use of the approval database keeps the owner of an approval. -/
theorem Given.step {g g' : Approvals.Host} {b : Approvals.Act} {id : ApprovalId} {c : Command}
    (hw : g.Wf) (hst : Approvals.Host.lts.step g b g') (hg : Given g.db id c) : Given g'.db id c := by
  obtain ⟨row, hrow, hown⟩ := hg
  obtain ⟨state, hrow'⟩ := (Approvals.Host.lawful hw hst).kept id row hrow
  exact ⟨_, hrow', hown⟩

theorem Inv.approval {g : Approvals.Host} {b : Approvals.Act} (hi : h.Inv)
    (hst : Approvals.Host.lts.step h.approvals b g) :
    g.Wf ∧ ∀ x ∈ h.asked, Given g.db x.1 x.2 :=
  ⟨hi.wf.step hst, fun x hx => Given.step hi.wf hst (hi.given x hx)⟩

theorem Inv.step (hi : h.Inv) (hst : (lts owner key dumps).step h a h') : h'.Inv := by
  cases a with
  | work a =>
    obtain ⟨-, rfl⟩ := hst
    exact ⟨hi.wf, hi.given⟩
  | approval a t =>
    obtain ⟨hc, rfl⟩ := hst
    have hg := hi.approval (Approvals.Host.step_after hc)
    exact ⟨hg.1, hg.2⟩
  | ask c r t =>
    obtain ⟨-, hc, rfl⟩ := hst
    have hg := hi.approval (Approvals.Host.step_after hc)
    refine ⟨hg.1, fun x hx => ?_⟩
    rcases List.mem_append.1 hx with hx | hx
    · exact hg.2 x hx
    · rw [Option.mem_toList, Option.map_eq_some_iff] at hx
      obtain ⟨id, hid, rfl⟩ := hx
      exact Request.given hi.wf hid
  | human w x t =>
    obtain ⟨c, -, hc, rfl⟩ := hst
    cases hb : x.call (order key c.text) c.identity c.firstSession with
    | none => exact ⟨hi.wf, hi.given⟩
    | some b =>
      have hg := hi.approval (Approvals.Host.step_after (hc b hb))
      exact ⟨hg.1, hg.2⟩

theorem inv (hr : (lts owner key dumps).Reachable Initial h) : h.Inv :=
  hr.invariant (fun _ hi => hi.inv) fun _ _ _ hi hst => hi.step hst

/-! ### What `ApprovalStore.decide` accepts -/

/-- A pending approval has no decision to repeat. -/
theorem sameDecision_pending {db : Approvals.Db} {id : ApprovalId} {row : Approvals.Approval}
    (hrow : db.approval id = some row) (hp : row.state = .pending) (identity session : String)
    (approve : Bool) (t : Time) :
    Approvals.sameDecision id identity session (Approvals.ApprovalStore.decision approve) t db =
      false := by
  have hne : row.state ≠ Approvals.ApprovalStore.decision approve := by
    rw [hp]
    cases approve <;> nofun
  simp [Approvals.sameDecision, Approvals.selects, hrow, hne]

/-- A decision that was not told before is recorded exactly if the approval is not bound, or the
outbox has room. -/
theorem recordDecision_succeeds {env : Access} {db : Approvals.Db} {id : ApprovalId}
    {state : Approvals.State} {u : Token} (hzero : db.outgoing id state = 0) :
    (∃ db', Approvals.recordDecision env id state u db = .ok db') ↔
      db.binding id = none ∨ env.room = true := by
  have hany : db.outbox.any (fun e => e.approval = id && e.state = state) = false := by
    rw [Approvals.Db.outgoing, List.countP_eq_zero] at hzero
    rw [List.any_eq_false]
    simpa using hzero
  unfold Approvals.recordDecision
  rw [hany, Bool.or_false]
  cases hb : db.binding id with
  | none => simp [pure, Except.pure]
  | some b =>
    cases hroom : env.room with
    | false => simp [bind, Except.bind]
    | true =>
      rw [ensure_true]
      by_cases hu : db.outbox.any (·.id = u) = true <;> simp [hu, bind, Except.bind, pure, Except.pure]

/-- **A decision on a pending approval is accepted** exactly if it is made under the identity and the
session of the approval, and a bound operation still waits. -/
theorem decide_accepted {env : Access} {target : Except Error Unit} {db : Approvals.Db}
    {id : ApprovalId} {identity session : String} {approve : Bool} {u : Token} {t₁ t₂ t₃ : Time}
    {row : Approvals.Approval} (hw : db.Wf u) (hrow : db.approval id = some row)
    (hp : row.state = .pending) (ht : t₂ < row.expires) :
    (∃ db', Approvals.ApprovalStore.decide env target id identity session approve u t₁ t₂ t₃ db =
        .ok (db', none)) ↔
      row.identity = identity ∧ row.session = session ∧
        (db.binding id = none ∨ target = .ok () ∧ env.room = true) := by
  have hsame := sameDecision_pending hrow hp identity session approve
  have hselects : ∀ q : Approvals.Approval → Bool, Approvals.selects id q db = q row := fun q => by
    rw [Approvals.selects, hrow, Option.any_some]
  have hzero : db.outgoing id (Approvals.ApprovalStore.decision approve) = 0 := by
    refine hw.untold hrow ?_
    rw [hp]
    cases approve <;> simp [Approvals.Follows, Approvals.ApprovalStore.decision]
  unfold Approvals.ApprovalStore.decide
  simp only [hsame, hselects, hp, ht, Bool.not_false, Bool.and_true, decide_true]
  by_cases hown : row.identity = identity ∧ row.session = session
  · obtain ⟨rfl, rfl⟩ := hown
    simp only [decide_true, Bool.and_true, Bool.true_or, if_true, true_and, bind_eq_ok, pure_eq_ok,
      Prod.mk.injEq, and_true]
    generalize hdb : Approvals.audit id row.identity row.session _ _ = db₁
    have hbinding : db₁.binding id = db.binding id := by
      rw [← hdb]
      rfl
    have hrecord := @recordDecision_succeeds env db₁ id _ u
      (show db₁.outgoing id _ = 0 by rw [← hdb]; exact hzero)
    rw [hbinding] at hrecord
    cases hb : db.binding id with
    | none =>
      obtain ⟨db₂, hdb₂⟩ := hrecord.2 (.inl hb)
      exact ⟨fun _ => .inl rfl, fun _ => ⟨db₂, (), by simp, db₂, hdb₂, rfl⟩⟩
    | some b =>
      rw [hb] at hrecord
      constructor
      · rintro ⟨db', ⟨⟩, htarget, db₂, hdb₂, rfl⟩
        exact .inr ⟨by simpa using htarget, (hrecord.1 ⟨_, hdb₂⟩).resolve_left fun h => by cases h⟩
      · rintro (hnone | ⟨htarget, hroom⟩)
        · cases hnone
        · obtain ⟨db₂, hdb₂⟩ := hrecord.2 (.inr hroom)
          exact ⟨db₂, (), by simpa using htarget, db₂, hdb₂, rfl⟩
  · have hno : (decide (row.identity = identity) && decide (row.session = session)) = false := by
      simpa using hown
    simp only [hno, Bool.not_false, Bool.and_false, Bool.or_false, Bool.false_eq_true, if_false,
      bind_eq_ok, pure_eq_ok, Prod.mk.injEq]
    refine ⟨?_, fun h => absurd ⟨h.1, h.2.1⟩ hown⟩
    rintro ⟨db', -, -, -, hnone⟩
    cases hnone

/-- The decision of `human_command` is accepted. -/
def accepted : Except Error Answer → Bool
  | .ok (.saved _) => true
  | _ => false

theorem answer_accepted {x : Reading} {id : ApprovalId} {approve : Bool} {identity session : String}
    {u : Token} {db : Approvals.Db} :
    accepted (Decisions.answer x (.decide id approve) identity session u db) = true ↔
      x.admin = true ∧ ∃ db', Approvals.ApprovalStore.decide x.env x.target id identity session
        approve u x.t₁ x.t₂ x.t₃ db = .ok (db', none) := by
  unfold Decisions.answer
  cases x.admin with
  | false => simp [accepted]
  | true =>
    simp only [Bool.not_true, Bool.false_eq_true, if_false, true_and]
    generalize Approvals.ApprovalStore.decide x.env x.target id identity session approve u x.t₁ x.t₂
      x.t₃ db = r
    rcases r with e | ⟨db', none | e⟩
    · cases e <;> simp [accepted]
    · simp [accepted]
    · cases e <;> simp [accepted]

/-- **A decision is accepted exactly if the command that asked belongs to the first session of its
conversation**, the sender is an admin, and a bound operation still waits and has room. -/
theorem decided_where_asked (hr : (lts owner key dumps).Reachable Initial h) {id : ApprovalId}
    {c d : Command} {approve : Bool} {x : Reading} {row : Approvals.Approval}
    (hasked : (id, c) ∈ h.asked) (hrow : h.approvals.db.approval id = some row)
    (hpending : row.state = .pending) (hlive : x.t₂ < row.expires)
    (hsender : d.platform = c.platform ∧ d.sender = c.sender)
    (hconversation : d.conversation = c.conversation)
    (horder : order key d.text = .decide id approve) :
    accepted (h.answer key x d) = true ↔
      c.sessionName = c.firstSession ∧ x.admin = true ∧
        (h.approvals.db.binding id = none ∨ x.target = .ok () ∧ x.env.room = true) := by
  obtain ⟨row', hrow', hidentity, hsession⟩ := (inv hr).given _ hasked
  obtain rfl : row = row' := Option.some.inj (hrow.symm.trans hrow')
  have hid : d.identity = c.identity := by
    rw [Command.identity, Command.identity, hsender.1, hsender.2]
  have hfirst : d.firstSession = c.firstSession := by
    rw [Command.firstSession, Command.firstSession, hsender.1, hconversation]
  rw [answer, horder, answer_accepted, decide_accepted (inv hr).wf hrow hpending hlive, hid, hfirst,
    hidentity, hsession]
  exact ⟨fun ⟨hadmin, _, hs, hb⟩ => ⟨hs, hadmin, hb⟩, fun ⟨hs, hadmin, hb⟩ => ⟨hadmin, rfl, hs, hb⟩⟩

/-! ### Runs -/

/-- The step stores a message that begins a new session. -/
def renews : Act → Bool
  | .work (.op (.ingest m ..)) | .work (.op (.enqueue m ..)) =>
    strip m.command.text = "/new-session"
  | _ => false

/-- None of the steps calls `human_command`. -/
def silent (owner : Command → Owner) : Host → List Worker.Act → Bool
  | _, [] => true
  | h, a :: as => !h.calls a && silent owner { h with worker := h.worker.act owner a } as

/-- The steps of the worker. -/
theorem run_work {as : List Worker.Act} (hs : silent owner h as = true) :
    (lts owner key dumps).Run h (as.map .work)
      { h with worker := as.foldl (Worker.Host.act owner) h.worker } := by
  induction as generalizing h with
  | nil => exact .nil h
  | cons a as ih =>
    simp only [silent, Bool.and_eq_true, Bool.not_eq_true'] at hs
    exact .cons ⟨hs.1, rfl⟩ (ih hs.2)

/-- No process has moved. -/
def new : Host := ⟨Worker.Host.new, ⟨.empty, 0, 0⟩, []⟩

theorem new_initial : Initial new := ⟨Worker.Host.new_initial, rfl, rfl⟩

/-- A message is taken, and its turn starts: the first message of its conversation, or the first
one after `/new-session`. -/
def startedActs (renewed : Bool) : List Worker.Act :=
  if renewed then
    .op (.ingest { command := ⟨"t:0", "t", "chat", "ann", "/new-session", "default", "", none⟩ } none
        "n") ::
      .poll 0 .recover :: Worker.Host.served ++ Worker.Host.message "t:1" "do it" ::
      .poll 0 .recover :: .poll 0 (.inspect 0) :: Worker.Host.served ++ [.run 1 .go]
  else Worker.Host.message "t:1" "do it" :: .poll 0 .recover :: Worker.Host.served ++ [.run 0 .go]

/-- The state in which the turn runs. -/
def started (renewed : Bool) : Host :=
  { new with worker := (startedActs renewed).foldl (Worker.Host.act fun _ => "") new.worker }

/-- The command of the turn. -/
def asker (renewed : Bool) : Command :=
  ⟨"t:1", "t", "chat", "ann", "do it", "default", if renewed then "t:chat:n" else "t:chat", none⟩

/-- The request of the turn. -/
def request : Request := .plain "default:git_rollback" ⟨[("commit", "x")], true⟩ 300 0 0

/-- The state in which the turn has its approval. -/
def waiting (renewed : Bool) : Host :=
  { started renewed with
    approvals := (started renewed).approvals.after (request.call (asker renewed)) 0
    asked := [(0, asker renewed)] }

/-- The decision arrives, and the poller takes it. -/
def takenActs (renewed : Bool) : List Worker.Act :=
  Worker.Host.message "t:2" "/approve 0" :: .poll 0 .recover ::
    (if renewed then [.poll 0 (.inspect 0), .poll 0 (.inspect 0)] else [.poll 0 (.inspect 0)]) ++
    [.poll 0 (.pick 4), .poll 0 .take]

/-- The state in which it calls `human_command`. -/
def taken (renewed : Bool) : Host :=
  { waiting renewed with
    worker := (takenActs renewed).foldl (Worker.Host.act fun _ => "") (waiting renewed).worker }

/-- The decision, as the poller holds it. -/
def decision (renewed : Bool) : Command :=
  { asker renewed with id := "t:2", text := "/approve 0" }

/-- The approval. -/
def requested (renewed : Bool) : Approvals.Approval :=
  { id := 0, identity := "t:ann", session := (asker renewed).session, action := "default:git_rollback"
    arguments := [("commit", "x")], expires := 300 }

/-- The system of the runs below. -/
def sampleLts : Lts Host Act := lts (fun _ => "") (fun _ => 0) fun _ => ""

theorem waiting_reachable (renewed : Bool) : sampleLts.Reachable Initial (waiting renewed) := by
  have hrun : sampleLts.Run new ((startedActs renewed).map .work) (started renewed) :=
    run_work (by cases renewed <;> decide)
  refine (Lts.Reachable.of_init new_initial).run (hrun.snoc (l := .ask (asker renewed) request 0) ?_)
  refine ⟨?_, ⟨le_rfl, le_rfl, le_rfl⟩, rfl⟩
  have hjob : (started renewed).worker.db.job "t:1" = some ⟨asker renewed, .running, 1, none, none,
      none, none, true⟩ := by
    cases renewed <;> decide
  exact ⟨_, hjob, rfl, rfl⟩

theorem taken_run (renewed : Bool) :
    sampleLts.Run (waiting renewed) ((takenActs renewed).map .work) (taken renewed) :=
  run_work (by cases renewed <;> decide)

theorem decided_where_asked_sample : accepted ((taken false).answer (fun _ => 0)
    { t₁ := 1, t₂ := 1, t₃ := 1 } (decision false)) = true := by
  have hr : sampleLts.Reachable Initial (taken false) :=
    (waiting_reachable false).run (taken_run false)
  have hrow : (taken false).approvals.db.approval 0 = some (requested false) := by decide +kernel
  have hsender : (decision false).platform = (asker false).platform ∧
      (decision false).sender = (asker false).sender := ⟨rfl, rfl⟩
  have horder : order (fun _ => 0) (decision false).text = .decide 0 true := by decide
  exact (decided_where_asked hr (List.mem_singleton_self (0, asker false)) hrow rfl
    (by decide) hsender rfl horder).2 ⟨by decide, rfl, .inl (by decide)⟩

/-- After `/new-session` the approval of a turn is pending, and its own conversation cannot decide
on it. -/
theorem asked_elsewhere : ∃ g as h id c d row, sampleLts.Reachable Initial g ∧ (id, c) ∈ g.asked ∧
    sampleLts.Run g as h ∧ (∀ a ∈ as, renews a = false) ∧
    h.approvals.db.approval id = some row ∧ row.state = .pending ∧ 1 < row.expires ∧
    h.commanded 0 = some d ∧ (d.platform = c.platform ∧ d.sender = c.sender) ∧
    d.conversation = c.conversation ∧ order (fun _ => 0) d.text = .decide id true ∧
    h.approvals.db.binding id = none ∧
    accepted (h.answer (fun _ => 0) { t₁ := 1, t₂ := 1, t₃ := 1 } d) = false := by
  exact ⟨waiting true, _, taken true, 0, asker true, decision true, requested true,
    waiting_reachable true, List.mem_singleton_self _, taken_run true, by decide,
    by decide +kernel, rfl, by decide +kernel, by decide +kernel, ⟨rfl, rfl⟩, rfl,
    by decide, by decide, by decide⟩

end Host

end Decisions

end Communication

end PythonAI
