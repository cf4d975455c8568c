import PythonAI.Approvals.Store
import PythonAI.Library.Lts

/-!
# Approvals are consumed once

Any sequence of the operations of `ApprovalStore`, for any identities, sessions and arguments, under
a clock that does not go back.  The audit in `approval_events` is the record of what happened.

* `Change` : what one operation does;
* `Host.Wf` : the rows, the bindings, the outbox and the audit agree;
* `Host.granted` : **an approval is consumed at most once**, by the call that it was granted to, and
  what it was granted for is never granted again.
-/

namespace PythonAI

open Library

namespace Approvals

/-- An operation, with what it reads outside the database. -/
inductive Act
  | request (identity session action : String) (arguments : Arguments) (ttl : ℤ) (t₁ t₂ : Time)
  /-- `request` with a binding -/
  | requestBound (env : Access) (identity session action : String) (arguments : Arguments)
      (ttl : Option ℤ) (binding : Binding) (t : Time)
  | decide (env : Access) (target : Except Error Unit) (id : ApprovalId)
      (identity session : String) (approve : Bool) (t₁ t₂ t₃ : Time)
  | consume (env : Access) (id : ApprovalId) (identity session action : String)
      (arguments : Arguments) (binding : Option Binding) (t : Time)
  | cancelWait (env : Access) (id : ApprovalId) (identity session : String)
  /-- the delivery of an event of the outbox -/
  | sent (event : Token)

namespace Act

/-- The database that the operation commits; it draws the id `u`. -/
def attempt (u : Token) (db : Db) : Act → Except Error Db
  | request identity session action arguments ttl t₁ t₂ =>
    outcome (ApprovalStore.request identity session action arguments ttl u t₁ t₂ db)
  | requestBound env identity session action arguments ttl binding t =>
    outcome (Approvals.requestBound env identity session action arguments ttl binding u t db)
  | decide env target id identity session approve t₁ t₂ t₃ =>
    outcome (ApprovalStore.decide env target id identity session approve u t₁ t₂ t₃ db)
  | consume env id identity session action arguments binding t =>
    outcome (ApprovalStore.consume env id identity session action arguments binding u t db)
  | cancelWait env id identity session =>
    outcome (ApprovalStore.cancelWait env id identity session u db)
  | sent event => .ok (Approvals.sent event db)

/-- The clock values of the operation lie between `t` and `t'`, in the order they are read in. -/
def clocked (t t' : Time) : Act → Prop
  | request _ _ _ _ _ t₁ t₂ => t ≤ t₁ ∧ t₁ ≤ t₂ ∧ t₂ ≤ t'
  | requestBound _ _ _ _ _ _ _ t₁ | consume _ _ _ _ _ _ _ t₁ => t ≤ t₁ ∧ t₁ ≤ t'
  | decide _ _ _ _ _ _ t₁ t₂ t₃ => t ≤ t₁ ∧ t₁ ≤ t₂ ∧ t₂ ≤ t₃ ∧ t₃ ≤ t'
  | cancelWait .. | sent .. => t ≤ t'

end Act

/-- The database with the clock and the supply of ids. -/
structure Host where
  /-- the database -/
  db : Db
  /-- the clock -/
  now : Time
  /-- the next id; every id handed out so far is smaller -/
  uuids : Token

namespace Host

/-- The state after the operation `a`, which ends at `t`. -/
def after (h : Host) (a : Act) (t : Time) : Host :=
  ⟨commit h.db (a.attempt h.uuids h.db), t, h.uuids + 1⟩

/-- One operation at a time. -/
def lts : Lts Host Act where
  step h a h' := ∃ t, a.clocked h.now t ∧ h' = h.after a t

/-- New tables. -/
def Initial (h : Host) : Prop := h.db = .empty

end Host

/-- How often an approval was consumed, by the audit. -/
def Db.consumptions (db : Db) (id : ApprovalId) : ℕ :=
  db.events.countP fun e => e.approval = id ∧ e.event = .consumed

/-- How many events of the outbox tell that an approval is in a state. -/
def Db.outgoing (db : Db) (id : ApprovalId) (state : State) : ℕ :=
  db.outbox.countP fun e => e.approval = id ∧ e.state = state

/-! ### What an operation does -/

/-- The operation `a` takes the approval `row` to `state`, and adds `new` to the audit. -/
inductive Turns (a : Act) (db : Db) (row : Approval) : State → List Audit → Prop
  | decided (env : Access) (target : Except Error Unit) (approve : Bool) (t₁ t₂ t₃ : Time)
      (ha : a = .decide env target row.id row.identity row.session approve t₁ t₂ t₃)
      (hstate : row.state = .pending) (ht : t₂ < row.expires) :
      Turns a db row (ApprovalStore.decision approve)
        [⟨row.id, row.identity, row.session, .decided approve⟩]
  | consumed (env : Access) (arguments : Arguments) (t : Time)
      (ha : a = .consume env row.id row.identity row.session row.action arguments
        (db.binding row.id) t)
      (hargs : canonical arguments = .ok row.arguments) (hstate : row.state = .approved)
      (ht : t < row.expires) :
      Turns a db row .consumed [⟨row.id, row.identity, row.session, .consumed⟩]
  | cancelled (env : Access)
      (ha : a = .cancelWait env row.id row.identity row.session)
      (hstate : row.state = .pending ∨ row.state = .approved) : Turns a db row .cancelled []

/-- What an operation that succeeds does. -/
inductive Change (a : Act) (u : Token) (db db' : Db) : Prop
  /-- it touches the audit and the delivery of the outbox only -/
  | audited (new : List Audit) (hnew : ∀ e ∈ new, e.event ≠ .consumed)
      (happrovals : db'.approvals = db.approvals) (hbindings : db'.bindings = db.bindings)
      (hevents : db'.events = db.events ++ new)
      (houtbox : ∃ f : Outgoing → Outgoing, db'.outbox = db.outbox.map f ∧
        ∀ e, (f e).id = e.id ∧ (f e).approval = e.approval ∧ (f e).state = e.state)
  /-- it creates an approval -/
  | created (row : Approval) (b : Option Binding) (hid : row.id = u)
      (hstate : row.state = .pending) (happrovals : db'.approvals = db.approvals ++ [row])
      (hbindings : db'.bindings = db.bindings ++ (b.map fun b => ⟨b, u⟩).toList)
      (hb : ∀ env identity session action arguments ttl target t,
        a = .requestBound env identity session action arguments ttl target t → b = some target)
      (hfree : ∀ target, b = some target → ∀ x ∈ db.bindings, x.binding ≠ target)
      (hevents : db'.events = db.events ++ [⟨u, row.identity, row.session, .requested⟩])
      (houtbox : db'.outbox = db.outbox)
  /-- it changes the state of an approval -/
  | turned (row : Approval) (state : State) (new : List Audit) (hrow : db.approval row.id = some row)
      (hturn : Turns a db row state new)
      (happroval : ∀ id, db'.approval id =
        if id = row.id then some { row with state := state } else db.approval id)
      (hids : db'.approvals.map Approval.id = db.approvals.map Approval.id)
      (hbindings : db'.bindings = db.bindings) (hevents : db'.events = db.events ++ new)
      (houtbox : db'.outbox = db.outbox ++
        if (db.binding row.id).isSome then [⟨u, row.id, state, false⟩] else [])

/-- The state of an event of the outbox, and the state of its approval. -/
def Follows (event state : State) : Prop :=
  event ≠ .pending ∧ (event = state ∨ event = .approved ∧ (state = .consumed ∨ state = .cancelled))

/-- The rows, the bindings, the outbox and the audit agree; every id is smaller than `u`. -/
structure Db.Wf (u : Token) (db : Db) : Prop where
  /-- the ids of the approvals were handed out -/
  ids : ∀ row ∈ db.approvals, row.id < u
  /-- the ids of the approvals differ -/
  nodup : (db.approvals.map Approval.id).Nodup
  /-- a binding has one approval -/
  bindings : (db.bindings.map Bound.binding).Nodup
  /-- the approval of a binding exists -/
  bound : ∀ b ∈ db.bindings, (db.approval b.approval).isSome
  /-- an event of the outbox has a new id and tells a state that its approval was in -/
  outbox : ∀ e ∈ db.outbox, e.id < u ∧
    ∃ row, db.approval e.approval = some row ∧ Follows e.state row.state
  /-- a state is told once -/
  once : ∀ id state, db.outgoing id state ≤ 1
  /-- the state of a bound approval is told -/
  told : ∀ id row, db.approval id = some row → (db.binding id).isSome → row.state ≠ .pending →
    0 < db.outgoing id row.state
  /-- the audit has the consumption of each consumed approval, and no other -/
  consumed : ∀ id, db.consumptions id =
    if (db.approval id).any (·.state = .consumed) then 1 else 0
  /-- the audit has the decision that an approved approval was approved with -/
  approved : ∀ id row, db.approval id = some row → row.state = .approved →
    ⟨id, row.identity, row.session, .decided true⟩ ∈ db.events

section

variable {db db' : Db} {a : Act} {u : Token} {id : ApprovalId} {state : State} {row : Approval}
  {p : Approval → Bool}

theorem Db.Wf.approval_lt (hw : db.Wf u) (h : db.approval id = some row) : id < u :=
  Records.key_of_find h ▸ hw.ids row (Records.mem_of_find h)

theorem Db.Wf.approval_new (hw : db.Wf u) : db.approval u = none := by
  cases h : db.approval u with
  | none => rfl
  | some row => exact absurd (hw.approval_lt h) (lt_irrefl u)

theorem id_of_approval (h : db.approval id = some row) : row.id = id := Records.key_of_find h

/-- The rows after an update of the state. -/
theorem setState_approval (id' : ApprovalId) : (setState id p state db).approval id' =
    (db.approval id').map fun row =>
      if row.id = id ∧ p row = true then { row with state := state } else row :=
  Records.find_map fun row _ => by split_ifs <;> rfl

theorem setState_ids : (setState id p state db).approvals.map Approval.id =
    db.approvals.map Approval.id :=
  Records.map_key fun row _ => by split_ifs <;> rfl

theorem selects_iff : selects id p db = true ↔ ∃ row, db.approval id = some row ∧ p row = true := by
  simp [selects, Option.any_eq_true]

/-- An update that selects the row of `id` changes this row. -/
theorem setState_of_selects (hrow : db.approval id = some row) (hp : p row = true)
    (id' : ApprovalId) : (setState id p state db).approval id' =
      if id' = id then some { row with state := state } else db.approval id' := by
  have hid := id_of_approval hrow
  rw [setState_approval]
  by_cases h : id' = id
  · subst h
    rw [hrow, Option.map_some, if_pos ⟨hid, hp⟩, if_pos rfl]
  · rw [if_neg h]
    cases hr : db.approval id' with
    | none => rfl
    | some row' =>
      have hne : row'.id ≠ id := by rwa [id_of_approval hr]
      rw [Option.map_some, if_neg fun hh => hne hh.1]

/-- An update that selects no row changes nothing, where the ids of the approvals differ. -/
theorem setState_of_not_selects (hn : (db.approvals.map Approval.id).Nodup)
    (hp : selects id p db = false) : setState id p state db = db := by
  have hsame : (db.approvals.map fun row =>
      if row.id = id ∧ p row = true then { row with state := state } else row) = db.approvals := by
    refine (List.map_congr_left fun row hrow => ?_).trans (List.map_id _)
    refine if_neg fun h => ?_
    have hfind : db.approval id = some row := h.1 ▸ Records.find_of_mem hn hrow
    rw [selects, hfind, Option.any_some, h.2] at hp
    cases hp
  rw [setState, hsame]

/-- What `record_decision` does. -/
theorem recordDecision_ok {env : Access} (h : recordDecision env id state u db = .ok db')
    (hu : ∀ e ∈ db.outbox, e.id < u) :
    db' = { db with outbox := db.outbox ++
      if (db.binding id).isSome ∧ db.outgoing id state = 0 then [⟨u, id, state, false⟩] else [] } := by
  have hcount : db.outgoing id state = 0 ↔
      ¬ db.outbox.any (fun e => e.approval = id && e.state = state) = true := by
    rw [Db.outgoing, List.countP_eq_zero]
    simp
  have hfresh : ¬ db.outbox.any (·.id = u) = true := fun hany => by
    obtain ⟨e, he, heu⟩ := List.any_eq_true.1 hany
    simp only [decide_eq_true_eq] at heu
    exact absurd (hu e he) (by rw [heu]; exact lt_irrefl u)
  unfold recordDecision at h
  by_cases hnone : ((db.binding id).isNone ||
      db.outbox.any (fun e => e.approval = id && e.state = state)) = true
  · rw [if_pos hnone] at h
    cases h
    rw [if_neg, List.append_nil]
    rintro ⟨hsome, hno⟩
    simp only [Bool.or_eq_true, Option.isNone_iff_eq_none] at hnone
    rcases hnone with hb | hany
    · rw [hb] at hsome
      cases hsome
    · exact hcount.1 hno hany
  · rw [if_neg hnone] at h
    simp only [bind_eq_ok, ensure_eq_ok] at h
    obtain ⟨-, -, h⟩ := h
    rw [if_neg hfresh] at h
    cases h
    simp only [Bool.or_eq_true, not_or, Option.isNone_iff_eq_none] at hnone
    rw [if_pos ⟨Option.isSome_iff_ne_none.2 hnone.1, hcount.2 hnone.2⟩]

/-- An operation that does not change the rows. -/
theorem Change.of_audit {e : Audit} (he : e.event ≠ .consumed) :
    Change a u db { db with events := db.events ++ [e] } :=
  .audited [e] (fun e' he' => by rw [List.mem_singleton.1 he']; exact he) rfl rfl rfl
    ⟨id, (List.map_id _).symm, fun _ => ⟨rfl, rfl, rfl⟩⟩

theorem Change.refl : Change a u db db :=
  .audited [] (fun _ h => nomatch h) rfl rfl (List.append_nil _).symm
    ⟨id, (List.map_id _).symm, fun _ => ⟨rfl, rfl, rfl⟩⟩

/-- No event tells a state that the approval was not in. -/
theorem Db.Wf.untold (hw : db.Wf u) (hrow : db.approval id = some row)
    (hf : ¬ Follows state row.state) : db.outgoing id state = 0 := by
  rw [Db.outgoing, List.countP_eq_zero]
  intro e he hh
  simp only [decide_eq_true_eq] at hh
  obtain ⟨-, row', hrow', hfollows⟩ := hw.outbox e he
  rw [hh.1, hrow] at hrow'
  cases hrow'
  exact hf (hh.2 ▸ hfollows)

/-- The change of the state of a row, with its event. -/
theorem Db.Wf.turn (hw : db.Wf u) {env : Access} {new : List Audit} {p : Approval → Bool}
    (hrow : db.approval row.id = some row) (hp : p row = true) (hturn : Turns a db row state new)
    (hf : ¬ Follows state row.state)
    (h : recordDecision env row.id state u
      { setState row.id p state db with events := db.events ++ new } = .ok db') :
    Change a u db db' := by
  have hout := recordDecision_ok h fun e he => (hw.outbox e he).1
  have hzero : db.outgoing row.id state = 0 := hw.untold hrow hf
  rw [hout]
  refine .turned row state new hrow hturn (fun id => setState_of_selects hrow hp id) setState_ids
    rfl rfl ?_
  show db.outbox ++ (if (db.binding row.id).isSome = true ∧ db.outgoing row.id state = 0 then _
    else _) = _
  simp only [hzero, and_true]

theorem insert_ok {row : Approval} (h : insert row db = .ok db') :
    db' = audit row.id row.identity row.session .requested
      { db with approvals := db.approvals ++ [row] } := by
  simp only [insert, bind_eq_ok, ensure_eq_ok, pure_eq_ok] at h
  obtain ⟨-, -, rfl⟩ := h
  rfl

theorem request_ok {identity session action : String} {arguments : Arguments} {ttl : ℤ}
    {t₁ t₂ : Time} {out : ApprovalId}
    (h : ApprovalStore.request identity session action arguments ttl u t₁ t₂ db = .ok (db', out)) :
    Change (.request identity session action arguments ttl t₁ t₂) u db db' := by
  simp only [ApprovalStore.request, bind_eq_ok] at h
  obtain ⟨data, -, h⟩ := h
  split at h
  · simp only [pure_eq_ok, Prod.mk.injEq] at h
    obtain ⟨rfl, -⟩ := h
    exact .refl
  · simp only [bind_eq_ok, pure_eq_ok, Prod.mk.injEq] at h
    obtain ⟨db₁, hi, rfl, -⟩ := h
    rw [insert_ok hi]
    exact .created _ none rfl rfl rfl (List.append_nil _).symm (fun _ _ _ _ _ _ _ _ h => by cases h)
      (fun _ h => by cases h) rfl rfl

theorem requestBound_ok {env : Access} {identity session action : String} {arguments : Arguments}
    {ttl : Option ℤ} {binding : Binding} {t : Time} {out : ApprovalId}
    (h : requestBound env identity session action arguments ttl binding u t db = .ok (db', out)) :
    Change (.requestBound env identity session action arguments ttl binding t) u db db' := by
  simp only [requestBound, bind_eq_ok, require_eq_ok, bindingData, ensure_eq_ok, pure_eq_ok] at h
  obtain ⟨n, -, target, ⟨-, -, rfl⟩, data, -, -, -, h⟩ := h
  split at h
  · simp only [bind_eq_ok, ensure_eq_ok, pure_eq_ok, Prod.mk.injEq] at h
    obtain ⟨-, -, rfl, -⟩ := h
    exact .refl
  · simp only [bind_eq_ok, ensure_eq_ok, pure_eq_ok, Prod.mk.injEq] at h
    obtain ⟨-, -, -, -, db₁, hi, -, hfree, rfl, -⟩ := h
    rw [insert_ok hi] at hfree ⊢
    refine .created _ (some binding) rfl rfl rfl rfl ?_ ?_ rfl rfl
    · rintro _ _ _ _ _ _ _ _ ⟨⟩
      rfl
    · rintro _ ⟨⟩ x hx rfl
      have hany : db.bindings.any (fun b => b.binding = x.binding || b.approval = u) = true :=
        List.any_eq_true.2 ⟨x, hx, by simp⟩
      simp only [audit] at hfree
      rw [hany] at hfree
      cases hfree

theorem not_follows_decision {approve : Bool} :
    ¬ Follows (ApprovalStore.decision approve) .pending := by
  cases approve <;> simp [Follows, ApprovalStore.decision]

theorem decide_ok {env : Access} {target : Except Error Unit} {identity session : String}
    {approve : Bool} {t₁ t₂ t₃ : Time} {out : Option Error} (hw : db.Wf u)
    (h : ApprovalStore.decide env target id identity session approve u t₁ t₂ t₃ db =
      .ok (db', out)) :
    Change (.decide env target id identity session approve t₁ t₂ t₃) u db db' := by
  simp only [ApprovalStore.decide, bind_eq_ok] at h
  obtain ⟨-, -, h⟩ := h
  let p (row : Approval) : Bool := row.identity = identity && row.session = session &&
    row.state = .pending && t₂ < row.expires
  by_cases hup : selects id p db = true
  · rw [if_pos (by simp only [Bool.or_eq_true]; exact .inl hup)] at h
    simp only [bind_eq_ok, pure_eq_ok, Prod.mk.injEq] at h
    obtain ⟨db₁, hrec, rfl, -⟩ := h
    rw [if_pos hup] at hrec
    obtain ⟨row, hrow, hp⟩ := selects_iff.1 hup
    obtain rfl := id_of_approval hrow
    have hp' := hp
    simp only [p, Bool.and_eq_true, decide_eq_true_eq] at hp'
    obtain ⟨⟨⟨rfl, rfl⟩, hstate⟩, ht⟩ := hp'
    exact hw.turn hrow hp (.decided env target approve t₁ t₂ t₃ rfl hstate ht)
      (hstate ▸ not_follows_decision) hrec
  · have hno : selects id p db = false := by simpa using hup
    have hsame : setState id p (ApprovalStore.decision approve) db = db :=
      setState_of_not_selects hw.nodup hno
    simp only [p] at hno hsame
    simp only [hno, hsame, Bool.not_false, Bool.true_and, Bool.false_or, Bool.false_eq_true,
      if_false] at h
    by_cases hdup : sameDecision id identity session (ApprovalStore.decision approve) t₃ db = true
    · rw [if_pos hdup] at h
      simp only [bind_eq_ok, pure_eq_ok, Prod.mk.injEq] at h
      obtain ⟨db₁, hrec, rfl, -⟩ := h
      rw [if_pos hdup] at hrec
      have hrec' := recordDecision_ok hrec fun e he => (hw.outbox e he).1
      simp only [sameDecision, Bool.and_eq_true] at hdup
      obtain ⟨row, hrow, hp⟩ := selects_iff.1 hdup.2
      simp only [Bool.and_eq_true, decide_eq_true_eq] at hp
      have htold := hw.told id row hrow hdup.1 (by
        rw [hp.1.2]
        cases approve <;> simp [ApprovalStore.decision])
      rw [hp.1.2] at htold
      have hif : ¬ ((db.binding id).isSome = true ∧
          db.outgoing id (ApprovalStore.decision approve) = 0) := fun hh => htold.ne' hh.2
      rw [hrec']
      show Change _ u db { db with
        events := _, outbox := db.outbox ++ if (db.binding id).isSome = true ∧
          db.outgoing id (ApprovalStore.decision approve) = 0 then _ else _ }
      rw [if_neg hif, List.append_nil]
      exact .of_audit fun h => by cases h
    · have hndup : sameDecision id identity session (ApprovalStore.decision approve) t₃ db =
          false := by simpa using hdup
      simp only [hndup, Bool.false_eq_true, if_false, pure_eq_ok, Prod.mk.injEq] at h
      obtain ⟨rfl, -⟩ := h
      exact .of_audit fun h => by cases h

theorem bindingData_ok {b b' : Binding} (h : bindingData b = .ok b') : b' = b := by
  simp only [bindingData, bind_eq_ok, ensure_eq_ok, pure_eq_ok] at h
  obtain ⟨-, -, rfl⟩ := h
  rfl

theorem validateConsumption_ok {binding : Option Binding}
    (h : validateConsumption id binding db = .ok ()) : binding = db.binding id := by
  simp only [validateConsumption, bind_eq_ok, ensure_eq_ok, decide_eq_true_eq] at h
  obtain ⟨actual, hactual, rfl⟩ := h
  cases binding with
  | none => exact Except.ok.inj hactual
  | some b =>
    have hactual : (bindingData b).map some = .ok (db.binding id) := hactual
    cases hb : bindingData b with
    | error e => rw [hb] at hactual; cases hactual
    | ok b' =>
      rw [hb, bindingData_ok hb] at hactual
      exact Except.ok.inj hactual

theorem consume_ok {env : Access} {identity session action : String} {arguments : Arguments}
    {binding : Option Binding} {t : Time} {out : Option Error} (hw : db.Wf u)
    (h : ApprovalStore.consume env id identity session action arguments binding u t db =
      .ok (db', out)) :
    Change (.consume env id identity session action arguments binding t) u db db' := by
  simp only [ApprovalStore.consume, bind_eq_ok] at h
  obtain ⟨data, hdata, ⟨⟩, hvalid, h⟩ := h
  obtain rfl := validateConsumption_ok hvalid
  let p (row : Approval) : Bool := row.identity = identity && row.session = session &&
    row.action = action && row.arguments = data && row.state = .approved && t < row.expires
  by_cases hup : selects id p db = true
  · rw [if_pos hup, if_pos hup] at h
    simp only [bind_eq_ok, pure_eq_ok, Prod.mk.injEq] at h
    obtain ⟨db₁, hrec, rfl, -⟩ := h
    obtain ⟨row, hrow, hp⟩ := selects_iff.1 hup
    obtain rfl := id_of_approval hrow
    have hp' := hp
    simp only [p, Bool.and_eq_true, decide_eq_true_eq] at hp'
    obtain ⟨⟨⟨⟨⟨rfl, rfl⟩, rfl⟩, rfl⟩, hstate⟩, ht⟩ := hp'
    exact hw.turn hrow hp (.consumed env arguments t rfl hdata hstate ht)
      (by simp [Follows, hstate]) hrec
  · have hno : selects id p db = false := by simpa using hup
    rw [if_neg hup, if_neg hup] at h
    simp only [pure_eq_ok, Prod.mk.injEq] at h
    obtain ⟨rfl, -⟩ := h
    rw [setState_of_not_selects hw.nodup hno]
    exact .of_audit fun h => by cases h

theorem cancelWait_ok {env : Access} {identity session : String} {out : Unit} (hw : db.Wf u)
    (h : ApprovalStore.cancelWait env id identity session u db = .ok (db', out)) :
    Change (.cancelWait env id identity session) u db db' := by
  simp only [ApprovalStore.cancelWait, bind_eq_ok, pure_eq_ok, Prod.mk.injEq] at h
  obtain ⟨db₁, h, rfl, -⟩ := h
  let p (row : Approval) : Bool := row.identity = identity && row.session = session &&
    (row.state = .pending || row.state = .approved)
  by_cases hup : selects id p db = true
  · rw [if_pos hup] at h
    obtain ⟨row, hrow, hp⟩ := selects_iff.1 hup
    obtain rfl := id_of_approval hrow
    have hp' := hp
    simp only [p, Bool.and_eq_true, Bool.or_eq_true, decide_eq_true_eq] at hp'
    obtain ⟨⟨rfl, rfl⟩, hstate⟩ := hp'
    have hrec : recordDecision env row.id .cancelled u
        { setState row.id p .cancelled db with events := db.events ++ [] } = .ok db₁ := by
      rw [List.append_nil]
      exact h
    refine hw.turn hrow hp (.cancelled env rfl hstate) ?_ hrec
    rcases hstate with hs | hs <;> simp [Follows, hs]
  · rw [if_neg hup] at h
    cases h
    exact .refl

/-- **Every operation that succeeds is a change.** -/
theorem Act.change (hw : db.Wf u) (h : a.attempt u db = .ok db') : Change a u db db' := by
  cases a with
  | request identity session action arguments ttl t₁ t₂ =>
    obtain ⟨out, h⟩ := outcome_eq_ok.1 h
    exact request_ok h
  | requestBound env identity session action arguments ttl binding t =>
    obtain ⟨out, h⟩ := outcome_eq_ok.1 h
    exact requestBound_ok h
  | decide env target id identity session approve t₁ t₂ t₃ =>
    obtain ⟨out, h⟩ := outcome_eq_ok.1 h
    exact decide_ok hw h
  | consume env id identity session action arguments binding t =>
    obtain ⟨out, h⟩ := outcome_eq_ok.1 h
    exact consume_ok hw h
  | cancelWait env id identity session =>
    obtain ⟨out, h⟩ := outcome_eq_ok.1 h
    exact cancelWait_ok hw h
  | sent event =>
    cases h
    refine .audited [] (fun _ h => nomatch h) rfl rfl (List.append_nil _).symm
      ⟨_, rfl, fun e => ?_⟩
    split_ifs <;> exact ⟨rfl, rfl, rfl⟩

/-! ### What every step keeps -/

theorem approval_of_approvals (h : db'.approvals = db.approvals) (id : ApprovalId) :
    db'.approval id = db.approval id := by
  rw [Db.approval, h]; rfl

theorem binding_of_bindings (h : db'.bindings = db.bindings) (id : ApprovalId) :
    db'.binding id = db.binding id := by
  rw [Db.binding, h]; rfl

theorem Db.Wf.mono (hw : db.Wf u) {u' : Token} (hu : u ≤ u') : db.Wf u' :=
  { hw with
    ids := fun row hrow => (hw.ids row hrow).trans_le hu
    outbox := fun e he => ⟨(hw.outbox e he).1.trans_le hu, (hw.outbox e he).2⟩ }

theorem consumptions_append {new : List Audit} (h : db'.events = db.events ++ new) :
    db'.consumptions id =
      db.consumptions id + new.countP fun e => e.approval = id ∧ e.event = .consumed := by
  rw [Db.consumptions, h, List.countP_append]; rfl

theorem consumptions_same {new : List Audit} (h : db'.events = db.events ++ new)
    (hnew : ∀ e ∈ new, e.event ≠ .consumed) : db'.consumptions id = db.consumptions id := by
  have hzero : (new.countP fun e => e.approval = id ∧ e.event = .consumed) = 0 :=
    List.countP_eq_zero.2 fun e he hh => hnew e he (by simpa using (of_decide_eq_true hh).2)
  rw [consumptions_append h, hzero, Nat.add_zero]

theorem Db.Wf.audited (hw : db.Wf u) {new : List Audit} {f : Outgoing → Outgoing}
    (hnew : ∀ e ∈ new, e.event ≠ .consumed) (happrovals : db'.approvals = db.approvals)
    (hbindings : db'.bindings = db.bindings) (hevents : db'.events = db.events ++ new)
    (houtbox : db'.outbox = db.outbox.map f)
    (hf : ∀ e, (f e).id = e.id ∧ (f e).approval = e.approval ∧ (f e).state = e.state) :
    db'.Wf u := by
  have happroval := approval_of_approvals happrovals
  have hbinding := binding_of_bindings hbindings
  have hout : ∀ id state, db'.outgoing id state = db.outgoing id state := fun id state => by
    rw [Db.outgoing, houtbox, List.countP_map, Db.outgoing]
    refine List.countP_congr fun e _ => ?_
    rw [Function.comp_apply, (hf e).2.1, (hf e).2.2]
  refine ⟨?_, ?_, ?_, ?_, ?_, ?_, ?_, ?_, ?_⟩
  · rw [happrovals]; exact hw.ids
  · rw [happrovals]; exact hw.nodup
  · rw [hbindings]; exact hw.bindings
  · rw [hbindings]
    exact fun b hb => by rw [happroval]; exact hw.bound b hb
  · rw [houtbox]
    intro e he
    obtain ⟨e₀, he₀, rfl⟩ := List.mem_map.1 he
    rw [(hf e₀).1, (hf e₀).2.1, (hf e₀).2.2, happroval]
    exact hw.outbox e₀ he₀
  · exact fun id state => by rw [hout]; exact hw.once id state
  · intro id row
    rw [happroval, hbinding, hout]
    exact hw.told id row
  · exact fun id => by rw [consumptions_same hevents hnew, happroval]; exact hw.consumed id
  · intro id row
    rw [happroval, hevents]
    exact fun hrow hstate => List.mem_append_left _ (hw.approved id row hrow hstate)

theorem Db.Wf.created (hw : db.Wf u) {row : Approval} {b : Option Binding} (hid : row.id = u)
    (hstate : row.state = .pending) (happrovals : db'.approvals = db.approvals ++ [row])
    (hbindings : db'.bindings = db.bindings ++ (b.map fun b => ⟨b, u⟩).toList)
    (hfree : ∀ target, b = some target → ∀ x ∈ db.bindings, x.binding ≠ target)
    (hevents : db'.events = db.events ++ [⟨u, row.identity, row.session, .requested⟩])
    (houtbox : db'.outbox = db.outbox) : db'.Wf (u + 1) := by
  have hold : ∀ id, id ≠ u → db'.approval id = db.approval id := fun id hne => by
    rw [Db.approval, happrovals]
    exact Records.find_append_of_ne (by rw [hid]; exact hne.symm)
  have hnew : db'.approval u = some row := by
    rw [Db.approval, happrovals, ← hid]
    refine Records.find_append_new fun y hy => ?_
    rw [hid]
    exact (hw.ids y hy).ne
  have hkeep : ∀ id row', db.approval id = some row' → db'.approval id = some row' :=
    fun id row' h => by rw [hold id (hw.approval_lt h).ne, h]
  have hbinding : ∀ id, id ≠ u → db'.binding id = db.binding id := fun id hne => by
    rw [Db.binding, hbindings]
    cases b with
    | none => rw [Option.map_none, Option.toList_none, List.append_nil]; rfl
    | some b =>
      rw [Option.map_some, Option.toList_some, Records.find_append_of_ne hne.symm]
      rfl
  have hout : ∀ id state, db'.outgoing id state = db.outgoing id state := fun id state => by
    rw [Db.outgoing, houtbox]; rfl
  refine ⟨?_, ?_, ?_, ?_, ?_, ?_, ?_, ?_, ?_⟩
  · rw [happrovals]
    intro x hx
    rcases List.mem_append.1 hx with hx | hx
    · exact (hw.ids x hx).trans (Nat.lt_succ_self u)
    · rw [List.mem_singleton.1 hx, hid]
      exact Nat.lt_succ_self u
  · rw [happrovals]
    exact Records.nodup_append hw.nodup fun y hy => by rw [hid]; exact (hw.ids y hy).ne
  · rw [hbindings]
    cases b with
    | none => simpa using hw.bindings
    | some b =>
      exact Records.nodup_append hw.bindings (hfree b rfl)
  · rw [hbindings]
    intro x hx
    rcases List.mem_append.1 hx with hx | hx
    · obtain ⟨row', hrow'⟩ := Option.isSome_iff_exists.1 (hw.bound x hx)
      rw [hkeep _ _ hrow']
      rfl
    · cases b with
      | none => cases hx
      | some b =>
        rw [List.mem_singleton.1 hx, hnew]
        rfl
  · rw [houtbox]
    intro e he
    obtain ⟨hlt, row', hrow', hf⟩ := hw.outbox e he
    exact ⟨hlt.trans (Nat.lt_succ_self u), row', hkeep _ _ hrow', hf⟩
  · exact fun id state => by rw [hout]; exact hw.once id state
  · intro id row' hrow' hb hs
    by_cases hne : id = u
    · subst hne
      rw [hnew] at hrow'
      cases hrow'
      exact absurd hstate hs
    · rw [hold id hne] at hrow'
      rw [hbinding id hne] at hb
      rw [hout]
      exact hw.told id row' hrow' hb hs
  · intro id
    rw [consumptions_same hevents fun e he => by rw [List.mem_singleton.1 he]; nofun, hw.consumed]
    by_cases hne : id = u
    · subst hne
      rw [hnew, hw.approval_new, Option.any_some, hstate]
      rfl
    · rw [hold id hne]
  · intro id row' hrow' hs
    rw [hevents]
    by_cases hne : id = u
    · subst hne
      rw [hnew] at hrow'
      cases hrow'
      rw [hstate] at hs
      cases hs
    · rw [hold id hne] at hrow'
      exact List.mem_append_left _ (hw.approved id row' hrow' hs)

namespace Turns

variable {new : List Audit}

theorem not_final (h : Turns a db row state new) : row.state.final = false := by
  cases h with
  | decided _ _ _ _ _ _ _ hs => rw [hs]; rfl
  | consumed _ _ _ _ _ hs => rw [hs]; rfl
  | cancelled _ _ hs => rcases hs with hs | hs <;> rw [hs] <;> rfl

theorem not_consumed (h : Turns a db row state new) : row.state ≠ .consumed := fun hs => by
  have := h.not_final
  rw [hs] at this
  cases this

/-- No event of the outbox tells the new state yet. -/
theorem untold (h : Turns a db row state new) : ¬ Follows state row.state := by
  cases h with
  | decided _ _ _ _ _ _ _ hs => rw [hs]; exact not_follows_decision
  | consumed _ _ _ _ _ hs => simp [Follows, hs]
  | cancelled _ _ hs => rcases hs with hs | hs <;> simp [Follows, hs]

/-- The events of the outbox tell states that the approval was in. -/
theorem follows (h : Turns a db row state new) {s : State} (hf : Follows s row.state) :
    Follows s state := by
  obtain ⟨hne, hs⟩ := hf
  cases h with
  | decided _ _ _ _ _ _ _ hp =>
    rw [hp] at hs
    rcases hs with rfl | ⟨-, hs | hs⟩
    · exact absurd rfl hne
    · cases hs
    · cases hs
  | consumed _ _ _ _ _ hp =>
    rw [hp] at hs
    rcases hs with rfl | ⟨-, hs | hs⟩
    · exact ⟨hne, .inr ⟨rfl, .inl rfl⟩⟩
    · cases hs
    · cases hs
  | cancelled _ _ hp =>
    rcases hp with hp | hp
    · rw [hp] at hs
      rcases hs with rfl | ⟨-, hs | hs⟩
      · exact absurd rfl hne
      · cases hs
      · cases hs
    · rw [hp] at hs
      rcases hs with rfl | ⟨-, hs | hs⟩
      · exact ⟨hne, .inr ⟨rfl, .inr rfl⟩⟩
      · cases hs
      · cases hs

theorem follows_self (h : Turns a db row state new) : Follows state state := by
  refine ⟨?_, .inl rfl⟩
  cases h with
  | decided _ _ approve => cases approve <;> nofun
  | consumed => nofun
  | cancelled => nofun

/-- The audit of the change has a consumption iff the new state is `consumed`. -/
theorem count (h : Turns a db row state new) (id : ApprovalId) :
    (new.countP fun e => e.approval = id ∧ e.event = .consumed) =
      if id = row.id ∧ state = .consumed then 1 else 0 := by
  cases h with
  | decided _ _ approve => cases approve <;> simp [ApprovalStore.decision]
  | consumed => simp [List.countP_cons, eq_comm]
  | cancelled => simp

theorem approved (h : Turns a db row state new) (hs : state = .approved) :
    ⟨row.id, row.identity, row.session, .decided true⟩ ∈ new := by
  cases h with
  | decided _ _ approve =>
    cases approve
    · cases hs
    · exact List.mem_singleton_self _
  | consumed => cases hs
  | cancelled => cases hs

end Turns

theorem Db.Wf.turned (hw : db.Wf u) {new : List Audit} (hrow : db.approval row.id = some row)
    (hturn : Turns a db row state new)
    (happroval : ∀ id, db'.approval id =
      if id = row.id then some { row with state := state } else db.approval id)
    (hids : db'.approvals.map Approval.id = db.approvals.map Approval.id)
    (hbindings : db'.bindings = db.bindings) (hevents : db'.events = db.events ++ new)
    (houtbox : db'.outbox = db.outbox ++
      if (db.binding row.id).isSome then [⟨u, row.id, state, false⟩] else []) :
    db'.Wf (u + 1) := by
  have hbinding := binding_of_bindings hbindings
  have hmine : db'.approval row.id = some { row with state := state } := by
    rw [happroval, if_pos rfl]
  have hsome : ∀ id, (db'.approval id).isSome = (db.approval id).isSome := fun id => by
    rw [happroval]
    split_ifs with h
    · rw [h, hrow]; rfl
    · rfl
  have hout : ∀ id s, db'.outgoing id s = db.outgoing id s +
      if (db.binding row.id).isSome ∧ id = row.id ∧ s = state then 1 else 0 := fun id s => by
    rw [Db.outgoing, houtbox, List.countP_append, ← Db.outgoing]
    by_cases hb : (db.binding row.id).isSome = true
    · have hiff : decide (row.id = id ∧ state = s) = true ↔ id = row.id ∧ s = state := by
        rw [decide_eq_true_iff, eq_comm, @eq_comm _ state]
      rw [if_pos hb, List.countP_singleton]
      by_cases hh : id = row.id ∧ s = state
      · rw [if_pos (hiff.2 hh), if_pos ⟨hb, hh⟩]
      · rw [if_neg (fun h => hh (hiff.1 h)), if_neg fun h => hh h.2]
    · rw [if_neg hb, if_neg fun hh => hb hh.1, List.countP_nil]
  have hzero : db.outgoing row.id state = 0 := hw.untold hrow hturn.untold
  refine ⟨?_, ?_, ?_, ?_, ?_, ?_, ?_, ?_, ?_⟩
  · intro x hx
    have hmem : x.id ∈ db'.approvals.map Approval.id := List.mem_map_of_mem hx
    rw [hids] at hmem
    obtain ⟨y, hy, hyx⟩ := List.mem_map.1 hmem
    exact hyx ▸ (hw.ids y hy).trans (Nat.lt_succ_self u)
  · rw [hids]; exact hw.nodup
  · rw [hbindings]; exact hw.bindings
  · rw [hbindings]
    exact fun b hb => by rw [hsome]; exact hw.bound b hb
  · have hold : ∀ e ∈ db.outbox, e.id < u + 1 ∧
        ∃ row', db'.approval e.approval = some row' ∧ Follows e.state row'.state := by
      intro e he
      obtain ⟨hlt, row', hrow', hf⟩ := hw.outbox e he
      refine ⟨hlt.trans (Nat.lt_succ_self u), ?_⟩
      by_cases hid : e.approval = row.id
      · rw [hid, hrow] at hrow'
        cases hrow'
        rw [hid]
        exact ⟨_, hmine, hturn.follows hf⟩
      · exact ⟨row', by rw [happroval, if_neg hid, hrow'], hf⟩
    rw [houtbox]
    intro e he
    rcases List.mem_append.1 he with he | he
    · exact hold e he
    · split_ifs at he
      · rw [List.mem_singleton.1 he]
        exact ⟨Nat.lt_succ_self u, _, hmine, hturn.follows_self⟩
      · cases he
  · intro id s
    rw [hout]
    split_ifs with h
    · rw [h.2.1, h.2.2, hzero]
    · exact hw.once id s
  · intro id row' hrow' hb hs
    rw [hbinding] at hb
    rw [hout]
    by_cases hid : id = row.id
    · subst hid
      rw [hmine] at hrow'
      cases hrow'
      rw [if_pos ⟨hb, rfl, rfl⟩]
      exact Nat.succ_pos _
    · rw [happroval, if_neg hid] at hrow'
      exact (hw.told id row' hrow' hb hs).trans_le (Nat.le_add_right _ _)
  · intro id
    rw [consumptions_append hevents, hturn.count, hw.consumed, happroval]
    by_cases hid : id = row.id
    · subst hid
      rw [hrow, if_pos rfl, Option.any_some, Option.any_some,
        if_neg (by simpa using hturn.not_consumed)]
      simp
    · rw [if_neg hid, if_neg (show ¬ (id = row.id ∧ state = .consumed) from fun hh => hid hh.1),
        Nat.add_zero]
  · intro id row' hrow' hs
    rw [hevents]
    by_cases hid : id = row.id
    · subst hid
      rw [hmine] at hrow'
      cases hrow'
      exact List.mem_append_right _ (hturn.approved hs)
    · rw [happroval, if_neg hid] at hrow'
      exact List.mem_append_left _ (hw.approved id row' hrow' hs)

/-- **Every operation keeps the database well formed.** -/
theorem Db.Wf.change (hw : db.Wf u) (hc : Change a u db db') : db'.Wf (u + 1) := by
  cases hc with
  | audited new hnew happrovals hbindings hevents houtbox =>
    obtain ⟨f, houtbox, hf⟩ := houtbox
    exact (hw.audited hnew happrovals hbindings hevents houtbox hf).mono (Nat.le_succ u)
  | created row b hid hstate happrovals hbindings hb hfree hevents houtbox =>
    exact hw.created hid hstate happrovals hbindings hfree hevents houtbox
  | turned row state new hrow hturn happroval hids hbindings hevents houtbox =>
    exact hw.turned hrow hturn happroval hids hbindings hevents houtbox

end

namespace Host

variable {h h' : Host} {a : Act}

/-- The database is well formed. -/
def Wf (h : Host) : Prop := h.db.Wf h.uuids

theorem Initial.wf (hi : h.Initial) : h.Wf := by
  rw [Wf, show h.db = .empty from hi]
  refine ⟨?_, ?_, ?_, ?_, ?_, ?_, ?_, ?_, ?_⟩ <;>
    simp [Db.empty, Db.approval, Db.outgoing, Db.consumptions, Records.find]

/-- A step raises and changes nothing, or is a change. -/
theorem step_cases (hw : h.Wf) (hst : lts.step h a h') :
    (∃ e, a.attempt h.uuids h.db = .error e) ∧ h'.db = h.db ∨
      (∃ db', a.attempt h.uuids h.db = .ok db') ∧ Change a h.uuids h.db h'.db := by
  obtain ⟨t, hc, rfl⟩ := hst
  cases hr : a.attempt h.uuids h.db with
  | error e => exact .inl ⟨⟨e, rfl⟩, by rw [after, hr, commit_error]⟩
  | ok db' =>
    refine .inr ⟨⟨db', rfl⟩, ?_⟩
    rw [after, hr, commit_ok]
    exact Act.change hw hr

theorem Wf.step (hw : h.Wf) (hst : lts.step h a h') : h'.Wf := by
  have hu : h'.uuids = h.uuids + 1 := by
    obtain ⟨t, -, rfl⟩ := hst
    rfl
  rw [Wf, hu]
  rcases step_cases hw hst with ⟨-, heq⟩ | ⟨-, hchange⟩
  · rw [heq]
    exact Db.Wf.mono hw (Nat.le_succ _)
  · exact Db.Wf.change hw hchange

theorem wf (hr : lts.Reachable Initial h) : h.Wf :=
  hr.invariant (fun _ hi => hi.wf) fun _ _ _ hw hst => hw.step hst

/-! ### Grants -/

/-- What the operation `a` may do on the way from `h` to `h'`. -/
structure Lawful (h : Host) (a : Act) (h' : Host) : Prop where
  /-- an operation that raises changes nothing -/
  failed : ∀ e, a.attempt h.uuids h.db = .error e → h'.db = h.db
  /-- an approval is consumed by a call with its identity, session, action, arguments and binding,
  before its expiry, after this identity and session approved it -/
  consumed : ∀ id row', h'.db.approval id = some row' → row'.state = .consumed →
    h.db.approval id = some row' ∨ ∃ row env arguments t, h.db.approval id = some row ∧
      a = .consume env id row.identity row.session row.action arguments (h.db.binding id) t ∧
      canonical arguments = .ok row.arguments ∧ h.now ≤ t ∧ t ≤ h'.now ∧ t < row.expires ∧
      ⟨id, row.identity, row.session, .decided true⟩ ∈ h.db.events
  /-- only the state of an approval changes -/
  kept : ∀ id row, h.db.approval id = some row →
    ∃ state, h'.db.approval id = some { row with state := state }
  /-- `denied`, `consumed` and `cancelled` are final -/
  final : ∀ id row, h.db.approval id = some row → row.state.final = true →
    h'.db.approval id = some row
  /-- a binding is kept -/
  bindings : ∀ b ∈ h.db.bindings, b ∈ h'.db.bindings
  /-- an approval is created for a binding that had none, and is bound to it -/
  created : ∀ id, h.db.approval id = none → h'.db.approval id ≠ none →
    ∀ env identity session action arguments ttl target t,
      a = .requestBound env identity session action arguments ttl target t →
        (∀ b ∈ h.db.bindings, b.binding ≠ target) ∧ ⟨target, id⟩ ∈ h'.db.bindings
  /-- the change of the state of a bound approval is told by one new event of the outbox -/
  told : ∀ id row row', h.db.approval id = some row → h'.db.approval id = some row' →
    row'.state ≠ row.state → (h.db.binding id).isSome →
      h.db.outgoing id row'.state = 0 ∧ h'.db.outgoing id row'.state = 1

/-- A step that changes no row is lawful. -/
theorem Lawful.of_same (hdb : ∀ id, h'.db.approval id = h.db.approval id)
    (hb : h'.db.bindings = h.db.bindings)
    (hfailed : ∀ e, a.attempt h.uuids h.db = .error e → h'.db = h.db) : Lawful h a h' := by
  refine ⟨hfailed, fun id row' hrow' _ => .inl (by rw [← hdb, hrow']), fun id row hrow =>
    ⟨row.state, by rw [hdb, hrow]⟩, fun id row hrow _ => by rw [hdb, hrow], fun b hmem => hb ▸ hmem,
    fun id hnone hsome => absurd (by rw [hdb, hnone]) hsome,
    fun id row row' hrow hrow' hne => ?_⟩
  rw [hdb, hrow] at hrow'
  cases hrow'
  exact absurd rfl hne

theorem lawful (hw : h.Wf) (hst : lts.step h a h') : Lawful h a h' := by
  have hw' := hw.step hst
  rcases step_cases hw hst with ⟨-, heq⟩ | ⟨⟨db', hok⟩, hchange⟩
  · exact .of_same (fun id => by rw [heq]) (by rw [heq]) fun _ _ => heq
  have hfailed : ∀ e, a.attempt h.uuids h.db = .error e → h'.db = h.db := fun e he => by
    rw [hok] at he
    cases he
  cases hchange with
  | audited new hnew happrovals hbindings hevents houtbox =>
    exact .of_same (approval_of_approvals happrovals) hbindings hfailed
  | created row b hid hstate happrovals hbindings hb hfree hevents houtbox =>
    have hkeep : ∀ id row', h.db.approval id = some row' → h'.db.approval id = some row' :=
      fun id row' hrow' => by
        rw [Db.approval, happrovals]
        exact Records.find_append_of_some hrow'
    have hnew : ∀ id, h.db.approval id = none → h'.db.approval id ≠ none → id = h.uuids :=
      fun id hnone hsome => by
        by_contra hne
        rw [Db.approval, happrovals, Records.find_append_of_ne (by rw [hid]; exact Ne.symm hne)]
          at hsome
        exact hsome hnone
    refine ⟨hfailed, fun id row' hrow' hs => ?_, fun id row' hrow' =>
      ⟨row'.state, hkeep id row' hrow'⟩, fun id row' hrow' _ => hkeep id row' hrow', fun x hx => ?_,
      fun id hnone hsome env identity session action arguments ttl target t ha => ?_,
      fun id row₁ row₂ hrow₁ hrow₂ hne => ?_⟩
    · cases hold : h.db.approval id with
      | some row₁ => exact .inl (by rw [← hrow', hkeep id row₁ hold])
      | none =>
        obtain rfl := hnew id hold (by rw [hrow']; nofun)
        rw [Db.approval, happrovals, ← hid] at hrow'
        rw [Records.find_append_new fun y hy => by rw [hid]; exact (hw.ids y hy).ne] at hrow'
        cases hrow'
        rw [hstate] at hs
        cases hs
    · rw [hbindings]
      exact List.mem_append_left _ hx
    · obtain rfl := hb _ _ _ _ _ _ _ _ ha
      rw [hnew id hnone hsome, hbindings]
      exact ⟨hfree _ rfl, List.mem_append_right _ (List.mem_singleton_self _)⟩
    · rw [hkeep id row₁ hrow₁] at hrow₂
      cases hrow₂
      exact absurd rfl hne
  | turned row state new hrow hturn happroval hids hbindings hevents houtbox =>
    have hmine : h'.db.approval row.id = some { row with state := state } := by
      rw [happroval, if_pos rfl]
    have hother : ∀ id, id ≠ row.id → h'.db.approval id = h.db.approval id := fun id hne => by
      rw [happroval, if_neg hne]
    refine ⟨hfailed, fun id row' hrow' hs => ?_, fun id row' hrow' => ?_,
      fun id row' hrow' hf => ?_, fun b hb => hbindings ▸ hb, fun id hnone hsome => ?_,
      fun id row₁ row₂ hrow₁ hrow₂ hne hb => ?_⟩
    · by_cases hid : id = row.id
      · subst hid
        rw [hmine] at hrow'
        cases hrow'
        have happroved := hw.approved row.id row hrow
        cases hturn with
        | decided _ _ approve => cases approve <;> cases hs
        | cancelled => cases hs
        | consumed env arguments t ha hargs hstate ht =>
          refine .inr ⟨row, env, arguments, t, hrow, ha, hargs, ?_, ?_, ht, happroved hstate⟩
          · obtain ⟨t', hc, rfl⟩ := hst
            subst ha
            exact hc.1
          · obtain ⟨t', hc, rfl⟩ := hst
            subst ha
            exact hc.2
      · exact .inl (by rw [← hother id hid, hrow'])
    · by_cases hid : id = row.id
      · subst hid
        rw [hrow] at hrow'
        cases hrow'
        exact ⟨state, hmine⟩
      · exact ⟨row'.state, by rw [hother id hid, hrow']⟩
    · by_cases hid : id = row.id
      · subst hid
        rw [hrow] at hrow'
        cases hrow'
        rw [hturn.not_final] at hf
        cases hf
      · rw [hother id hid, hrow']
    · have hne : id ≠ row.id := fun hid => by
        rw [hid, hrow] at hnone
        cases hnone
      exact absurd (by rw [hother id hne, hnone]) hsome
    · by_cases hid : id = row.id
      · subst hid
        rw [hrow] at hrow₁
        rw [hmine] at hrow₂
        cases hrow₁
        cases hrow₂
        refine ⟨hw.untold hrow hturn.untold, le_antisymm (hw'.once row.id state) ?_⟩
        refine hw'.told row.id _ hmine ?_ hturn.follows_self.1
        rw [binding_of_bindings hbindings]
        exact hb
      · rw [hother id hid, hrow₁] at hrow₂
        cases hrow₂
        exact absurd rfl hne

/-- **An approval is consumed at most once**, an operation binding has at most one approval, and
the outbox tells each state of an approval at most once; and every step is lawful. -/
theorem granted (hr : lts.Reachable Initial h) :
    (∀ id, h.db.consumptions id ≤ 1) ∧ (h.db.bindings.map Bound.binding).Nodup ∧
      (∀ id state, h.db.outgoing id state ≤ 1) ∧ ∀ a h', lts.step h a h' → Lawful h a h' := by
  have hw := wf hr
  refine ⟨fun id => ?_, hw.bindings, hw.once, fun a h' hst => lawful hw hst⟩
  rw [hw.consumed]
  split_ifs <;> omega

theorem step_after {t : Time} (hc : a.clocked h.now t) : lts.step h a (h.after a t) :=
  ⟨t, hc, rfl⟩

/-- A request, its approval and its consumption. -/
def sample : Host :=
  ((Host.after ⟨.empty, 0, 0⟩ (.request "human" "s" "write" ⟨[], true⟩ 300 0 0) 0).after
    (.decide {} (.ok ()) 0 "human" "s" true 1 1 1) 1).after
    (.consume {} 0 "human" "s" "write" ⟨[], true⟩ none 2) 2

theorem granted_sample : sample.db.consumptions 0 ≤ 1 ∧
    (sample.db.approval 0).any (·.state = .consumed) = true := by
  have hrun : lts.Reachable Initial sample := by
    refine (((Lts.Reachable.of_init ?_).step (step_after ?_)).step (step_after ?_)).step
      (step_after ?_)
    · rfl
    · simp [Act.clocked]
    · simp [Act.clocked, after]
    · simp [Act.clocked, after]
  exact ⟨(granted hrun).1 0, by decide +kernel⟩

end Host

end Approvals

end PythonAI
