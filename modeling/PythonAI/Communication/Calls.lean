import PythonAI.Communication.Store

/-!
# Calls of the operations of `CommunicationStore`

`Op` is a call of one of the operations, with the clock values and the other facts it reads outside
the database; `Op.perform` is the database after it.  The three steps of a delivery that only
`deliver_pending` takes are not calls: they are steps of the process that sends.
-/

namespace PythonAI

open Library

namespace Communication

/-- A call, by any process. -/
inductive Op
  | ingest (m : Inbound) (recovery : Option String) (u : String)
  | enqueue (m : Inbound) (bound : Except Error (Option String)) (recovery : Option String)
      (u : String)
  | release (sources : List ℕ)
  | setRecoveryState (id : CommandId) (state : Status)
  | markCommandRunning (id : CommandId)
  | completeCommand (id : CommandId) (result : String)
  | failCommand (id : CommandId) (error : String)
  | cancelCommand (id : CommandId) (owner : Option Command)
  | cancelSession (owner : Command)
  | suspendCommand (id : CommandId) (state : Saved) (call : String)
  | clearSuspendedCommand (conversation : String) (owner : Option Command)
  | beginSessionDeletion (s : Scope) (t : Time)
  | eraseSession (s : Scope) (t : Time)
  | queueDelivery (env : Environment) (c : Command) (text context : String) (isError : Bool)
      (receipt : Bool) (minimal : Except Error Unit) (event : Option String) (t : Time)
  | cleanupExpired (t₁ t₂ : Time)

namespace Op

/-- The database that the call commits. -/
def attempt (db : Db) : Op → Except Error Db
  | ingest m recovery u => outcome (Communication.ingestInboundMessage m recovery u db)
  | enqueue m bound recovery u => outcome (Communication.enqueueCommand m bound recovery u db)
  | release sources => .ok (releaseDiscordInteraction sources db)
  | setRecoveryState id state => .ok (Communication.setRecoveryState id state db)
  | markCommandRunning id => .ok (Communication.markCommandRunning id db).1
  | completeCommand id result => .ok (Communication.completeCommand id result db)
  | failCommand id error => .ok (Communication.failCommand id error db)
  | cancelCommand id owner => .ok (Communication.cancelCommand id owner db).1
  | cancelSession owner => .ok (Communication.cancelSession owner db)
  | suspendCommand id state call => .ok (Communication.suspendCommand id state call db)
  | clearSuspendedCommand conversation owner =>
    .ok (Communication.clearSuspendedCommand conversation owner db)
  | beginSessionDeletion s t => .ok (Communication.beginSessionDeletion s t db).1
  | eraseSession s t => outcome (Communication.eraseSession s t db)
  | queueDelivery env c text context isError receipt minimal event t =>
    outcome (Communication.queueDelivery env c text context isError receipt minimal event t db)
  | cleanupExpired t₁ t₂ => .ok (Communication.cleanupExpired t₁ t₂ db)

/-- The database after the call. -/
def perform (db : Db) (o : Op) : Db := commit db (o.attempt db)

end Op

section

variable {m : Inbound} {bound : Except Error (Option String)} {recovery : Option String} {u : String}
  {db db' : Db}

/-- The session state that an inbound message may add. -/
def admitted (db : Db) (s : Scope) : Table Scope Lifecycle :=
  if (db.states s).isNone then db.states.set s .active else db.states

theorem admitted_isSome (s : Scope) : (admitted db s s).isSome := by
  unfold admitted
  cases h : db.states s with
  | none => simp
  | some st => simp [h]

/-- A session state that exists is kept. -/
theorem admitted_of_some {s s' : Scope} {st : Lifecycle} (h : db.states s' = some st) :
    admitted db s s' = some st := by
  unfold admitted
  split_ifs with hnone
  · have hne : s' ≠ s := fun heq => by
      rw [← heq, h] at hnone
      cases hnone
    rw [Table.set_of_ne _ _ _ hne, h]
  · exact h

/-- What `incoming_session` writes. -/
theorem incomingSession_ok {session : String}
    (h : incomingSession m bound recovery u db = .ok (db', session)) :
    ∃ b heads, bound = .ok b ∧ session = sessionOf m b recovery u db ∧
      (∀ k s, heads k = some s → db.heads k = some s ∨ s = session) ∧
      db' = { db with
        states := admitted db ⟨m.command.platform, m.command.sender, m.command.project, session⟩
        heads := heads } := by
  simp only [incomingSession, bind_eq_ok, pure_eq_ok, Prod.mk.injEq] at h
  obtain ⟨-, -, b, hb, -, -, rfl, rfl⟩ := h
  refine ⟨b, _, hb, rfl, fun k s hs => ?_, rfl⟩
  split_ifs at hs
  · rw [Table.set_apply] at hs
    split_ifs at hs
    · exact .inr (Option.some.inj hs).symm
    · exact .inl hs
  · exact .inl hs

/-- A call that adds no job changes nothing. -/
theorem addJob_ok {duplicate : String} {new : Bool}
    (h : addJob duplicate m bound recovery u db = .ok (db', new)) :
    db' = db ∨ ∃ b session heads, session = sessionOf m b recovery u db ∧
      (∀ k s, heads k = some s → db.heads k = some s ∨ s = session) ∧
      db.job m.command.id = none ∧
      db' = { db with
        jobs := db.jobs ++ [{ command := { m.command with session := session }
                              deliveryReady := m.command.platform ≠ "discord" }]
        states := admitted db ⟨m.command.platform, m.command.sender, m.command.project, session⟩
        heads := heads } := by
  unfold addJob at h
  split at h
  · simp only [bind_eq_ok, pure_eq_ok, Prod.mk.injEq] at h
    obtain ⟨-, -, rfl, -⟩ := h
    exact .inl rfl
  case h_2 hnone =>
    simp only [bind_eq_ok, pure_eq_ok] at h
    obtain ⟨⟨db₁, session⟩, hsession, -, -, heq⟩ := h
    obtain ⟨b, heads, -, hs, hheads, rfl⟩ := incomingSession_ok hsession
    cases heq
    exact .inr ⟨b, session, heads, hs, hheads, hnone, rfl⟩

/-- `insertDelivery` finds the row, or adds it. -/
theorem insertDelivery_ok {env : Environment} {c : Command} {key key' : DeliveryKey}
    {text context : String} {receipt : Bool} {t : Time}
    (h : insertDelivery env c key text context receipt t db = .ok (db', key')) :
    key' = key ∧ (db' = db ∨ ∃ row : Delivery, row.id = key ∧ (∀ d ∈ db.deliveries, d.id ≠ row.id) ∧
      db' = { db with deliveries := db.deliveries ++ [row] }) := by
  unfold insertDelivery at h
  by_cases hsome : (db.delivery key).isSome
  · rw [if_pos hsome] at h
    cases h
    exact ⟨rfl, .inl rfl⟩
  · rw [if_neg hsome] at h
    simp only [bind_eq_ok, pure_eq_ok, Prod.mk.injEq] at h
    obtain ⟨-, -, -, -, -, -, -, -, -, -, ttl, -, rfl, rfl⟩ := h
    refine ⟨rfl, .inr ⟨_, rfl, fun d hd hid => hsome ?_, rfl⟩⟩
    obtain ⟨d', hd'⟩ := Records.find_isSome Delivery.id hd
    rw [hid] at hd'
    exact Option.isSome_iff_exists.2 ⟨d', hd'⟩

/-- `queue_delivery` leaves the jobs and the sessions alone. -/
theorem queueDelivery_frame {env : Environment} {c : Command} {key : DeliveryKey}
    {text context : String} {isError receipt : Bool} {minimal : Except Error Unit}
    {event : Option String} {t : Time}
    (h : queueDelivery env c text context isError receipt minimal event t db = .ok (db', key)) :
    db'.jobs = db.jobs ∧ db'.states = db.states ∧ db'.heads = db.heads := by
  simp only [queueDelivery, bind_eq_ok] at h
  obtain ⟨-, -, -, -, -, -, h⟩ := h
  cases event with
  | none =>
    obtain ⟨-, rfl | ⟨row, -, -, rfl⟩⟩ := insertDelivery_ok h <;> exact ⟨rfl, rfl, rfl⟩
  | some k =>
    simp only [Option.isNone_some, Bool.false_eq_true, if_false] at h
    split at h
    · simp only [bind_eq_ok, pure_eq_ok, Prod.mk.injEq] at h
      obtain ⟨-, -, rfl, -⟩ := h
      exact ⟨rfl, rfl, rfl⟩
    · simp only [bind_eq_ok] at h
      obtain ⟨-, -, -, -, h⟩ := h
      obtain ⟨-, rfl | ⟨row, -, -, rfl⟩⟩ := insertDelivery_ok h <;> exact ⟨rfl, rfl, rfl⟩

end

end Communication

end PythonAI
