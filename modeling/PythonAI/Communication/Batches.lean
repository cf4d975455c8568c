import PythonAI.Communication.Polling
import PythonAI.Communication.Sessions

/-!
# The events of a batch

A request of a platform holds any number of events.  `_enqueue_verified_events` takes them in one
after the other; a conversation that was deleted is passed over, and any other exception leaves the
loop, with what was stored before it.

* `enqueueVerifiedEvents` : the loop over the events that the adapter has parsed;
* `opens_after` : an event that is taken in closes no session to another one;
* `enqueueEach_new` : a new command is that of an event that the loop has reached;
* `enqueueVerifiedEvents_isolated_iff` : **every event that would be accepted alone is stored exactly
  if no event leaves the loop before it is taken in, or an equal one**.
-/

namespace PythonAI

open Library

namespace Communication

namespace Intake

/-! ### The loop -/

/-- An event, with what is read outside the database while it is taken in. -/
structure Event where
  /-- the message -/
  message : Message
  /-- the surroundings -/
  taking : Taking

/-- `replace(inbound, project=os.environ.get('COMM_PROJECT', 'default'))` -/
def Event.inbound (e : Event) : Message := { e.message with project := e.taking.project }

/-- `sender_key` -/
def Message.senderKey (m : Message) : String := m.platform ++ ":" ++ m.sender

/-- `normalize_allowed_senders` -/
def normalizeAllowedSenders (allowed : Option (List String)) : Option (List String) :=
  allowed.bind fun senders =>
    let normalized := (senders.map strip).filter (· ≠ "")
    if normalized = [] then none else some normalized

/-- The sender of the message is allowed. -/
def Message.allowed (allowed : Option (List String)) (m : Message) : Bool :=
  allowed.all fun senders => m.senderKey ∈ senders

/-- `ingest_inbound_message` for the event alone, in the loop: the database, and the new commands. -/
def Event.take (e : Event) (s : Store) : Store × Except Error (List CommandId) :=
  match e.taking.store e.inbound s with
  | (s', .ok n) => (s', .ok (if n = 0 then [] else [e.inbound.key]))
  | (s', .error error) => (s', .error error)

/-- The loop over the events, for the normalized senders. -/
def enqueueEach (allowed : Option (List String)) : List Event → Store →
    Store × Except Error (List CommandId)
  | [], s => (s, .ok [])
  | e :: events, s =>
    if e.inbound.allowed allowed then
      match e.take s with
      | (s', .error error) => (s', .error error)
      | (s', .ok commands) =>
        ((enqueueEach allowed events s').1,
          (enqueueEach allowed events s').2.map fun later => commands ++ later)
    else (s, .error (.permission (e.inbound.platform ++ " sender is not allowed")))

/-- `_enqueue_verified_events`; `parsed` is what `adapter.parse_events` returns or raises. -/
def enqueueVerifiedEvents (allowed : Option (List String)) (parsed : Except Error (List Event))
    (s : Store) : Store × Except Error (List CommandId) :=
  match parsed with
  | .ok events => enqueueEach (normalizeAllowedSenders allowed) events s
  | .error error => (s, .error error)

/-! ### Events alone -/

/-- `ingest_inbound_message` would accept the event. -/
def Event.accepted (e : Event) (s : Store) : Bool := (e.taking.ingest e.inbound s).isOk

/-- The database after the event was taken in. -/
def Event.after (e : Event) (s : Store) : Store := (e.take s).1

/-- The database after the events were taken in, each alone. -/
def after (events : List Event) (s : Store) : Store := events.foldl (fun s e => e.after s) s

/-- The event does not leave the loop: its sender is allowed, and nothing is raised but for a deleted
conversation. -/
def Event.passes (allowed : Option (List String)) (e : Event) (s : Store) : Bool :=
  e.inbound.allowed allowed && (e.take s).2.isOk

/-- None of the events leaves the loop. -/
def quiet (allowed : Option (List String)) : List Event → Store → Bool
  | [], _ => true
  | e :: events, s => e.passes allowed s && quiet allowed events (e.after s)

/-- The message has a command, of its own sender, conversation and project. -/
def Stored (s : Store) (m : Message) : Prop :=
  ∃ j, s.db.job m.key = some j ∧ attachmentOwner j.command = attachmentOwner (m.command none)

/-- The events of a batch do not affect each other. -/
structure Isolated (allowed : Option (List String)) (events : List Event) (s s' : Store) : Prop where
  /-- an event of an allowed sender that would be accepted alone is stored -/
  stored : ∀ e ∈ events, e.inbound.allowed allowed = true → e.accepted s = true →
    Stored s' e.inbound
  /-- every new command is from an allowed sender -/
  senders : ∀ j ∈ s'.db.jobs, j ∈ s.db.jobs ∨
    (allowed.all fun senders => j.command.platform ++ ":" ++ j.command.sender ∈ senders) = true

/-- The events leave the loop behind the ones that would be accepted alone: no event up to such a
one leaves it, or the command is there before, or an event with the same id and owner is accepted
before the loop is left. -/
def Spared (allowed : Option (List String)) (events : List Event) (s : Store) : Prop :=
  ∀ pre e post, events = pre ++ e :: post → e.inbound.allowed allowed = true →
    e.accepted s = true → (s.db.job e.inbound.key).isSome = true ∨
      quiet allowed (pre ++ [e]) s = true ∨
      ∃ pre' d post', events = pre' ++ d :: post' ∧ quiet allowed pre' s = true ∧
        d.inbound.allowed allowed = true ∧ d.accepted (after pre' s) = true ∧
        d.inbound.key = e.inbound.key ∧
        attachmentOwner (d.inbound.command none) = attachmentOwner (e.inbound.command none)

variable {allowed : Option (List String)} {e : Event} {events pre post : List Event} {s s' : Store}
  {m : Message} {j : Job} {id : CommandId} {x : Taking} {recovery : Option String}
  {u session : String} {db db' : Db}

/-! ### What an event does -/

/-- A new command: its job, and the session that it is filed under. -/
theorem ingest_new (h : x.ingest m s = .ok (s', true)) :
    s.db.job m.key = none ∧ ∃ recovery db session source, x.recovery = .ok recovery ∧
      incomingSession (m.incoming none) (.ok none) recovery x.uuid s.db = .ok (db, session) ∧
      s'.db = { db with jobs := s.db.jobs ++ [m.job source session] } := by
  simp only [Taking.ingest, bind_eq_ok] at h
  obtain ⟨recovery, hrecovery, _, -, h⟩ := h
  obtain ⟨_, _, _, _, hnew⟩ | ⟨hnone, -, db, session, rows, row, hdb, -, -, rfl⟩ := ingest_ok h
  · cases hnew
  · refine ⟨hnone, recovery, db, session, row.id, hrecovery, hdb, ?_⟩
    have hframe := insertMessage_frame (s := { s with
      db := db, attachments := s.attachments ++ rows }) m.row
    rw [← incomingSession_jobs hdb]
    exact congrArg (fun db : Db => { db with jobs := db.jobs ++ [m.job row.id session] }) hframe.1

theorem take_error {error : Error} (h : e.taking.ingest e.inbound s = .error error) :
    e.after s = s ∧ ((e.take s).2.isOk = true → deletedConversation error = true) := by
  rw [Event.after, Event.take, Taking.store, h]
  dsimp only
  by_cases hdeleted : deletedConversation error = true
  · rw [if_pos hdeleted]
    exact ⟨rfl, fun _ => hdeleted⟩
  · rw [if_neg hdeleted]
    exact ⟨rfl, nofun⟩

theorem take_ok {new : Bool} (h : e.taking.ingest e.inbound s = .ok (s', new)) :
    e.after s = s' := by
  have hstore : (e.taking.store e.inbound s).1 = s' := by
    rw [Taking.store, h]
    cases new <;> rfl
  rw [Event.after, Event.take]
  split
  · rename_i hcall
    rw [← hstore, hcall]
  · rename_i hcall
    rw [← hstore, hcall]

theorem ingest_again (h : x.ingest m s = .ok (s', false)) : s' = s ∧ Stored s m := by
  simp only [Taking.ingest, bind_eq_ok] at h
  obtain ⟨recovery, -, _, -, h⟩ := h
  obtain ⟨old, hold, howner, rfl, -⟩ | ⟨-, hnew, -⟩ := ingest_ok h
  · exact ⟨rfl, old, hold, howner.symm⟩
  · cases hnew

/-- An event leaves the database as it is, or adds a job. -/
theorem after_cases (e : Event) (s : Store) : e.after s = s ∨
    ∃ s', e.taking.ingest e.inbound s = .ok (s', true) ∧ e.after s = s' := by
  cases h : e.taking.ingest e.inbound s with
  | error error => exact .inl (take_error h).1
  | ok y =>
    obtain ⟨s', new⟩ := y
    cases new with
    | false => exact .inl ((take_ok h).trans (ingest_again h).1)
    | true => exact .inr ⟨s', rfl, take_ok h⟩

theorem after_job (h : s.db.job id = some j) : (e.after s).db.job id = some j := by
  obtain heq | ⟨s', hnew, heq⟩ := after_cases e s
  · rw [heq]
    exact h
  · obtain ⟨-, _, db, session, source, -, -, hdb⟩ := ingest_new hnew
    rw [heq, hdb]
    exact Records.find_append_of_some h

/-- A new job is that of the event, which was accepted. -/
theorem after_new (hnone : s.db.job id = none) (h : (e.after s).db.job id = some j) :
    e.accepted s = true ∧ e.inbound.key = id ∧
      attachmentOwner (e.inbound.command none) = attachmentOwner j.command := by
  obtain heq | ⟨s', hnew, heq⟩ := after_cases e s
  · rw [heq, hnone] at h
    cases h
  · obtain ⟨-, _, db, session, source, -, -, hdb⟩ := ingest_new hnew
    rw [heq, hdb] at h
    have hold : Records.find Job.id id s.db.jobs = none := hnone
    have hfind : Records.find Job.id id (s.db.jobs ++ [e.inbound.job source session]) = some j := h
    rw [Records.find_append, hold, Option.none_or] at hfind
    have hkey := Records.key_of_find hfind
    have hmem := List.mem_singleton.1 (Records.mem_of_find hfind)
    refine ⟨?_, ?_, ?_⟩
    · rw [Event.accepted, hnew]
      rfl
    · rw [← hkey, hmem]
      rfl
    · rw [hmem]
      rfl

/-- **An event that is accepted is stored.** -/
theorem stored_after (h : e.accepted s = true) : Stored (e.after s) e.inbound := by
  cases hcall : e.taking.ingest e.inbound s with
  | error error =>
    rw [Event.accepted, hcall] at h
    cases h
  | ok y =>
    obtain ⟨s', new⟩ := y
    rw [take_ok hcall]
    cases new with
    | false =>
      obtain ⟨rfl, hstored⟩ := ingest_again hcall
      exact hstored
    | true =>
      obtain ⟨hnone, _, db, session, source, -, -, hdb⟩ := ingest_new hcall
      refine ⟨e.inbound.job source session, ?_, rfl⟩
      exact job_append (j := e.inbound.job source session) hnone (by rw [hdb])

theorem Stored.after (h : Stored s m) (e : Event) : Stored (e.after s) m := by
  obtain ⟨j, hj, howner⟩ := h
  exact ⟨j, after_job hj, howner⟩

/-! ### The session of an event -/

/-- A message with this text may enter a session in this state. -/
def admits (text : String) (state : Lifecycle) : Bool :=
  state = .active || recoveryControl text || (state = .deleting && cancellation text)

/-- The state of a session. -/
def stateOf (m : Message) (session : String) (db : Db) : Lifecycle :=
  (db.states ⟨m.platform, m.sender, m.project, session⟩).getD .active

/-- The message may enter its session. -/
def Opens (m : Message) (recovery : Option String) (u : String) (db : Db) : Prop :=
  ∃ db' session, incomingSession (m.incoming none) (.ok none) recovery u db = .ok (db', session)

theorem opens_iff : Opens m recovery u db ↔
    (!((m.incoming none).attached && (cleanupControl m.text || strip m.text = "/new-session"))) =
        true ∧
      admits m.text (stateOf m (sessionOf (m.incoming none) none recovery u db) db) = true := by
  simp only [Opens, incomingSession, bind_eq_ok, ensure_eq_ok, pure_eq_ok]
  constructor
  · rintro ⟨db', session, _, hbare, b, hb, _, hadmits, -⟩
    obtain rfl := Except.ok.inj hb
    exact ⟨hbare, hadmits⟩
  · rintro ⟨hbare, hadmits⟩
    exact ⟨_, _, (), hbare, none, rfl, (), hadmits, rfl⟩

/-- A message changes the state of no session. -/
theorem incomingSession_states {i : Inbound} {bound : Except Error (Option String)}
    (h : incomingSession i bound recovery u db = .ok (db', session)) (scope : Scope) :
    (db'.states scope).getD .active = (db.states scope).getD .active := by
  obtain ⟨b, heads, -, -, -, rfl⟩ := incomingSession_ok h
  show (admitted db _ scope).getD .active = _
  rw [admitted]
  split
  · rename_i hnone
    rw [Table.set_apply]
    split
    · rename_i hscope
      rw [hscope, Option.isNone_iff_eq_none.1 hnone]
      rfl
    · rfl
  · rfl

/-- A message without a recovery becomes the head of its conversation. -/
theorem incomingSession_head (h : incomingSession (m.incoming none) (.ok none) recovery u db =
    .ok (db', session)) :
    session = sessionOf (m.incoming none) none recovery u db ∧ ∀ k, db'.heads k = db.heads k ∨
      k = m.head ∧ recovery.filter (· ≠ "") = none ∧ db'.heads k = some session := by
  simp only [incomingSession, bind_eq_ok, pure_eq_ok, Prod.mk.injEq, Except.ok.injEq] at h
  obtain ⟨-, -, b, rfl, -, -, rfl, rfl⟩ := h
  refine ⟨rfl, fun k => ?_⟩
  dsimp only
  split
  · rename_i hheads
    rw [Option.isNone_none, Bool.true_and, Option.isNone_iff_eq_none] at hheads
    by_cases hk : k = m.head
    · exact .inr ⟨hk, hheads, (Table.set_apply _ _ _ _).trans (if_pos hk)⟩
    · exact .inl (Table.set_of_ne _ _ _ hk)
  · exact .inl rfl

theorem sessionOf_new (h : strip m.text = "/new-session") :
    sessionOf (m.incoming none) none recovery u db = m.platform ++ ":" ++ m.conversation ++ ":" ++ u :=
  if_pos (by rw [Option.isNone_none, Bool.and_true]; exact decide_eq_true h)

theorem sessionOf_old (h : strip m.text ≠ "/new-session") :
    sessionOf (m.incoming none) none recovery u db =
      (recovery.filter (· ≠ "")).getD
        ((db.heads m.head).getD (m.platform ++ ":" ++ m.conversation)) :=
  if_neg (by
    intro hnew
    rw [Option.isNone_none, Bool.and_true, decide_eq_true_eq] at hnew
    exact h hnew)

theorem not_control {text : String} (h : strip text = "/new-session") :
    recoveryControl text = false ∧ cancellation text = false := by
  rw [recoveryControl, cancellation, h]
  decide

/-- An event leaves the head of a conversation as it is, or opens a new session there. -/
theorem after_head
    (hin : incomingSession (m.incoming none) (.ok none) recovery u db = .ok (db', session)) (k : Head) :
    (db'.heads k).getD (k.platform ++ ":" ++ k.conversation) =
        (db.heads k).getD (k.platform ++ ":" ++ k.conversation) ∨
      k = m.head ∧ db'.heads k = some session ∧ stateOf m session db = .active := by
  obtain ⟨hsession, hset⟩ := incomingSession_head hin
  obtain hkept | ⟨rfl, hr, hset⟩ := hset k
  · exact .inl (by rw [hkept])
  by_cases hnew : strip m.text = "/new-session"
  · obtain ⟨-, hadmits⟩ := opens_iff.1 ⟨_, _, hin⟩
    obtain ⟨hrecovery, hcancel⟩ := not_control hnew
    rw [admits, hrecovery, hcancel, ← hsession] at hadmits
    exact .inr ⟨rfl, hset, by simpa using hadmits⟩
  · refine .inl ?_
    rw [hset, hsession, sessionOf_old hnew, hr]
    rfl

/-- **An event that is taken in closes no session to another one.** -/
theorem opens_after (h : Opens m recovery u s.db) (e : Event) : Opens m recovery u (e.after s).db := by
  obtain heq | ⟨s', hnew, heq⟩ := after_cases e s
  · rw [heq]
    exact h
  obtain ⟨-, r, db, session, source, -, hin, hdb⟩ := ingest_new hnew
  rw [heq]
  obtain ⟨hbare, hadmits⟩ := opens_iff.1 h
  have hstate : ∀ name, stateOf m name s'.db = stateOf m name s.db := by
    intro name
    rw [stateOf, stateOf, hdb]
    exact incomingSession_states hin _
  have hheads : s'.db.heads = db.heads := by rw [hdb]
  refine opens_iff.2 ⟨hbare, ?_⟩
  rw [hstate]
  by_cases hsame : sessionOf (m.incoming none) none recovery u s'.db =
      sessionOf (m.incoming none) none recovery u s.db
  · rw [hsame]
    exact hadmits
  -- the session is another one, so it is the head, which the event has set
  by_cases hcontrol : strip m.text = "/new-session"
  · rw [sessionOf_new hcontrol, sessionOf_new hcontrol] at hsame
    exact absurd rfl hsame
  rw [sessionOf_old hcontrol, hheads] at hsame ⊢
  rw [sessionOf_old hcontrol] at hsame
  cases hr : recovery.filter (· ≠ "") with
  | some name =>
    rw [hr] at hsame
    exact absurd rfl hsame
  | none =>
    rw [hr] at hsame
    obtain hkept | ⟨hhead, hset, hactive⟩ := after_head hin m.head
    · exact absurd hkept hsame
    have hscope : stateOf m session s.db = .active := by
      obtain ⟨hplatform, hsender, -, hproject⟩ := Head.mk.inj hhead
      have hsame : (⟨m.platform, m.sender, m.project, session⟩ : Scope) =
          ⟨e.inbound.platform, e.inbound.sender, e.inbound.project, session⟩ :=
        Scope.mk.injEq .. ▸ ⟨hplatform, hsender, hproject, rfl⟩
      rw [stateOf, hsame]
      exact hactive
    rw [Option.getD_none, hset, Option.getD_some, hscope]
    rfl

/-- Events that are taken in close no session to another one. -/
theorem opens_afterAll (h : Opens m recovery u s.db) (events : List Event) :
    Opens m recovery u (after events s).db := by
  induction events generalizing s with
  | nil => exact h
  | cons e events ih => exact ih (opens_after h e)

/-! ### Which errors are those of a deleted conversation -/

/-- The error is not that of a deleted conversation. -/
def Lasting (error : Error) : Prop := deletedConversation error = false

theorem lasting_value (message : String) : Lasting (.value message) := by
  simp [Lasting, deletedConversation]

theorem lasting_capacity (message : String) : Lasting (.capacity message) := by
  simp [Lasting, deletedConversation]

theorem raises_forM {α ε : Type} {P : ε → Prop} {f : α → Except ε Unit} (h : ∀ a, Raises P (f a))
    (l : List α) : Raises P (l.forM f) := by
  induction l with
  | nil => exact .ok ()
  | cons a l ih => exact .bind (h a) fun _ _ => ih

theorem positiveLimit_raises (env : Environment) (name : String) (n : ℕ) :
    Raises Lasting (positiveLimit env name n) :=
  .bind (.require (lasting_value _)) fun _ _ => .bind (.ensure (lasting_value _)) fun _ _ => .ok _

theorem attachmentRows_raises (y : Saving) (m : Message) (i : ℕ) (l : List Attachment) :
    Raises Lasting (attachmentRows y m i l) := by
  induction l generalizing i with
  | nil => exact .ok _
  | cons a l ih =>
    refine .bind (.bind (positiveLimit_raises _ _ _) fun _ _ => .ok _) fun _ _ => ?_
    exact .bind (ih _) fun _ _ => .ok _

theorem checkAttachment_raises (env : Environment) (a : Attachment) :
    Raises Lasting (checkAttachment env a) := by
  refine .bind (positiveLimit_raises _ _ _) fun _ _ => ?_
  refine .bind (.ensure (lasting_capacity _)) fun _ _ => ?_
  refine .bind (.ensure (lasting_value _)) fun _ _ => ?_
  refine .bind (.ensure (lasting_value _)) fun _ _ => ?_
  refine .bind (.ensure (lasting_value _)) fun _ _ => ?_
  exact .ensure (lasting_value _)

theorem saveAttachments_raises (y : Saving) (m : Message) (s : Store) :
    Raises Lasting (saveAttachments y m s) := by
  refine .bind (.ensure (lasting_capacity _)) fun _ _ => ?_
  refine .bind (raises_forM (checkAttachment_raises _) _) fun _ _ => ?_
  refine .ite (fun _ => .ok _) fun _ => ?_
  refine .bind (positiveLimit_raises _ _ _) fun _ _ => ?_
  refine .bind (.ensure (lasting_capacity _)) fun _ _ => ?_
  refine .bind (positiveLimit_raises _ _ _) fun _ _ => ?_
  refine .bind (.ensure (lasting_capacity _)) fun _ _ => ?_
  exact .bind (attachmentRows_raises _ _ _ _) fun _ _ => .ok _

/-- A message whose session is open raises no `DeletedConversation`. -/
theorem ingest_raises (hopen : Opens m recovery u s.db) (y : Saving) :
    Raises Lasting (ingest y m recovery u s) := by
  unfold ingest
  split
  · exact .bind (.ensure (by simp [Lasting, deletedConversation])) fun _ _ => .ok _
  · obtain ⟨db', session, hin⟩ := hopen
    have hincoming : incoming m (.ok none) recovery u s = .ok ({ s with db := db' }, session) := by
      rw [incoming, hin]
      rfl
    refine .bind (by rw [hincoming]; exact .ok _) fun _ _ => ?_
    refine .bind (saveAttachments_raises _ _ _) fun _ _ => ?_
    exact .bind (.require (by simp [Lasting, deletedConversation])) fun _ _ => .ok _

/-! ### Events that are accepted -/

/-- The event finds its session open. -/
def Event.Open (e : Event) (s : Store) : Prop :=
  ∃ recovery, e.taking.recovery = .ok recovery ∧ e.taking.database = .ok () ∧
    Opens e.inbound recovery e.taking.uuid s.db

/-- An event that is accepted has a command, or finds its session open. -/
theorem open_of_accepted (h : e.accepted s = true) :
    Stored s e.inbound ∨ s.db.job e.inbound.key = none ∧ e.Open s := by
  cases hcall : e.taking.ingest e.inbound s with
  | error error =>
    rw [Event.accepted, hcall] at h
    cases h
  | ok y =>
    obtain ⟨s', new⟩ := y
    cases new with
    | false => exact .inl (ingest_again hcall).2
    | true =>
      simp only [Taking.ingest, bind_eq_ok] at hcall
      obtain ⟨recovery, hrecovery, _, hdatabase, hcall⟩ := hcall
      obtain ⟨_, _, _, _, hnew⟩ | ⟨hnone, -, db, session, _, _, hin, -⟩ := ingest_ok hcall
      · cases hnew
      · exact .inr ⟨hnone, recovery, hrecovery, hdatabase, db, session, hin⟩

/-- An event that finds its session open and does not leave the loop is accepted. -/
theorem accepted_of_passes (hopen : e.Open s) (h : e.passes allowed s = true) :
    e.accepted s = true := by
  obtain ⟨recovery, hrecovery, hdatabase, hopen⟩ := hopen
  cases hcall : e.taking.ingest e.inbound s with
  | ok y =>
    rw [Event.accepted, hcall]
    rfl
  | error error =>
    rw [Event.passes, Bool.and_eq_true] at h
    have hdeleted := (take_error hcall).2 h.2
    have hlasting : Raises Lasting (e.taking.ingest e.inbound s) := by
      rw [Taking.ingest, hrecovery, hdatabase]
      exact ingest_raises hopen _
    exact absurd (hlasting error hcall) (by rw [Lasting, hdeleted]; intro h; cases h)

/-! ### The loop, event by event -/

theorem enqueueEach_cons (h : e.inbound.allowed allowed = true) :
    (enqueueEach allowed (e :: events) s).1 =
      if (e.take s).2.isOk then (enqueueEach allowed events (e.after s)).1 else e.after s := by
  rw [enqueueEach, if_pos h, Event.after]
  cases hcall : e.take s with
  | mk s' result => cases result <;> rfl

theorem enqueueEach_foreign (h : e.inbound.allowed allowed = false) :
    (enqueueEach allowed (e :: events) s).1 = s := by
  rw [enqueueEach, h]
  rfl

theorem enqueueEach_passes (h : e.passes allowed s = true) :
    (enqueueEach allowed (e :: events) s).1 = (enqueueEach allowed events (e.after s)).1 := by
  rw [Event.passes, Bool.and_eq_true] at h
  rw [enqueueEach_cons h.1, if_pos h.2]

theorem enqueueEach_append (h : quiet allowed pre s = true) :
    (enqueueEach allowed (pre ++ post) s).1 = (enqueueEach allowed post (after pre s)).1 := by
  induction pre generalizing s with
  | nil => rfl
  | cons e pre ih =>
    rw [quiet, Bool.and_eq_true] at h
    rw [List.cons_append, enqueueEach_passes h.1, ih h.2]
    rfl

theorem quiet_append : quiet allowed (pre ++ post) s =
    (quiet allowed pre s && quiet allowed post (after pre s)) := by
  induction pre generalizing s with
  | nil => rfl
  | cons e pre ih =>
    rw [List.cons_append, quiet, ih, quiet, Bool.and_assoc]
    rfl

/-- What one event keeps and the others keep, the loop keeps. -/
theorem enqueueEach_keeps {P : Store → Prop} (hstep : ∀ e s, e.inbound.allowed allowed = true →
    P s → P (Event.after e s)) (h : P s) (events : List Event) :
    P (enqueueEach allowed events s).1 := by
  induction events generalizing s with
  | nil => exact h
  | cons e events ih =>
    cases hallowed : e.inbound.allowed allowed with
    | false =>
      rw [enqueueEach_foreign hallowed]
      exact h
    | true =>
      have hafter := hstep e s hallowed h
      rw [enqueueEach_cons hallowed]
      split
      · exact ih hafter
      · exact hafter

theorem enqueueEach_stored (h : Stored s m) (events : List Event) :
    Stored (enqueueEach allowed events s).1 m :=
  enqueueEach_keeps (P := fun s => Stored s m) (fun e _ _ h => h.after e) h events

/-- An event that is accepted where the loop reaches it is stored. -/
theorem enqueueEach_reached (hquiet : quiet allowed pre s = true)
    (hallowed : e.inbound.allowed allowed = true) (h : e.accepted (after pre s) = true) :
    Stored (enqueueEach allowed (pre ++ e :: post) s).1 e.inbound := by
  rw [enqueueEach_append hquiet, enqueueEach_cons hallowed]
  split
  · exact enqueueEach_stored (stored_after h) post
  · exact stored_after h

/-- **A new command is that of an event that the loop has reached.** -/
theorem enqueueEach_new (hnone : s.db.job id = none)
    (h : (enqueueEach allowed events s).1.db.job id = some j) :
    ∃ pre d post, events = pre ++ d :: post ∧ quiet allowed pre s = true ∧
      d.inbound.allowed allowed = true ∧ d.accepted (after pre s) = true ∧ d.inbound.key = id ∧
      attachmentOwner (d.inbound.command none) = attachmentOwner j.command := by
  induction events generalizing s with
  | nil =>
    rw [enqueueEach, hnone] at h
    cases h
  | cons e events ih =>
    cases hallowed : e.inbound.allowed allowed with
    | false =>
      rw [enqueueEach_foreign hallowed, hnone] at h
      cases h
    | true =>
      rw [enqueueEach_cons hallowed] at h
      cases hafter : (e.after s).db.job id with
      | some j' =>
        have hkept : (enqueueEach allowed (e :: events) s).1.db.job id = some j' := by
          rw [enqueueEach_cons hallowed]
          split
          · exact enqueueEach_keeps (P := fun s => s.db.job id = some j')
              (fun d _ _ h => after_job (e := d) h) hafter events
          · exact hafter
        rw [enqueueEach_cons hallowed, h] at hkept
        cases hkept
        obtain ⟨haccepted, hkey, howner⟩ := after_new hnone hafter
        exact ⟨[], e, events, rfl, rfl, hallowed, haccepted, hkey, howner⟩
      | none =>
        split at h
        · rename_i hok
          obtain ⟨pre, d, post, rfl, hquiet, hd⟩ := ih hafter h
          refine ⟨e :: pre, d, post, rfl, ?_, hd⟩
          rw [quiet, Event.passes, hallowed, hok, hquiet]
          rfl
        · rw [hafter] at h
          cases h

/-- Every new command is from an allowed sender. -/
theorem enqueueEach_senders : ∀ j ∈ (enqueueEach allowed events s).1.db.jobs, j ∈ s.db.jobs ∨
    (allowed.all fun senders => j.command.platform ++ ":" ++ j.command.sender ∈ senders) = true := by
  refine enqueueEach_keeps (P := fun s' => ∀ j ∈ s'.db.jobs, j ∈ s.db.jobs ∨
    (allowed.all fun senders => j.command.platform ++ ":" ++ j.command.sender ∈ senders) = true)
    (fun e s' hallowed h j hj => ?_) (fun j hj => .inl hj) events
  obtain heq | ⟨s'', hnew, heq⟩ := after_cases e s'
  · rw [heq] at hj
    exact h j hj
  · obtain ⟨-, _, db, session, source, -, -, hdb⟩ := ingest_new hnew
    rw [heq, hdb] at hj
    obtain hold | hone := List.mem_append.1 hj
    · exact h j hold
    · rw [List.mem_singleton.1 hone]
      exact .inr hallowed

/-- **The events of a batch do not affect each other exactly if the loop is not left before one of
them**: whatever the events are, and whatever the database holds. -/
theorem enqueueVerifiedEvents_isolated_iff (senders : Option (List String)) (events : List Event)
    (s : Store) :
    Isolated (normalizeAllowedSenders senders) events s
        (enqueueVerifiedEvents senders (.ok events) s).1 ↔
      Spared (normalizeAllowedSenders senders) events s := by
  rw [enqueueVerifiedEvents]
  generalize normalizeAllowedSenders senders = allowed
  constructor
  · rintro ⟨hstored, -⟩ pre e post rfl hallowed haccepted
    cases hnone : s.db.job e.inbound.key with
    | some j => exact .inl rfl
    | none =>
      obtain ⟨j, hj, howner⟩ := hstored e (by simp) hallowed haccepted
      obtain ⟨pre', d, post', heq, hquiet, hd, hdone, hkey, hdowner⟩ := enqueueEach_new hnone hj
      exact .inr (.inr ⟨pre', d, post', heq, hquiet, hd, hdone, hkey, hdowner.trans howner⟩)
  · intro hspared
    refine ⟨fun e he hallowed haccepted => ?_, enqueueEach_senders⟩
    obtain ⟨pre, post, rfl⟩ := List.append_of_mem he
    obtain hstored | ⟨hnone, hopen⟩ := open_of_accepted haccepted
    · exact enqueueEach_stored hstored _
    obtain hjob | hquiet | ⟨pre', d, post', heq, hquiet, hd, hdone, hkey, howner⟩ :=
      hspared pre e post rfl hallowed haccepted
    · rw [hnone] at hjob
      cases hjob
    · rw [quiet_append, Bool.and_eq_true] at hquiet
      obtain ⟨recovery, hrecovery, hdatabase, hopen⟩ := hopen
      have hpasses : e.passes allowed (after pre s) = true := by
        have htail := hquiet.2
        rw [quiet, Bool.and_eq_true] at htail
        exact htail.1
      exact enqueueEach_reached hquiet.1 hallowed (accepted_of_passes
        ⟨recovery, hrecovery, hdatabase, opens_afterAll hopen pre⟩ hpasses)
    · rw [heq]
      obtain ⟨j, hj, hjowner⟩ : Stored (enqueueEach allowed (pre' ++ d :: post') s).1 d.inbound :=
        enqueueEach_reached hquiet hd hdone
      exact ⟨j, hkey ▸ hj, hjowner.trans howner⟩

namespace Sample

/-- A text message in the chat of a LINE user. -/
def line (id sender : String) : Event where
  message :=
    { platform := "line", id := id, conversation := sender, sender := sender, text := "hello" }
  taking := { now := 0 }

/-- A request with a message of a foreign user before one of an allowed user. -/
def batch : List Event := [line "1" "U2", line "2" "U1"]

end Sample

/-- The message of the allowed user would be accepted alone, and it is lost. -/
theorem enqueueVerifiedEvents_leaves : ¬ ∀ senders events s,
    Isolated (normalizeAllowedSenders senders) events s
      (enqueueVerifiedEvents senders (.ok events) s).1 := by
  intro h
  have hisolated := h (some ["line:U1"]) Sample.batch .empty
  have hforeign : (Sample.line "1" "U2").inbound.allowed (normalizeAllowedSenders (some ["line:U1"])) =
    false := by decide
  rw [enqueueVerifiedEvents, Sample.batch, enqueueEach_foreign hforeign] at hisolated
  obtain ⟨j, hj, -⟩ := hisolated.stored (Sample.line "2" "U1") (by simp) (by decide) (by decide)
  cases hj

end Intake

end Communication

end PythonAI
