import PythonAI.Library.Records
import PythonAI.Limits
import PythonAI.Tasks.Types

/-!
# `EventStore`: the event history of the companion clients

Each owner has a session with the number of its last event (`seq`) and the number up to which
events are gone (`floor`).  Events are stored until the client acknowledges them or they expire;
an event with a durable key is recorded in `ws_event_keys`, so that a retry finds it.

`cleanup` reads the clock at each of its statements, and `Reads` is what it reads.
-/

namespace PythonAI

open Library

namespace Delivery

/-- `message['payload']`. -/
structure Payload where
  taskState : Option String := none
  interrupted : Bool := false
  suspended : Bool := false
  failed : Bool := false
  /-- the other fields -/
  rest : String := ""
  deriving DecidableEq, Repr

/-- What the fingerprint of a message covers.  A digest is represented by the value it is the
digest of. -/
structure Content where
  type : Option String := none
  ref : Option String := none
  payload : Option Payload := none
  deriving DecidableEq, Repr

/-- A message of a companion client. -/
structure Message where
  /-- `type`, `ref` and `payload` -/
  content : Content
  /-- the other fields -/
  rest : String := ""
  /-- every number among `type`, `ref` and `payload` is finite -/
  finite : Bool := true
  deriving DecidableEq, Repr

/-- A row of `ws_sessions`. -/
structure Session where
  owner : Owner
  seq : ℕ := 0
  floor : ℕ := 0
  deriving DecidableEq, Repr

/-- A row of `ws_events`; the stored message is `message` with `seq`. -/
structure Event where
  owner : Owner
  seq : ℕ
  message : Message
  size : ℕ
  expires : Time
  deriving DecidableEq, Repr

/-- `ws_inputs.status`. -/
inductive InputStatus
  | uncertain | interrupted | suspended | failed | completed | deleted
  deriving DecidableEq, Repr

/-- A row of `ws_inputs`. -/
structure Input where
  owner : Owner
  id : String
  /-- `digest`: the text, or `none` for the empty digest -/
  digest : Option String
  status : InputStatus
  expires : Time
  deriving DecidableEq, Repr

/-- A row of `ws_event_keys`. -/
structure EventKey where
  owner : Owner
  /-- `event_key` -/
  key : String
  fingerprint : Content
  seq : ℕ
  deriving DecidableEq, Repr

/-- The event database. -/
structure Db where
  /-- `ws_sessions` -/
  sessions : List Session
  /-- `ws_events` -/
  events : List Event
  /-- `ws_inputs` -/
  inputs : List Input
  /-- `ws_event_keys` -/
  keys : List EventKey
  deriving DecidableEq, Repr

/-- The database `EventStore` creates. -/
def Db.empty : Db := ⟨[], [], [], []⟩

/-- The row of the session of an owner. -/
def Db.session (db : Db) (owner : Owner) : Option Session :=
  Records.find Session.owner owner db.sessions

/-- The events of an owner, as they were inserted. -/
def Db.eventsOf (db : Db) (owner : Owner) : List Event :=
  db.events.filter fun e => e.owner = owner

/-- The key of a row of `ws_event_keys`. -/
def EventKey.id (row : EventKey) : Owner × String := (row.owner, row.key)

/-- The clock values that `cleanup` reads. -/
structure Reads where
  /-- for the floors -/
  floors : Time
  /-- for the events -/
  events : Time
  /-- for the inputs -/
  inputs : Time
  deriving DecidableEq, Repr

namespace EventStore

/-- `COALESCE(SELECT MAX(seq) …, 0)`: the number of the last event of the owner that has expired. -/
def lastExpired (owner : Owner) (t : Time) (events : List Event) : ℕ :=
  ((events.filter fun e => e.owner = owner && e.expires ≤ t).map Event.seq).max?.getD 0

/-- `cleanup`. -/
def cleanup (r : Reads) (db : Db) : Db :=
  { db with
    -- The floor stays after the expiry, so that clients detect lost history.
    sessions := db.sessions.map fun s =>
      { s with floor := max s.floor (lastExpired s.owner r.floors db.events) }
    events := db.events.filter fun e => r.events < e.expires
    inputs := db.inputs.filter fun i => r.inputs < i.expires }

/-- `snapshot`: the numbers of the session and the stored messages, in order. -/
def snapshot (owner : Owner) (r : Reads) (db : Db) : Db × ℕ × ℕ × List (Message × ℕ) :=
  let db := cleanup r db
  let rows := (db.eventsOf owner).mergeSort fun e e' => e.seq ≤ e'.seq
  let messages := rows.map fun e => (e.message, e.seq)
  (db, match db.session owner with
    | some s => (s.seq, s.floor, messages)
    | none => (0, 0, []))

/-- The status of an input that a `chat.end` message with the given payload ends. -/
def endStatus (p : Payload) : InputStatus :=
  if p.taskState = some "uncertain" then .uncertain
  else if p.interrupted then .interrupted
  else if p.suspended then .suspended
  else if p.failed then .failed
  else .completed

/-- The status of the inputs `ref` of the owner. -/
def setStatus (owner : Owner) (ref : Option String) (status : InputStatus)
    (inputs : List Input) : List Input :=
  inputs.map fun i =>
    if i.owner = owner ∧ some i.id = ref then { i with status := status } else i

/-- `append`, from the session of the owner on: the message, encoded with its number, has `size`
bytes, and the expiry is computed at `t`. -/
def insert (env : Environment) (owner : Owner) (message : Message) (key : Option String)
    (size : ℕ) (t : Time) (db : Db) : Except Error (Db × Option (Message × ℕ)) := do
  let admitted : Except Error (List Session) :=
    if (db.session owner).isSome then .ok db.sessions
    else do
      let limit ← positiveLimit env "COMPANION_MAX_SESSIONS" 10000
      ensure (db.sessions.length < limit) (.capacity "Companion session capacity reached")
      pure (db.sessions ++ [{ owner := owner }])
  let sessions ← admitted
  let session ← require (Records.find Session.owner owner sessions)
    (.type "'NoneType' object is not subscriptable")
  let seq := session.seq + 1
  let mine := db.eventsOf owner
  let full := Error.capacity "Reliable outbox full; acknowledge events before continuing"
  let count ← positiveLimit env "COMPANION_OUTBOX_LIMIT" 200
  ensure (mine.length < count && size ≤ 2 * 1024 * 1024 &&
    (mine.map Event.size).sum + size ≤ 20 * 1024 * 1024) full
  let total ← positiveLimit env "COMPANION_EVENT_BYTES" (128 * 1024 * 1024)
  ensure ((db.events.map Event.size).sum + size ≤ total) full
  let ttl ← positiveLimit env "COMPANION_EVENT_TTL" 86400
  ensure (!db.events.any fun e => e.owner = owner && e.seq = seq) (.integrity "ws_events")
  let db := { db with
    sessions := sessions.map fun s => if s.owner = owner then { s with seq := seq } else s
    events := db.events ++ [⟨owner, seq, message, size, t + ttl⟩] }
  match key with
  | none => pure (db, some (message, seq))
  | some key =>
    let db := { db with keys := db.keys ++ [⟨owner, key, message.content, seq⟩] }
    if message.content.type = some "chat.end" then
      let payload ← require message.content.payload (.missing "payload")
      let inputs := setStatus owner message.content.ref (endStatus payload) db.inputs
      pure ({ db with inputs := inputs }, some (message, seq))
    else
      pure (db, some (message, seq))

/-- `append`, with the durable key of the event, if it has one. -/
def append (env : Environment) (owner : Owner) (message : Message) (key : Option String)
    (size : ℕ) (r : Reads) (t : Time) (db : Db) : Except Error (Db × Option (Message × ℕ)) := do
  let db := cleanup r db
  match key with
  | none => insert env owner message none size t db
  | some k =>
    ensure (isHex 64 k) (.value "Invalid durable event ID")
    ensure message.finite (.value "Out of range float values are not JSON compliant")
    match Records.find EventKey.id (owner, k) db.keys with
    | some old =>
      ensure (old.fingerprint = message.content)
        (.value "Durable event ID reused with different payload")
      let saved := db.events.find? fun e => e.owner = owner && e.seq = old.seq
      pure (db, saved.map fun e => (e.message, e.seq))
    | none =>
      let limit ← positiveLimit env "COMPANION_EVENT_KEY_LIMIT" 100000
      ensure (db.keys.length < limit) (.capacity "Durable event identity capacity reached")
      insert env owner message (some k) size t db

/-- `ack`. -/
def ack (owner : Owner) (seq : ℤ) (db : Db) : Except Error (Db × Unit) := do
  let last := ((db.session owner).map Session.seq).getD 0
  ensure (0 ≤ seq && seq ≤ last) (.value "ACK sequence is outside this session history")
  let n := seq.toNat
  pure ({ db with
      events := db.events.filter fun e => !(e.owner = owner && e.seq ≤ n)
      sessions := db.sessions.map fun s =>
        if s.owner = owner then { s with floor := max s.floor n } else s }, ())

/-- `accept_input`: the status of an input that was accepted before, or `none`. -/
def acceptInput (env : Environment) (owner : Owner) (id text : String) (r : Reads) (t : Time)
    (db : Db) : Except Error (Db × Option InputStatus) := do
  let db := cleanup r db
  match db.inputs.find? fun i => i.owner = owner && i.id = id with
  | some old =>
    ensure (old.digest = some text) (.value "Input ID cannot be reused with different content")
    pure (db, some old.status)
  | none =>
    let limit ← positiveLimit env "COMPANION_INPUT_LIMIT" 10000
    ensure (db.inputs.length < limit)
      (.capacity "Companion input deduplication capacity reached")
    let ttl ← positiveLimit env "COMPANION_INPUT_TTL" (7 * 86400)
    -- Stored before any execution: after a crash the input is uncertain, never replayed.
    pure ({ db with inputs := db.inputs ++ [⟨owner, id, some text, .uncertain, t + ttl⟩] }, none)

/-- `finish_input`. -/
def finishInput (owner : Owner) (id : String) (status : InputStatus) (db : Db) : Db :=
  { db with inputs := setStatus owner (some id) status db.inputs }

/-- `erase_owner`. -/
def eraseOwner (owner : Owner) (db : Db) : Db :=
  { db with
    events := db.events.filter fun e => e.owner ≠ owner
    inputs := db.inputs.map fun i =>
      if i.owner = owner then { i with digest := none, status := .deleted } else i
    sessions := db.sessions.map fun s => if s.owner = owner then { s with floor := s.seq } else s }

end EventStore

end Delivery

end PythonAI
