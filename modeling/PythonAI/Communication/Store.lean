import PythonAI.Communication.Types

/-!
# `CommunicationStore`: jobs, sessions and deliveries

Each operation is one transaction.  An operation whose statement selects no row returns the database
as it was; one that raises rolls back, with one exception that the source makes on purpose:
`begin_session_deletion` commits the new session state before it raises.
-/

namespace PythonAI

open Library

namespace Communication

/-- An inbound message. -/
structure Inbound where
  /-- the columns of the command; the session is not set -/
  command : Command
  /-- the message has attachments -/
  attached : Bool := false
  /-- the outcome of `save_attachments` -/
  saved : Except Error Unit := .ok ()

/-- `attachment_owner`. -/
def attachmentOwner (c : Command) : String × String × String × String :=
  (c.platform, c.sender, c.conversation, c.project)

/-- `owner_filter`. -/
def ownerFilter (owner : Option Command) (j : Job) : Bool :=
  owner.all fun o =>
    j.command.platform = o.platform && j.command.conversation = o.conversation &&
      j.command.sender = o.sender && j.command.project = o.project &&
      (o.session = "" || j.command.session = o.session)

/-! ### Inbound messages -/

/-- The session of a message that comes from a bound source (`bound`), from the recovery of a
deletion, or from the head of its conversation; `u` names a new session. -/
def sessionOf (m : Inbound) (bound recovery : Option String) (u : String) (db : Db) : String :=
  let c := m.command
  let default := c.platform ++ ":" ++ c.conversation
  let head := (db.heads ⟨c.platform, c.sender, c.conversation, c.project⟩).getD default
  match bound.filter (· ≠ "") with
  | some session => session
  | none =>
    if strip c.text = "/new-session" && bound.isNone then default ++ ":" ++ u
    else (recovery.filter (· ≠ "")).getD head

/-- `incoming_session`: `bound` is the session of the source message, if the message has one. -/
def incomingSession (m : Inbound) (bound : Except Error (Option String)) (recovery : Option String)
    (u : String) (db : Db) : Except Error (Db × String) := do
  let c := m.command
  ensure (!(m.attached && (cleanupControl c.text || strip c.text = "/new-session")))
    (.value "Attachments cannot accompany session control commands")
  let bound ← bound
  let session := sessionOf m bound recovery u db
  let scope : Scope := ⟨c.platform, c.sender, c.project, session⟩
  let state := (db.states scope).getD .active
  let states := if (db.states scope).isNone then db.states.set scope .active else db.states
  ensure (state = .active || recoveryControl c.text || (state = .deleting && cancellation c.text))
    (.permission "Conversation was deleted; use /new-session to begin a new conversation")
  let heads := if bound.isNone && (recovery.filter (· ≠ "")).isNone then
      db.heads.set ⟨c.platform, c.sender, c.conversation, c.project⟩ session
    else db.heads
  pure ({ db with states := states, heads := heads }, session)

/-- A message becomes a job, unless its id has one; a message of another owner under that id raises
with `duplicate`. -/
def addJob (duplicate : String) (m : Inbound) (bound : Except Error (Option String))
    (recovery : Option String) (u : String) (db : Db) : Except Error (Db × Bool) := do
  match db.job m.command.id with
  | some old =>
    ensure (attachmentOwner m.command = attachmentOwner old.command) (.permission duplicate)
    pure (db, false)
  | none =>
    let (db, session) ← incomingSession m bound recovery u db
    m.saved
    let job : Job :=
      { command := { m.command with session := session }
        deliveryReady := m.command.platform ≠ "discord" }
    pure ({ db with jobs := db.jobs ++ [job] }, true)

/-- `ingest_inbound_message`. -/
def ingestInboundMessage (m : Inbound) (recovery : Option String) (u : String) (db : Db) :
    Except Error (Db × Bool) :=
  addJob "Duplicate event belongs to another identity/session/project" m (.ok none) recovery u db

/-- `enqueue_command`; `bound` is the session of the recorded message. -/
def enqueueCommand (m : Inbound) (bound : Except Error (Option String)) (recovery : Option String)
    (u : String) (db : Db) : Except Error (Db × Bool) :=
  addJob "Duplicate command belongs to another owner" m bound recovery u db

/-- `release_discord_interaction`; `sources` are the messages of the interaction. -/
def releaseDiscordInteraction (sources : List ℕ) (db : Db) : Db :=
  db.updateJobs (fun j => j.command.platform = "discord" && j.command.source.any (· ∈ sources))
    fun j => { j with deliveryReady := true }

/-! ### Jobs -/

/-- `pending_commands`. -/
def pendingCommands (limit : ℕ) (db : Db) : List Command :=
  ((db.jobs.filter fun j => j.status = .pending && j.deliveryReady).take limit).map Job.command

/-- `recoverable_commands`. -/
def recoverableCommands (db : Db) : List Command :=
  ((db.jobs.filter fun j => j.status = .running || j.status = .recoveryRequired).take 100).map
    Job.command

/-- `set_recovery_state`. -/
def setRecoveryState (id : CommandId) (state : Status) (db : Db) : Db :=
  db.updateJobs (fun j => j.id = id && (j.status = .running || j.status = .recoveryRequired))
    fun j => { j with status := state }

/-- A job that `mark_command_running` takes. -/
def markable (id : CommandId) (j : Job) : Bool :=
  j.id = id && (j.status = .pending || j.status = .suspended)

/-- A command that runs in every session state. -/
def control (c : Command) : Bool := cleanupControl c.text || startsWith "/cancel " c.text

/-- `mark_command_running`. -/
def markCommandRunning (id : CommandId) (db : Db) : Db × Bool :=
  if (db.job id).any fun j => db.lifecycle j.command ≠ .active && !control j.command then
    (db, false)
  else
    (db.updateJobs (markable id) fun j =>
        { j with status := .running, attempts := j.attempts + 1 },
      (db.job id).any (markable id))

/-- The status that `_update_command` writes. -/
def reported (old status : Status) : Status :=
  if old.marked && (status = .completed || status = .failed || status = .running) then .cancelled
  else status

/-- `_update_command`. -/
def updateCommand (id : CommandId) (status : Status) (result error : Option String) (db : Db) :
    Db :=
  match (db.job id).map fun j => db.lifecycle j.command with
  | some .deleting =>
    if status = .completed || status = .failed then
      db.updateJobs (·.id = id) fun j =>
        { j with
          status := .cancelled, resultText := some "", lastError := none, state := none
          callId := none }
    else db
  | some .deleted => db
  | _ =>
    db.updateJobs (·.id = id) fun j =>
      { j with
        status := reported j.status status
        resultText := result.or j.resultText
        lastError := error }

/-- `complete_command`. -/
def completeCommand (id : CommandId) (result : String) (db : Db) : Db :=
  updateCommand id .completed (some result) none db

/-- `fail_command`. -/
def failCommand (id : CommandId) (error : String) (db : Db) : Db :=
  updateCommand id .failed none (some error) db

/-- A job that `cancel_command` cancels. -/
def cancellable (id : CommandId) (owner : Option Command) (j : Job) : Bool :=
  j.id = id && ownerFilter owner j &&
    (j.status = .pending || j.status = .running || j.status = .suspended)

/-- `cancel_command`. -/
def cancelCommand (id : CommandId) (owner : Option Command) (db : Db) : Db × Bool :=
  (db.updateJobs (cancellable id owner) fun j =>
      { j with status := if j.status = .running then .cancelRequested else .cancelled },
    (db.job id).any (cancellable id owner))

/-- `is_cancel_requested`. -/
def isCancelRequested (id : CommandId) (db : Db) : Bool :=
  (db.job id).any fun j => j.status.marked || j.status = .deleted

/-- `cancel_session`. -/
def cancelSession (owner : Command) (db : Db) : Db :=
  db.updateJobs (fun j => ownerFilter (some owner) j && j.id ≠ owner.id &&
      (j.status = .pending || j.status = .running || j.status = .cancelRequested ||
        j.status = .suspended))
    fun j =>
      { j with
        status := if j.status = .running || j.status = .cancelRequested then .cancelRequested
          else .cancelled
        state := none, callId := none }

/-- A job that `suspend_command` suspends. -/
def suspendable (id : CommandId) (j : Job) : Bool :=
  j.id = id && (j.status = .pending || j.status = .running)

/-- `suspend_command`. -/
def suspendCommand (id : CommandId) (state : Saved) (call : String) (db : Db) : Db :=
  if (db.job id).any fun j => db.lifecycle j.command ≠ .active then db
  else db.updateJobs (suspendable id) fun j =>
    { j with status := .suspended, state := some state, callId := some call }

/-- The suspended jobs of a conversation. -/
def suspendedIn (conversation : String) (owner : Option Command) (j : Job) : Bool :=
  j.command.conversation = conversation && ownerFilter owner j && j.status = .suspended

/-- `get_suspended_command`. -/
def getSuspendedCommand (conversation : String) (owner : Option Command) (db : Db) :
    Option (CommandId × Saved × String) := do
  let job ← db.jobs.reverse.find? (suspendedIn conversation owner)
  let state ← job.state
  let call ← job.callId.filter (· ≠ "")
  pure (job.id, state, call)

/-- `clear_suspended_command`. -/
def clearSuspendedCommand (conversation : String) (owner : Option Command) (db : Db) : Db :=
  db.updateJobs (suspendedIn conversation owner) fun j =>
    { j with status := .cancelled, state := none, callId := none }

/-! ### Sessions -/

/-- The jobs of a session that have not ended. -/
def blocking (s : Scope) (j : Job) : Bool :=
  j.within s && (j.status = .pending || j.status = .running || j.status = .cancelRequested ||
    j.status = .suspended || j.status = .recoveryRequired) &&
    !cleanupControl j.command.text && strip j.command.text ≠ "/new-session"

/-- `lifecycle_blockers`, at time `t`: there is one. -/
def lifecycleBlockers (s : Scope) (t : Time) (db : Db) : Bool :=
  db.jobs.any (blocking s) ||
    db.deliveries.any fun d => d.scope = s && d.state = .sending && d.lease.any (t < ·)

/-- `begin_session_deletion`.  The value is the exception that is raised after the commit. -/
def beginSessionDeletion (s : Scope) (t : Time) (db : Db) : Db × Option Error :=
  ({ db with states := db.states.update s (· = .active) fun _ => .deleting },
    if lifecycleBlockers s t db then
      some (.value "Communication work still active; cancel/wait before cleanup")
    else none)

/-- `erase_session`. -/
def eraseSession (s : Scope) (t : Time) (db : Db) : Except Error (Db × Unit) := do
  ensure (!lifecycleBlockers s t db) (.value "Communication work is still active")
  let db := db.updateJobs (·.within s) fun j =>
    { j with
      command := { j.command with text := "" }
      resultText := some "", lastError := none, state := none, callId := none, status := .deleted }
  let db := db.updateDeliveries (fun d => d.scope = s && !d.receipt) fun d =>
    { d with text := "", replyContext := "{}", state := .deleted, lease := none, error := none }
  pure ({ db with states := db.states.update s (fun _ => true) fun _ => .deleted }, ())

/-! ### Deliveries -/

/-- The key of a delivery. -/
def deliveryKey (c : Command) (text : String) (isError : Bool) (event : Option String) :
    DeliveryKey :=
  match event with
  | none => .content c.id isError text
  | some key => .event c.id key

/-- The fingerprint of a durable event. -/
def fingerprint (c : Command) (text : String) (isError : Bool) : Fingerprint :=
  ⟨text, c.platform, c.sender, c.conversation, c.project, c.session, isError⟩

/-- `queue_delivery`, from the insertion of the delivery on, at time `t`. -/
def insertDelivery (env : Environment) (c : Command) (key : DeliveryKey) (text context : String)
    (receipt : Bool) (t : Time) (db : Db) : Except Error (Db × DeliveryKey) :=
  if (db.delivery key).isSome then .ok (db, key)
  else do
    ensure (text.utf8ByteSize ≤ 2 * 1024 * 1024) (.capacity "Platform delivery capacity reached")
    let count ← positiveLimit env "COMM_DELIVERY_LIMIT" 10000
    ensure (db.deliveries.length < count) (.capacity "Platform delivery capacity reached")
    let used := (db.deliveries.map fun d => d.text.utf8ByteSize + d.replyContext.utf8ByteSize).sum
    let bytes ← positiveLimit env "COMM_DELIVERY_BYTES" (128 * 1024 * 1024)
    ensure (used + text.utf8ByteSize + context.utf8ByteSize ≤ bytes)
      (.capacity "Platform delivery storage capacity reached")
    let ttl ← positiveLimit env "COMM_DELIVERY_TTL" (7 * 86400)
    let row : Delivery :=
      { id := key, platform := c.platform, conversation := c.conversation, sender := c.sender
        project := c.project, session := c.sessionName, text := text, replyContext := context
        expires := t + ttl, receipt := receipt }
    pure ({ db with deliveries := db.deliveries ++ [row] }, key)

/-- `queue_delivery`: `minimal` is the outcome of the checks on the text of a receipt. -/
def queueDelivery (env : Environment) (c : Command) (text context : String) (isError : Bool)
    (receipt : Bool) (minimal : Except Error Unit) (event : Option String) (t : Time) (db : Db) :
    Except Error (Db × DeliveryKey) := do
  ensure (event.all (isHex 64)) (.value "Invalid durable communication event ID")
  let key := deliveryKey c text isError event
  let inactive := db.lifecycle c ≠ .active
  ensure (!inactive || (receipt && cleanupControl c.text))
    (.permission "Deleted conversation cannot queue replies")
  let checked : Except Error Unit := if inactive then minimal else .ok ()
  checked
  let context := if inactive then "{}" else context
  if event.isNone then insertDelivery env c key text context receipt t db
  else
    match Records.find EventKey.id key db.eventKeys with
    | some old =>
      ensure (old.digest = fingerprint c text isError)
        (.value "Communication event reused with different content/owner")
      pure (db, key)
    | none =>
      let limit ← positiveLimit env "COMM_DELIVERY_KEY_LIMIT" 100000
      ensure (db.eventKeys.length < limit)
        (.capacity "Communication event identity capacity reached")
      insertDelivery env c key text context receipt t
        { db with eventKeys := db.eventKeys ++ [⟨key, fingerprint c text isError⟩] }

/-- `pending_deliveries`, at time `t`. -/
def pendingDeliveries (id : Option DeliveryKey) (t : Time) (db : Db) : List Delivery :=
  (db.deliveries.filter fun d => d.state = .pending && t < d.expires && id.all (d.id = ·)).take 20

/-- A delivery that `claim_delivery` claims at time `t`. -/
def claimable (id : DeliveryKey) (t : Time) (d : Delivery) : Bool :=
  d.id = id && d.state = .pending && t < d.expires

/-- The time a worker has to send a delivery. -/
def sendTerm : Time := 120

/-- `claim_delivery`: the lease is computed at `t₁`, the expiry tested at `t₂`. -/
def claimDelivery (id : DeliveryKey) (t₁ t₂ : Time) (db : Db) : Db × Bool :=
  if (db.delivery id).any fun d => !d.receipt && (db.states d.scope).any (· ≠ .active) then
    (db, false)
  else
    (db.updateDeliveries (claimable id t₂) fun d =>
        { d with state := .sending, lease := some (t₁ + sendTerm) },
      (db.delivery id).any (claimable id t₂))

/-- `finish_delivery`. -/
def finishDelivery (id : DeliveryKey) (state : DeliveryState) (error : Option String) (db : Db) :
    Db :=
  db.updateDeliveries (fun d => d.id = id && d.state = .sending) fun d =>
    { d with state := state, error := error, lease := none }

/-- `cleanup_expired`: the leases are tested at `t₁` and the expiries at `t₂`. -/
def cleanupExpired (t₁ t₂ : Time) (db : Db) : Db :=
  let db := db.updateDeliveries (fun d => d.state = .sending && d.lease.any (· ≤ t₁)) fun d =>
    { d with
      state := .uncertain
      error := some "Delivery lease expired; verify platform before retry" }
  { db with
    deliveries := db.deliveries.filter fun d =>
      !(d.expires ≤ t₂ && (d.state = .sent || d.state = .pending)) }

end Communication

end PythonAI
