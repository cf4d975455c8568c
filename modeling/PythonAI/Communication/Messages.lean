import PythonAI.Communication.Steps

/-!
# `CommunicationStore`: messages and attachments

The whole transport database: the jobs, the sessions and the deliveries (`Db`) with the tables of
the messages and of the attachments.  The operations that touch these tables are given in full
here; each of them does to the `Db` inside what the operation of the same name does to a `Db` alone.

* `ingest`, `record`, `enqueue` : the three ways a message comes in;
* `Call.perform` : the database after a call of any operation;
* `Call.perform_db` : what a call does to the jobs, the sessions and the deliveries.
-/

namespace PythonAI

open Library

namespace Communication

/-- The operation is about jobs that exist, or about the state of a session. -/
def Op.onJobs : Op → Bool
  | ingest .. | enqueue .. | release .. | eraseSession .. | queueDelivery .. | cleanupExpired .. =>
    false
  | _ => true

namespace Intake

/-! ### Rows -/

/-- `InboundAttachment`. -/
structure Attachment where
  filename : String
  contentType : String
  data : List UInt8
  /-- `platform_file_id` -/
  fileId : Option String := none
  deriving DecidableEq, Repr

/-- `size_bytes`. -/
def Attachment.size (a : Attachment) : ℕ := a.data.length

/-- A value of `raw_payload`. -/
inductive PayloadValue
  /-- what the platform sent, as JSON -/
  | json (text : String)
  /-- the metadata of the attachments: name, type, size and file id -/
  | attachments (files : List (String × String × ℕ × Option String))
  deriving DecidableEq, Repr

/-- `raw_payload`. -/
abbrev Payload := List (String × PayloadValue)

/-- `InboundMessage`. -/
structure Message where
  platform : String
  /-- `platform_message_id` -/
  id : String
  /-- `conversation_id` -/
  conversation : String
  /-- `sender_id` -/
  sender : String
  text : String
  /-- `raw_payload` -/
  payload : Payload := []
  attachments : List Attachment := []
  project : String := "default"
  deriving DecidableEq, Repr

/-- `idempotency_key`. -/
def Message.key (m : Message) : CommandId := m.platform ++ ":" ++ m.id

/-- The command of the message, stored under the message row `source`. -/
def Message.command (m : Message) (source : Option ℕ) : Command :=
  { id := m.key, platform := m.platform, conversation := m.conversation, sender := m.sender
    text := m.text, project := m.project, source := source }

/-- `direction` and `platform_message_id`. -/
inductive MessageKey
  | inbound (id : String)
  /-- a delivery that was sent -/
  | outbound (id : DeliveryKey)
  /-- a reply that is recorded by its platform id -/
  | external (id : String)
  deriving DecidableEq, Repr

/-- `comm_messages.status`. -/
inductive MessageStatus
  | received | sent | deleted
  deriving DecidableEq, Repr

/-- A row of `comm_messages`. -/
structure MessageRow where
  id : ℕ
  platform : String
  /-- `direction` and `platform_message_id` -/
  key : MessageKey
  /-- `conversation_id` -/
  conversation : String
  /-- `sender_id` -/
  sender : String
  text : String
  /-- `raw_payload` -/
  payload : Payload := []
  status : MessageStatus := .received
  /-- `project`, `session` and `owner_sender` -/
  filed : Option (String × String × String) := none
  deriving DecidableEq, Repr

/-- The key that is unique in `comm_messages`. -/
def MessageRow.unique (r : MessageRow) : String × MessageKey := (r.platform, r.key)

/-- The session of a message. -/
def MessageRow.scope (r : MessageRow) : Option Scope :=
  r.filed.map fun x => ⟨r.platform, x.2.2, x.1, x.2.1⟩

/-- A row of `comm_attachments`. -/
structure AttachmentRow where
  /-- `command_id` -/
  command : CommandId
  ordinal : ℕ
  owner : String × String × String × String
  filename : String
  mime : String
  fileId : Option String
  data : List UInt8
  /-- the bytes that `digest` is the digest of, if there is one -/
  digest : Option (List UInt8)
  size : ℕ
  expires : Time
  deriving DecidableEq, Repr

/-- The transport database with all its tables. -/
structure Store where
  /-- the jobs, the sessions and the deliveries -/
  db : Db
  /-- `comm_messages`, in the order of their ids -/
  messages : List MessageRow
  /-- `comm_attachments` -/
  attachments : List AttachmentRow
  /-- the next id of `comm_messages` -/
  nextId : ℕ

/-- The database `CommunicationStore` creates. -/
def Store.empty : Store := ⟨.empty, [], [], 1⟩

/-- The row of an inbound message. -/
def Store.inbound (s : Store) (platform id : String) : Option MessageRow :=
  Records.find MessageRow.unique (platform, .inbound id) s.messages

/-- `INSERT OR IGNORE INTO comm_messages`. -/
def Store.insertMessage (s : Store) (row : MessageRow) : Store :=
  if s.messages.any fun r => r.unique = row.unique then s
  else { s with messages := s.messages ++ [{ row with id := s.nextId }], nextId := s.nextId + 1 }

/-- `UPDATE comm_messages SET project=?,session=?,owner_sender=? WHERE id=?`. -/
def Store.fileMessage (s : Store) (id : ℕ) (project session owner : String) : Store :=
  { s with
    messages := s.messages.map fun r =>
      if r.id = id then { r with filed := some (project, session, owner) } else r }

/-! ### Attachments -/

/-- `os.environ` and the clock of one call; the clock is read once for each attachment. -/
structure Saving where
  /-- `os.environ` -/
  env : Environment := fun _ => none
  /-- `time.time()` -/
  clock : ℕ → Time := fun _ => 0

/-- The characters of a MIME type. -/
def mimeChar (c : Char) : Bool :=
  ('a' ≤ c && c ≤ 'z') || ('A' ≤ c && c ≤ 'Z') || ('0' ≤ c && c ≤ '9') ||
    c ∈ "!#$&^_.+-".toList

/-- `[A-Za-z0-9!#$&^_.+-]+/[A-Za-z0-9!#$&^_.+-]+`. -/
def mimeType (text : String) : Bool :=
  match text.toList.splitOn '/' with
  | [a, b] => a ≠ [] && b ≠ [] && a.all mimeChar && b.all mimeChar
  | _ => false

/-- `signatures`. -/
def signatures : List (String × List UInt8) :=
  [("image/png", [0x89, 0x50, 0x4E, 0x47, 0x0D, 0x0A, 0x1A, 0x0A]), ("image/jpeg", [0xFF, 0xD8, 0xFF]),
    ("image/gif", [0x47, 0x49, 0x46]), ("application/pdf", [0x25, 0x50, 0x44, 0x46, 0x2D])]

/-- The data of a file of the declared type begins as its format does. -/
def signed (a : Attachment) : Bool :=
  (signatures.lookup a.contentType).all (·.isPrefixOf a.data)

/-- The data of a `webp` file. -/
def webp (data : List UInt8) : Bool :=
  [0x52, 0x49, 0x46, 0x46].isPrefixOf data && (data.drop 8).take 4 = [0x57, 0x45, 0x42, 0x50]

/-- The checks on one attachment. -/
def checkAttachment (env : Environment) (a : Attachment) : Except Error Unit := do
  let max ← positiveLimit env "COMM_ATTACHMENT_MAX_BYTES" (20 * 1024 * 1024)
  ensure (a.size ≤ max) (.capacity "Attachment exceeds file size limit")
  ensure (mimeType a.contentType) (.value "Attachment MIME type is invalid")
  ensure (signed a) (.value "Attachment content does not match declared MIME type")
  ensure (a.contentType ≠ "image/webp" || webp a.data)
    (.value "Attachment content does not match declared MIME type")
  ensure (a.filename ≠ "" && a.filename.length ≤ 255 &&
      !(a.filename.toList.any fun c => c = '/' || c = '\\' || c = '\x00') &&
      a.filename ≠ "." && a.filename ≠ "..")
    (.value "Attachment filename is invalid")

/-- The row of the attachment number `i`. -/
def attachmentRow (x : Saving) (m : Message) (i : ℕ) (a : Attachment) :
    Except Error AttachmentRow := do
  let ttl ← positiveLimit x.env "COMM_ATTACHMENT_TTL" (7 * 86400)
  pure
    { command := m.key, ordinal := i, owner := attachmentOwner (m.command none)
      filename := a.filename, mime := a.contentType, fileId := a.fileId, data := a.data
      digest := some a.data, size := a.size, expires := x.clock i + ttl }

/-- The rows of the attachments from the number `i` on. -/
def attachmentRows (x : Saving) (m : Message) : ℕ → List Attachment →
    Except Error (List AttachmentRow)
  | _, [] => .ok []
  | i, a :: as => do
    let row ← attachmentRow x m i a
    let rows ← attachmentRows x m (i + 1) as
    pure (row :: rows)

/-- `save_attachments`. -/
def saveAttachments (x : Saving) (m : Message) (s : Store) : Except Error Store := do
  let total := (m.attachments.map Attachment.size).sum
  ensure (m.attachments.length ≤ 16 && total ≤ 32 * 1024 * 1024)
    (.capacity "Attachment batch exceeds count/size limit")
  m.attachments.forM (checkAttachment x.env)
  if s.attachments.any (·.command = m.key) then pure s
  else
    let count ← positiveLimit x.env "COMM_ATTACHMENT_COUNT" 10000
    ensure (s.attachments.length + m.attachments.length ≤ count)
      (.capacity "Attachment metadata capacity reached")
    let bytes ← positiveLimit x.env "COMM_ATTACHMENT_TOTAL_BYTES" (128 * 1024 * 1024)
    ensure ((s.attachments.map AttachmentRow.size).sum + total ≤ bytes)
      (.capacity "Attachment storage capacity reached")
    let rows ← attachmentRows x m 0 m.attachments
    pure { s with attachments := s.attachments ++ rows }

/-- The reading of the row number `x.2` of a command. -/
def loadAttachment (t : ℕ → Time) (x : AttachmentRow × ℕ) : Except Error Attachment := do
  ensure (t x.2 < x.1.expires) (.value "Attachment expired; upload it again")
  ensure (x.1.data.length = x.1.size && x.1.digest = some x.1.data)
    (.value "Attachment integrity check failed")
  pure ⟨x.1.filename, x.1.mime, x.1.data, x.1.fileId⟩

/-- `load_attachments`, at the clock values `t`. -/
def loadAttachments (id : CommandId) (owner : Command) (t : ℕ → Time) (s : Store) :
    Except Error (List Attachment) := do
  let job ← require ((s.db.job id).filter fun j => attachmentOwner owner = attachmentOwner j.command)
    (.permission "Attachment belongs to another identity/session/project")
  ensure (owner.session = "" || owner.session = job.command.session)
    (.permission "Attachment belongs to a different conversation session")
  if s.db.lifecycle job.command ≠ .active then
    ensure (cleanupControl job.command.text)
      (.permission "Attachments were deleted with the conversation")
    pure []
  else
    let rows := s.attachments.filter fun r => r.command = id && r.owner = attachmentOwner owner
    rows.zipIdx.mapM (loadAttachment t)

/-! ### Inbound messages -/

/-- `raw_payload_with_attachment_metadata`. -/
def rawPayload (m : Message) : Payload :=
  if cleanupControl m.text || strip m.text = "/new-session" then []
  else if m.attachments = [] then m.payload
  else (m.payload.filter (·.1 ≠ "attachments")) ++ [("attachments",
    .attachments (m.attachments.map fun a => (a.filename, a.contentType, a.size, a.fileId)))]

/-- The row of an inbound message. -/
def Message.row (m : Message) : MessageRow :=
  { id := 0, platform := m.platform, key := .inbound m.id, conversation := m.conversation
    sender := m.sender, text := m.text, payload := rawPayload m }

/-- The message, for `incoming_session`. -/
def Message.incoming (m : Message) (source : Option ℕ) : Inbound :=
  { command := m.command source, attached := m.attachments ≠ [] }

/-- `incoming_session`. -/
def incoming (m : Message) (bound : Except Error (Option String)) (recovery : Option String)
    (u : String) (s : Store) : Except Error (Store × String) := do
  let (db, session) ← incomingSession (m.incoming none) bound recovery u s.db
  pure ({ s with db := db }, session)

/-- The insertion of a job of the session. -/
def Store.addJob (s : Store) (m : Message) (source : Option ℕ) (session : String) : Store :=
  { s with
    db := { s.db with
      jobs := s.db.jobs ++ [{ command := { m.command source with session := session }
                              deliveryReady := m.platform ≠ "discord" }] } }

/-- The message of a job that exists comes again; a message of another owner raises. -/
def again (duplicate : String) (m : Message) (old : Job) : Except Error Unit :=
  ensure (attachmentOwner (m.command none) = attachmentOwner old.command) (.permission duplicate)

/-- The transaction of `ingest_inbound_message`; it returns whether the message is new. -/
def ingest (x : Saving) (m : Message) (recovery : Option String) (u : String) (s : Store) :
    Except Error (Store × Bool) := do
  match s.db.job m.key with
  | some old =>
    again "Duplicate event belongs to another identity/session/project" m old
    pure (s, false)
  | none =>
    let (s, session) ← incoming m (.ok none) recovery u s
    let s ← saveAttachments x m s
    let s := s.insertMessage m.row
    let row ← require (s.inbound m.platform m.id) (.type "'NoneType' object is not subscriptable")
    let s := s.addJob m (some row.id) session
    pure (s.fileMessage row.id m.project session m.sender, true)

/-- `record_inbound_message`; it returns the id of the row and whether it is new. -/
def record (m : Message) (recovery : Option String) (u : String) (s : Store) :
    Except Error (Store × ℕ × Bool) := do
  match s.inbound m.platform m.id with
  | some old =>
    ensure (old.sender = m.sender && old.conversation = m.conversation &&
        old.filed.any (·.1 = m.project))
      (.permission "Duplicate input belongs to another owner")
    pure (s, old.id, false)
  | none =>
    let (s, session) ← incoming m (.ok none) recovery u s
    let id := s.nextId
    pure ((s.insertMessage m.row).fileMessage id m.project session m.sender, id, true)

/-- The session of the row `source`, for `incoming_session`. -/
def boundTo (m : Message) (source : ℕ) (s : Store) : Except Error (Option String) :=
  if source = 0 then .ok none
  else
    match s.messages.find? fun r => r.id = source && r.platform = m.platform &&
        r.sender = m.sender && r.filed.any (·.1 = m.project) && r.conversation = m.conversation with
    | some r => .ok (some (r.filed.elim "" fun x => x.2.1))
    | none => .error (.permission "Source message belongs to another conversation")

/-- The transaction of `enqueue_command`; it returns whether the job is new. -/
def enqueue (x : Saving) (m : Message) (source : ℕ) (recovery : Option String) (u : String)
    (s : Store) : Except Error (Store × Bool) := do
  match s.db.job m.key with
  | some old =>
    again "Duplicate command belongs to another owner" m old
    pure (s, false)
  | none =>
    let (s', session) ← incoming m (boundTo m source s) recovery u s
    let s' ← saveAttachments x m s'
    pure (s'.addJob m (some source) session, true)

/-- `record_outbound_message`. -/
def recordOutbound (platform conversation text id sender : String) (s : Store) :
    Except Error (Store × ℕ) := do
  let row : MessageRow :=
    { id := 0, platform := platform, key := .external id, conversation := conversation
      sender := sender, text := text, status := .sent }
  ensure (!s.messages.any fun r => r.unique = row.unique) (.integrity "comm_messages")
  pure (s.insertMessage row, s.nextId)

/-! ### The other operations -/

/-- `finish_delivery`. -/
def finish (id : DeliveryKey) (sent : Bool) (error : Option String) (s : Store) : Store :=
  match (s.db.delivery id).filter (·.state = .sending) with
  | none => s
  | some d =>
    let s := { s with db := finishDelivery id (if sent then .sent else .uncertain) error s.db }
    if sent then
      s.insertMessage
        { id := 0, platform := d.platform, key := .outbound id, conversation := d.conversation
          sender := "agent", text := d.text, status := .sent
          filed := some (d.project, d.session, d.sender) }
    else s

/-- `cleanup_expired`. -/
def cleanup (t₀ t₁ t₂ : Time) (s : Store) : Store :=
  { s with
    db := cleanupExpired t₁ t₂ s.db
    attachments := s.attachments.map fun r =>
      if r.expires ≤ t₀ && r.size ≠ 0 then { r with data := [], size := 0 } else r }

/-- The attachment of an erased job. -/
def AttachmentRow.erase (r : AttachmentRow) : AttachmentRow :=
  { r with
    filename := "", mime := "", fileId := none, data := [], digest := none, size := 0, expires := 0 }

/-- `erase_session`. -/
def erase (scope : Scope) (t : Time) (s : Store) : Except Error (Store × Unit) := do
  let keys := (s.db.jobs.filter (·.within scope)).map Job.id
  let (db, _) ← eraseSession scope t s.db
  pure
    ({ s with
      db := db
      attachments := s.attachments.map fun r => if r.command ∈ keys then r.erase else r
      messages := s.messages.map fun r =>
        if r.scope = some scope then { r with text := "", payload := [], status := .deleted } else r },
      ())

/-- The messages of a Discord interaction. -/
def interactionSources (interaction : String) (s : Store) : List ℕ :=
  (s.messages.filter fun r => r.platform = "discord" && r.key = .inbound interaction).map
    MessageRow.id

/-- `json.loads`: the object that a text denotes, if it denotes one with texts as values. -/
abbrev Loads := String → Except Error (List (String × String))

/-- The states that a receipt may tell. -/
def receiptStates : List String := ["deleted", "blocked", "deleting", "preview", "completed"]

/-- The checks on the text of a receipt. -/
def minimalReceipt (loads : Loads) (text : String) : Except Error Unit := do
  let result ← loads text
  ensure (result.length = 2 && (result.lookup "state").any (· ∈ receiptStates) &&
      (result.lookup "operation_id").any (isHex 32))
    (.permission "Only a minimal cleanup receipt is permitted")

/-! ### Calls -/

/-- A call, by any process. -/
inductive Call
  /-- the transaction of `ingest_inbound_message` -/
  | ingest (x : Saving) (m : Message) (recovery : Option String) (u : String)
  | record (m : Message) (recovery : Option String) (u : String)
  /-- the transaction of `enqueue_command` -/
  | enqueue (x : Saving) (m : Message) (source : ℕ) (recovery : Option String) (u : String)
  | recordOutbound (platform conversation text id sender : String)
  | release (interaction : String)
  | queue (env : Environment) (c : Command) (text context : String) (isError receipt : Bool)
      (event : Option String) (t : Time)
  | claim (id : DeliveryKey) (t₁ t₂ : Time)
  | finish (id : DeliveryKey) (sent : Bool) (error : Option String)
  | cleanup (t₀ t₁ t₂ : Time)
  | erase (scope : Scope) (t : Time)
  /-- an operation on the jobs or on the state of a session -/
  | job (o : Op)

namespace Call

variable (loads : Loads)

/-- The database that the call commits. -/
def attempt (s : Store) : Call → Except Error Store
  | ingest x m recovery u => outcome (Intake.ingest x m recovery u s)
  | record m recovery u => outcome (Intake.record m recovery u s)
  | enqueue x m source recovery u => outcome (Intake.enqueue x m source recovery u s)
  | recordOutbound platform conversation text id sender =>
    outcome (Intake.recordOutbound platform conversation text id sender s)
  | release interaction =>
    .ok { s with db := releaseDiscordInteraction (interactionSources interaction s) s.db }
  | queue env c text context isError receipt event t => do
    let (db, _) ← queueDelivery env c text context isError receipt (minimalReceipt loads text) event
      t s.db
    pure { s with db := db }
  | claim id t₁ t₂ => .ok { s with db := (claimDelivery id t₁ t₂ s.db).1 }
  | finish id sent error => .ok (Intake.finish id sent error s)
  | cleanup t₀ t₁ t₂ => .ok (Intake.cleanup t₀ t₁ t₂ s)
  | erase scope t => outcome (Intake.erase scope t s)
  | job o => .ok (if o.onJobs then { s with db := o.perform s.db } else s)

/-- The database after the call. -/
def perform (s : Store) (c : Call) : Store := commit s (c.attempt loads s)

end Call

/-! ### Inversions -/

section

variable {x : Saving} {m : Message} {bound : Except Error (Option String)} {recovery : Option String}
  {u session : String} {s s' : Store} {new : Bool}

/-- The rows of the attachments: they are numbered, and hold what was sent. -/
theorem attachmentRows_ok {i : ℕ} {as : List Attachment} {rows : List AttachmentRow}
    (h : attachmentRows x m i as = .ok rows) :
    rows.map AttachmentRow.ordinal = List.range' i as.length ∧
      rows.map (fun r => (⟨r.filename, r.mime, r.data, r.fileId⟩ : Attachment)) = as ∧
      ∀ r ∈ rows, r.command = m.key := by
  induction as generalizing i rows with
  | nil =>
    cases h
    exact ⟨rfl, rfl, nofun⟩
  | cons a as ih =>
    simp only [attachmentRows, attachmentRow, bind_eq_ok, pure_eq_ok] at h
    obtain ⟨row, ⟨ttl, -, rfl⟩, rest, hrest, rfl⟩ := h
    obtain ⟨hordinals, hfiles, hcommands⟩ := ih hrest
    refine ⟨?_, ?_, ?_⟩
    · rw [List.map_cons, hordinals, List.length_cons, List.range'_succ]
    · rw [List.map_cons, hfiles]
    · rintro r (_ | ⟨_, hr⟩)
      · rfl
      · exact hcommands r hr

/-- The rows have the size of their data, and belong to the sender. -/
theorem attachmentRows_sized {i : ℕ} {as : List Attachment} {rows : List AttachmentRow}
    (h : attachmentRows x m i as = .ok rows) :
    ∀ r ∈ rows, r.size = r.data.length ∧ r.owner = attachmentOwner (m.command none) := by
  induction as generalizing i rows with
  | nil =>
    cases h
    exact nofun
  | cons a as ih =>
    simp only [attachmentRows, attachmentRow, bind_eq_ok, pure_eq_ok] at h
    obtain ⟨row, ⟨ttl, -, rfl⟩, rest, hrest, rfl⟩ := h
    rintro r (_ | ⟨_, hr⟩)
    · exact ⟨rfl, rfl⟩
    · exact ih hrest r hr

/-- The rows that a message adds to `comm_attachments`. -/
def Attached (x : Saving) (m : Message) (s : Store) (rows : List AttachmentRow) : Prop :=
  (∃ r ∈ s.attachments, r.command = m.key) ∧ rows = [] ∨
    (∀ r ∈ s.attachments, r.command ≠ m.key) ∧ attachmentRows x m 0 m.attachments = .ok rows

theorem saveAttachments_ok (h : saveAttachments x m s = .ok s') :
    ∃ rows, Attached x m s rows ∧ s' = { s with attachments := s.attachments ++ rows } := by
  simp only [saveAttachments, bind_eq_ok] at h
  obtain ⟨-, -, -, -, h⟩ := h
  split_ifs at h with hany
  · simp only [pure_eq_ok] at h
    subst h
    obtain ⟨r, hr, hcommand⟩ := List.any_eq_true.1 hany
    exact ⟨[], .inl ⟨⟨r, hr, by simpa using hcommand⟩, rfl⟩, by rw [List.append_nil]⟩
  · simp only [bind_eq_ok, pure_eq_ok] at h
    obtain ⟨-, -, -, -, -, -, -, -, rows, hrows, rfl⟩ := h
    refine ⟨rows, .inr ⟨fun r hr hcommand => hany ?_, hrows⟩, rfl⟩
    exact List.any_eq_true.2 ⟨r, hr, by simpa using hcommand⟩

theorem incoming_ok (h : incoming m bound recovery u s = .ok (s', session)) :
    ∃ db', incomingSession (m.incoming none) bound recovery u s.db = .ok (db', session) ∧
      s' = { s with db := db' } := by
  simp only [incoming, bind_eq_ok, pure_eq_ok, Prod.mk.injEq] at h
  obtain ⟨⟨db', session'⟩, hdb, rfl, rfl⟩ := h
  exact ⟨db', hdb, rfl⟩

/-- The tables after the insertion of the row of a message, for the session that it is filed under. -/
def Store.filed (s : Store) (m : Message) (db : Db) (rows : List AttachmentRow) (source : ℕ)
    (session : String) : Store :=
  (({ s with db := db, attachments := s.attachments ++ rows }.insertMessage m.row).addJob m
    (some source) session).fileMessage source m.project session m.sender

/-- **What `ingest_inbound_message` commits.** -/
theorem ingest_ok (h : ingest x m recovery u s = .ok (s', new)) :
    (∃ old, s.db.job m.key = some old ∧
        attachmentOwner (m.command none) = attachmentOwner old.command ∧ s' = s ∧ new = false) ∨
      s.db.job m.key = none ∧ new = true ∧ ∃ db session rows row,
        incomingSession (m.incoming none) (.ok none) recovery u s.db = .ok (db, session) ∧
        Attached x m s rows ∧ (s.insertMessage m.row).inbound m.platform m.id = some row ∧
        s' = s.filed m db rows row.id session := by
  unfold ingest at h
  split at h
  · next old hold =>
    simp only [again, bind_eq_ok, ensure_eq_ok, decide_eq_true_eq, pure_eq_ok, Prod.mk.injEq] at h
    obtain ⟨-, howner, rfl, rfl⟩ := h
    exact .inl ⟨old, hold, howner, rfl, rfl⟩
  · next hnone =>
    simp only [bind_eq_ok, pure_eq_ok, Prod.mk.injEq, require_eq_ok] at h
    obtain ⟨⟨s₁, session⟩, hincoming, s₂, hsave, row, hrow, rfl, rfl⟩ := h
    obtain ⟨db, hdb, rfl⟩ := incoming_ok hincoming
    obtain ⟨rows, hrows, rfl⟩ := saveAttachments_ok hsave
    refine .inr ⟨hnone, rfl, db, session, rows, row, hdb, hrows, ?_, rfl⟩
    rw [← hrow]
    simp only [Store.inbound, Store.insertMessage]
    split_ifs <;> rfl

/-- What `record_inbound_message` commits. -/
theorem record_ok {id : ℕ} (h : record m recovery u s = .ok (s', id, new)) :
    (∃ old, s.inbound m.platform m.id = some old ∧ s' = s ∧ id = old.id ∧ new = false) ∨
      s.inbound m.platform m.id = none ∧ id = s.nextId ∧ new = true ∧ ∃ db session,
        incomingSession (m.incoming none) (.ok none) recovery u s.db = .ok (db, session) ∧
        s' = ({ s with db := db }.insertMessage m.row).fileMessage s.nextId m.project session
          m.sender := by
  unfold record at h
  split at h
  · next old hold =>
    simp only [bind_eq_ok, pure_eq_ok, Prod.mk.injEq] at h
    obtain ⟨-, -, rfl, rfl, rfl⟩ := h
    exact .inl ⟨old, hold, rfl, rfl, rfl⟩
  · next hnone =>
    simp only [bind_eq_ok, pure_eq_ok, Prod.mk.injEq] at h
    obtain ⟨⟨s₁, session⟩, hincoming, rfl, rfl, rfl⟩ := h
    obtain ⟨db, hdb, rfl⟩ := incoming_ok hincoming
    exact .inr ⟨hnone, rfl, rfl, db, session, hdb, rfl⟩

/-- What `enqueue_command` commits. -/
theorem enqueue_ok {source : ℕ} (h : enqueue x m source recovery u s = .ok (s', new)) :
    (∃ old, s.db.job m.key = some old ∧ s' = s ∧ new = false) ∨
      s.db.job m.key = none ∧ new = true ∧ ∃ db session rows,
        incomingSession (m.incoming none) (boundTo m source s) recovery u s.db = .ok (db, session) ∧
        Attached x m s rows ∧
        s' = { s with db := db, attachments := s.attachments ++ rows }.addJob m (some source)
          session := by
  unfold enqueue at h
  split at h
  · next old hold =>
    simp only [bind_eq_ok, pure_eq_ok, Prod.mk.injEq] at h
    obtain ⟨-, -, rfl, rfl⟩ := h
    exact .inl ⟨old, hold, rfl, rfl⟩
  · next hnone =>
    simp only [bind_eq_ok, pure_eq_ok, Prod.mk.injEq] at h
    obtain ⟨⟨s₁, session⟩, hincoming, s₂, hsave, rfl, rfl⟩ := h
    obtain ⟨db, hdb, rfl⟩ := incoming_ok hincoming
    obtain ⟨rows, hrows, rfl⟩ := saveAttachments_ok hsave
    exact .inr ⟨hnone, rfl, db, session, rows, hdb, hrows, rfl⟩

end

end Intake

end Communication

end PythonAI
