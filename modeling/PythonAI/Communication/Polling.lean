import PythonAI.Communication.Ingest

/-!
# Polled updates

The Telegram worker acknowledges an update to the server by the offset of a later `getUpdates`: the
server drops the updates below it.  `poll_once` moves the offset past an update before it takes the
message of the update in, and any exception leaves the rest of the batch for the next poll.

* `Telegram` : what the server answers;
* `Host.Sound` : a batch is in order, and nothing fails while a message is taken in that would not
  be rejected anyway;
* `Host.no_update_lost` : **an update below an offset that was passed is a command, or was rejected
  for a lasting reason**, in every run of sound steps;
* `Host.download_lost` : a file that cannot be downloaded once, and an update that is lost.
-/

namespace PythonAI

open Library

namespace Communication

namespace Intake

/-! ### Updates -/

/-- A size of a photo. -/
structure Photo where
  fileId : String
  /-- `file_unique_id`, or `file_id` -/
  uniqueId : String
  /-- `file_size`, or `width` -/
  weight : ℕ := 0
  deriving DecidableEq, Repr

/-- A document. -/
structure Document where
  fileId : String
  /-- `file_name`; empty if there is none -/
  name : String := ""
  /-- `mime_type`, or the type that the name suggests, or `application/octet-stream` -/
  contentType : String := "application/octet-stream"
  deriving DecidableEq, Repr

/-- `message`, or `edited_message`. -/
structure Post where
  /-- `message_id` -/
  id : String
  /-- `edit_date`, or `date`, if it is a number -/
  date : Option ℤ
  /-- `text`, or `caption` -/
  text : String := ""
  photo : List Photo := []
  /-- `document`, if it has a `file_id` -/
  document : Option Document := none
  /-- `chat.id`; empty if there is none -/
  chat : String
  /-- `from.id`, or `chat.id` -/
  sender : String
  deriving DecidableEq, Repr

/-- A Telegram update. -/
structure Update where
  /-- `update_id`, if it is a number -/
  id : Option ℕ
  /-- its message, if it has one -/
  post : Option Post
  /-- the update as it was sent -/
  payload : Payload := []
  deriving DecidableEq, Repr

/-- A file to download: its id, its name and its type. -/
abbrev File := String × String × String

/-- `max(…, key=…)`: the first of the largest photos. -/
def bestPhoto : List Photo → Option Photo
  | [] => none
  | p :: ps => some (ps.foldl (fun best p => if best.weight < p.weight then p else best) p)

/-- The files of `_extract_attachments`. -/
def Post.files (p : Post) : List File :=
  let photo := ((bestPhoto p.photo).filter (·.fileId ≠ "")).map fun x =>
    (x.fileId, "telegram-photo-" ++ x.uniqueId ++ ".jpg", "image/jpeg")
  let document := p.document.map fun d =>
    (d.fileId, if d.name = "" then "telegram-file-" ++ d.fileId else d.name, d.contentType)
  photo.toList ++ document.toList

/-- `platform_message_id`. -/
def Update.messageId (u : Update) (p : Post) : String :=
  u.id.elim "None" Nat.repr ++ ":" ++ p.id

/-- The key of the command of an update. -/
def Update.key (u : Update) (p : Post) : CommandId := "telegram" ++ ":" ++ u.messageId p

/-! ### Taking an update in -/

/-- What is read outside the database while an update is taken in. -/
structure Taking where
  /-- `time.time()` -/
  now : ℤ
  /-- `COMM_WEBHOOK_MAX_AGE_SECONDS` -/
  maxAge : ℤ := 300
  /-- `development_mode()` -/
  development : Bool := false
  /-- `_download_attachment`: the data of a file -/
  download : String → Except Error (List UInt8) := fun _ => .ok []
  /-- `COMM_PROJECT` -/
  project : String := "default"
  /-- what opening the database raises -/
  database : Except Error Unit := .ok ()
  /-- `recovery_session` -/
  recovery : Except Error (Option String) := .ok none
  /-- what `save_attachments` reads -/
  saving : Saving := {}
  /-- the clock, while the command is read back -/
  clock : ℕ → Time := fun _ => 0
  /-- `uuid.uuid4().hex` -/
  uuid : String := ""

/-- `fresh_timestamp`. -/
def Taking.fresh (x : Taking) (date : Option ℤ) : Bool :=
  x.development || date.any fun d => 0 < x.maxAge && -30 ≤ x.now - d && x.now - d ≤ x.maxAge

/-- `_extract_attachments`. -/
def Taking.attachments (x : Taking) (p : Post) : Except Error (List Attachment) :=
  p.files.mapM fun f => do
    let data ← x.download f.1
    pure ⟨f.2.1, f.2.2, data, some f.1⟩

/-- `str(text) or self._default_attachment_text(attachments)`. -/
def Post.textWith (p : Post) (attachments : List Attachment) : String :=
  if p.text ≠ "" then p.text
  else if attachments = [] then ""
  else "Please process the uploaded file(s): " ++
    ", ".intercalate (attachments.map Attachment.filename)

/-- `parse_events`, and the project. -/
def Taking.parseEvents (x : Taking) (u : Update) : Except Error (Option Message) :=
  match u.post with
  | none => .ok none
  | some p => do
    ensure (x.fresh p.date)
      (.permission "Telegram event is missing a valid timestamp or is expired")
    let attachments ← x.attachments p
    if p.text = "" && attachments = [] || p.chat = "" || p.sender = "" then pure none
    else
      pure (some
        { platform := "telegram", id := u.messageId p, conversation := p.chat, sender := p.sender
          text := p.textWith attachments, payload := u.payload, attachments := attachments
          project := x.project })

/-- The exceptions that are a `DeletedConversation`. -/
def deletedConversation (e : Error) : Bool :=
  e = .permission "Conversation was deleted; use /new-session to begin a new conversation" ||
    e = .permission "Attachments were deleted with the conversation"

/-- The transaction of `ingest_inbound_message`, after what it needs is there. -/
def Taking.ingest (x : Taking) (m : Message) (s : Store) : Except Error (Store × Bool) := do
  let recovery ← x.recovery
  x.database
  Intake.ingest x.saving m recovery x.uuid s

/-- The loop body of `_enqueue_verified_events`: the store, and the number of new commands. -/
def Taking.store (x : Taking) (m : Message) (s : Store) : Store × Except Error ℕ :=
  match x.ingest m s with
  | .error e => (s, if deletedConversation e then .ok 0 else .error e)
  | .ok (s', false) => (s', .ok 0)
  | .ok (s', true) =>
    (s', match readBack m x.clock s' with
      | .ok _ => .ok 1
      | .error e => if deletedConversation e then .ok 0 else .error e)

/-- The sender may talk to the worker. -/
def allows (allowed : Option (List String)) (sender : String) : Bool :=
  allowed.all fun senders => ("telegram" ++ ":" ++ sender) ∈ senders

/-- `_enqueue_verified_events`, for the senders `allowed`. -/
def Taking.enqueue (x : Taking) (allowed : Option (List String)) (u : Update) (s : Store) :
    Store × Except Error ℕ :=
  match x.parseEvents u with
  | .error e => (s, .error e)
  | .ok none => (s, .ok 0)
  | .ok (some m) =>
    if allows allowed m.sender then x.store m s
    else (s, .error (.permission "telegram sender is not allowed"))

/-! ### Lasting reasons -/

/-- The update has no message that could become a command. -/
def Update.unsupported (u : Update) : Bool :=
  u.post.all fun p => p.text = "" && p.files = [] || p.chat = "" || p.sender = ""

/-- The message has no date, or it is too old. -/
def Taking.expired (x : Taking) (u : Update) : Bool :=
  !x.development && u.post.any fun p => p.date.all fun d => x.maxAge ≤ 0 || x.maxAge < x.now - d

/-- The sender may not talk to the worker. -/
def Update.refused (allowed : Option (List String)) (u : Update) : Bool :=
  u.post.any fun p => !allows allowed p.sender

/-- The conversation of the message is deleting or deleted. -/
def Taking.deleted (x : Taking) (u : Update) (s : Store) : Bool :=
  match x.parseEvents u with
  | .ok (some m) =>
    match x.ingest m s with
    | .error e => deletedConversation e
    | _ => false
  | _ => false

/-- The update would be rejected again. -/
def Taking.rejects (x : Taking) (allowed : Option (List String)) (u : Update) (s : Store) : Bool :=
  u.unsupported || x.expired u || u.refused allowed || x.deleted u s

/-! ### The worker -/

namespace Polling

/-- The worker, with what the server has told it. -/
structure Host where
  /-- the database -/
  store : Store
  offset : Option ℕ
  /-- the updates that the running `poll_once` has yet to take in -/
  batch : List Update
  /-- the updates that were polled -/
  polled : List Update
  /-- the offsets that `get_updates` was called with -/
  passed : List ℕ
  /-- the updates that were rejected for a lasting reason -/
  rejected : List Update

/-- A step. -/
inductive Act
  /-- `poll_once` starts, and `get_updates` returns a batch -/
  | poll (updates : List Update)
  /-- `get_updates` raises -/
  | pollFails
  /-- the next update of the batch is taken in -/
  | take (x : Taking)
  /-- anybody calls an operation of the store -/
  | call (c : Call)
  /-- the worker is started again -/
  | restart

namespace Host

/-- What the server answers: no update below an offset that it was told, and with an update every
polled one that comes before it and that it still has.  An id belongs to one update. -/
structure Telegram (h : Host) (updates : List Update) : Prop where
  /-- the updates below the offset are dropped -/
  kept : ∀ u ∈ updates, ∀ i, u.id = some i → ∀ o ∈ h.passed ++ h.offset.toList, o ≤ i
  /-- the others are sent again -/
  again : ∀ u ∈ h.polled, ∀ i, u.id = some i → (∀ o ∈ h.passed ++ h.offset.toList, o ≤ i) →
    ∀ v ∈ updates, ∀ j, v.id = some j → i < j → u ∈ updates
  /-- the ids -/
  unique : ∀ u ∈ h.polled ++ updates, ∀ v ∈ updates, ∀ i, u.id = some i → v.id = some i → u = v

/-- `max(self.offset or 0, update_id + 1)`. -/
def offsetAfter (h : Host) (u : Update) : Option ℕ :=
  match u.id with
  | some i => some (max (h.offset.getD 0) (i + 1))
  | none => h.offset

/-- The state after an update was taken in: an exception ends `poll_once`. -/
def takes (allowed : Option (List String)) (x : Taking) (u : Update) (rest : List Update)
    (h : Host) : Host :=
  let r := x.enqueue allowed u h.store
  { h with
    store := r.1
    offset := h.offsetAfter u
    batch := if r.2.isOk then rest else []
    rejected := if x.rejects allowed u h.store then h.rejected ++ [u] else h.rejected }

variable (allowed : Option (List String)) (loads : Loads)

/-- The worker, beside any other calls of the store. -/
def lts : Lts Host Act where
  step h a h' := match a with
    | .poll updates => h.batch = [] ∧ h.Telegram updates ∧ h' = { h with
        batch := updates
        polled := h.polled ++ updates
        passed := h.passed ++ h.offset.toList }
    | .pollFails => h.batch = [] ∧ h' = { h with passed := h.passed ++ h.offset.toList }
    | .take x => ∃ u rest, h.batch = u :: rest ∧ h' = h.takes allowed x u rest
    | .call c => h' = { h with store := c.perform loads h.store }
    | .restart => h' = { h with offset := none, batch := [] }

/-- A new worker with new tables. -/
structure Initial (h : Host) : Prop where
  /-- the database -/
  store : h.store = .empty
  /-- the worker -/
  offset : h.offset = none
  /-- no poll runs -/
  batch : h.batch = []
  /-- nothing was polled -/
  polled : h.polled = []
  /-- no offset was passed -/
  passed : h.passed = []

/-- Nothing fails while the update is taken in: the message is not from the future, its files can be
downloaded and the store takes it. -/
structure Works (x : Taking) (u : Update) (s : Store) : Prop where
  /-- the clock -/
  clock : ∀ p, u.post = some p → ∀ d, p.date = some d → -30 ≤ x.now - d
  /-- the files -/
  files : ∀ p, u.post = some p → ∀ f ∈ p.files, (x.download f.1).isOk
  /-- the store -/
  store : ∀ m, x.parseEvents u = .ok (some m) → (x.ingest m s).isOk

/-- A batch is in the order of its ids, and an update that would not be rejected again is taken in
without a failure. -/
def Sound (h : Host) : Act → Prop
  | .poll updates => updates.Pairwise fun u v => ∀ i j, u.id = some i → v.id = some j → i < j
  | .take x => ∀ u rest, h.batch = u :: rest →
      x.rejects allowed u h.store = true ∨ Works x u h.store
  | _ => True

/-- The message of the update is a command, or was rejected for a lasting reason. -/
def Settled (h : Host) (u : Update) : Prop :=
  (∃ p, u.post = some p ∧ (h.store.db.job (u.key p)).isSome) ∨ u ∈ h.rejected

end Host

end Polling

/-! ### What is taken in -/

section

variable {x : Taking} {u : Update} {p : Post} {s s' : Store} {m : Message}
  {allowed : Option (List String)} {loads : Loads}

theorem Store.isSome_perform (c : Call) {id : CommandId} (hj : (s.db.job id).isSome) :
    ((c.perform loads s).db.job id).isSome := by
  obtain ⟨j, hj⟩ := Option.isSome_iff_exists.1 hj
  obtain ⟨j', hj', -⟩ := (c.perform_worked loads s).kept hj
  exact Option.isSome_iff_exists.2 ⟨j', hj'⟩

/-- A message that was taken has a command. -/
theorem ingest_job {y : Saving} {recovery : Option String} {v : String} {new : Bool}
    (h : ingest y m recovery v s = .ok (s', new)) : (s'.db.job m.key).isSome := by
  rcases ingest_ok h with ⟨old, hold, -, rfl, -⟩ | ⟨hnone, -, db, session, rows, row, hdb, -, -, rfl⟩
  · rw [hold]
    rfl
  · have hjobs := incomingSession_jobs hdb
    have hframe := insertMessage_frame (s := { s with
      db := db, attachments := s.attachments ++ rows }) m.row
    have hdb' : (s.filed m db rows row.id session).db.jobs = s.db.jobs ++ [m.job row.id session] := by
      rw [← hjobs]
      exact congrArg (fun db : Db => db.jobs ++ [m.job row.id session]) hframe.1
    have hnone' : s.db.job (m.job row.id session).id = none := hnone
    have hjob : (s.filed m db rows row.id session).db.job m.key = some (m.job row.id session) :=
      job_append hnone' hdb'
    rw [hjob]
    rfl

/-- The store after a message, which is the one of a call of `ingest_inbound_message`. -/
theorem Taking.store_eq (loads : Loads) (x : Taking) (m : Message) (s : Store) : (x.store m s).1 = s ∨
    ∃ recovery, (x.store m s).1 = (Call.ingest x.saving m recovery x.uuid).perform loads s := by
  unfold Taking.store
  cases h : x.ingest m s with
  | error e => exact .inl rfl
  | ok y =>
    obtain ⟨s', new⟩ := y
    simp only [Taking.ingest, bind_eq_ok] at h
    obtain ⟨recovery, -, -, -, h⟩ := h
    refine .inr ⟨recovery, ?_⟩
    have hperform : (Call.ingest x.saving m recovery x.uuid).perform loads s = s' := by
      show commit s (outcome (Intake.ingest x.saving m recovery x.uuid s)) = s'
      rw [h]
      rfl
    rw [hperform]
    cases new <;> rfl

/-- What is a command stays one while an update is taken in. -/
theorem Taking.isSome_enqueue (x : Taking) (allowed : Option (List String)) (u : Update)
    {id : CommandId} (hj : (s.db.job id).isSome) :
    ((x.enqueue allowed u s).1.db.job id).isSome := by
  unfold Taking.enqueue
  split
  · exact hj
  · exact hj
  · next m _ =>
    split_ifs
    · rcases Taking.store_eq (fun _ => .ok []) x m s with h | ⟨recovery, h⟩ <;> rw [h]
      · exact hj
      · exact Store.isSome_perform _ hj
    · exact hj

/-- Files that can all be downloaded. -/
theorem Taking.attachments_ok (hfiles : ∀ f ∈ p.files, (x.download f.1).isOk) :
    ∃ as, x.attachments p = .ok as ∧ as.length = p.files.length := by
  unfold Taking.attachments
  generalize p.files = files at hfiles ⊢
  induction files with
  | nil => exact ⟨[], rfl, rfl⟩
  | cons f fs ih =>
    obtain ⟨as, has, hlen⟩ := ih fun f' hf' => hfiles f' (List.mem_cons_of_mem _ hf')
    have hf := hfiles f List.mem_cons_self
    cases hdata : x.download f.1 with
    | error e =>
      rw [hdata] at hf
      cases hf
    | ok data =>
      refine ⟨⟨f.2.1, f.2.2, data, some f.1⟩ :: as, ?_, by simp [hlen]⟩
      rw [List.mapM_cons, hdata, has]
      rfl

/-- **An update that nothing fails for, and that is not rejected, becomes a command.** -/
theorem Taking.enqueue_works (hworks : Polling.Host.Works x u s)
    (hnot : x.rejects allowed u s = false) :
    ∃ p, u.post = some p ∧ ((x.enqueue allowed u s).1.db.job (u.key p)).isSome := by
  simp only [Taking.rejects, Bool.or_eq_false_iff] at hnot
  obtain ⟨⟨⟨hsupported, hexpired⟩, hrefused⟩, hdeleted⟩ := hnot
  cases hp : u.post with
  | none => simp [Update.unsupported, hp] at hsupported
  | some p =>
    simp only [Update.unsupported, hp, Option.all_some, Bool.or_eq_false_iff, Bool.and_eq_false_iff,
      decide_eq_false_iff_not] at hsupported
    obtain ⟨⟨hcontent, hchat⟩, hsender⟩ := hsupported
    have hallowed : allows allowed p.sender = true := by
      simpa [Update.refused, hp] using hrefused
    have hfresh : x.fresh p.date = true := by
      cases hdate : p.date with
      | none =>
        simp only [Taking.expired, hp, hdate, Option.any_some, Option.all_none, Bool.and_true,
          Bool.not_eq_false'] at hexpired
        simp [Taking.fresh, hexpired]
      | some d =>
        have hclock := hworks.clock p hp d hdate
        simp only [Taking.expired, hp, hdate, Option.any_some, Option.all_some,
          Bool.and_eq_false_iff, Bool.not_eq_false', Bool.or_eq_false_iff,
          decide_eq_false_iff_not] at hexpired
        simp only [Taking.fresh, Option.any_some, Bool.or_eq_true, Bool.and_eq_true,
          decide_eq_true_eq]
        rcases hexpired with hdev | ⟨hage, hold⟩
        · exact .inl hdev
        · exact .inr ⟨⟨by omega, hclock⟩, by omega⟩
    obtain ⟨as, has, hlen⟩ := Taking.attachments_ok (hworks.files p hp)
    have hempty : ¬ (p.text = "" ∧ as = []) := by
      rintro ⟨htext, rfl⟩
      have hfiles : p.files = [] := List.length_eq_zero_iff.1 hlen.symm
      rcases hcontent with hcontent | hcontent
      · exact hcontent htext
      · exact hcontent hfiles
    have hparse : x.parseEvents u = .ok (some
        { platform := "telegram", id := u.messageId p, conversation := p.chat, sender := p.sender
          text := p.textWith as, payload := u.payload, attachments := as, project := x.project }) := by
      simp only [Taking.parseEvents, hp, bind_eq_ok, ensure_eq_ok]
      refine ⟨(), hfresh, as, has, ?_⟩
      rw [if_neg (by simp only [Bool.or_eq_true, Bool.and_eq_true, decide_eq_true_eq]; tauto)]
      rfl
    have hok := hworks.store _ hparse
    refine ⟨p, rfl, ?_⟩
    simp only [Taking.enqueue, hparse, hallowed, if_true]
    unfold Taking.store
    cases h : x.ingest _ s with
    | error e =>
      rw [h] at hok
      cases hok
    | ok y =>
      obtain ⟨s', new⟩ := y
      simp only [Taking.ingest, bind_eq_ok] at h
      obtain ⟨recovery, -, -, -, h⟩ := h
      have hjob := ingest_job h
      cases new with
      | false => exact hjob
      | true => exact hjob

end

namespace Polling

namespace Host

variable {allowed : Option (List String)} {loads : Loads} {h h' : Host} {a : Act} {u v : Update}
  {i : ℕ}

/-- The server has the update, and the offset has not passed it. -/
def Kept (h : Host) (i : ℕ) : Prop := ∀ o ∈ h.passed ++ h.offset.toList, o ≤ i

/-- What holds in every sound run. -/
structure Inv (h : Host) : Prop where
  /-- an update is settled, in the batch, or will be sent again: nothing of the batch is after it -/
  known : ∀ u ∈ h.polled, ∀ i, u.id = some i →
    h.Settled u ∨ u ∈ h.batch ∨ h.Kept i ∧ ∀ v ∈ h.batch, ∀ j, v.id = some j → j < i
  /-- the offset has not passed the rest of the batch -/
  kept : ∀ v ∈ h.batch, ∀ j, v.id = some j → h.Kept j
  /-- the rest of the batch is in order -/
  ordered : h.batch.Pairwise fun u v => ∀ i j, u.id = some i → v.id = some j → i < j

theorem Settled.call (hs : h.Settled u) (c : Call) :
    Settled { h with store := c.perform loads h.store } u := by
  rcases hs with ⟨p, hp, hj⟩ | hs
  · exact .inl ⟨p, hp, Store.isSome_perform c hj⟩
  · exact .inr hs

theorem Settled.takes {x : Taking} {rest : List Update} (hs : h.Settled u) :
    (h.takes allowed x v rest).Settled u := by
  rcases hs with ⟨p, hp, hj⟩ | hs
  · exact .inl ⟨p, hp, x.isSome_enqueue allowed v hj⟩
  · refine .inr ?_
    show u ∈ (if _ then _ else _ : List Update)
    split_ifs
    · exact List.mem_append_left _ hs
    · exact hs

/-- **An update that is taken in by a sound step is settled.** -/
theorem settled_takes {x : Taking} {rest : List Update}
    (hsound : x.rejects allowed u h.store = true ∨ Works x u h.store) :
    (h.takes allowed x u rest).Settled u := by
  cases hr : x.rejects allowed u h.store with
  | true =>
    refine .inr ?_
    show u ∈ (if _ then _ else _ : List Update)
    rw [if_pos hr]
    exact List.mem_append_right _ (List.mem_singleton_self u)
  | false =>
    rcases hsound with hrejects | hworks
    · rw [hr] at hrejects
      cases hrejects
    · exact .inl (Taking.enqueue_works hworks hr)

/-- The offset after an update is not past what was not passed and comes later. -/
theorem Kept.takes {x : Taking} {rest : List Update} (hk : h.Kept i)
    (hlt : ∀ j, u.id = some j → j < i) : (h.takes allowed x u rest).Kept i := by
  intro o ho
  rcases List.mem_append.1 ho with ho | ho
  · exact hk o (List.mem_append_left _ ho)
  · change o ∈ (h.offsetAfter u).toList at ho
    unfold offsetAfter at ho
    cases hu : u.id with
    | none =>
      rw [hu] at ho
      exact hk o (List.mem_append_right _ ho)
    | some j =>
      rw [hu] at ho
      obtain rfl := List.mem_singleton.1 ho
      have hj := hlt j hu
      have hoffset : h.offset.getD 0 ≤ i := by
        cases hoff : h.offset with
        | none => exact Nat.zero_le _
        | some o => exact hk o (List.mem_append_right _ (by rw [hoff]; exact List.mem_singleton_self o))
      omega

/-- **A sound step keeps the invariant.** -/
theorem Inv.step (hi : h.Inv) (hst : ((lts allowed loads).restrict (Sound allowed)).step h a h') :
    h'.Inv := by
  obtain ⟨hst, hsound⟩ := hst
  cases a with
  | poll updates =>
    obtain ⟨hbatch, hserver, rfl⟩ := hst
    have hkept : ∀ {i : ℕ}, h.Kept i → Kept { h with
        batch := updates
        polled := h.polled ++ updates
        passed := h.passed ++ h.offset.toList } i := by
      intro i hk o ho
      rcases List.mem_append.1 ho with ho | ho
      · exact hk o ho
      · exact hk o (List.mem_append_right _ ho)
    refine ⟨fun u hu i hui => ?_, fun v hv j hvj => hkept (hserver.kept v hv j hvj), hsound⟩
    by_cases hmem : u ∈ updates
    · exact .inr (.inl hmem)
    have hu' : u ∈ h.polled := (List.mem_append.1 hu).resolve_right hmem
    rcases hi.known u hu' i hui with hs | hb | ⟨hk, -⟩
    · exact .inl hs
    · rw [hbatch] at hb
      cases hb
    · refine .inr (.inr ⟨hkept hk, fun v hv j hvj => ?_⟩)
      -- A later update of the batch would have brought this one with it.
      by_contra hle
      rcases Nat.lt_or_ge i j with hlt | hge
      · exact hmem (hserver.again u hu' i hui hk v hv j hvj hlt)
      · have hij : j = i := by omega
        subst hij
        exact hmem (hserver.unique u hu v hv j hui hvj ▸ hv)
  | pollFails =>
    obtain ⟨hbatch, rfl⟩ := hst
    have hkept : ∀ {i : ℕ}, h.Kept i → Kept { h with passed := h.passed ++ h.offset.toList } i := by
      intro i hk o ho
      rcases List.mem_append.1 ho with ho | ho
      · exact hk o ho
      · exact hk o (List.mem_append_right _ ho)
    exact ⟨fun u hu i hui => (hi.known u hu i hui).imp_right (.imp_right fun hk => ⟨hkept hk.1, hk.2⟩),
      fun v hv j hvj => hkept (hi.kept v hv j hvj), hi.ordered⟩
  | take x =>
    obtain ⟨v, rest, hbatch, rfl⟩ := hst
    have hordered := hi.ordered
    rw [hbatch, List.pairwise_cons] at hordered
    have hlater : ∀ u ∈ rest, ∀ i, u.id = some i → (h.takes allowed x v rest).Kept i := by
      intro u hu i hui
      have hmem : u ∈ h.batch := by
        rw [hbatch]
        exact List.mem_cons_of_mem _ hu
      exact (hi.kept u hmem i hui).takes fun j hvj => hordered.1 u hu j i hvj hui
    have hsub : ∀ u ∈ (h.takes allowed x v rest).batch, u ∈ rest := by
      intro u hu
      change u ∈ (if _ then _ else _ : List Update) at hu
      split_ifs at hu
      · exact hu
      · cases hu
    refine ⟨fun u hu i hui => ?_, fun u hu i hui => hlater u (hsub u hu) i hui, ?_⟩
    · rcases hi.known u hu i hui with hs | hb | ⟨hk, hafter⟩
      · exact .inl hs.takes
      · rw [hbatch] at hb
        rcases List.mem_cons.1 hb with rfl | hb
        · exact .inl (settled_takes (hsound u rest hbatch))
        · by_cases hgoes : u ∈ (h.takes allowed x v rest).batch
          · exact .inr (.inl hgoes)
          · refine .inr (.inr ⟨hlater u hb i hui, fun w hw => ?_⟩)
            -- `poll_once` has ended: the batch is empty.
            change w ∈ (if _ then _ else _ : List Update) at hw
            change u ∉ (if _ then _ else _ : List Update) at hgoes
            split_ifs at hw hgoes
            · exact absurd hb hgoes
            · cases hw
      · refine .inr (.inr ⟨hk.takes fun j hvj => hafter v ?_ j hvj, fun w hw j hwj => ?_⟩)
        · rw [hbatch]
          exact List.mem_cons_self
        · refine hafter w ?_ j hwj
          rw [hbatch]
          exact List.mem_cons_of_mem _ (hsub w hw)
    · show (if _ then _ else _ : List Update).Pairwise _
      split_ifs
      · exact hordered.2
      · exact .nil
  | call c =>
    cases hst
    exact ⟨fun u hu i hui => (hi.known u hu i hui).imp_left fun hs => hs.call c, hi.kept, hi.ordered⟩
  | restart =>
    cases hst
    have hkept : ∀ {i : ℕ}, h.Kept i → Kept { h with offset := none, batch := [] } i := by
      intro i hk o ho
      rw [show ({ h with offset := none, batch := [] } : Host).passed = h.passed from rfl] at ho
      exact hk o (List.mem_append_left _ (by simpa using ho))
    refine ⟨fun u hu i hui => ?_, nofun, .nil⟩
    rcases hi.known u hu i hui with hs | hb | ⟨hk, -⟩
    · exact .inl hs
    · exact .inr (.inr ⟨hkept (hi.kept u hb i hui), nofun⟩)
    · exact .inr (.inr ⟨hkept hk, nofun⟩)

theorem inv (hr : ((lts allowed loads).restrict (Sound allowed)).Reachable Initial h) : h.Inv := by
  refine hr.invariant (fun s hs => ⟨?_, ?_, ?_⟩) fun s l s' hi hst => hi.step hst
  · intro u hu
    rw [hs.polled] at hu
    cases hu
  · intro u hu
    rw [hs.batch] at hu
    cases hu
  · rw [hs.batch]
    exact .nil

/-- **No polled update is lost.**  In the runs whose steps are sound, an update below an offset that
was passed to `get_updates` is a command, or was rejected for a lasting reason. -/
theorem no_update_lost
    (hr : ((lts allowed loads).restrict (Sound allowed)).Reachable Initial h) :
    ∀ u ∈ h.polled, ∀ i, u.id = some i → ∀ o ∈ h.passed, i < o → h.Settled u := by
  intro u hu i hui o ho hlt
  have hpassed : o ∈ h.passed ++ h.offset.toList := List.mem_append_left _ ho
  rcases (inv hr).known u hu i hui with hs | hb | ⟨hk, -⟩
  · exact hs
  · have := (inv hr).kept u hb i hui o hpassed
    omega
  · have := hk o hpassed
    omega

/-! ### Two polls -/

/-- A new worker. -/
def new : Host := ⟨.empty, none, [], [], [], []⟩

/-- The worker, when `u` was polled. -/
def afterPoll (u : Update) : Host := { new with batch := [u], polled := [u] }

/-- The worker, when `u` was polled, taken in, and passed by the offset. -/
def afterTwo (x : Taking) (u : Update) : Host :=
  let h := (afterPoll u).takes none x u []
  { h with batch := [], polled := [u] ++ [], passed := [] ++ h.offset.toList }

theorem new_initial : Initial new := ⟨rfl, rfl, rfl, rfl, rfl⟩

/-- Two polls, with one update. -/
theorem twoPolls_run (loads : Loads) (C : Host → Act → Prop) {x : Taking} (hpoll : C new (.poll [u]))
    (htake : C (afterPoll u) (.take x)) (hagain : C ((afterPoll u).takes none x u []) (.poll [])) :
    ((lts none loads).restrict C).Run new [.poll [u], .take x, .poll []] (afterTwo x u) := by
  have hbatch : ((afterPoll u).takes none x u []).batch = [] := by
    show (if _ then _ else _ : List Update) = []
    split_ifs <;> rfl
  refine .cons ⟨⟨rfl, ⟨fun v _ i _ o ho => ?_, nofun, fun v hv w hw i _ _ => ?_⟩, rfl⟩, hpoll⟩
    (.cons ⟨⟨u, [], rfl, rfl⟩, htake⟩
    (.cons ⟨⟨hbatch, ⟨nofun, fun _ _ _ _ _ _ hw => (nomatch hw), fun _ _ _ hw => (nomatch hw)⟩, rfl⟩,
      hagain⟩ (.nil _)))
  · cases ho
  · rw [List.mem_singleton.1 hv, List.mem_singleton.1 hw]

/-- A message of Ann. -/
def greeting : Update := ⟨some 1, some ⟨"7", some 0, "hi", [], none, "5", "5"⟩, []⟩

theorem greeting_works : Works { now := 0 } greeting .empty := by
  refine ⟨fun p hp d hd => ?_, fun p hp f hf => ?_, fun m hm => ?_⟩
  · cases hp
    cases hd
    decide
  · rfl
  · have hparse : ({ now := 0 } : Taking).parseEvents greeting = .ok (some
        { platform := "telegram", id := "1:7", conversation := "5", sender := "5", text := "hi" }) :=
      rfl
    rw [hparse] at hm
    cases hm
    decide

theorem no_update_lost_sample : Settled (afterTwo { now := 0 } greeting) greeting := by
  have hrun := twoPolls_run (fun _ => .ok []) (Sound none)
    (u := greeting) (x := { now := 0 }) (List.pairwise_singleton _ _)
    (fun v rest hv => by cases hv; exact .inr greeting_works) .nil
  exact no_update_lost ((Lts.Reachable.of_init new_initial).run hrun) greeting
    (List.mem_singleton_self _) 1 rfl 2 (by decide) (by decide)

/-- A message with a photo. -/
def photo : Update := ⟨some 1, some ⟨"7", some 0, "", [⟨"f", "f", 1⟩], none, "5", "5"⟩, []⟩

/-- The photo cannot be downloaded. -/
def offline : Taking := { now := 0, download := fun _ => .error (.runtime "getFile failed") }

/-- A file that could not be downloaded once: the update is below the offset, it is no command, and
nothing was wrong with it. -/
theorem download_lost : ∃ h, (lts none fun _ => .ok []).Reachable Initial h ∧ photo ∈ h.polled ∧
    photo.id = some 1 ∧ 2 ∈ h.passed ∧ ¬ h.Settled photo ∧
    offline.rejects none photo .empty = false := by
  have hrun := (twoPolls_run (fun _ => .ok []) (fun _ _ => True) (u := photo)
    (x := offline) trivial trivial trivial).of_restrict
  refine ⟨_, (Lts.Reachable.of_init new_initial).run hrun, List.mem_singleton_self _, rfl,
    by decide, ?_, by decide⟩
  rintro (⟨p, hp, hj⟩ | hrejected)
  · cases hp
    have hnone : (afterTwo offline photo).store.db.jobs = [] := by decide
    rw [Db.job, hnone] at hj
    cases hj
  · have hnone : (afterTwo offline photo).rejected = [] := by decide
    rw [hnone] at hrejected
    cases hrejected

end Host

end Polling

end Intake

end Communication

end PythonAI
