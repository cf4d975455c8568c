import PythonAI.Communication.Messages

/-!
# What a call does to the rows

One lemma for each table of the transport database.

* `Call.perform_messages` : a message is rewritten by the erasure of its session or by a repeated
  event, and is inserted under a new key;
* `Call.perform_worked` : a job changes as the operation on the jobs alone changes it, or is added
  with its attachments; an attachment is only ever blanked;
* `Store.Wf` : **the keys of every table are unique, and every job is filed**, whatever is called.
-/

namespace PythonAI

open Library

namespace Communication

namespace Intake

/-- The keys of the messages differ, and their ids were handed out. -/
structure Store.Keyed (s : Store) : Prop where
  /-- the primary key -/
  ids : (s.messages.map MessageRow.id).Nodup
  /-- the counter -/
  bound : ∀ r ∈ s.messages, r.id < s.nextId
  /-- it starts at one -/
  positive : 0 < s.nextId ∧ ∀ r ∈ s.messages, 0 < r.id
  /-- the unique key -/
  keys : (s.messages.map MessageRow.unique).Nodup

/-- The message may be filed under the session. -/
structure Admits (db : Db) (m : Message) (bound recovery : Option String) (u session : String) :
    Prop where
  /-- the session -/
  named : session = sessionOf (m.incoming none) bound recovery u db
  /-- its state admits the text -/
  state : (db.states ⟨m.platform, m.sender, m.project, session⟩).getD .active = .active ∨
    recoveryControl m.text = true ∨
      (db.states ⟨m.platform, m.sender, m.project, session⟩).getD .active = .deleting ∧
        cancellation m.text = true
  /-- a control command has no attachments -/
  bare : cleanupControl m.text = true → m.attachments = []

/-- What the message `c` of a call is: its text, and where it comes from. -/
inductive Arrives (s : Store) (c : Call) (m : Message) (source : ℕ) (session : String)
    (rows : List AttachmentRow) : Prop
  /-- by `ingest_inbound_message`, which files the message row too -/
  | ingested (x : Saving) (recovery : Option String) (u : String) (row : MessageRow)
      (hc : c = .ingest x m recovery u)
      (hok : ∃ s', Intake.ingest x m recovery u s = .ok (s', true))
      (hadmits : Admits s.db m none recovery u session) (hrows : Attached x m s rows)
      (hrow : (s.insertMessage m.row).inbound m.platform m.id = some row) (hsource : source = row.id)
  /-- by `enqueue_command` -/
  | enqueued (x : Saving) (recovery bound : Option String) (u : String)
      (hc : c = .enqueue x m source recovery u)
      (hok : ∃ s', Intake.enqueue x m source recovery u s = .ok (s', true)) (hbound : boundTo m source s = .ok bound)
      (hadmits : Admits s.db m bound recovery u session) (hrows : Attached x m s rows)

/-- What a call does to the row of a message. -/
inductive Rewritten (s : Store) (c : Call) (r : MessageRow) : MessageRow → Prop
  /-- nothing -/
  | kept : Rewritten s c r r
  /-- its session is erased -/
  | blanked (scope : Scope) (t : Time) (hc : c = .erase scope t) (hscope : r.scope = some scope) :
      Rewritten s c r { r with text := "", payload := [], status := .deleted }
  /-- its event comes again before there is a job -/
  | refiled (x : Saving) (m : Message) (recovery : Option String) (u session : String)
      (hc : c = .ingest x m recovery u) (hkey : r.unique = (m.platform, .inbound m.id))
      (hnone : s.db.job m.key = none)
      (hok : ∃ s', Intake.ingest x m recovery u s = .ok (s', true)) (hadmits : Admits s.db m none recovery u session) :
      Rewritten s c r { r with filed := some (m.project, session, m.sender) }

/-- A row that a call inserts. -/
inductive Inserted (s : Store) (c : Call) : MessageRow → Prop
  /-- a message -/
  | message (m : Message) (recovery : Option String) (u session : String)
      (hc : (∃ x, c = .ingest x m recovery u ∧ s.db.job m.key = none) ∨ c = .record m recovery u)
      (hadmits : Admits s.db m none recovery u session) :
      Inserted s c { m.row with id := s.nextId, filed := some (m.project, session, m.sender) }
  /-- a delivery that was sent -/
  | delivery (d : Delivery) (error : Option String) (hc : c = .finish d.id true error)
      (hd : s.db.delivery d.id = some d) (hs : d.state = .sending) :
      Inserted s c
        { id := s.nextId, platform := d.platform, key := .outbound d.id
          conversation := d.conversation, sender := "agent", text := d.text, status := .sent
          filed := some (d.project, d.session, d.sender) }
  /-- a reply without a session -/
  | external (platform conversation text id sender : String) :
      Inserted s c
        { id := s.nextId, platform := platform, key := .external id, conversation := conversation
          sender := sender, text := text, status := .sent }

/-- What a call does to the messages. -/
structure Messaged (s : Store) (c : Call) (s' : Store) : Prop where
  /-- the rows, and the counter -/
  rows : ∃ f new, s'.messages = s.messages.map f ++ new ∧ s'.nextId = s.nextId + new.length ∧
    (∀ r ∈ s.messages, Rewritten s c r (f r)) ∧ (new = [] ∨ ∃ r, new = [r] ∧ Inserted s c r ∧
      r.id = s.nextId ∧ ∀ r₀ ∈ s.messages, r₀.unique ≠ r.unique)

section

variable {s s' : Store} {c : Call} {m : Message} {bound : Except Error (Option String)}
  {recovery : Option String} {u session : String}

theorem incomingSession_admits {db db' : Db}
    (h : incomingSession (m.incoming none) bound recovery u db = .ok (db', session)) :
    ∃ b heads, bound = .ok b ∧ Admits db m b recovery u session ∧
      (∀ k s, heads k = some s → db.heads k = some s ∨ s = session) ∧
      db' = { db with
        states := admitted db ⟨m.platform, m.sender, m.project, session⟩
        heads := heads } := by
  obtain ⟨b, heads, hb, hsession, hheads, hdb⟩ := incomingSession_ok h
  refine ⟨b, heads, hb, ⟨hsession, ?_, fun hcontrol => ?_⟩, hheads, hdb⟩
  · simp only [incomingSession, bind_eq_ok, ensure_eq_ok, pure_eq_ok, Prod.mk.injEq,
      Bool.or_eq_true, Bool.and_eq_true, decide_eq_true_eq] at h
    obtain ⟨-, -, b', hb', -, hstate, -, hs⟩ := h
    rw [hs] at hstate
    rcases hstate with (h₁ | h₂) | h₃
    · exact .inl h₁
    · exact .inr (.inl h₂)
    · exact .inr (.inr h₃)
  · simp only [incomingSession, bind_eq_ok, ensure_eq_ok] at h
    obtain ⟨-, hbare, -⟩ := h
    by_contra hne
    have hattached : (m.incoming none).attached = true := decide_eq_true hne
    rw [hattached, show cleanupControl (m.incoming none).command.text = true from hcontrol] at hbare
    cases hbare

/-! ### The messages -/

theorem Messaged.of_same (hm : s'.messages = s.messages) (hn : s'.nextId = s.nextId) :
    Messaged s c s' :=
  ⟨⟨id, [], by rw [hm, List.map_id, List.append_nil], by rw [hn]; rfl, fun _ _ => .kept, .inl rfl⟩⟩

/-- An insertion adds a row under a new key, or does nothing. -/
theorem insertMessage_cases (row : MessageRow) :
    ((∃ r ∈ s.messages, r.unique = row.unique) ∧ s.insertMessage row = s) ∨
      (∀ r ∈ s.messages, r.unique ≠ row.unique) ∧ s.insertMessage row =
        { s with messages := s.messages ++ [{ row with id := s.nextId }], nextId := s.nextId + 1 } := by
  unfold Store.insertMessage
  split_ifs with hany
  · obtain ⟨r, hr, hkey⟩ := List.any_eq_true.1 hany
    exact .inl ⟨⟨r, hr, by simpa using hkey⟩, rfl⟩
  · refine .inr ⟨fun r hr hkey => hany ?_, rfl⟩
    exact List.any_eq_true.2 ⟨r, hr, by simpa using hkey⟩

theorem Messaged.of_insert {row : MessageRow} (hinserted : Inserted s c { row with id := s.nextId })
    (hm : s'.messages = (s.insertMessage row).messages)
    (hn : s'.nextId = (s.insertMessage row).nextId) : Messaged s c s' := by
  rcases insertMessage_cases (s := s) row with ⟨-, heq⟩ | ⟨hnew, heq⟩
  · exact .of_same (by rw [hm, heq]) (by rw [hn, heq])
  · refine ⟨⟨id, [{ row with id := s.nextId }], ?_, ?_, fun _ _ => .kept, .inr
      ⟨_, rfl, hinserted, rfl, hnew⟩⟩⟩
    · rw [hm, heq, List.map_id]
    · rw [hn, heq]
      rfl

/-- The filing of a row. -/
theorem fileMessage_messages (id : ℕ) (project session owner : String) :
    (s.fileMessage id project session owner).messages = s.messages.map fun r =>
      if r.id = id then { r with filed := some (project, session, owner) } else r := rfl

/-- A new message is filed. -/
theorem Messaged.of_filed_new (hk : s.Keyed)
    (hinserted : Inserted s c { m.row with id := s.nextId, filed := some (m.project, session, m.sender) })
    (hnew : ∀ r ∈ s.messages, r.unique ≠ m.row.unique)
    (hm : s'.messages = (s.messages ++ [{ m.row with id := s.nextId }]).map fun r : MessageRow =>
      if r.id = s.nextId then { r with filed := some (m.project, session, m.sender) } else r)
    (hn : s'.nextId = s.nextId + 1) : Messaged s c s' := by
  refine ⟨⟨id, [_], ?_, hn, fun _ _ => .kept, .inr ⟨_, rfl, hinserted, rfl, hnew⟩⟩⟩
  rw [hm, List.map_append, List.map_id]
  congr 1
  · refine (List.map_congr_left fun r hr => ?_).trans (List.map_id _)
    exact if_neg (hk.bound r hr).ne
  · rw [List.map_singleton, if_pos rfl]

/-- The insertion looks at the messages only. -/
theorem insertMessage_congr (db : Db) (rows : List AttachmentRow) (row : MessageRow) :
    ({ s with db := db, attachments := rows }.insertMessage row).messages =
        (s.insertMessage row).messages ∧
      ({ s with db := db, attachments := rows }.insertMessage row).nextId =
        (s.insertMessage row).nextId := by
  unfold Store.insertMessage
  split_ifs <;> exact ⟨rfl, rfl⟩

/-- The row of a message that was just inserted. -/
theorem inbound_new (hnew : ∀ r ∈ s.messages, r.unique ≠ m.row.unique) {row : MessageRow}
    (hrow : (s.insertMessage m.row).inbound m.platform m.id = some row) :
    row = { m.row with id := s.nextId } := by
  rcases insertMessage_cases (s := s) m.row with ⟨⟨r, hr, hkey⟩, -⟩ | ⟨-, heq⟩
  · exact absurd hkey (hnew r hr)
  · rw [heq] at hrow
    have hfind : Records.find MessageRow.unique (m.platform, .inbound m.id)
        (s.messages ++ [{ m.row with id := s.nextId }]) = some { m.row with id := s.nextId } :=
      @Records.find_append_new _ _ _ MessageRow.unique _ { m.row with id := s.nextId } hnew
    exact (Option.some.inj (hfind.symm.trans hrow)).symm

/-- What `ingest_inbound_message` does to the messages. -/
theorem ingest_messages {x : Saving} {new : Bool} (hk : s.Keyed)
    (h : ingest x m recovery u s = .ok (s', new)) : Messaged s (.ingest x m recovery u) s' := by
  rcases ingest_ok h with
    ⟨-, -, -, rfl, -⟩ | ⟨hnone, rfl, db, session, rows, row, hdb, -, hrow, rfl⟩
  · exact .of_same rfl rfl
  obtain ⟨b, heads, hb, hadmits, -, -⟩ := incomingSession_admits hdb
  cases hb
  have hcongr := insertMessage_congr (s := s) db (s.attachments ++ rows) m.row
  have hmessages : (s.filed m db rows row.id session).messages =
      (s.insertMessage m.row).messages.map fun r : MessageRow =>
        if r.id = row.id then { r with filed := some (m.project, session, m.sender) } else r := by
    rw [← hcongr.1]
    rfl
  have hnext : (s.filed m db rows row.id session).nextId = (s.insertMessage m.row).nextId := by
    rw [← hcongr.2]
    rfl
  rcases insertMessage_cases (s := s) m.row with ⟨-, heq⟩ | ⟨hnew, heq⟩
  · -- the row exists: it is filed again
    rw [heq] at hrow hmessages hnext
    have hmem : row ∈ s.messages := Records.mem_of_find hrow
    refine ⟨⟨_, [], by rw [hmessages, List.append_nil], hnext, fun r hr => ?_, .inl rfl⟩⟩
    split_ifs with hid
    · obtain rfl : r = row := List.inj_on_of_nodup_map hk.ids hr hmem hid
      exact .refiled x m recovery u session rfl (Records.key_of_find hrow) hnone ⟨_, h⟩ hadmits
    · exact .kept
  · have hid : row.id = s.nextId := by rw [inbound_new hnew hrow]
    rw [hid, heq] at hmessages hnext
    rw [hid]
    have hinserted : Inserted s (.ingest x m recovery u)
        { m.row with id := s.nextId, filed := some (m.project, session, m.sender) } :=
      .message m recovery u session (.inl ⟨x, rfl, hnone⟩) hadmits
    exact .of_filed_new hk hinserted hnew hmessages hnext

/-- What `record_inbound_message` does to the messages. -/
theorem record_messages {id : ℕ} {new : Bool} (hk : s.Keyed)
    (h : record m recovery u s = .ok (s', id, new)) : Messaged s (.record m recovery u) s' := by
  rcases record_ok h with ⟨-, -, rfl, -, -⟩ | ⟨hnone, -, -, db, session, hdb, rfl⟩
  · exact .of_same rfl rfl
  obtain ⟨b, heads, hb, hadmits, -, -⟩ := incomingSession_admits hdb
  cases hb
  have hcongr := insertMessage_congr (s := s) db s.attachments m.row
  rcases insertMessage_cases (s := s) m.row with ⟨⟨r, hr, hkey⟩, -⟩ | ⟨hnew, heq⟩
  · obtain ⟨row, hrow⟩ := Records.find_isSome MessageRow.unique hr
    rw [hkey] at hrow
    exact absurd (hnone.symm.trans hrow) nofun
  · refine .of_filed_new hk (.message m recovery u session (.inr rfl) hadmits) hnew ?_ ?_
    · rw [fileMessage_messages, hcongr.1, heq]
    · show ({ s with db := db }.insertMessage m.row).nextId = _
      rw [hcongr.2, heq]

/-- What `queue_delivery` commits. -/
theorem Call.queue_ok {loads : Loads} {env : Environment} {c : Command} {text context : String}
    {isError receipt : Bool} {event : Option String} {t : Time}
    (h : Call.attempt loads s (.queue env c text context isError receipt event t) = .ok s') :
    ∃ db key, queueDelivery env c text context isError receipt (minimalReceipt loads text) event t
      s.db = .ok (db, key) ∧ s' = { s with db := db } := by
  obtain ⟨⟨db, key⟩, hdb, hs⟩ := bind_eq_ok.1 h
  simp only [pure_eq_ok] at hs
  exact ⟨db, key, hdb, hs.symm⟩

/-- **What a call does to the messages.** -/
theorem Call.perform_messages (loads : Loads) (c : Call) (hk : s.Keyed) :
    Messaged s c (c.perform loads s) := by
  refine commit_of (P := fun s' : Store => Messaged s c s') (.of_same rfl rfl) fun s' h => ?_
  cases c with
  | ingest x m recovery u =>
    obtain ⟨new, h⟩ := outcome_eq_ok.1 h
    exact ingest_messages hk h
  | record m recovery u =>
    obtain ⟨⟨id, new⟩, h⟩ := outcome_eq_ok.1 h
    exact record_messages hk h
  | enqueue x m source recovery u =>
    obtain ⟨new, h⟩ := outcome_eq_ok.1 h
    rcases enqueue_ok h with ⟨-, -, rfl, -⟩ | ⟨-, -, db, session, rows, -, -, rfl⟩
    · exact .of_same rfl rfl
    · exact .of_same rfl rfl
  | recordOutbound platform conversation text id sender =>
    obtain ⟨id', h⟩ := outcome_eq_ok.1 h
    simp only [Intake.recordOutbound, bind_eq_ok, pure_eq_ok, Prod.mk.injEq] at h
    obtain ⟨-, -, rfl, -⟩ := h
    exact .of_insert (.external platform conversation text id sender) rfl rfl
  | queue env c text context isError receipt event t =>
    obtain ⟨db, key, -, rfl⟩ := Call.queue_ok h
    exact .of_same rfl rfl
  | finish id sent error =>
    cases h
    show Messaged s _ (Intake.finish id sent error s)
    unfold Intake.finish
    split
    · exact .of_same rfl rfl
    · next d hd =>
      obtain ⟨hd, hs⟩ := Option.filter_eq_some_iff.1 hd
      have hid : d.id = id := Records.key_of_find hd
      split_ifs with hsent
      · subst hid hsent
        have hcongr := insertMessage_congr (s := s)
          (finishDelivery d.id .sent error s.db) s.attachments
        exact .of_insert (.delivery d error rfl hd (by simpa using hs)) (hcongr _).1 (hcongr _).2
      · exact .of_same rfl rfl
  | erase scope t =>
    obtain ⟨u, h⟩ := outcome_eq_ok.1 h
    simp only [Intake.erase, bind_eq_ok, pure_eq_ok, Prod.mk.injEq] at h
    obtain ⟨⟨db, -⟩, -, rfl, -⟩ := h
    refine ⟨⟨_, [], (List.append_nil _).symm, rfl, fun r _ => ?_, .inl rfl⟩⟩
    split_ifs with hscope
    · exact .blanked scope t rfl hscope
    · exact .kept
  | job o =>
    cases h
    split_ifs <;> exact .of_same rfl rfl
  | release | claim | cleanup =>
    cases h
    exact .of_same rfl rfl

/-! ### The attachments -/

/-- What a call does to the row of an attachment. -/
inductive Trimmed (s : Store) (c : Call) (r : AttachmentRow) : AttachmentRow → Prop
  /-- nothing -/
  | kept : Trimmed s c r r
  /-- it has expired -/
  | expired (t₀ t₁ t₂ : Time) (hc : c = .cleanup t₀ t₁ t₂) (ht : r.expires ≤ t₀) :
      Trimmed s c r { r with data := [], size := 0 }
  /-- the session of its command is erased -/
  | erased (scope : Scope) (t : Time) (hc : c = .erase scope t)
      (hj : ∃ j ∈ s.db.jobs, j.within scope = true ∧ j.id = r.command) : Trimmed s c r r.erase

/-- The operation on the jobs, the sessions and the deliveries that a call performs. -/
def Call.op (loads : Loads) (s : Store) : Call → Option Op
  | release interaction => some (.release (interactionSources interaction s))
  | queue env c text context isError receipt event t =>
    some (.queueDelivery env c text context isError receipt (minimalReceipt loads text) event t)
  | cleanup _ t₁ t₂ => some (.cleanupExpired t₁ t₂)
  | erase scope t => some (.eraseSession scope t)
  | job o => if o.onJobs then some o else none
  | _ => none

/-- The job of a message. -/
def Message.job (m : Message) (source : ℕ) (session : String) : Job :=
  { command := { m.command (some source) with session := session }
    deliveryReady := m.platform ≠ "discord" }

/-- What a call does to the jobs and to the attachments. -/
inductive Worked (loads : Loads) (s : Store) (c : Call) (s' : Store) : Prop
  /-- a message becomes a job, with its attachments -/
  | arrived (m : Message) (source : ℕ) (session : String) (rows : List AttachmentRow)
      (harrives : Arrives s c m source session rows) (hnone : s.db.job m.key = none)
      (hjobs : s'.db.jobs = s.db.jobs ++ [m.job source session])
      (hdb : ∃ duplicate bound recovery u,
        addJob duplicate (m.incoming (some source)) bound recovery u s.db = .ok (s'.db, true))
      (hrows : s'.attachments = s.attachments ++ rows)
  /-- the jobs and the attachments change in place -/
  | settled (o : Op) (ho : c.op loads s = some o) (hdb : s'.db = o.perform s.db)
      (hrows : ∃ f, s'.attachments = s.attachments.map f ∧ ∀ r ∈ s.attachments, Trimmed s c r (f r))
  /-- a message is filed -/
  | recorded (m : Message) (recovery : Option String) (u session : String)
      (hc : c = .record m recovery u)
      (hdb : incomingSession (m.incoming none) (.ok none) recovery u s.db = .ok (s'.db, session))
      (hrows : s'.attachments = s.attachments)
  /-- the jobs, the sessions and the attachments stay -/
  | still (hjobs : s'.db.jobs = s.db.jobs) (hstates : s'.db.states = s.db.states)
      (hheads : s'.db.heads = s.db.heads) (hrows : s'.attachments = s.attachments)

theorem insertMessage_frame (row : MessageRow) :
    (s.insertMessage row).db = s.db ∧ (s.insertMessage row).attachments = s.attachments := by
  unfold Store.insertMessage
  split_ifs <;> exact ⟨rfl, rfl⟩

/-- What `erase_session` commits. -/
theorem erase_ok {scope : Scope} {t : Time} {v : Unit} (h : erase scope t s = .ok (s', v)) :
    (Op.eraseSession scope t).attempt s.db = .ok s'.db ∧
      s'.attachments = s.attachments.map (fun r =>
        if r.command ∈ (s.db.jobs.filter (·.within scope)).map Job.id then r.erase else r) ∧
      s'.messages = s.messages.map fun r =>
        if r.scope = some scope then { r with text := "", payload := [], status := .deleted }
        else r := by
  simp only [erase, bind_eq_ok, pure_eq_ok, Prod.mk.injEq] at h
  obtain ⟨⟨db, v'⟩, hdb, rfl, -⟩ := h
  exact ⟨outcome_eq_ok.2 ⟨v', hdb⟩, rfl, rfl⟩

theorem incomingSession_jobs {db db' : Db} {i : Inbound}
    (h : incomingSession i bound recovery u db = .ok (db', session)) : db'.jobs = db.jobs := by
  obtain ⟨b, heads, -, -, -, rfl⟩ := incomingSession_ok h
  rfl

/-- The insertion of a job, on the jobs and the sessions alone. -/
theorem addJob_of {duplicate : String} {db db' : Db} {source : ℕ} (hnone : db.job m.key = none)
    (h : incomingSession (m.incoming none) bound recovery u db = .ok (db', session)) :
    addJob duplicate (m.incoming (some source)) bound recovery u db =
      .ok ({ db' with jobs := db'.jobs ++ [m.job source session] }, true) := by
  have h' : incomingSession (m.incoming (some source)) bound recovery u db = .ok (db', session) := h
  have hnone' : db.job (m.incoming (some source)).command.id = none := hnone
  unfold addJob
  rw [hnone']
  show (incomingSession (m.incoming (some source)) bound recovery u db >>= _) = _
  rw [h']
  rfl

/-- **What a call does to the jobs and to the attachments.** -/
theorem Call.perform_worked (loads : Loads) (c : Call) (s : Store) :
    Worked loads s c (c.perform loads s) := by
  refine commit_of (P := fun s' : Store => Worked loads s c s') (.still rfl rfl rfl rfl)
    fun s' h => ?_
  cases c with
  | ingest x m recovery u =>
    obtain ⟨new, h⟩ := outcome_eq_ok.1 h
    rcases ingest_ok h with
      ⟨-, -, -, rfl, -⟩ | ⟨hnone, rfl, db, session, rows, row, hdb, hrows, hrow, rfl⟩
    · exact .still rfl rfl rfl rfl
    · obtain ⟨b, heads, hb, hadmits, -, -⟩ := incomingSession_admits hdb
      cases hb
      have hframe := insertMessage_frame (s := { s with
        db := db, attachments := s.attachments ++ rows }) m.row
      have hdb' : (s.filed m db rows row.id session).db =
          { db with jobs := db.jobs ++ [m.job row.id session] } :=
        congrArg (fun db : Db => { db with jobs := db.jobs ++ [m.job row.id session] }) hframe.1
      refine .arrived m row.id session rows
        (.ingested x recovery u row rfl ⟨_, h⟩ hadmits hrows hrow rfl) hnone ?_
        ⟨"", .ok none, recovery, u, ?_⟩ hframe.2
      · rw [hdb', incomingSession_jobs hdb]
      · rw [hdb']
        exact addJob_of hnone hdb
  | enqueue x m source recovery u =>
    obtain ⟨new, h⟩ := outcome_eq_ok.1 h
    rcases enqueue_ok h with
      ⟨-, -, rfl, -⟩ | ⟨hnone, rfl, db, session, rows, hdb, hrows, rfl⟩
    · exact .still rfl rfl rfl rfl
    · obtain ⟨b, heads, hb, hadmits, -, -⟩ := incomingSession_admits hdb
      refine .arrived m source session rows (.enqueued x recovery b u rfl ⟨_, h⟩ hb hadmits hrows) hnone ?_
        ⟨"", boundTo m source s, recovery, u, addJob_of hnone hdb⟩ rfl
      exact congrArg (· ++ [m.job source session]) (incomingSession_jobs hdb)
  | record m recovery u =>
    obtain ⟨⟨id, new⟩, h⟩ := outcome_eq_ok.1 h
    rcases record_ok h with ⟨-, -, rfl, -, -⟩ | ⟨-, -, -, db, session, hdb, rfl⟩
    · exact .still rfl rfl rfl rfl
    · have hframe := insertMessage_frame (s := { s with db := db }) m.row
      refine .recorded m recovery u session rfl ?_ hframe.2
      exact hdb.trans (congrArg (fun db => Except.ok (db, session)) hframe.1.symm)
  | recordOutbound platform conversation text id sender =>
    obtain ⟨id', h⟩ := outcome_eq_ok.1 h
    simp only [Intake.recordOutbound, bind_eq_ok, pure_eq_ok, Prod.mk.injEq] at h
    obtain ⟨-, -, rfl, -⟩ := h
    have hframe := insertMessage_frame (s := s)
      { id := 0, platform := platform, key := .external id, conversation := conversation
        sender := sender, text := text, status := .sent }
    exact .still (congrArg Db.jobs hframe.1) (congrArg Db.states hframe.1)
      (congrArg Db.heads hframe.1) hframe.2
  | release interaction =>
    cases h
    exact .settled _ rfl rfl ⟨id, (List.map_id _).symm, fun _ _ => .kept⟩
  | queue env c text context isError receipt event t =>
    obtain ⟨db, key, hdb, rfl⟩ := Call.queue_ok h
    refine .settled _ rfl ?_ ⟨id, (List.map_id _).symm, fun _ _ => .kept⟩
    show db = commit s.db (outcome _)
    rw [hdb]
    rfl
  | claim id t₁ t₂ =>
    cases h
    obtain ⟨hjobs, hstates, hheads⟩ := @claimDelivery_frame s.db id t₁ t₂
    exact .still hjobs hstates hheads rfl
  | finish id sent error =>
    cases h
    show Worked loads s _ (Intake.finish id sent error s)
    unfold Intake.finish
    split
    · exact .still rfl rfl rfl rfl
    · next d hd =>
      split_ifs with hsent
      · have hframe := insertMessage_frame (s := { s with
          db := finishDelivery id .sent error s.db })
          { id := 0, platform := d.platform, key := .outbound id, conversation := d.conversation
            sender := "agent", text := d.text, status := .sent
            filed := some (d.project, d.session, d.sender) }
        exact .still ((congrArg Db.jobs hframe.1).trans rfl) ((congrArg Db.states hframe.1).trans rfl)
          ((congrArg Db.heads hframe.1).trans rfl) hframe.2
      · exact .still rfl rfl rfl rfl
  | cleanup t₀ t₁ t₂ =>
    cases h
    refine .settled _ rfl rfl ⟨_, rfl, fun r _ => ?_⟩
    split_ifs with hexpired
    · simp only [Bool.and_eq_true, decide_eq_true_eq] at hexpired
      exact .expired t₀ t₁ t₂ rfl hexpired.1
    · exact .kept
  | erase scope t =>
    obtain ⟨v, h⟩ := outcome_eq_ok.1 h
    obtain ⟨hdb, hrows, -⟩ := erase_ok h
    refine .settled _ rfl ?_ ⟨_, hrows, fun r _ => ?_⟩
    · show s'.db = commit s.db _
      rw [hdb]
      rfl
    · split_ifs with hkey
      · obtain ⟨j, hj, hid⟩ := List.mem_map.1 hkey
        obtain ⟨hj, hw⟩ := List.mem_filter.1 hj
        exact .erased scope t rfl ⟨j, hj, hw, hid⟩
      · exact .kept
  | job o =>
    cases h
    by_cases ho : o.onJobs = true
    · refine .settled o (if_pos ho) ?_ ⟨id, ?_, fun _ _ => .kept⟩
      · rw [if_pos ho]
      · rw [if_pos ho, List.map_id]
    · rw [if_neg ho]
      exact .still rfl rfl rfl rfl

/-! ### Every database -/

theorem Rewritten.keeps {r r' : MessageRow} (h : Rewritten s c r r') :
    r'.id = r.id ∧ r'.unique = r.unique := by
  cases h <;> exact ⟨rfl, rfl⟩

theorem Messaged.keyed (h : Messaged s c s') (hk : s.Keyed) : s'.Keyed := by
  obtain ⟨f, new, hmessages, hnext, hf, hnew⟩ := h.rows
  have hids : (s.messages.map f).map MessageRow.id = s.messages.map MessageRow.id := by
    rw [List.map_map]
    exact List.map_congr_left fun r hr => (hf r hr).keeps.1
  have hkeys : (s.messages.map f).map MessageRow.unique = s.messages.map MessageRow.unique := by
    rw [List.map_map]
    exact List.map_congr_left fun r hr => (hf r hr).keeps.2
  have hbound : ∀ r ∈ s.messages.map f, r.id < s.nextId := fun r hr => by
    obtain ⟨r₀, hr₀, rfl⟩ := List.mem_map.1 hr
    rw [(hf r₀ hr₀).keeps.1]
    exact hk.bound r₀ hr₀
  have hpositive : ∀ r ∈ s.messages.map f, 0 < r.id := fun r hr => by
    obtain ⟨r₀, hr₀, rfl⟩ := List.mem_map.1 hr
    rw [(hf r₀ hr₀).keeps.1]
    exact hk.positive.2 r₀ hr₀
  rcases hnew with rfl | ⟨r, rfl, -, hid, hfresh⟩
  · rw [List.append_nil] at hmessages
    refine ⟨by rw [hmessages, hids]; exact hk.ids, fun r hr => ?_, ⟨?_, fun r hr => ?_⟩, by
      rw [hmessages, hkeys]; exact hk.keys⟩
    · rw [hmessages] at hr
      rw [hnext]
      exact hbound r hr
    · rw [hnext]
      exact hk.positive.1
    · rw [hmessages] at hr
      exact hpositive r hr
  · refine ⟨?_, fun r' hr' => ?_, ⟨?_, fun r' hr' => ?_⟩, ?_⟩
    · rw [hmessages]
      refine Records.nodup_append (by rw [hids]; exact hk.ids) fun r' hr' => ?_
      have := hbound r' hr'
      omega
    · rw [hmessages] at hr'
      rw [hnext, List.length_singleton]
      rcases List.mem_append.1 hr' with hr' | hr'
      · have := hbound r' hr'
        omega
      · rw [List.mem_singleton.1 hr']
        omega
    · rw [hnext]
      exact Nat.add_pos_left hk.positive.1 _
    · rw [hmessages] at hr'
      rcases List.mem_append.1 hr' with hr' | hr'
      · exact hpositive r' hr'
      · rw [List.mem_singleton.1 hr', hid]
        exact hk.positive.1
    · rw [hmessages]
      refine Records.nodup_append (by rw [hkeys]; exact hk.keys) fun r' hr' => ?_
      obtain ⟨r₀, hr₀, rfl⟩ := List.mem_map.1 hr'
      rw [(hf r₀ hr₀).keeps.2]
      exact hfresh r₀ hr₀

/-- The row of an inbound message after a call. -/
theorem Messaged.inbound (h : Messaged s c s') {platform id : String} {row : MessageRow}
    (hrow : s.inbound platform id = some row) :
    ∃ row', s'.inbound platform id = some row' ∧ Rewritten s c row row' := by
  obtain ⟨f, new, hmessages, -, hf, -⟩ := h.rows
  refine ⟨f row, ?_, hf row (Records.mem_of_find hrow)⟩
  rw [Store.inbound, hmessages]
  refine Records.find_append_of_some ?_
  rw [Records.find_map fun r hr => (hf r hr).keeps.2,
    show Records.find MessageRow.unique _ s.messages = some row from hrow]
  rfl

/-- The row of a message that has arrived. -/
theorem Messaged.inbound_new (h : Messaged s c s') {platform id : String} {row : MessageRow}
    (hnone : s.inbound platform id = none) (hrow : s'.inbound platform id = some row) :
    Inserted s c row := by
  obtain ⟨f, new, hmessages, -, hf, hnew⟩ := h.rows
  rw [Store.inbound, hmessages, Records.find_append, Records.find_map fun r hr => (hf r hr).keeps.2,
    show Records.find MessageRow.unique _ s.messages = none from hnone] at hrow
  rcases hnew with rfl | ⟨r, rfl, hinserted, -⟩
  · cases hrow
  · have hmem : row ∈ [r] := Records.mem_of_find (by simpa using hrow)
    rw [List.mem_singleton.1 hmem]
    exact hinserted

/-- What is filed stays filed. -/
theorem filed_of_incoming {db db' : Db} {i : Inbound} (hf : db.Filed)
    (h : incomingSession i bound recovery u db = .ok (db', session)) : db'.Filed := by
  obtain ⟨b, heads, -, hsession, hheads, rfl⟩ := incomingSession_ok h
  refine ⟨hf.session, fun k s hs => ?_, fun id j hj => ?_⟩
  · rcases hheads k s hs with hs | rfl
    · exact hf.heads k s hs
    · exact hsession ▸ sessionOf_ne hf.heads
  · obtain ⟨l, hl⟩ := Option.isSome_iff_exists.1 (hf.state id j hj)
    exact Option.isSome_iff_exists.2 ⟨l, admitted_of_some hl⟩

theorem filed_of_same {db db' : Db} (hf : db.Filed) (hjobs : db'.jobs = db.jobs)
    (hstates : db'.states = db.states) (hheads : db'.heads = db.heads) : db'.Filed := by
  have hjob : ∀ id, db'.job id = db.job id := fun id => by
    rw [Db.job, hjobs]
    rfl
  refine ⟨fun id j hj => hf.session id j (hjob id ▸ hj), fun k s hs => hf.heads k s (hheads ▸ hs),
    fun id j hj => ?_⟩
  rw [hstates]
  exact hf.state id j (hjob id ▸ hj)

theorem Worked.filed {loads : Loads} (h : Worked loads s c s') (hf : s.db.Filed) : s'.db.Filed := by
  cases h with
  | arrived _ _ _ _ _ _ _ hdb =>
    obtain ⟨duplicate, bound, recovery, u, hdb⟩ := hdb
    exact (addJob_files hf hdb).1
  | settled o _ hdb =>
    rw [hdb]
    exact (o.files hf).1
  | recorded m recovery u session _ hdb => exact filed_of_incoming hf hdb
  | still hjobs hstates hheads => exact filed_of_same hf hjobs hstates hheads

theorem Worked.distinct {loads : Loads} (h : Worked loads s c s')
    (hd : (s.db.jobs.map Job.id).Nodup) : (s'.db.jobs.map Job.id).Nodup := by
  cases h with
  | arrived m source session rows _ hnone hjobs =>
    rw [hjobs]
    refine Records.nodup_append hd fun j hj hid => ?_
    obtain ⟨j', hj'⟩ := Records.find_isSome Job.id hj
    rw [hid] at hj'
    exact absurd (hnone.symm.trans hj') nofun
  | settled o _ hdb =>
    rw [hdb]
    exact o.distinct hd
  | recorded m recovery u session _ hdb =>
    rw [incomingSession_jobs hdb]
    exact hd
  | still hjobs =>
    rw [hjobs]
    exact hd

theorem Worked.advances {loads : Loads} (h : Worked loads s c s') :
    Advances s.db.states s'.db.states := by
  cases h with
  | arrived _ _ _ _ _ _ _ hdb =>
    obtain ⟨duplicate, bound, recovery, u, hdb⟩ := hdb
    exact addJob_advances hdb
  | settled o _ hdb =>
    rw [hdb]
    exact o.advances s.db
  | recorded m recovery u session _ hdb =>
    obtain ⟨b, heads, -, -, -, hdb⟩ := incomingSession_ok hdb
    rw [hdb]
    exact fun scope l hl => ⟨l, admitted_of_some hl, le_rfl⟩
  | still _ hstates =>
    rw [hstates]
    exact .refl _

/-- A job after a call: it stays, or it shifts as the operation on the jobs shifts it. -/
theorem Worked.job {loads : Loads} (h : Worked loads s c s') {id : CommandId} {j : Job}
    (hj : s.db.job id = some j) : ∃ j', s'.db.job id = some j' ∧
      (j' = j ∨ ∃ o, c.op loads s = some o ∧ Shift (s.db.lifecycle j.command) o j j') := by
  cases h with
  | arrived _ _ _ _ _ _ hjobs =>
    refine ⟨j, ?_, .inl rfl⟩
    rw [Db.job, hjobs]
    exact Records.find_append_of_some hj
  | settled o ho hdb =>
    obtain ⟨j', hj', hs⟩ := o.shift s.db id j hj
    exact ⟨j', by rw [hdb, hj'], .inr ⟨o, ho, hs⟩⟩
  | recorded m recovery u session _ hdb =>
    exact ⟨j, by rw [Db.job, incomingSession_jobs hdb]; exact hj, .inl rfl⟩
  | still hjobs => exact ⟨j, by rw [Db.job, hjobs]; exact hj, .inl rfl⟩

theorem Trimmed.keeps {r r' : AttachmentRow} (h : Trimmed s c r r') :
    r'.command = r.command ∧ r'.ordinal = r.ordinal ∧ r'.owner = r.owner ∧
      (r.size = r.data.length → r'.size = r'.data.length) := by
  cases h with
  | kept => exact ⟨rfl, rfl, rfl, fun h => h⟩
  | expired => exact ⟨rfl, rfl, rfl, fun _ => rfl⟩
  | erased => exact ⟨rfl, rfl, rfl, fun _ => rfl⟩

theorem Arrives.attached {source : ℕ} {session : String} {rows : List AttachmentRow}
    (h : Arrives s c m source session rows) : ∃ x, Attached x m s rows := by
  cases h with
  | ingested x _ _ _ _ _ _ hrows => exact ⟨x, hrows⟩
  | enqueued x _ _ _ _ _ _ _ hrows => exact ⟨x, hrows⟩

/-- A job keeps its owner and its session. -/
theorem Worked.kept {loads : Loads} (h : Worked loads s c s') {id : CommandId} {j : Job}
    (hj : s.db.job id = some j) :
    ∃ j', s'.db.job id = some j' ∧ attachmentOwner j'.command = attachmentOwner j.command ∧
      j'.command.session = j.command.session ∧ j'.command.source = j.command.source := by
  obtain ⟨j', hj', rfl | ⟨o, -, hs⟩⟩ := h.job hj
  · exact ⟨j', hj', rfl, rfl, rfl⟩
  · refine ⟨j', hj', ?_⟩
    cases hs <;> exact ⟨rfl, rfl, rfl⟩

/-- The job that is added under a new key. -/
theorem job_append {db db' : Db} {j : Job} (hnone : db.job j.id = none)
    (hjobs : db'.jobs = db.jobs ++ [j]) : db'.job j.id = some j := by
  rw [Db.job, hjobs]
  refine Records.find_append_new fun j₀ hj₀ hid => ?_
  obtain ⟨j', hj'⟩ := Records.find_isSome Job.id hj₀
  rw [hid] at hj'
  cases hnone.symm.trans hj'

/-- The operation of a call that is not a message adds no job. -/
theorem op_adds {loads : Loads} {o : Op} (h : c.op loads s = some o) : o.adds = false := by
  cases c with
  | job o' =>
    simp only [Call.op] at h
    split_ifs at h with ho
    cases h
    cases o <;> first | rfl | cases ho
  | release | queue | cleanup | erase =>
    cases h
    rfl
  | ingest | record | enqueue | recordOutbound | claim | finish => cases h

/-- A new job is the job of a message. -/
theorem Worked.job_new {loads : Loads} (h : Worked loads s c s') {id : CommandId} {j : Job}
    (hnone : s.db.job id = none)
    (hj : s'.db.job id = some j) : ∃ m source session rows, Arrives s c m source session rows ∧
      s.db.job m.key = none ∧ m.key = id ∧ j = m.job source session ∧
      s'.attachments = s.attachments ++ rows := by
  cases h with
  | arrived m source session rows harrives hnone' hjobs _ hrows =>
    rw [Db.job, hjobs, Records.find_append,
      show Records.find Job.id id s.db.jobs = none from hnone, Option.none_or] at hj
    have hmem : j ∈ [m.job source session] := Records.mem_of_find hj
    obtain rfl := List.mem_singleton.1 hmem
    have hkey : (m.job source session).id = id := Records.key_of_find hj
    exact ⟨m, source, session, rows, harrives, hnone', hkey, rfl, hrows⟩
  | settled o ho hdb =>
    rcases o.adds_or_inPlace s.db with ⟨hadds, -⟩ | hplace
    · exact absurd (op_adds ho) (by rw [hadds]; intro h; cases h)
    · rw [hdb] at hj
      cases (hplace.job_none hnone).symm.trans hj
  | recorded m recovery u session _ hdb =>
    rw [Db.job, incomingSession_jobs hdb] at hj
    cases hnone.symm.trans hj
  | still hjobs =>
    rw [Db.job, hjobs] at hj
    cases hnone.symm.trans hj

/-- The keys are unique, and every job is filed. -/
structure Store.Wf (s : Store) : Prop where
  /-- the messages -/
  keyed : s.Keyed
  /-- the jobs -/
  distinct : (s.db.jobs.map Job.id).Nodup
  /-- their sessions -/
  filed : s.db.Filed

theorem Store.Wf.empty : Store.empty.Wf :=
  ⟨⟨List.nodup_nil, nofun, ⟨Nat.one_pos, nofun⟩, List.nodup_nil⟩, List.nodup_nil,
    ⟨fun _ _ hj => (nomatch hj), fun _ _ hs => (nomatch hs), fun _ _ hj => (nomatch hj)⟩⟩

theorem Store.Wf.perform (hw : s.Wf) (loads : Loads) (c : Call) : (c.perform loads s).Wf := by
  have hworked := c.perform_worked loads s
  exact ⟨(c.perform_messages loads hw.keyed).keyed hw.keyed, hworked.distinct hw.distinct,
    hworked.filed hw.filed⟩

end

end Intake

end Communication

end PythonAI
