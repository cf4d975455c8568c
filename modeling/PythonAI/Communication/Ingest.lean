import PythonAI.Communication.Rows

/-!
# A platform event becomes one command

A call of `ingest_inbound_message` is a transaction, and then a reading of the command with its
attachments, which may raise.  Any number of threads make such calls, one step at a time, beside
any other calls of the store.

* `readBack` : the reading after the transaction;
* `Intake.Host.Sound` : a reading finds the conversation as the transaction left it, an event that is
  recorded keeps its session, and a command is queued for its own event;
* `Intake.Host.ingested_once` : **an event has one message, one job and one set of attachments, is
  reported as new once, and a call that raises changes nothing**, in every run of sound steps;
* `Intake.Host.raised_late` : a cancellation in a conversation that is being deleted is stored, and
  the call raises.
-/

namespace PythonAI

open Library

namespace Communication

namespace Intake

/-- `command_by_id` with the attachments, as `ingest_inbound_message` ends with it. -/
def readBack (m : Message) (t : ℕ → Time) (s : Store) : Except Error (List Attachment) := do
  let job ← require (s.db.job m.key) (.missing m.key)
  loadAttachments m.key job.command t s

/-- The numbers of the attachments of a command. -/
def Store.parts (s : Store) (id : CommandId) : List ℕ :=
  (s.attachments.filter (·.command = id)).map AttachmentRow.ordinal

/-- The attachments of a command. -/
def Store.files (s : Store) (id : CommandId) : List Attachment :=
  (s.attachments.filter (·.command = id)).map fun r => ⟨r.filename, r.mime, r.data, r.fileId⟩

/-- The call leaves an event that is recorded, and has no job, in its session; a job is added for the
event of its own message row. -/
def Proper (s : Store) : Call → Prop
  | .ingest x m recovery u => ∀ s', Intake.ingest x m recovery u s = .ok (s', true) →
      ∀ row, s.inbound m.platform m.id = some row →
        row.filed = some (m.project, sessionOf (m.incoming none) none recovery u s.db, m.sender)
  | .enqueue x m source recovery u =>
    ∀ s', Intake.enqueue x m source recovery u s = .ok (s', true) →
      ∃ row, s.inbound m.platform m.id = some row ∧ row.id = source
  | _ => True

/-- The database, and the threads that have stored a message and read it back. -/
structure Host where
  /-- the database -/
  store : Store
  /-- the message that a thread has stored -/
  calls : ℕ → Option Message
  /-- the commands that were reported as new -/
  news : List CommandId

/-- A step. -/
inductive Act
  /-- anybody calls another operation -/
  | call (c : Call)
  /-- the transaction of `ingest_inbound_message`, in the thread `k` -/
  | ingest (k : ℕ) (x : Saving) (m : Message) (recovery : Option String) (u : String)
  /-- the thread `k` reads the command back -/
  | read (k : ℕ) (t : ℕ → Time)
  /-- the process of the thread `k` dies -/
  | crash (k : ℕ)

namespace Host

variable (loads : Loads)

/-- What the call of `ingest_inbound_message` returns in a step, if it returns or raises. -/
def result (h : Host) : Act → Option (Except Error Bool)
  | .ingest _ x m recovery u =>
    match Intake.ingest x m recovery u h.store with
    | .ok (_, true) => none
    | .ok (_, false) => some (.ok false)
    | .error e => some (.error e)
  | .read k t =>
    (h.calls k).map fun m =>
      match readBack m t h.store with
      | .ok _ => .ok true
      | .error e => .error e
  | _ => none

/-- The message that a step stores. -/
def stores (h : Host) : Act → Option (ℕ × Message)
  | .ingest k x m recovery u =>
    match Intake.ingest x m recovery u h.store with
    | .ok (_, true) => some (k, m)
    | _ => none
  | _ => none

/-- The threads after a step. -/
def callsAfter (h : Host) (a : Act) : ℕ → Option Message :=
  match a with
  | .read k _ | .crash k => Function.update h.calls k none
  | a =>
    match h.stores a with
    | some (k, m) => Function.update h.calls k (some m)
    | none => h.calls

/-- The database after a step. -/
def storeAfter (h : Host) : Act → Store
  | .call c => c.perform loads h.store
  | .ingest _ x m recovery u => (Call.ingest x m recovery u).perform loads h.store
  | _ => h.store

/-- The command that a step reports as new. -/
def reports (h : Host) : Act → Option CommandId
  | .read k t => (h.calls k).bind fun m =>
      match readBack m t h.store with
      | .ok _ => some m.key
      | .error _ => none
  | _ => none

/-- The step can be taken: a message is stored by a thread that is outside, and through `ingest`. -/
def takes (h : Host) : Act → Bool
  | .call (.ingest ..) => false
  | .ingest k .. => (h.calls k).isNone
  | _ => true

/-- One step at a time. -/
def lts : Lts Host Act where
  step h a h' := h.takes a = true ∧
    h' = ⟨h.storeAfter loads a, h.callsAfter a, h.news ++ (h.reports a).toList⟩

/-- New tables, and no call. -/
structure Initial (h : Host) : Prop where
  /-- the database -/
  store : h.store = .empty
  /-- the threads -/
  calls : ∀ k, h.calls k = none
  /-- nothing was reported -/
  news : h.news = []

/-! ### Sound steps -/

/-- The attachments of a command can be read: they have not expired, and no expiry has emptied
them. -/
def Fresh (s : Store) (id : CommandId) (t : ℕ → Time) : Prop :=
  ∀ x ∈ (s.attachments.filter (·.command = id)).zipIdx,
    t x.2 < x.1.expires ∧ x.1.digest = some x.1.data

/-- The command of a message that was stored can be read back: its conversation is active and its
attachments are there, or it is a control command of a deletion. -/
def Readable (s : Store) (m : Message) (t : ℕ → Time) : Prop :=
  ∀ j, s.db.job m.key = some j →
    s.db.lifecycle j.command = .active ∧ Fresh s m.key t ∨
      s.db.lifecycle j.command ≠ .active ∧ cleanupControl j.command.text = true

/-- The step leaves an event in the session that it was recorded in, and finds a command that was
stored as it was stored. -/
def Sound (h : Host) : Act → Prop
  | .ingest _ x m recovery u => Proper h.store (.ingest x m recovery u)
  | .call c => Proper h.store c
  | .read k t => ∀ m, h.calls k = some m → Readable h.store m t
  | .crash _ => True

end Host

/-! ### What every call keeps -/

section

variable {loads : Loads} {s s' : Store} {c : Call} {m : Message} {id : CommandId} {j : Job}

/-- The attachments of the commands are numbered, and belong to a job. -/
structure Filled (s : Store) : Prop where
  /-- the sizes -/
  sized : ∀ r ∈ s.attachments, r.size = r.data.length
  /-- the jobs -/
  owned : ∀ r ∈ s.attachments, ∃ j, s.db.job r.command = some j ∧
    r.owner = attachmentOwner j.command
  /-- the numbers -/
  parts : ∀ id, ∃ n, s.parts id = List.range' 0 n

/-- The numbers do not change in place. -/
theorem parts_map {f : AttachmentRow → AttachmentRow} (hs : s'.attachments = s.attachments.map f)
    (hf : ∀ r ∈ s.attachments, Trimmed s c r (f r)) (id : CommandId) : s'.parts id = s.parts id := by
  have hmap : ∀ rows : List AttachmentRow, (∀ r ∈ rows, Trimmed s c r (f r)) →
      ((rows.map f).filter (·.command = id)).map AttachmentRow.ordinal =
        (rows.filter (·.command = id)).map AttachmentRow.ordinal := fun rows => by
    induction rows with
    | nil => exact fun _ => rfl
    | cons r rows ih =>
      intro hrows
      have hr := (hrows r List.mem_cons_self).keeps
      have ih := ih fun r' hr' => hrows r' (List.mem_cons_of_mem _ hr')
      by_cases hid : r.command = id
      · simp [hr.1, hid, hr.2.1, ih]
      · simp [hr.1, hid, ih]
  rw [Store.parts, hs]
  exact hmap s.attachments hf

theorem parts_append {rows : List AttachmentRow} (hs : s'.attachments = s.attachments ++ rows)
    (id : CommandId) : s'.parts id =
      s.parts id ++ (rows.filter (·.command = id)).map AttachmentRow.ordinal := by
  rw [Store.parts, hs, List.filter_append, List.map_append]
  rfl

/-- The rows that a message adds, where no job has its key. -/
theorem Filled.attached {x : Saving} {rows : List AttachmentRow} (hf : Filled s)
    (hnone : s.db.job m.key = none) (h : Attached x m s rows) :
    (∀ r ∈ s.attachments, r.command ≠ m.key) ∧ attachmentRows x m 0 m.attachments = .ok rows := by
  rcases h with ⟨⟨r, hr, hkey⟩, -⟩ | h
  · obtain ⟨j, hj, -⟩ := hf.owned r hr
    rw [hkey] at hj
    exact absurd (hnone.symm.trans hj) nofun
  · exact h

theorem Filled.worked (hf : Filled s) (h : Worked loads s c s') : Filled s' := by
  have hjob : ∀ r : AttachmentRow, (∃ j, s.db.job r.command = some j ∧
      r.owner = attachmentOwner j.command) → ∃ j, s'.db.job r.command = some j ∧
        r.owner = attachmentOwner j.command := fun r ⟨j, hj, howner⟩ => by
    obtain ⟨j', hj', howner', -⟩ := h.kept hj
    exact ⟨j', hj', howner.trans howner'.symm⟩
  have hsame : s'.attachments = s.attachments → Filled s' := fun heq =>
    ⟨fun r hr => hf.sized r (heq ▸ hr), fun r hr => hjob r (hf.owned r (heq ▸ hr)), fun id => by
      obtain ⟨n, hn⟩ := hf.parts id
      exact ⟨n, by rw [Store.parts, heq]; exact hn⟩⟩
  cases h with
  | arrived m source session rows harrives hnone hjobs _ hrows =>
    obtain ⟨x, hattached⟩ := harrives.attached
    obtain ⟨hfree, hnew⟩ := hf.attached hnone hattached
    obtain ⟨hordinals, -, hcommands⟩ := attachmentRows_ok hnew
    have hown := attachmentRows_sized hnew
    have hmine : s'.db.job m.key = some (m.job source session) :=
      job_append (j := m.job source session) hnone hjobs
    refine ⟨fun r hr => ?_, fun r hr => ?_, fun id => ?_⟩
    · rw [hrows] at hr
      rcases List.mem_append.1 hr with hr | hr
      · exact hf.sized r hr
      · exact (hown r hr).1
    · rw [hrows] at hr
      rcases List.mem_append.1 hr with hr | hr
      · exact hjob r (hf.owned r hr)
      · exact ⟨_, (hcommands r hr).symm ▸ hmine, (hown r hr).2⟩
    · rw [parts_append hrows]
      by_cases hid : id = m.key
      · subst hid
        refine ⟨m.attachments.length, ?_⟩
        have hold : s.parts m.key = [] := by
          rw [Store.parts, List.filter_eq_nil_iff.2 fun r hr => by simpa using hfree r hr]
          rfl
        rw [hold, List.nil_append, List.filter_eq_self.2 fun r hr => by simpa using hcommands r hr,
          hordinals]
      · obtain ⟨n, hn⟩ := hf.parts id
        refine ⟨n, ?_⟩
        rw [List.filter_eq_nil_iff.2 fun r hr => by
          simpa [hcommands r hr] using Ne.symm hid, List.map_nil, List.append_nil, hn]
  | settled o ho hdb hrows =>
    obtain ⟨f, heq, htrims⟩ := hrows
    refine ⟨fun r hr => ?_, fun r hr => ?_, fun id => ?_⟩
    · rw [heq] at hr
      obtain ⟨r₀, hr₀, rfl⟩ := List.mem_map.1 hr
      exact (htrims r₀ hr₀).keeps.2.2.2 (hf.sized r₀ hr₀)
    · rw [heq] at hr
      obtain ⟨r₀, hr₀, rfl⟩ := List.mem_map.1 hr
      obtain ⟨hcommand, -, howner, -⟩ := (htrims r₀ hr₀).keeps
      rw [hcommand, howner]
      exact hjob r₀ (hf.owned r₀ hr₀)
    · obtain ⟨n, hn⟩ := hf.parts id
      exact ⟨n, (parts_map heq htrims id).trans hn⟩
  | recorded _ _ _ _ _ _ hrows => exact hsame hrows
  | still _ _ _ hrows => exact hsame hrows

/-- The message rows are filed under their sender, and with the session of their job. -/
structure Matched (s : Store) : Prop where
  /-- the messages -/
  rows : ∀ platform id row, s.inbound platform id = some row →
    ∃ project session, row.filed = some (project, session, row.sender) ∧ session ≠ ""
  /-- the jobs -/
  jobs : ∀ (m : Message) j, s.db.job m.key = some j → j.command.platform = m.platform →
    ∃ row, s.inbound m.platform m.id = some row ∧
      row.filed = some (j.command.project, j.command.session, j.command.sender)

/-- Two events of a platform with one key are one event. -/
theorem key_inj {m' : Message} (hp : m'.platform = m.platform) (hk : m'.key = m.key) :
    m'.id = m.id := by
  have h := congrArg String.toList hk
  simp only [Message.key, String.toList_append, hp, List.append_assoc] at h
  exact String.toList_injective (List.append_cancel_left (List.append_cancel_left h))

/-- The row of a message that is stored. -/
theorem filed_inbound {db : Db} {rows : List AttachmentRow} {row : MessageRow} {session : String}
    (hrow : (s.insertMessage m.row).inbound m.platform m.id = some row) :
    (s.filed m db rows row.id session).inbound m.platform m.id =
      some { row with filed := some (m.project, session, m.sender) } := by
  have hmessages : (s.filed m db rows row.id session).messages =
      (s.insertMessage m.row).messages.map fun r : MessageRow =>
        if r.id = row.id then { r with filed := some (m.project, session, m.sender) } else r := by
    rw [← (insertMessage_congr (s := s) db (s.attachments ++ rows) m.row).1]
    rfl
  rw [Store.inbound, hmessages, Records.find_map fun r _ => by split_ifs <;> rfl,
    show Records.find MessageRow.unique _ (s.insertMessage m.row).messages = some row from hrow,
    Option.map_some, if_pos rfl]

/-- A row that a proper call rewrites stays filed as it was. -/
theorem rewritten_filed (hp : Proper s c) {row row' : MessageRow} {platform id : String}
    (hrow : s.inbound platform id = some row) (h : Rewritten s c row row') :
    row'.filed = row.filed ∧ row'.id = row.id ∧ row'.sender = row.sender := by
  cases h with
  | kept => exact ⟨rfl, rfl, rfl⟩
  | blanked => exact ⟨rfl, rfl, rfl⟩
  | refiled x m recovery u session hc hkey hnone hok hadmits =>
    subst hc
    obtain ⟨s', hok⟩ := hok
    have hunique : row.unique = (platform, .inbound id) := Records.key_of_find hrow
    rw [hkey] at hunique
    cases hunique
    exact ⟨by rw [hp s' hok row hrow, hadmits.named], rfl, rfl⟩

/-- The session of the message row `source`, which is the row of the event. -/
theorem boundTo_row (hk : s.Keyed) (hm : Matched s) {row : MessageRow} {bound : Option String}
    (hrow : s.inbound m.platform m.id = some row) (h : boundTo m row.id s = .ok bound) :
    ∃ session, bound = some session ∧ session ≠ "" ∧
      row.filed = some (m.project, session, m.sender) := by
  have hmem : row ∈ s.messages := Records.mem_of_find hrow
  unfold boundTo at h
  rw [if_neg (hk.positive.2 row hmem).ne'] at h
  split at h
  · next r hr =>
    have hp := List.find?_some hr
    simp only [Bool.and_eq_true, decide_eq_true_eq] at hp
    obtain rfl : r = row :=
      List.inj_on_of_nodup_map hk.ids (List.mem_of_find?_eq_some hr) hmem hp.1.1.1.1
    obtain ⟨project, session, hfiled, hne⟩ := hm.rows _ _ _ hrow
    simp only [Except.ok.injEq] at h
    rw [hfiled] at h hp
    have hproject : project = m.project := by simpa using hp.1.2
    refine ⟨session, h.symm, hne, ?_⟩
    rw [hfiled, hproject, hp.1.1.2]
  · cases h

/-- **A proper call keeps the messages and the jobs matched.** -/
theorem Matched.perform (hw : s.Wf) (hm : Matched s) (hp : Proper s c) :
    Matched (c.perform loads s) := by
  have hmessaged := c.perform_messages loads hw.keyed
  have hworked := c.perform_worked loads s
  refine ⟨fun platform id row' hrow' => ?_, fun m j' hj' hplatform => ?_⟩
  · cases hrow : s.inbound platform id with
    | some row =>
      obtain ⟨row'', hrow'', hr⟩ := hmessaged.inbound hrow
      obtain rfl : row' = row'' := Option.some.inj (hrow'.symm.trans hrow'')
      obtain ⟨hfiled, -, hsender⟩ := rewritten_filed hp hrow hr
      rw [hfiled, hsender]
      exact hm.rows platform id row hrow
    | none =>
      have hkey : row'.key = .inbound id := congrArg Prod.snd (Records.key_of_find hrow')
      cases hmessaged.inbound_new hrow hrow' with
      | message m recovery u session hc hadmits =>
        exact ⟨m.project, session, rfl, hadmits.named ▸ sessionOf_ne hw.filed.heads⟩
      | delivery => cases hkey
      | external => cases hkey
  · cases hj : s.db.job m.key with
    | some j =>
      obtain ⟨j'', hj'', howner, hsession, -⟩ := hworked.kept hj
      obtain rfl : j' = j'' := Option.some.inj (hj'.symm.trans hj'')
      simp only [attachmentOwner, Prod.mk.injEq] at howner
      obtain ⟨hp₁, hp₂, -, hp₄⟩ := howner
      obtain ⟨row, hrow, hfiled⟩ := hm.jobs m j hj (hp₁.symm.trans hplatform)
      obtain ⟨row', hrow', hr⟩ := hmessaged.inbound hrow
      exact ⟨row', hrow', by rw [(rewritten_filed hp hrow hr).1, hfiled, hp₂, hp₄, hsession]⟩
    | none =>
      obtain ⟨m₁, source, session, rows, harrives, hnone, hkey, rfl, -⟩ := hworked.job_new hj hj'
      have hplatform : m₁.platform = m.platform := hplatform
      have hid := key_inj hplatform hkey
      rw [← hplatform, ← hid]
      cases harrives with
      | ingested x recovery u row hc hok hadmits =>
        subst hc
        obtain ⟨s', hok⟩ := hok
        have hs : (Call.ingest x m₁ recovery u).perform loads s = s' := by
          show commit s (outcome (ingest x m₁ recovery u s)) = s'
          rw [hok]
          rfl
        rcases ingest_ok hok with ⟨-, -, -, -, hfalse⟩ | ⟨-, -, db, session', rows', row', hdb, -, hrow', rfl⟩
        · cases hfalse
        obtain ⟨b, heads, hb, hadmits', -⟩ := incomingSession_admits hdb
        cases hb
        rw [hs]
        refine ⟨_, filed_inbound hrow', ?_⟩
        rw [hadmits'.named, hadmits.named]
        rfl
      | enqueued x recovery bound u hc hok hbound hadmits hrows =>
        subst hc
        obtain ⟨s', hok⟩ := hok
        obtain ⟨row, hrow, rfl⟩ := hp s' hok
        obtain ⟨session', rfl, hne, hfiled⟩ := boundTo_row hw.keyed hm hrow hbound
        obtain ⟨row', hrow', hr⟩ := hmessaged.inbound hrow
        refine ⟨row', hrow', ?_⟩
        have hsession : session = session' := by
          have hkeep : (some session').filter (· ≠ "") = some session' := by
            simp [Option.filter, hne]
          rw [hadmits.named]
          simp only [sessionOf, hkeep]
        rw [(rewritten_filed hp hrow hr).1, hfiled, hsession]
        rfl

/-! ### The reading after the transaction -/

theorem mapM_ok {α β : Type} {f : α → Except Error β} {l : List α}
    (h : ∀ x ∈ l, ∃ b, f x = .ok b) : ∃ bs, l.mapM f = .ok bs := by
  induction l with
  | nil => exact ⟨[], rfl⟩
  | cons x l ih =>
    obtain ⟨b, hb⟩ := h x List.mem_cons_self
    obtain ⟨bs, hbs⟩ := ih fun y hy => h y (List.mem_cons_of_mem _ hy)
    refine ⟨b :: bs, ?_⟩
    rw [List.mapM_cons, hb]
    show (List.mapM f l >>= _) = _
    rw [hbs]
    rfl

/-- A command that is readable is read. -/
theorem readBack_ok (hf : Filled s) {t : ℕ → Time} (hj : s.db.job m.key = some j)
    (hr : Host.Readable s m t) : ∃ files, readBack m t s = .ok files := by
  have hreads : readBack m t s = loadAttachments m.key j.command t s := by
    rw [readBack, hj]
    rfl
  have hloads : loadAttachments m.key j.command t s =
      if s.db.lifecycle j.command ≠ .active then
        (ensure (cleanupControl j.command.text)
          (.permission "Attachments were deleted with the conversation") >>= fun _ => pure [])
      else (s.attachments.filter fun r =>
          r.command = m.key && r.owner = attachmentOwner j.command).zipIdx.mapM
        (loadAttachment t) := by
    have hown : (some j).filter (fun j' => attachmentOwner j.command = attachmentOwner j'.command) =
        some j := Option.filter_eq_some_iff.2 ⟨rfl, decide_eq_true rfl⟩
    rw [loadAttachments, hj, hown]
    show (ensure _ _ >>= _) = _
    rw [decide_eq_true (rfl : j.command.session = j.command.session), Bool.or_true, ensure_true]
    rfl
  rw [hreads, hloads]
  rcases hr j hj with ⟨hl, hfresh⟩ | ⟨hl, hcontrol⟩
  · rw [if_neg (by simpa using hl)]
    have hrows : (s.attachments.filter fun r =>
        r.command = m.key && r.owner = attachmentOwner j.command) =
          s.attachments.filter (·.command = m.key) := by
      refine List.filter_congr fun r hr => ?_
      by_cases hkey : r.command = m.key
      · obtain ⟨j', hj', howner⟩ := hf.owned r hr
        rw [hkey, hj] at hj'
        cases hj'
        simp [hkey, howner]
      · simp [hkey]
    rw [hrows]
    refine mapM_ok fun x hx => ?_
    obtain ⟨ht, hdigest⟩ := hfresh x hx
    have hmem : x.1 ∈ s.attachments :=
      (List.mem_filter.1 (List.fst_mem_of_mem_zipIdx hx)).1
    refine ⟨⟨x.1.filename, x.1.mime, x.1.data, x.1.fileId⟩, ?_⟩
    rw [loadAttachment, decide_eq_true ht, hf.sized x.1 hmem, hdigest]
    simp only [decide_true, Bool.and_self, ensure_true]
    rfl
  · rw [if_pos hl, hcontrol]
    exact ⟨[], rfl⟩

end

/-! ### Every sound run -/

namespace Host

variable {loads : Loads} {h h' : Host} {a : Act}

/-- The call of a step. -/
def call : Act → Option Call
  | .call c => some c
  | .ingest _ x m recovery u => some (.ingest x m recovery u)
  | _ => none

theorem storeAfter_eq (loads : Loads) (h : Host) (a : Act) : h.storeAfter loads a = h.store ∧ call a = none ∨
    ∃ c, call a = some c ∧ h.storeAfter loads a = c.perform loads h.store := by
  cases a with
  | call c => exact .inr ⟨c, rfl, rfl⟩
  | ingest k x m recovery u => exact .inr ⟨_, rfl, rfl⟩
  | read | crash => exact .inl ⟨rfl, rfl⟩

/-- A step that stores a message. -/
theorem stores_ok {k : ℕ} {m : Message} (hs : h.stores a = some (k, m)) :
    ∃ x recovery u s, a = .ingest k x m recovery u ∧
      ingest x m recovery u h.store = .ok (s, true) := by
  cases a with
  | ingest k' x m' recovery u =>
    simp only [stores] at hs
    split at hs
    · next s hok =>
      cases hs
      exact ⟨x, recovery, u, s, rfl, hok⟩
    · cases hs
  | call | read | crash => cases hs

/-- A thread after a step. -/
theorem calls_step (hst : (lts loads).step h a h') {k : ℕ} {m : Message}
    (hk : h'.calls k = some m) :
    (h.calls k = some m ∧ (∀ t, a ≠ .read k t)) ∨ h.stores a = some (k, m) := by
  obtain ⟨-, rfl⟩ := hst
  have hupdate : ∀ k', Function.update h.calls k' none k = some m → k' ≠ k ∧ h.calls k = some m :=
    fun k' hu => by
      rw [Function.update_apply] at hu
      split_ifs at hu with hk'
      exact ⟨Ne.symm hk', hu⟩
  have hstored : (match h.stores a with
      | some (k', m') => Function.update h.calls k' (some m')
      | none => h.calls) k = some m → h.calls k = some m ∨ h.stores a = some (k, m) := fun hu => by
    cases hs : h.stores a with
    | none =>
      rw [hs] at hu
      exact .inl hu
    | some x =>
      simp only [hs, Function.update_apply] at hu
      split_ifs at hu with hk'
      · cases hu
        exact .inr (by rw [hk'])
      · exact .inl hu
  cases a with
  | read k' t =>
    obtain ⟨hne, hk⟩ := hupdate k' hk
    exact .inl ⟨hk, fun t' ht => by cases ht; exact hne rfl⟩
  | crash k' => exact .inl ⟨(hupdate k' hk).2, nofun⟩
  | call c => exact (hstored hk).imp (fun hk => ⟨hk, nofun⟩) id
  | ingest k' x m' recovery u => exact (hstored hk).imp (fun hk => ⟨hk, nofun⟩) id

/-- What holds in every sound run. -/
structure Inv (h : Host) : Prop where
  /-- the keys -/
  wf : h.store.Wf
  /-- the attachments -/
  filled : Filled h.store
  /-- the messages -/
  matched : Matched h.store
  /-- a message that is read back has a job, and was not reported -/
  calls : ∀ k m, h.calls k = some m → (h.store.db.job m.key).isSome ∧ m.key ∉ h.news
  /-- by one thread -/
  alone : ∀ k k' m m', h.calls k = some m → h.calls k' = some m' → m.key = m'.key → k = k'
  /-- what was reported has a job -/
  news : ∀ id ∈ h.news, (h.store.db.job id).isSome

theorem Initial.inv (hi : h.Initial) : h.Inv := by
  have hjob : ∀ id, h.store.db.job id = none := fun id => by
    rw [hi.store]
    rfl
  refine ⟨by rw [hi.store]; exact .empty, ?_, ⟨fun p id row hrow => ?_, fun m j hj => ?_⟩,
    fun k m hk => ?_, fun k k' m m' hk => ?_, fun id hid => ?_⟩
  · rw [hi.store]
    exact ⟨nofun, nofun, fun id => ⟨0, rfl⟩⟩
  · rw [hi.store] at hrow
    cases hrow
  · rw [hjob] at hj
    cases hj
  · rw [hi.calls] at hk
    cases hk
  · rw [hi.calls] at hk
    cases hk
  · rw [hi.news] at hid
    cases hid

/-- A job stays. -/
theorem job_step (hst : (lts loads).step h a h') {id : CommandId} {j : Job}
    (hj : h.store.db.job id = some j) :
    ∃ j', h'.store.db.job id = some j' ∧ attachmentOwner j'.command = attachmentOwner j.command ∧
      j'.command.session = j.command.session ∧ j'.command.source = j.command.source := by
  obtain ⟨-, rfl⟩ := hst
  rcases storeAfter_eq loads h a with ⟨heq, -⟩ | ⟨c, -, heq⟩
  · rw [heq]
    exact ⟨j, hj, rfl, rfl, rfl⟩
  · rw [heq]
    exact (c.perform_worked loads h.store).kept hj

theorem isSome_step (hst : (lts loads).step h a h') {id : CommandId}
    (hj : (h.store.db.job id).isSome) : (h'.store.db.job id).isSome := by
  obtain ⟨j, hj⟩ := Option.isSome_iff_exists.1 hj
  obtain ⟨j', hj', -⟩ := job_step hst hj
  exact Option.isSome_iff_exists.2 ⟨j', hj'⟩

/-- What a step reports as new is the message that its thread has stored. -/
theorem reports_eq {id : CommandId} (hr : h.reports a = some id) :
    ∃ k t m, a = .read k t ∧ h.calls k = some m ∧ m.key = id := by
  cases a with
  | read k t =>
    obtain ⟨m, hm, hread⟩ := Option.bind_eq_some_iff.1 hr
    split at hread
    · cases hread
      exact ⟨k, t, m, rfl, hm, rfl⟩
    · cases hread
  | call | ingest | crash => cases hr

theorem news_step (hst : (lts loads).step h a h') {id : CommandId} (hid : id ∈ h'.news) :
    id ∈ h.news ∨ h.reports a = some id := by
  obtain ⟨-, rfl⟩ := hst
  rcases List.mem_append.1 hid with hid | hid
  · exact .inl hid
  · exact .inr (Option.mem_toList.1 hid)

/-- A message that is stored had no job, was not reported, and is not read back by a thread. -/
theorem Inv.fresh (hi : h.Inv) {k : ℕ} {m : Message} (hs : h.stores a = some (k, m)) :
    h.store.db.job m.key = none ∧ m.key ∉ h.news ∧
      ∀ k' m', h.calls k' = some m' → m'.key ≠ m.key := by
  obtain ⟨x, recovery, u, s, -, hok⟩ := stores_ok hs
  have hnone : h.store.db.job m.key = none := by
    rcases ingest_ok hok with ⟨-, -, -, -, hfalse⟩ | ⟨hnone, -⟩
    · cases hfalse
    · exact hnone
  refine ⟨hnone, fun hmem => ?_, fun k' m' hk' hkey => ?_⟩
  · have hsome := hi.news _ hmem
    rw [hnone] at hsome
    cases hsome
  · have hsome := (hi.calls k' m' hk').1
    rw [hkey, hnone] at hsome
    cases hsome

/-- A message that is stored has a job. -/
theorem job_stored (hst : (lts loads).step h a h') {k : ℕ} {m : Message}
    (hs : h.stores a = some (k, m)) : ∃ j, h'.store.db.job m.key = some j ∧
      attachmentOwner j.command = attachmentOwner (m.command none) ∧ j.command.text = m.text := by
  obtain ⟨x, recovery, u, s, rfl, hok⟩ := stores_ok hs
  obtain ⟨-, rfl⟩ := hst
  have hstore : (Call.ingest x m recovery u).perform loads h.store = s := by
    show commit h.store (outcome (ingest x m recovery u h.store)) = s
    rw [hok]
    rfl
  show ∃ j, ((Call.ingest x m recovery u).perform loads h.store).db.job m.key = some j ∧ _
  rcases ingest_ok hok with ⟨-, -, -, -, hfalse⟩ | ⟨hnone, -, db, session, rows, row, hdb, hrows, hrow, rfl⟩
  · cases hfalse
  have hframe := insertMessage_frame (s := { h.store with
    db := db, attachments := h.store.attachments ++ rows }) m.row
  have hjobs : ((Call.ingest x m recovery u).perform loads h.store).db.jobs =
      h.store.db.jobs ++ [m.job row.id session] := by
    rw [hstore]
    exact (congrArg (fun db : Db => db.jobs ++ [m.job row.id session]) hframe.1).trans
      (by rw [incomingSession_jobs hdb])
  exact ⟨m.job row.id session, job_append (j := m.job row.id session) hnone hjobs, rfl, rfl⟩

theorem Inv.step (hi : h.Inv) (hst : (lts loads).step h a h') (hsound : h.Sound a) : h'.Inv := by
  have hstore : h'.store.Wf ∧ Filled h'.store ∧ Matched h'.store := by
    rw [hst.2]
    rcases storeAfter_eq loads h a with ⟨heq, -⟩ | ⟨c, hc, heq⟩
    · rw [heq]
      exact ⟨hi.wf, hi.filled, hi.matched⟩
    · have hproper : Proper h.store c := by
        cases a with
        | call | ingest =>
          cases hc
          exact hsound
        | read | crash => cases hc
      rw [heq]
      exact ⟨hi.wf.perform loads c, hi.filled.worked (c.perform_worked loads h.store),
        hi.matched.perform hi.wf hproper⟩
  have hcalls : ∀ k m, h'.calls k = some m →
      (h.calls k = some m ∧ ∀ t, a ≠ .read k t) ∨ h.stores a = some (k, m) :=
    fun k m hk => calls_step hst hk
  refine ⟨hstore.1, hstore.2.1, hstore.2.2, fun k m hk => ?_, fun k k' m m' hk hk' hkey => ?_,
    fun id hid => ?_⟩
  · rcases hcalls k m hk with ⟨hold, hne⟩ | hs
    · obtain ⟨hsome, hnot⟩ := hi.calls k m hold
      refine ⟨isSome_step hst hsome, fun hmem => ?_⟩
      rcases news_step hst hmem with hmem | hr
      · exact hnot hmem
      · -- the thread that reports it is another one
        obtain ⟨k', t, m', rfl, hm', hkey⟩ := reports_eq hr
        obtain rfl := hi.alone k k' m m' hold hm' hkey.symm
        exact hne t rfl
    · obtain ⟨j, hj, -⟩ := job_stored hst hs
      refine ⟨Option.isSome_iff_exists.2 ⟨j, hj⟩, fun hmem => ?_⟩
      rcases news_step hst hmem with hmem | hr
      · exact (hi.fresh hs).2.1 hmem
      · obtain ⟨k', t, m', rfl, -⟩ := reports_eq hr
        cases hs
  · rcases hcalls k m hk with ⟨hold, -⟩ | hs <;> rcases hcalls k' m' hk' with ⟨hold', -⟩ | hs'
    · exact hi.alone k k' m m' hold hold' hkey
    · exact absurd hkey ((hi.fresh hs').2.2 k m hold)
    · exact absurd hkey.symm ((hi.fresh hs).2.2 k' m' hold')
    · rw [hs] at hs'
      cases hs'
      rfl
  · rcases news_step hst hid with hid | hr
    · exact isSome_step hst (hi.news id hid)
    · obtain ⟨k, t, m, rfl, hm, rfl⟩ := reports_eq hr
      exact isSome_step hst (hi.calls k m hm).1

theorem inv (hr : ((lts loads).restrict Sound).Reachable Initial h) : h.Inv :=
  hr.invariant (fun _ hi => hi.inv) fun _ _ _ hi hst => hi.step hst.1 hst.2

/-- What a step may do on the way from `h` to `h'`. -/
structure Lawful (h : Host) (a : Act) (h' : Host) : Prop where
  /-- a call that raises has changed nothing -/
  raised : ∀ e, h.result a = some (.error e) → h'.store = h.store ∧ ∀ k t, a ≠ .read k t
  /-- an event that has a job changes nothing, and is not new -/
  again : ∀ k x m recovery u, a = .ingest k x m recovery u → (h.store.db.job m.key).isSome →
    h'.store = h.store ∧
      (h.result a = some (.ok false) ∨ ∃ e, h.result a = some (.error e))
  /-- an event that is stored had no job, and has one with all its attachments -/
  stored : ∀ k m, h.stores a = some (k, m) → h.store.db.job m.key = none ∧
    (∃ j, h'.store.db.job m.key = some j ∧
      attachmentOwner j.command = attachmentOwner (m.command none) ∧ j.command.text = m.text) ∧
    h'.store.files m.key = m.attachments
  /-- an event is reported as new by the thread that has stored it, once -/
  reported : ∀ id, h.reports a = some id →
    id ∉ h.news ∧ ∃ k t m, a = .read k t ∧ h.calls k = some m ∧ m.key = id
  /-- a job keeps its owner, its session, its message and its attachments -/
  jobs : ∀ id j, h.store.db.job id = some j → ∃ j', h'.store.db.job id = some j' ∧
    attachmentOwner j'.command = attachmentOwner j.command ∧
    j'.command.session = j.command.session ∧ j'.command.source = j.command.source ∧
    h'.store.parts id = h.store.parts id
  /-- a message row keeps its id and its session -/
  messages : ∀ platform id row, h.store.inbound platform id = some row →
    ∃ row', h'.store.inbound platform id = some row' ∧ row'.id = row.id ∧ row'.filed = row.filed

/-- The attachments of a job stay. -/
theorem parts_step (hi : h.Inv) (hst : (lts loads).step h a h') {id : CommandId} {j : Job}
    (hj : h.store.db.job id = some j) : h'.store.parts id = h.store.parts id := by
  rw [hst.2]
  show (h.storeAfter loads a).parts id = _
  rcases storeAfter_eq loads h a with ⟨heq, -⟩ | ⟨c, -, heq⟩
  · rw [heq]
  rw [heq]
  cases c.perform_worked loads h.store with
  | arrived m source session rows harrives hnone _ _ hrows =>
    obtain ⟨x, hattached⟩ := harrives.attached
    obtain ⟨-, hnew⟩ := hi.filled.attached hnone hattached
    have hne : m.key ≠ id := fun hkey => by
      rw [hkey, hj] at hnone
      cases hnone
    rw [parts_append hrows, List.filter_eq_nil_iff.2 fun r hr => by
      simpa [(attachmentRows_ok hnew).2.2 r hr] using hne, List.map_nil, List.append_nil]
  | settled o ho hdb hrows =>
    obtain ⟨f, heq, htrims⟩ := hrows
    exact parts_map heq htrims id
  | recorded _ _ _ _ _ _ hrows => rw [Store.parts, hrows, Store.parts]
  | still _ _ _ hrows => rw [Store.parts, hrows, Store.parts]

/-- The attachments of a message that is stored. -/
theorem files_stored (hi : h.Inv) (hst : (lts loads).step h a h') {k : ℕ} {m : Message}
    (hs : h.stores a = some (k, m)) : h'.store.files m.key = m.attachments := by
  obtain ⟨x, recovery, u, s, rfl, hok⟩ := stores_ok hs
  rw [hst.2]
  have hstore : (Call.ingest x m recovery u).perform loads h.store = s := by
    show commit h.store (outcome (ingest x m recovery u h.store)) = s
    rw [hok]
    rfl
  show ((Call.ingest x m recovery u).perform loads h.store).files m.key = _
  rcases ingest_ok hok with ⟨-, -, -, -, hfalse⟩ | ⟨hnone, -, db, session, rows, row, hdb, hattached, hrow, rfl⟩
  · cases hfalse
  obtain ⟨hfree, hnew⟩ := hi.filled.attached hnone hattached
  obtain ⟨-, hfiles, hcommands⟩ := attachmentRows_ok hnew
  have hrows : ((Call.ingest x m recovery u).perform loads h.store).attachments =
      h.store.attachments ++ rows := by
    rw [hstore]
    exact (insertMessage_frame (s := { h.store with
      db := db, attachments := h.store.attachments ++ rows }) m.row).2
  rw [Store.files, hrows, List.filter_append,
    List.filter_eq_nil_iff.2 fun r hr => by simpa using hfree r hr, List.nil_append,
    List.filter_eq_self.2 fun r hr => by simpa using hcommands r hr]
  exact hfiles

theorem Inv.lawful (hi : h.Inv) (hst : (lts loads).step h a h') (hsound : h.Sound a) :
    Lawful h a h' := by
  refine ⟨fun e he => ?_, fun k x m recovery u ha hsome => ?_, fun k m hs => ?_, fun id hr => ?_,
    fun id j hj => ?_, fun platform id row hrow => ?_⟩
  · cases a with
    | ingest k x m recovery u =>
      refine ⟨?_, nofun⟩
      rw [hst.2]
      show commit h.store (outcome (ingest x m recovery u h.store)) = _
      simp only [result] at he
      split at he
      · cases he
      · cases he
      · next e' herror =>
        rw [herror]
        rfl
    | read k t =>
      -- a sound reading does not raise
      exfalso
      simp only [result] at he
      cases hm : h.calls k with
      | none =>
        rw [hm] at he
        cases he
      | some m =>
        obtain ⟨j, hj⟩ := Option.isSome_iff_exists.1 (hi.calls k m hm).1
        obtain ⟨files, hfiles⟩ := readBack_ok hi.filled hj (hsound m hm)
        rw [hm, Option.map_some, hfiles] at he
        cases he
    | call | crash => cases he
  · subst ha
    obtain ⟨j, hj⟩ := Option.isSome_iff_exists.1 hsome
    have hstore : h'.store = commit h.store (outcome (ingest x m recovery u h.store)) := by
      rw [hst.2]
      rfl
    cases hok : ingest x m recovery u h.store with
    | error e =>
      refine ⟨by rw [hstore, hok]; rfl, .inr ⟨e, ?_⟩⟩
      simp only [result, hok]
    | ok y =>
      obtain ⟨s, new⟩ := y
      rcases ingest_ok hok with ⟨-, -, -, rfl, rfl⟩ | ⟨hnone, -⟩
      · refine ⟨by rw [hstore, hok]; rfl, .inl ?_⟩
        simp only [result, hok]
      · rw [hj] at hnone
        cases hnone
  · exact ⟨(hi.fresh hs).1, job_stored hst hs, files_stored hi hst hs⟩
  · obtain ⟨k, t, m, rfl, hm, rfl⟩ := reports_eq hr
    exact ⟨(hi.calls k m hm).2, k, t, m, rfl, hm, rfl⟩
  · obtain ⟨j', hj', howner, hsession, hsource⟩ := job_step hst hj
    exact ⟨j', hj', howner, hsession, hsource, parts_step hi hst hj⟩
  · rw [hst.2]
    show ∃ row', (h.storeAfter loads a).inbound platform id = some row' ∧ _
    rcases storeAfter_eq loads h a with ⟨heq, -⟩ | ⟨c, hc, heq⟩
    · rw [heq]
      exact ⟨row, hrow, rfl, rfl⟩
    · rw [heq]
      have hproper : Proper h.store c := by
        cases a with
        | call | ingest =>
          cases hc
          exact hsound
        | read | crash => cases hc
      obtain ⟨row', hrow', hr⟩ := (c.perform_messages loads hi.wf.keyed).inbound hrow
      obtain ⟨hfiled, hid, -⟩ := rewritten_filed hproper hrow hr
      exact ⟨row', hrow', hid, hfiled⟩

/-- **A platform event becomes one command.**  In every state of a run of sound steps, an event has at
most one message row and one job, and exactly one of each in one session once there is a job, with
numbered attachments; and every sound step is lawful. -/
theorem ingested_once (hr : ((lts loads).restrict Sound).Reachable Initial h) :
    (h.store.messages.map MessageRow.unique).Nodup ∧ (h.store.db.jobs.map Job.id).Nodup ∧
      (∀ (m : Message) j, h.store.db.job m.key = some j → j.command.platform = m.platform →
        (∃ row, h.store.inbound m.platform m.id = some row ∧
          row.filed = some (j.command.project, j.command.session, j.command.sender)) ∧
        ∃ n, h.store.parts m.key = List.range' 0 n) ∧
      ∀ a h', ((lts loads).restrict Sound).step h a h' → Lawful h a h' := by
  have hi := inv hr
  exact ⟨hi.wf.keyed.keys, hi.wf.distinct,
    fun m j hj hp => ⟨hi.matched.jobs m j hj hp, hi.filled.parts m.key⟩,
    fun a h' hst => hi.lawful hst.1 hst.2⟩

/-! ### Runs -/

/-- The state after a step that can be taken. -/
def after (h : Host) (a : Act) : Host :=
  ⟨h.storeAfter (fun _ => .ok []) a, h.callsAfter a, h.news ++ (h.reports a).toList⟩

theorem step_after (ht : h.takes a = true) : (lts fun _ => .ok []).step h a (h.after a) := ⟨ht, rfl⟩

/-- No call has been made. -/
def new : Host := ⟨.empty, fun _ => none, []⟩

theorem new_initial : Initial new := ⟨rfl, fun _ => rfl, rfl⟩

/-- A message of a conversation. -/
def message (id text : String) : Message :=
  { platform := "t", id := id, conversation := "chat", sender := "ann", text := text }

/-- A message is stored. -/
def stored : Host := new.after (.ingest 0 {} (message "1" "hi") none "")

/-- A message with a file. -/
def attached : Message :=
  { message "3" "file" with attachments := [⟨"a.txt", "text/plain", [104, 105], none⟩] }

/-- It is stored. -/
def received : Host := new.after (.ingest 0 {} attached none "")

/-- It is read back, and reported as new. -/
def reported : Host := received.after (.read 0 fun _ => 0)

/-- The event comes again. -/
def repeated : Host := reported.after (.ingest 1 {} attached none "")

theorem reported_reachable : ((lts fun _ => .ok []).restrict Sound).Reachable Initial reported := by
  have hreceived : ((lts fun _ => .ok []).restrict Sound).Reachable Initial received := by
    refine (Lts.Reachable.of_init new_initial).step (l := .ingest 0 {} attached none "")
      ⟨step_after rfl, fun s' _ row hrow => ?_⟩
    cases hrow
  refine hreceived.step (l := .read 0 fun _ => 0) ⟨step_after rfl, fun m hm j hj => .inl ?_⟩
  obtain rfl : attached = m := Option.some.inj hm
  have hactive : (received.store.db.job attached.key).all fun j =>
      received.store.db.lifecycle j.command = .active := by decide
  have hfresh : ((received.store.attachments.filter (·.command = attached.key)).zipIdx).all fun x =>
      0 < x.1.expires && x.1.digest = some x.1.data := by decide
  rw [hj] at hactive
  exact ⟨by simpa using hactive, fun x hx => by simpa using List.all_eq_true.1 hfresh x hx⟩

/-- A message with a file is stored and reported as new; when its event comes again, nothing changes
and nothing is reported. -/
theorem ingested_once_sample : reported.news = ["t:3"] ∧ reported.store.parts "t:3" = [0] ∧
    repeated.store = reported.store ∧ repeated.news = ["t:3"] ∧
    ∃ row, reported.store.inbound "t" "3" = some row ∧
      row.filed = some ("default", "t:chat", "ann") := by
  obtain ⟨-, -, hjobs, hlawful⟩ := ingested_once reported_reachable
  have hagain : reported.Sound (.ingest 1 {} attached none "") := by
    intro s' hs'
    have hold : (Intake.ingest {} attached none "" reported.store).toOption.map (·.2) =
        some false := by decide
    rw [hs'] at hold
    cases hold
  have hstep : (lts fun _ => .ok []).step reported (.ingest 1 {} attached none "") repeated :=
    step_after rfl
  refine ⟨by decide, by decide, ((hlawful _ _ ⟨hstep, hagain⟩).again 1 {} attached none "" rfl
    (by decide)).1, by decide, ?_⟩
  obtain ⟨j, hj⟩ : ∃ j, reported.store.db.job attached.key = some j :=
    Option.isSome_iff_exists.1 (by decide)
  have hfields : (reported.store.db.job attached.key).map (fun j => (j.command.platform,
      j.command.project, j.command.session, j.command.sender)) =
        some ("t", "default", "t:chat", "ann") := by
    decide
  rw [hj, Option.map_some, Option.some_inj] at hfields
  simp only [Prod.mk.injEq] at hfields
  obtain ⟨hplatform, hproject, hsession, hsender⟩ := hfields
  obtain ⟨⟨row, hrow, hfiled⟩, -⟩ := hjobs attached j hj hplatform
  exact ⟨row, hrow, by rw [hfiled, hproject, hsession, hsender]⟩

/-- The message is read back, and the deletion of its conversation begins. -/
def deleting : Host :=
  (stored.after (.read 0 fun _ => 0)).after
    (.call (.job (.beginSessionDeletion ⟨"t", "ann", "default", "t:chat"⟩ 0)))

/-- The cancellation that the human sends then. -/
def cancelling : Act := .ingest 0 {} (message "2" "/cancel t:1") none ""

/-- The call raises. -/
def raises (h : Host) (a : Act) : Bool :=
  match h.result a with
  | some (.error _) => true
  | _ => false

/-- A cancellation in a conversation that is being deleted is stored, and the call raises. -/
theorem raised_late : ∃ g a h b h', (lts fun _ => .ok []).Reachable Initial g ∧
    (lts fun _ => .ok []).step g a h ∧ (lts fun _ => .ok []).step h b h' ∧
    (∃ x m u, a = .ingest 0 x m none u ∧ g.store.db.job m.key = none ∧
      (h'.store.db.job m.key).isSome) ∧ b = .read 0 (fun _ => 0) ∧ h.raises b = true := by
  refine ⟨deleting, cancelling, deleting.after cancelling, .read 0 fun _ => 0, _, ?_,
    step_after (by decide), step_after rfl, ⟨{}, message "2" "/cancel t:1", "", rfl,
      by decide, by decide⟩, rfl, by decide⟩
  exact (((Lts.Reachable.of_init new_initial).step (step_after (by decide))).step
    (step_after rfl)).step (step_after rfl)

end Host

end Intake

end Communication

end PythonAI
