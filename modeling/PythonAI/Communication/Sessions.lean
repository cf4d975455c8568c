import PythonAI.Communication.Rows

/-!
# The sessions of a conversation

A conversation begins in its first session, named after the platform and the conversation; a
`/new-session` message moves its head to a session with a random id, and a message that comes from a
recorded one, or from the recovery of a deletion, keeps the session of that.

* `sessionOf_first` : when a message is filed under the first session;
* `First` : the conversation is in its first session;
* `First.of_run` : **it stays there as long as no message opens, or is bound to, another session**.
-/

namespace PythonAI

open Library

namespace Communication

/-- The conversation of a command. -/
def Command.head (c : Command) : Head := ⟨c.platform, c.sender, c.conversation, c.project⟩

/-- The first session of a conversation. -/
def Head.first (h : Head) : String := h.platform ++ ":" ++ h.conversation

/-- The message is filed under the first session of its conversation: as the message it comes from
is, or else, unless it asks for a new session, as the recovery or the head says. -/
def Inbound.Keeps (m : Inbound) (bound recovery : Option String) (db : Db) : Prop :=
  (∀ session, bound.filter (· ≠ "") = some session → session = m.command.head.first) ∧
    (bound.filter (· ≠ "") = none →
      (strip m.command.text = "/new-session" → bound.isSome) ∧
      (∀ session, recovery.filter (· ≠ "") = some session → session = m.command.head.first) ∧
      (recovery.filter (· ≠ "") = none →
        ∀ session, db.heads m.command.head = some session →
          session = "" ∨ session = m.command.head.first))

section

variable {m : Inbound} {b recovery : Option String} {bound : Except Error (Option String)}
  {u session : String} {db db' : Db}

/-- A session with a random id is not the first one. -/
theorem first_append_ne (h : Head) (u : String) : h.first ++ ":" ++ u ≠ h.first := by
  intro he
  have hlen := congrArg String.length he
  rw [String.length_append, String.length_append] at hlen
  have hcolon : (":" : String).length = 1 := rfl
  omega

theorem head_ne_empty (h : Head) : h.first ≠ "" := by
  intro he
  have hlen := congrArg String.length he
  rw [Head.first, String.length_append, String.length_append] at hlen
  have hcolon : (":" : String).length = 1 := rfl
  have hempty : ("" : String).length = 0 := rfl
  omega

/-- A turn runs in the first session if its command names that one, or none. -/
theorem sessionName_eq_first {c : Command} :
    c.sessionName = c.head.first ↔ c.session = "" ∨ c.session = c.head.first := by
  unfold Command.sessionName
  by_cases hc : c.session = ""
  · rw [if_pos hc]
    exact ⟨fun _ => .inl hc, fun _ => rfl⟩
  · rw [if_neg hc]
    exact ⟨.inr, fun h => h.resolve_left hc⟩

/-- **When a message is filed under the first session.** -/
theorem sessionOf_first :
    (sessionOf m b recovery u db = "" ∨ sessionOf m b recovery u db = m.command.head.first) ↔
      m.Keeps b recovery db := by
  unfold sessionOf Inbound.Keeps
  cases hb : b.filter (· ≠ "") with
  | some x =>
    have hx : x ≠ "" := by simpa using (Option.filter_eq_some_iff.1 hb).2
    simp [hx]
  | none =>
    simp only [reduceCtorEq, false_implies, implies_true, true_and, forall_const]
    by_cases hnew : (strip m.command.text = "/new-session" && b.isNone) = true
    · rw [if_pos hnew]
      refine ⟨fun h => ?_, fun h => ?_⟩
      · rcases h with h | h
        · exact absurd h (head_ne_empty ⟨_, "", _, ""⟩)
        · exact absurd h (first_append_ne m.command.head u)
      · simp only [Bool.and_eq_true, decide_eq_true_eq] at hnew
        have hsome := h.1 hnew.1
        rw [Option.isNone_iff_eq_none.1 hnew.2] at hsome
        cases hsome
    · rw [if_neg hnew]
      have htext : strip m.command.text = "/new-session" → b.isSome := fun ht => by
        cases hb' : b with
        | none => exact absurd (by simp [ht, hb']) hnew
        | some x => rfl
      cases hr : recovery.filter (· ≠ "") with
      | some x =>
        have hx : x ≠ "" := by simpa using (Option.filter_eq_some_iff.1 hr).2
        simpa [hx] using fun _ => htext
      | none =>
        show ((db.heads m.command.head).getD m.command.head.first = _ ∨
          (db.heads m.command.head).getD m.command.head.first = _) ↔ _
        cases db.heads m.command.head with
        | none => simpa using htext
        | some x => simpa using fun _ => htext

/-- A message that opens a new session has no attachments. -/
theorem incomingSession_bare (h : incomingSession m bound recovery u db = .ok (db', session))
    (htext : strip m.command.text = "/new-session") : m.attached = false := by
  simp only [incomingSession, bind_eq_ok, ensure_eq_ok] at h
  obtain ⟨-, hbare, -⟩ := h
  simpa [htext] using hbare

/-- The heads after a message. -/
theorem incomingSession_heads (h : incomingSession m bound recovery u db = .ok (db', session))
    (k : Head) : db'.heads k = db.heads k ∨ k = m.command.head ∧ db'.heads k = some session := by
  simp only [incomingSession, bind_eq_ok, pure_eq_ok, Prod.mk.injEq] at h
  obtain ⟨-, -, b, -, -, -, rfl, rfl⟩ := h
  show (if _ then _ else _ : Table Head String) k = _ ∨ _ ∧ (if _ then _ else _ : Table Head String) k = _
  split_ifs
  · by_cases hk : k = m.command.head
    · exact .inr ⟨hk, by rw [hk]; exact (Table.set_apply _ _ _ _).trans (if_pos rfl)⟩
    · exact .inl (Table.set_of_ne _ _ _ hk)
  · exact .inl rfl

end

namespace Intake

/-- The conversation of a message. -/
def Message.head (m : Message) : Head := (m.command none).head

/-- The message that a call brings in, with the session that it is bound to and the one that is
recovered for it. -/
def Call.arrival (s : Store) :
    Call → Option (Message × Except Error (Option String) × Option String)
  | ingest _ m recovery _ =>
    if (s.db.job m.key).isNone then some (m, .ok none, recovery) else none
  | record m recovery _ =>
    if (s.inbound m.platform m.id).isNone then some (m, .ok none, recovery) else none
  | enqueue _ m source recovery _ =>
    if (s.db.job m.key).isNone then some (m, boundTo m source s, recovery) else none
  | _ => none

/-- The call leaves the conversation in its first session: its message is not a `/new-session`, and
what the message is bound to, or recovers, is that session. -/
def Call.Stays (h : Head) (s : Store) (c : Call) : Prop :=
  ∀ m b recovery, c.arrival s = some (m, .ok b, recovery) → m.head = h →
    (∀ session, b.filter (· ≠ "") = some session → session = h.first) ∧
      (b.filter (· ≠ "") = none →
        (strip m.text = "/new-session" ∧ m.attachments = [] → b.isSome) ∧
        ∀ session, recovery.filter (· ≠ "") = some session → session = h.first)

/-- The conversation is in its first session, and was so at all its messages. -/
structure First (h : Head) (s : Store) : Prop where
  /-- the head -/
  heads : ∀ session, s.db.heads h = some session → session = "" ∨ session = h.first
  /-- the jobs -/
  jobs : ∀ id j, s.db.job id = some j → j.command.head = h →
    j.command.session = "" ∨ j.command.session = h.first

section

variable {s s' : Store} {c : Call} {m : Message} {session : String} {h : Head} {loads : Loads}

/-- A message that a call files. -/
def Filed (s : Store) (c : Call) (m : Message) (session : String) : Prop :=
  ∃ b recovery u db, c.arrival s = some (m, .ok b, recovery) ∧
    incomingSession (m.incoming none) (.ok b) recovery u s.db = .ok (db, session)

theorem Arrives.filed {source : ℕ} {rows : List AttachmentRow} (hnone : s.db.job m.key = none)
    (ha : Arrives s c m source session rows) : Filed s c m session := by
  have hisNone : (s.db.job m.key).isNone = true := by rw [hnone]; rfl
  cases ha with
  | ingested x recovery u row hc hok hadmits =>
    obtain ⟨s', hok⟩ := hok
    rcases ingest_ok hok with ⟨old, hold, -⟩ | ⟨-, -, db, session', -, -, hdb, -⟩
    · rw [hnone] at hold
      cases hold
    · obtain ⟨b, -, hb, hnamed, -⟩ := incomingSession_ok hdb
      cases hb
      have hsame : session' = session := hnamed.trans hadmits.named.symm
      subst hsame
      exact ⟨none, recovery, u, db, by rw [hc]; exact if_pos hisNone, hdb⟩
  | enqueued x recovery bound u hc hok hbound hadmits =>
    obtain ⟨s', hok⟩ := hok
    rcases enqueue_ok hok with ⟨old, hold, -⟩ | ⟨-, -, db, session', -, hdb, -⟩
    · rw [hnone] at hold
      cases hold
    · rw [hbound] at hdb
      obtain ⟨b, -, hb, hnamed, -⟩ := incomingSession_ok hdb
      cases hb
      have hsame : session' = session := hnamed.trans hadmits.named.symm
      subst hsame
      refine ⟨bound, recovery, u, db, ?_, hdb⟩
      rw [hc]
      show (if _ then some (m, boundTo m source s, recovery) else none) = _
      rw [if_pos hisNone, hbound]

/-- A message is filed under the first session, if the call stays there. -/
theorem Filed.first (hfiled : Filed s c m session) (hf : First h s) (hc : c.Stays h s)
    (hm : m.head = h) : session = "" ∨ session = h.first := by
  obtain ⟨b, recovery, u, db, harrival, hdb⟩ := hfiled
  obtain ⟨hbound, hfree⟩ := hc m b recovery harrival hm
  obtain ⟨b', -, hb, hnamed, -⟩ := incomingSession_ok hdb
  cases hb
  have hhead : (m.incoming none).command.head = h := hm
  rw [hnamed, ← hhead, sessionOf_first]
  refine ⟨by rw [hhead]; exact hbound, fun hnone => ⟨fun htext => ?_, ?_, fun _ => ?_⟩⟩
  · have hbare := incomingSession_bare hdb htext
    exact (hfree hnone).1 ⟨htext, by simpa [Message.incoming] using hbare⟩
  · rw [hhead]
    exact (hfree hnone).2
  · rw [hhead]
    exact hf.heads

/-- A message that is recorded again changes nothing. -/
theorem perform_record_again {recovery : Option String} {u : String} {old : MessageRow}
    (hold : s.inbound m.platform m.id = some old) :
    (Call.record m recovery u).perform loads s = s := by
  refine commit_of (P := (· = s)) rfl fun s' h => ?_
  obtain ⟨⟨id, new⟩, h⟩ := outcome_eq_ok.1 h
  rcases record_ok h with ⟨-, -, rfl, -⟩ | ⟨hnone, -⟩
  · rfl
  · rw [hold] at hnone
    cases hnone

/-- The heads after a call. -/
theorem Call.perform_heads (loads : Loads) (c : Call) (s : Store) (k : Head) :
    (c.perform loads s).db.heads k = s.db.heads k ∨ ∃ m session, Filed s c m session ∧
      k = m.head ∧ (c.perform loads s).db.heads k = some session := by
  cases c.perform_worked loads s with
  | arrived m source session rows harrives hnone hjobs hdb =>
    obtain ⟨duplicate, bound, recovery, u, hdb⟩ := hdb
    unfold addJob at hdb
    split at hdb
    · simp only [bind_eq_ok, pure_eq_ok, Prod.mk.injEq] at hdb
      obtain ⟨-, -, -, hfalse⟩ := hdb
      cases hfalse
    · simp only [bind_eq_ok, pure_eq_ok] at hdb
      obtain ⟨⟨db₁, session'⟩, hsession, -, -, heq⟩ := hdb
      simp only [Prod.mk.injEq, and_true] at heq
      rw [← heq] at hjobs ⊢
      have hlast := congrArg List.getLast? hjobs
      rw [List.getLast?_concat, List.getLast?_concat] at hlast
      have hsame : session' = session := congrArg (fun j : Job => j.command.session)
        (Option.some.inj hlast)
      rcases incomingSession_heads hsession k with hk | ⟨hk, hset⟩
      · exact .inl hk
      · exact .inr ⟨m, session, harrives.filed hnone, hk, by rw [← hsame]; exact hset⟩
  | settled o ho hdb =>
    rcases o.adds_or_inPlace s.db with ⟨hadds, -⟩ | hplace
    · exact absurd (op_adds ho) (by rw [hadds]; intro h; cases h)
    · exact .inl (by rw [hdb, hplace.2])
  | recorded m recovery u session hc hdb =>
    rcases incomingSession_heads hdb k with hk | ⟨hk, hset⟩
    · exact .inl hk
    · subst hc
      cases hold : s.inbound m.platform m.id with
      | some old => exact .inl (by rw [perform_record_again hold])
      | none =>
        refine .inr ⟨m, session, ⟨none, recovery, u, _, ?_, hdb⟩, hk, hset⟩
        show (if (s.inbound m.platform m.id).isNone then _ else _) = _
        rw [hold]
        rfl
  | still _ _ hheads => exact .inl (by rw [hheads])

/-- **A call that stays in the first session keeps the conversation there.** -/
theorem First.perform (hf : First h s) (hc : c.Stays h s) : First h (c.perform loads s) := by
  have hw := c.perform_worked loads s
  refine ⟨fun session hsession => ?_, fun id j hj hhead => ?_⟩
  · rcases c.perform_heads loads s h with hsame | ⟨m, session', hfiled, hm, hset⟩
    · exact hf.heads session (hsame ▸ hsession)
    · rw [hset] at hsession
      cases hsession
      exact hfiled.first hf hc hm.symm
  · cases hold : s.db.job id with
    | none =>
      obtain ⟨m, source, session, rows, harrives, hnone, -, rfl, -⟩ := hw.job_new hold hj
      exact (harrives.filed hnone).first hf hc hhead
    | some j₀ =>
      obtain ⟨j', hj', rfl | ⟨o, -, hs⟩⟩ := hw.job hold
      · rw [hj] at hj'
        cases hj'
        exact hf.jobs id j hold hhead
      · rw [hj] at hj'
        cases hj'
        have hkept : j.command.head = j₀.command.head ∧
            j.command.session = j₀.command.session := by
          cases hs <;> exact ⟨rfl, rfl⟩
        rw [hkept.2]
        exact hf.jobs id j₀ hold (hkept.1 ▸ hhead)

/-- The transport database, under calls by any processes. -/
def lts (loads : Loads) : Lts Store Call where
  step s c s' := s' = c.perform loads s

/-- **The conversation is in its first session in every run that stays there.** -/
theorem First.of_run
    (hr : ((lts loads).restrict (Call.Stays h)).Reachable (· = Store.empty) s) : First h s := by
  refine hr.invariant (fun s hs => ?_) fun s c s' hf hst => ?_
  · subst hs
    refine ⟨fun session hs => ?_, fun id j hj => ?_⟩
    · cases hs
    · cases hj
  · rw [hst.1]
    exact hf.perform hst.2

end

end Intake

end Communication

end PythonAI
