import PythonAI.Delivery.History
import PythonAI.Library.Lts
import PythonAI.Library.Table

/-!
# A chat input runs once

A `chat.send` message is accepted in a transaction of its own before its chat is started, and the
chat may crash, be cancelled or be cut off at any point.  Any number of connections and processes
share the store, and the other writers append their events in between.

* `Host.chat_once` : **at most one chat is started for an input** while its row has not expired, and
  a status other than `uncertain` is stored only after an end was appended, or the owner was erased
-/

namespace PythonAI

open Library

namespace Delivery

namespace Inputs

/-! ### The host -/

/-- Where `handle_chat` is. -/
inductive Pc
  /-- the reply is streamed -/
  | running
  /-- `chat.end` is stored; the status is not -/
  | ended (value : Payload)
  /-- it has returned, or its process has ended -/
  | over
  deriving DecidableEq, Repr

/-- A call of `handle_chat`. -/
structure Chat where
  /-- `session.owner` -/
  owner : Owner
  /-- `ref` -/
  id : String
  /-- where it is -/
  pc : Pc := .running
  /-- the end that it has appended -/
  last : Option Content := none
  deriving DecidableEq, Repr

/-- The store and the calls. -/
structure Host where
  /-- the event database -/
  db : Db
  /-- the calls of `handle_chat`, by their number -/
  chats : Table ℕ Chat := .empty
  /-- the number of the next call -/
  next : ℕ := 0
  /-- the events that were stored, by their owners -/
  log : List (Owner × Content) := []
  /-- the owners that were erased -/
  erased : List Owner := []

namespace Host

/-- The checks of `chat.send` that precede the input: the conversation is not deleted, the
attachments can be decoded, there is a text, and no chat of the session is running. -/
abbrev Checked := Except Error Unit

/-- `chat.send`; `content` is `dedup_input` of the text and the attachments. -/
def send (env : Environment) (checked : Checked) (owner : Owner) (id content : String) (r : Reads)
    (t : Time) (h : Host) : Except Error (Host × Option InputStatus) := do
  checked
  ensure (id ≠ "" && id.length ≤ 128)
    (.value "chat.send requires a stable ID (1..128 characters)")
  let (db, previous) ← EventStore.acceptInput env owner id content r t h.db
  if previous.isSome then
    -- Told with `notify`; the input is not executed again.
    pure ({ h with db := db }, previous)
  else
    pure ({ h with
      db := db
      chats := h.chats.set h.next { owner := owner, id := id }
      next := h.next + 1 }, none)

/-- An event is appended: with a key, it is stored only once. -/
def append (env : Environment) (owner : Owner) (message : Message) (key : Option String)
    (size : ℕ) (r : Reads) (t : Time) (h : Host) : Except Error Host := do
  let (db, _) ← EventStore.append env owner message key size r t h.db
  let known := key.any fun k => (Records.find EventKey.id (owner, k) h.db.keys).isSome
  pure { h with
    db := db
    log := if known then h.log else h.log ++ [(owner, message.content)] }

/-- The call `c` goes on. -/
def goto (c : ℕ) (pc : Pc) (h : Host) : Host :=
  { h with chats := h.chats.update c (fun _ => true) fun chat => { chat with pc := pc } }

/-- The `chat.end` message of a call; a durable event has a key, and the id of its task as `ref`. -/
def endMessage (chat : Chat) (value : Payload) (cancelled : Bool) (key : Option (String × String))
    (rest : String) : Message :=
  { content :=
      { type := some "chat.end"
        ref := some ((key.map (·.2)).getD chat.id)
        payload := some { value with interrupted := value.interrupted || cancelled } }
    rest := rest }

/-- The end of the reply is sent; `cancelled` is whether the chat is cancelled. -/
def finish (env : Environment) (c : ℕ) (value : Payload) (cancelled : Bool)
    (key : Option (String × String)) (rest : String) (size : ℕ) (r : Reads) (t : Time) (h : Host) :
    Except Error Host := do
  let chat ← require (h.chats c) (.busy "chat")
  ensure (chat.pc = .running) (.busy "chat")
  let message := endMessage chat value cancelled key rest
  let h ← h.append env chat.owner message (key.map (·.1)) size r t
  pure { h with
    chats := h.chats.update c (fun _ => true) fun chat =>
      { chat with pc := .ended value, last := some message.content } }

/-- The handler of a cancelled call appends an end. -/
def cancel (env : Environment) (c : ℕ) (text rest : String) (size : ℕ) (r : Reads) (t : Time)
    (h : Host) : Except Error Host := do
  let chat ← require (h.chats c) (.busy "chat")
  ensure (chat.pc ≠ .over) (.busy "chat")
  let h ← h.append env chat.owner (endMessage chat { rest := text } true none rest) none size r t
  pure (h.goto c .over)

/-- The status that `handle_chat` stores. -/
def finishStatus (value : Payload) (cancelled : Bool) : InputStatus :=
  if value.taskState = some "uncertain" then .uncertain
  else if value.interrupted || cancelled then .interrupted
  else if value.failed then .failed
  else if value.suspended then .suspended
  else .completed

/-- The status of the input is stored. -/
def store (c : ℕ) (cancelled : Bool) (h : Host) : Except Error Host := do
  let chat ← require (h.chats c) (.busy "chat")
  match chat.pc with
  | .ended value =>
    pure { h.goto c .over with
      db := EventStore.finishInput chat.owner chat.id (finishStatus value cancelled) h.db }
  | _ => .error (.busy "chat")

/-- The session of an owner is erased. -/
def erase (owner : Owner) (h : Host) : Host :=
  { h with db := EventStore.eraseOwner owner h.db, erased := h.erased ++ [owner] }

end Host

/-- A step of the store. -/
inductive Act
  /-- a `chat.send` message -/
  | send (env : Environment) (checked : Host.Checked) (owner : Owner) (id content : String)
      (r : Reads) (t : Time)
  /-- an event of a chat, of a publisher, or of anything else -/
  | append (env : Environment) (owner : Owner) (message : Message) (key : Option String) (size : ℕ)
      (r : Reads) (t : Time)
  /-- a chat comes to its end -/
  | finish (env : Environment) (c : ℕ) (value : Payload) (cancelled : Bool)
      (key : Option (String × String)) (rest : String) (size : ℕ) (r : Reads) (t : Time)
  /-- it is cancelled -/
  | cancel (env : Environment) (c : ℕ) (text rest : String) (size : ℕ) (r : Reads) (t : Time)
  /-- its status is stored -/
  | store (c : ℕ) (cancelled : Bool)
  /-- it raises, it is a subscriber that is shut down, or its process ends -/
  | stop (c : ℕ)
  | snapshot (owner : Owner) (r : Reads)
  | ack (owner : Owner) (seq : ℤ)
  | erase (owner : Owner)

namespace Host

/-- What a step commits. -/
def attempt (h : Host) : Act → Except Error Host
  | .send env checked owner id content r t =>
    (h.send env checked owner id content r t).map (·.1)
  | .append env owner message key size r t => h.append env owner message key size r t
  | .finish env c value cancelled key rest size r t =>
    h.finish env c value cancelled key rest size r t
  | .cancel env c text rest size r t => h.cancel env c text rest size r t
  | .store c cancelled => h.store c cancelled
  | .stop c => .ok (h.goto c .over)
  | .snapshot owner r => .ok { h with db := (EventStore.snapshot owner r h.db).1 }
  | .ack owner seq => (EventStore.ack owner seq h.db).map fun x => { h with db := x.1 }
  | .erase owner => .ok (h.erase owner)

/-- The state after a step. -/
def after (h : Host) (a : Act) : Host :=
  match h.attempt a with
  | .ok h' => h'
  | .error _ => h

/-- One step at a time. -/
def lts : Lts Host Act where
  step h a h' := h' = h.after a

/-- A new store. -/
def Initial (h : Host) : Prop := h = { db := .empty }

/-- An end of the input is stored: under its id, or by its chat. -/
def Ended (h : Host) (owner : Owner) (id : String) : Prop :=
  ∃ content, (owner, content) ∈ h.log ∧ content.type = some "chat.end" ∧
    (content.ref = some id ∨
      ∃ c chat, h.chats c = some chat ∧ chat.owner = owner ∧ chat.id = id ∧
        chat.last = some content)

end Host

/-! ### The rows of the inputs -/

/-- The key of a row of `ws_inputs`. -/
def key (row : Input) : Owner × String := (row.owner, row.id)

/-- What an operation does to the rows: `Stays` of the old ones are still there, and a status is an
old one or satisfies `New`. -/
structure Moves (Stays New : Input → Prop) (l l' : List Input) : Prop where
  /-- no two rows have the same key -/
  nodup : (l.map key).Nodup → (l'.map key).Nodup
  /-- the statuses -/
  status : ∀ row' ∈ l', row'.status ≠ .uncertain →
    New row' ∨ ∃ row ∈ l, key row = key row' ∧ row.status = row'.status
  /-- the rows that stay -/
  stays : ∀ row ∈ l, Stays row → ∃ row' ∈ l', key row' = key row

variable {Stays New New' : Input → Prop} {l l' l'' : List Input} {owner o : Owner} {id : String}

theorem Moves.refl (l : List Input) : Moves (fun _ => True) (fun _ => False) l l :=
  ⟨fun h => h, fun row hrow _ => .inr ⟨row, hrow, rfl, rfl⟩, fun row hrow _ => ⟨row, hrow, rfl⟩⟩

theorem Moves.mono {Stays' : Input → Prop} (h : Moves Stays New l l')
    (hs : ∀ row ∈ l, Stays' row → Stays row) (hn : ∀ row, New row → New' row) :
    Moves Stays' New' l l' :=
  ⟨h.nodup, fun row hrow hne => (h.status row hrow hne).imp_left (hn row),
    fun row hrow hst => h.stays row hrow (hs row hrow hst)⟩

/-- A change of the rows that are left. -/
theorem Moves.trans (h : Moves Stays New l l') (h' : Moves (fun _ => True) New' l' l'')
    (hkey : ∀ row row', key row = key row' → New row → New' row') :
    Moves Stays New' l l'' := by
  refine ⟨fun hn => h'.nodup (h.nodup hn), fun row'' hrow'' hne => ?_, fun row hrow hst => ?_⟩
  · rcases h'.status row'' hrow'' hne with hnew | ⟨row', hrow', hk, hs⟩
    · exact .inl hnew
    · rcases h.status row' hrow' (hs ▸ hne) with hnew | ⟨row, hrow, hk', hs'⟩
      · exact .inl (hkey row' row'' hk hnew)
      · exact .inr ⟨row, hrow, hk'.trans hk, hs'.trans hs⟩
  · obtain ⟨row', hrow', hk⟩ := h.stays row hrow hst
    obtain ⟨row'', hrow'', hk'⟩ := h'.stays row' hrow' trivial
    exact ⟨row'', hrow'', hk'.trans hk⟩

theorem moves_filter (t : Time) (l : List Input) :
    Moves (fun row => t < row.expires) (fun _ => False) l (l.filter fun i => t < i.expires) := by
  refine ⟨fun hn => hn.sublist (List.filter_sublist.map _), fun row hrow _ => ?_,
    fun row hrow hst => ⟨row, List.mem_filter.2 ⟨hrow, decide_eq_true hst⟩, rfl⟩⟩
  exact .inr ⟨row, List.mem_of_mem_filter hrow, rfl, rfl⟩

/-- A write that leaves the keys alone. -/
theorem moves_map {f : Input → Input} (hk : ∀ row, key (f row) = key row)
    (hf : ∀ row ∈ l, (f row).status = row.status ∨ New (f row)) :
    Moves (fun _ => True) New l (l.map f) := by
  refine ⟨fun hn => ?_, fun row' hrow' _ => ?_, fun row hrow _ =>
    ⟨f row, List.mem_map_of_mem hrow, hk row⟩⟩
  · rw [Records.map_key fun row _ => hk row]
    exact hn
  · obtain ⟨row, hrow, rfl⟩ := List.mem_map.1 hrow'
    rcases hf row hrow with hs | hnew
    · exact .inr ⟨row, hrow, (hk row).symm, hs.symm⟩
    · exact .inl hnew

theorem moves_setStatus (owner : Owner) (ref : Option String) (s : InputStatus) (l : List Input) :
    Moves (fun _ => True) (fun row => row.owner = owner ∧ some row.id = ref) l
      (EventStore.setStatus owner ref s l) := by
  refine moves_map (fun row => ?_) fun row _ => ?_
  · split_ifs <;> rfl
  · split_ifs with h
    · exact .inr h
    · exact .inl rfl

theorem moves_new {row : Input} (hrow : row.status = .uncertain)
    (hnew : ∀ row' ∈ l, key row' ≠ key row) :
    Moves (fun _ => True) (fun _ => False) l (l ++ [row]) := by
  refine ⟨fun hn => Records.nodup_append hn hnew, fun row' hrow' hne => ?_,
    fun row' hrow' _ => ⟨row', List.mem_append_left _ hrow', rfl⟩⟩
  rcases List.mem_append.1 hrow' with hold | hr
  · exact .inr ⟨row', hold, rfl, rfl⟩
  · rw [List.mem_singleton.1 hr] at hne
    exact absurd hrow hne

/-! ### What an operation does -/

section

variable {db db' : Db} {env : Environment} {message : Message} {k : Option String} {size : ℕ}
  {r : Reads} {t : Time} {out : Option (Message × ℕ)}

/-- The rows that an event changes: those of its end. -/
def Ends (owner : Owner) (message : Message) (row : Input) : Prop :=
  row.owner = owner ∧ some row.id = message.content.ref ∧ message.content.type = some "chat.end"

theorem insert_moves
    (hok : EventStore.insert env owner message k size t db = .ok (db', out)) :
    Moves (fun _ => True) (Ends owner message) db.inputs db'.inputs := by
  have quiet : Moves (fun _ => True) (Ends owner message) db.inputs db.inputs :=
    (Moves.refl _).mono (fun _ _ h => h) fun _ h => h.elim
  simp only [EventStore.insert, bind_eq_ok] at hok
  obtain ⟨sessions, -, session, -, count, -, -, -, total, -, -, -, ttl, -, -, -, hok⟩ := hok
  cases k with
  | none =>
    simp only [pure_eq_ok, Prod.mk.injEq] at hok
    obtain ⟨rfl, -⟩ := hok
    exact quiet
  | some k =>
    simp only at hok
    split_ifs at hok with hend
    · simp only [bind_eq_ok, pure_eq_ok, Prod.mk.injEq] at hok
      obtain ⟨payload, -, rfl, -⟩ := hok
      exact (moves_setStatus ..).mono (fun _ _ h => h) fun row h => ⟨h.1, h.2, hend⟩
    · simp only [pure_eq_ok, Prod.mk.injEq] at hok
      obtain ⟨rfl, -⟩ := hok
      exact quiet

/-- **What an append does**: an event with a known key changes nothing. -/
theorem append_moves
    (hok : EventStore.append env owner message k size r t db = .ok (db', out)) :
    Moves (fun row => r.inputs < row.expires) (Ends owner message) db.inputs db'.inputs ∧
      ((∃ k' old, k = some k' ∧ Records.find EventKey.id (owner, k') db.keys = some old ∧
          old.fingerprint = message.content ∧ db'.keys = db.keys ∧
          db'.inputs = db.inputs.filter fun i => r.inputs < i.expires) ∨
        (∀ k', k = some k' → Records.find EventKey.id (owner, k') db.keys = none) ∧
          ∀ row ∈ db'.keys, row ∈ db.keys ∨ row.owner = owner ∧ row.fingerprint = message.content) := by
  have hclean := moves_filter r.inputs db.inputs
  have hfresh : ∀ {db₁ out}, EventStore.insert env owner message k size t (EventStore.cleanup r db) =
      .ok (db₁, out) →
      Moves (fun row => r.inputs < row.expires) (Ends owner message) db.inputs db₁.inputs ∧
        ∀ row ∈ db₁.keys, row ∈ db.keys ∨ row.owner = owner ∧ row.fingerprint = message.content := by
    intro db₁ out hins
    refine ⟨hclean.trans (insert_moves hins) fun _ _ _ h => h.elim, fun row hrow => ?_⟩
    obtain ⟨ttl, -, -, -, -, hkeys, -⟩ := insert_ok hins
    rw [hkeys] at hrow
    rcases List.mem_append.1 hrow with hold | hnew
    · exact .inl hold
    · cases k with
      | none => cases hnew
      | some k =>
        rw [List.mem_singleton.1 hnew]
        exact .inr ⟨rfl, rfl⟩
  cases k with
  | none =>
    obtain ⟨hm, hkeys⟩ := hfresh hok
    exact ⟨hm, .inr ⟨fun k' hk => (by cases hk), hkeys⟩⟩
  | some k =>
    simp only [EventStore.append, bind_eq_ok] at hok
    obtain ⟨-, -, -, -, hok⟩ := hok
    split at hok
    · next old hold =>
      simp only [bind_eq_ok, ensure_eq_ok, decide_eq_true_eq, pure_eq_ok, Prod.mk.injEq] at hok
      obtain ⟨-, hfp, rfl, -⟩ := hok
      exact ⟨hclean.mono (fun _ _ h => h) fun _ h => h.elim, .inl ⟨k, old, rfl, hold, hfp, rfl, rfl⟩⟩
    · next hnone =>
      simp only [bind_eq_ok] at hok
      obtain ⟨limit, -, -, -, hok⟩ := hok
      obtain ⟨hm, hkeys⟩ := hfresh hok
      refine ⟨hm, .inr ⟨fun k' hk => ?_, hkeys⟩⟩
      cases hk
      exact hnone

/-- What `accept_input` does. -/
theorem acceptInput_moves {content : String} {s : Option InputStatus}
    (hok : EventStore.acceptInput env owner id content r t db = .ok (db', s)) :
    db'.keys = db.keys ∧
      Moves (fun row => r.inputs < row.expires) (fun _ => False) db.inputs db'.inputs ∧
      (s = none → (∀ row ∈ db.inputs, r.inputs < row.expires → key row ≠ (owner, id)) ∧
        ∃ row ∈ db'.inputs, key row = (owner, id)) ∧
      ∀ st, s = some st → ∃ row ∈ db.inputs, r.inputs < row.expires ∧ key row = (owner, id) ∧
        row.digest = some content ∧ row.status = st := by
  have hclean := moves_filter r.inputs db.inputs
  simp only [EventStore.acceptInput] at hok
  split at hok
  · next old hold =>
    simp only [bind_eq_ok, ensure_eq_ok, decide_eq_true_eq, pure_eq_ok, Prod.mk.injEq] at hok
    obtain ⟨-, hdigest, rfl, rfl⟩ := hok
    obtain ⟨hmem, hlt⟩ := List.mem_filter.1 (List.mem_of_find?_eq_some hold)
    have hkey := List.find?_some hold
    simp only [Bool.and_eq_true, decide_eq_true_eq] at hkey
    refine ⟨rfl, hclean, fun hc => (by cases hc), fun st hst => ?_⟩
    cases hst
    exact ⟨old, hmem, of_decide_eq_true hlt, Prod.ext hkey.1 hkey.2, hdigest, rfl⟩
  · next hnone =>
    simp only [bind_eq_ok, pure_eq_ok, Prod.mk.injEq] at hok
    obtain ⟨limit, -, -, -, ttl, -, rfl, rfl⟩ := hok
    have hnew : ∀ row ∈ (EventStore.cleanup r db).inputs, key row ≠ (owner, id) := by
      intro row hrow hk
      have hfind := List.find?_eq_none.1 hnone row hrow
      simp only [Bool.and_eq_true, decide_eq_true_eq, not_and] at hfind
      exact hfind (congrArg Prod.fst hk) (congrArg Prod.snd hk)
    refine ⟨rfl, hclean.trans (moves_new rfl hnew) fun _ _ _ h => h, fun _ => ⟨?_, ?_⟩,
      fun st hst => (by cases hst)⟩
    · exact fun row hrow hlt => hnew row (List.mem_filter.2 ⟨hrow, decide_eq_true hlt⟩)
    · exact ⟨_, List.mem_append_right _ (List.mem_singleton_self _), rfl⟩

end

/-! ### What holds of a store -/

/-- What holds of a call. -/
structure Chat.Sound (log : List (Owner × Content)) (chat : Chat) : Prop where
  /-- it has no end while it is running -/
  running : chat.pc = .running → chat.last = none
  /-- an end is known -/
  ended : ∀ value, chat.pc = .ended value → chat.last.isSome
  /-- an end is stored -/
  last : ∀ content, chat.last = some content →
    (chat.owner, content) ∈ log ∧ content.type = some "chat.end"

theorem Chat.Sound.later {log log' : List (Owner × Content)} {chat : Chat} (h : chat.Sound log)
    (hlog : ∀ e ∈ log, e ∈ log') : chat.Sound log' :=
  ⟨h.running, h.ended, fun content hc => ⟨hlog _ (h.last content hc).1, (h.last content hc).2⟩⟩

/-- What holds of a store in any order of steps. -/
structure Inv (h : Host) : Prop where
  /-- no two rows have the same key -/
  nodup : (h.db.inputs.map key).Nodup
  /-- a status is stored after an end -/
  inputs : ∀ row ∈ h.db.inputs, row.status ≠ .uncertain →
    row.owner ∈ h.erased ∨ h.Ended row.owner row.id
  /-- the event of a key was stored -/
  keys : ∀ row ∈ h.db.keys, (row.owner, row.fingerprint) ∈ h.log
  /-- the calls -/
  chats : ∀ c chat, h.chats c = some chat → c < h.next ∧ chat.Sound h.log

/-- What a step keeps of the events and the calls. -/
structure Later (h h' : Host) : Prop where
  /-- the events -/
  log : ∀ e ∈ h.log, e ∈ h'.log
  /-- the erased owners -/
  erased : ∀ o ∈ h.erased, o ∈ h'.erased
  /-- the calls -/
  chats : ∀ c chat, h.chats c = some chat → ∃ chat', h'.chats c = some chat' ∧
    chat'.owner = chat.owner ∧ chat'.id = chat.id ∧
      ∀ content, chat.last = some content → chat'.last = some content

variable {h h' : Host}

theorem Later.ended (hl : Later h h') (he : h.Ended owner id) : h'.Ended owner id := by
  obtain ⟨content, hlog, htype, hcause⟩ := he
  refine ⟨content, hl.log _ hlog, htype, hcause.imp_right ?_⟩
  rintro ⟨c, chat, hc, howner, hid, hlast⟩
  obtain ⟨chat', hc', howner', hid', hlast'⟩ := hl.chats c chat hc
  exact ⟨c, chat', hc', howner'.trans howner, hid'.trans hid, hlast' content hlast⟩

/-- A step whose changes of the rows are known. -/
theorem Inv.next (hi : Inv h) (hl : Later h h') (hm : Moves Stays New h.db.inputs h'.db.inputs)
    (hnew : ∀ row ∈ h'.db.inputs, New row → row.owner ∈ h'.erased ∨ h'.Ended row.owner row.id)
    (hkeys : ∀ row ∈ h'.db.keys, (row.owner, row.fingerprint) ∈ h'.log)
    (hchats : ∀ c chat, h'.chats c = some chat → c < h'.next ∧ chat.Sound h'.log) : Inv h' := by
  refine ⟨hm.nodup hi.nodup, fun row' hrow' hne => ?_, hkeys, hchats⟩
  rcases hm.status row' hrow' hne with hn | ⟨row, hrow, hk, hs⟩
  · exact hnew row' hrow' hn
  · obtain ⟨howner, hid⟩ := Prod.mk.inj hk
    rcases hi.inputs row hrow (hs ▸ hne) with hgone | he
    · exact .inl (hl.erased _ (howner ▸ hgone))
    · exact .inr (howner ▸ hid ▸ hl.ended he)

/-! ### The steps -/

/-- The clock values that a step reads. -/
def Act.reads : Act → Option Reads
  | .send _ _ _ _ _ r _ | .append _ _ _ _ _ r _ | .finish _ _ _ _ _ _ _ r _
  | .cancel _ _ _ _ _ r _ | .snapshot _ r => some r
  | .store .. | .stop _ | .ack .. | .erase _ => none

/-- The row has not expired for the clock values of a step. -/
def Act.spares (a : Act) (row : Input) : Prop := ∀ r, a.reads = some r → r.inputs < row.expires

/-- The call `c` is an old one. -/
def Host.Old (h : Host) (c : ℕ) (chat' : Chat) : Prop :=
  ∃ chat, h.chats c = some chat ∧ chat'.owner = chat.owner ∧ chat'.id = chat.id

/-- What a step does. -/
structure Step (h : Host) (a : Act) (h' : Host) : Prop where
  /-- a row that has not expired stays -/
  stays : ∀ row ∈ h.db.inputs, a.spares row → ∃ row' ∈ h'.db.inputs, key row' = key row
  /-- a call is an old one, or it is started, with a row that was not there -/
  chats : ∀ c chat', h'.chats c = some chat' → h.Old c chat' ∨
    c = h.next ∧ (∀ row ∈ h.db.inputs, a.spares row → key row ≠ (chat'.owner, chat'.id)) ∧
      ∃ row ∈ h'.db.inputs, key row = (chat'.owner, chat'.id)

variable {env : Environment} {message : Message} {k : Option String} {size : ℕ} {r : Reads}
  {t : Time} {c : ℕ} {a : Act}

theorem Host.Old.refl {chat : Chat} (hc : h.chats c = some chat) : h.Old c chat :=
  ⟨chat, hc, rfl, rfl⟩

/-- A step that starts no call. -/
theorem Step.of_moves (hm : Moves a.spares New h.db.inputs h'.db.inputs)
    (hc : ∀ c chat', h'.chats c = some chat' → h.Old c chat') : Step h a h' :=
  ⟨hm.stays, fun c chat' hchat => .inl (hc c chat' hchat)⟩

/-- One call goes on. -/
theorem old_update {chats : Table ℕ Chat} (hchats : h'.chats = chats.update c (fun _ => true) f)
    (heq : chats = h.chats) (hf : ∀ chat, (f chat).owner = chat.owner ∧ (f chat).id = chat.id) :
    ∀ c' chat', h'.chats c' = some chat' → h.Old c' chat' := by
  intro c' chat' hchat
  rw [hchats, heq] at hchat
  rcases h.chats.update_cases c (fun _ => true) f c' with hs | ⟨chat, rfl, hc, -, hs⟩
  · exact .refl (hs ▸ hchat)
  · rw [hs, Option.some.injEq] at hchat
    subst hchat
    exact ⟨chat, hc, hf chat⟩

/-- What an append does to a host. -/
structure Appends (h h' : Host) (owner : Owner) (content : Content) : Prop where
  /-- the calls -/
  chats : h'.chats = h.chats
  /-- their number -/
  next : h'.next = h.next
  /-- the erased owners -/
  erased : h'.erased = h.erased
  /-- the events -/
  log : ∀ e ∈ h.log, e ∈ h'.log
  /-- the event is stored -/
  stored : (owner, content) ∈ h'.log
  /-- the event of a key was stored -/
  keys : ∀ row ∈ h'.db.keys, (row.owner, row.fingerprint) ∈ h'.log

theorem appends (hi : Inv h) (hok : h.append env owner message k size r t = .ok h') :
    Appends h h' owner message.content ∧
      Moves (fun row => r.inputs < row.expires) (Ends owner message) h.db.inputs h'.db.inputs := by
  simp only [Host.append, bind_eq_ok, pure_eq_ok] at hok
  obtain ⟨⟨db, out⟩, happend, rfl⟩ := hok
  obtain ⟨hm, ⟨k', old, rfl, hold, hfp, hkeys, -⟩ | ⟨hnone, hkeys⟩⟩ := append_moves happend
  · -- The event of a known key was stored before.
    have hknown : ((some k').any fun k => (Records.find EventKey.id (owner, k) h.db.keys).isSome) =
        true := by
      rw [Option.any_some, hold]
      rfl
    have hid : old.id = (owner, k') := Records.key_of_find hold
    obtain ⟨howner, -⟩ := Prod.mk.inj hid
    have hstored := hi.keys old (Records.mem_of_find hold)
    rw [howner, hfp] at hstored
    rw [if_pos hknown]
    refine ⟨⟨rfl, rfl, rfl, fun e he => he, hstored, fun row hrow => hi.keys row ?_⟩, hm⟩
    exact hkeys ▸ hrow
  · have hnew : (k.any fun k => (Records.find EventKey.id (owner, k) h.db.keys).isSome) = false := by
      cases k with
      | none => rfl
      | some k =>
        rw [Option.any_some, hnone k rfl]
        rfl
    rw [if_neg (by rw [hnew]; exact Bool.false_ne_true)]
    have hlast : (owner, message.content) ∈ h.log ++ [(owner, message.content)] :=
      List.mem_append_right _ (List.mem_singleton_self _)
    refine ⟨⟨rfl, rfl, rfl, fun e he => List.mem_append_left _ he, hlast, fun row hrow => ?_⟩, hm⟩
    rcases hkeys row hrow with hold | ⟨howner, hfp⟩
    · exact List.mem_append_left _ (hi.keys row hold)
    · rw [howner, hfp]
      exact hlast

/-- The rows of an end. -/
theorem ended_of_ends (hlog : (owner, message.content) ∈ h'.log) {row : Input}
    (hrow : Ends owner message row) : row.owner ∈ h'.erased ∨ h'.Ended row.owner row.id := by
  obtain ⟨rfl, hid, htype⟩ := hrow
  exact .inr ⟨message.content, hlog, htype, .inl hid.symm⟩

theorem Inv.append (hi : Inv h) (hok : h.append env owner message k size r t = .ok h') :
    Inv h' ∧ Step h (.append env owner message k size r t) h' := by
  obtain ⟨ha, hm⟩ := appends hi hok
  have hl : Later h h' := ⟨ha.log, fun o ho => ha.erased ▸ ho, fun c chat hc =>
    ⟨chat, ha.chats ▸ hc, rfl, rfl, fun _ hlast => hlast⟩⟩
  refine ⟨hi.next hl hm (fun row _ hrow => ended_of_ends ha.stored hrow) ha.keys
    fun c chat hc => ?_, .of_moves (hm.mono (fun row _ hs => hs r rfl) fun _ hn => hn)
    fun c chat' hc => .refl (ha.chats ▸ hc)⟩
  rw [ha.chats] at hc
  rw [ha.next]
  exact ⟨(hi.chats c chat hc).1, (hi.chats c chat hc).2.later ha.log⟩

theorem Inv.finish (hi : Inv h) {value : Payload} {cancelled : Bool}
    {dk : Option (String × String)} {rest : String}
    (hok : h.finish env c value cancelled dk rest size r t = .ok h') :
    Inv h' ∧ Step h (.finish env c value cancelled dk rest size r t) h' := by
  simp only [Host.finish, bind_eq_ok, require_eq_ok, ensure_eq_ok, decide_eq_true_eq,
    pure_eq_ok] at hok
  obtain ⟨chat, hchat, -, hrunning, x, happend, rfl⟩ := hok
  obtain ⟨ha, hm⟩ := appends hi happend
  obtain ⟨hlt, hsound⟩ := hi.chats c chat hchat
  set f : Chat → Chat := fun chat' => { chat' with
    pc := .ended value
    last := some (Host.endMessage chat value cancelled dk rest).content } with hf
  have hkept : ∀ c' chat', ({ x with chats := x.chats.update c (fun _ => true) f } : Host).chats c' =
      some chat' → h.Old c' chat' := old_update rfl ha.chats fun _ => ⟨rfl, rfl⟩
  have hl : Later h { x with chats := x.chats.update c (fun _ => true) f } := by
    refine ⟨ha.log, fun o ho => ha.erased ▸ ho, fun c' chat' hc' => ?_⟩
    show ∃ y, (x.chats.update c (fun _ => true) f) c' = some y ∧ _
    rw [ha.chats]
    rcases h.chats.update_cases c (fun _ => true) f c' with hs | ⟨chat₁, rfl, hc, -, hs⟩
    · exact ⟨chat', hs.trans hc', rfl, rfl, fun _ hlast => hlast⟩
    · rw [hchat] at hc hc'
      cases hc
      cases hc'
      refine ⟨_, hs, rfl, rfl, fun content hlast => ?_⟩
      rw [hsound.running hrunning] at hlast
      cases hlast
  refine ⟨hi.next hl hm (fun row _ hrow => ended_of_ends (by exact ha.stored) hrow) ha.keys
    fun c' chat' hc' => ?_, .of_moves (hm.mono (fun row _ hs => hs r rfl) fun _ hn => hn) hkept⟩
  replace hc' : (x.chats.update c (fun _ => true) f) c' = some chat' := hc'
  rw [ha.chats] at hc'
  show c' < x.next ∧ chat'.Sound x.log
  rw [ha.next]
  rcases h.chats.update_cases c (fun _ => true) f c' with hs | ⟨chat₁, rfl, hc, -, hs⟩
  · rw [hs] at hc'
    exact ⟨(hi.chats c' chat' hc').1, (hi.chats c' chat' hc').2.later ha.log⟩
  · rw [hchat] at hc
    cases hc
    rw [hs, Option.some.injEq] at hc'
    subst hc'
    refine ⟨hlt, (fun hc => by cases hc), fun _ _ => rfl, fun content hlast => ?_⟩
    cases hlast
    exact ⟨ha.stored, rfl⟩

/-- A call comes to its end. -/
theorem later_over {x : Host} (hx : Later h x) (c : ℕ) : Later h (x.goto c .over) := by
  refine ⟨hx.log, hx.erased, fun c' chat hc => ?_⟩
  obtain ⟨chat', hc', howner, hid, hlast⟩ := hx.chats c' chat hc
  show ∃ y, (x.chats.update c (fun _ => true) _) c' = some y ∧ _
  rcases x.chats.update_cases c (fun _ => true) (fun chat : Chat => { chat with pc := .over }) c' with
    hs | ⟨chat₁, rfl, hc₁, -, hs⟩
  · exact ⟨chat', hs.trans hc', howner, hid, hlast⟩
  · rw [hc'] at hc₁
    cases hc₁
    exact ⟨_, hs, howner, hid, hlast⟩

theorem sound_over {log : List (Owner × Content)} {chats : Table ℕ Chat} {next : ℕ}
    (hchats : ∀ c chat, chats c = some chat → c < next ∧ chat.Sound log) (c c' : ℕ) (chat : Chat)
    (hc : (chats.update c (fun _ => true) fun chat => { chat with pc := .over }) c' = some chat) :
    c' < next ∧ chat.Sound log := by
  rcases chats.update_cases c (fun _ => true) (fun chat : Chat => { chat with pc := .over }) c' with
    hs | ⟨chat₁, rfl, hc₁, -, hs⟩
  · rw [hs] at hc
    exact hchats c' chat hc
  · rw [hs, Option.some.injEq] at hc
    subst hc
    obtain ⟨hlt, hsound⟩ := hchats c' chat₁ hc₁
    exact ⟨hlt, (fun hc => by cases hc), (fun _ hc => by cases hc), hsound.last⟩

theorem Inv.cancel (hi : Inv h) {text rest : String}
    (hok : h.cancel env c text rest size r t = .ok h') :
    Inv h' ∧ Step h (.cancel env c text rest size r t) h' := by
  simp only [Host.cancel, bind_eq_ok, pure_eq_ok] at hok
  obtain ⟨chat, -, -, -, x, happend, rfl⟩ := hok
  obtain ⟨ha, hm⟩ := appends hi happend
  have hl : Later h x := ⟨ha.log, fun o ho => ha.erased ▸ ho, fun c chat hc =>
    ⟨chat, ha.chats ▸ hc, rfl, rfl, fun _ hlast => hlast⟩⟩
  refine ⟨hi.next (later_over hl c) hm (fun row _ hrow => ended_of_ends (by exact ha.stored) hrow)
    ha.keys (sound_over (fun c' chat' hc' => ?_) c),
    .of_moves (hm.mono (fun row _ hs => hs r rfl) fun _ hn => hn)
      (old_update rfl ha.chats fun _ => ⟨rfl, rfl⟩)⟩
  rw [ha.chats] at hc'
  show c' < x.next ∧ chat'.Sound x.log
  rw [ha.next]
  exact ⟨(hi.chats c' chat' hc').1, (hi.chats c' chat' hc').2.later ha.log⟩

theorem Later.refl (h : Host) : Later h h :=
  ⟨fun _ he => he, fun _ ho => ho, fun _ chat hc => ⟨chat, hc, rfl, rfl, fun _ hlast => hlast⟩⟩

/-- The status of a call is stored. -/
theorem Inv.store (hi : Inv h) {cancelled : Bool} (hok : h.store c cancelled = .ok h') :
    Inv h' ∧ Step h (.store c cancelled) h' := by
  simp only [Host.store, bind_eq_ok, require_eq_ok] at hok
  obtain ⟨chat, hchat, hok⟩ := hok
  split at hok
  · next value hpc =>
    simp only [pure_eq_ok] at hok
    subst hok
    obtain ⟨-, hsound⟩ := hi.chats c chat hchat
    obtain ⟨content, hlast⟩ := Option.isSome_iff_exists.1 (hsound.ended value hpc)
    obtain ⟨hlog, htype⟩ := hsound.last content hlast
    have hm := moves_setStatus chat.owner (some chat.id) (Host.finishStatus value cancelled)
      h.db.inputs
    have hl := later_over (Later.refl h) c
    refine ⟨hi.next ⟨hl.log, hl.erased, hl.chats⟩ hm (fun row _ hrow => ?_) hi.keys
      (sound_over hi.chats c), .of_moves (hm.mono (fun _ _ _ => trivial) fun _ hn => hn)
      (old_update rfl rfl fun _ => ⟨rfl, rfl⟩)⟩
    obtain ⟨howner, hid⟩ := hrow
    obtain ⟨chat', hc', howner', hid', hlast'⟩ := hl.chats c chat hchat
    rw [Option.some.injEq] at hid
    refine .inr ⟨content, howner ▸ hlog, htype, .inr ⟨c, chat', hc', howner'.trans howner.symm,
      hid'.trans hid.symm, hlast' content hlast⟩⟩
  · cases hok

/-- A step that leaves the calls, the events and the keys. -/
theorem Inv.quiet (hi : Inv h) {x : Host} (hchats : x.chats = h.chats) (hnext : x.next = h.next)
    (hlog : x.log = h.log) (herased : ∀ o ∈ h.erased, o ∈ x.erased) (hkeys : x.db.keys = h.db.keys)
    (hm : Moves a.spares New h.db.inputs x.db.inputs)
    (hnew : ∀ row ∈ x.db.inputs, New row → row.owner ∈ x.erased) : Inv x ∧ Step h a x := by
  refine ⟨hi.next ⟨hlog ▸ fun _ he => he, herased, fun c chat hc =>
    ⟨chat, hchats ▸ hc, rfl, rfl, fun _ hlast => hlast⟩⟩ hm (fun row hrow hn => .inl (hnew row hrow hn))
    (fun row hrow => ?_) fun c chat hc => ?_, .of_moves hm fun c chat' hc => .refl (hchats ▸ hc)⟩
  · rw [hlog]
    exact hi.keys row (hkeys ▸ hrow)
  · rw [hnext, hlog]
    exact hi.chats c chat (hchats ▸ hc)

/-- **An input is accepted before its chat is started.** -/
theorem Inv.send (hi : Inv h) {checked : Host.Checked} {content : String} {s : Option InputStatus}
    (hok : h.send env checked owner id content r t = .ok (h', s)) :
    Inv h' ∧ Step h (.send env checked owner id content r t) h' := by
  simp only [Host.send, bind_eq_ok] at hok
  obtain ⟨-, -, -, -, ⟨db, previous⟩, haccept, hok⟩ := hok
  obtain ⟨hkeys, hm, hnone, -⟩ := acceptInput_moves haccept
  have hm' : Moves (Act.send env checked owner id content r t).spares (fun _ => False) h.db.inputs
      db.inputs := hm.mono (fun row _ hs => hs r rfl) fun _ hn => hn
  split_ifs at hok with hprevious
  · simp only [pure_eq_ok, Prod.mk.injEq] at hok
    obtain ⟨rfl, -⟩ := hok
    exact hi.quiet rfl rfl rfl (fun _ ho => ho) hkeys hm' fun _ _ hn => hn.elim
  · simp only [pure_eq_ok, Prod.mk.injEq] at hok
    obtain ⟨rfl, -⟩ := hok
    obtain ⟨hnew, hrow⟩ := hnone (Option.not_isSome_iff_eq_none.1 hprevious)
    have hfree : h.chats h.next = none := by
      rw [Option.eq_none_iff_forall_ne_some]
      exact fun chat hc => lt_irrefl _ (hi.chats _ chat hc).1
    refine ⟨hi.next ⟨fun _ he => he, fun _ ho => ho, fun c chat hc => ?_⟩ hm
      (fun _ _ hn => hn.elim) (fun row hrow => hi.keys row (hkeys ▸ hrow)) fun c chat hc => ?_,
      hm'.stays, fun c chat hc => ?_⟩
    · have hne : c ≠ h.next := by
        rintro rfl
        rw [hfree] at hc
        cases hc
      exact ⟨chat, (Table.set_of_ne _ _ _ hne).trans hc, rfl, rfl, fun _ hlast => hlast⟩
    · replace hc : (h.chats.set h.next { owner := owner, id := id }) c = some chat := hc
      rw [Table.set_apply] at hc
      show c < h.next + 1 ∧ _
      split_ifs at hc with hn
      · cases hc
        exact ⟨by omega, (fun _ => rfl), (fun _ hc => by cases hc), fun _ hc => by cases hc⟩
      · obtain ⟨hlt, hsound⟩ := hi.chats c chat hc
        exact ⟨by omega, hsound⟩
    · replace hc : (h.chats.set h.next { owner := owner, id := id }) c = some chat := hc
      rw [Table.set_apply] at hc
      split_ifs at hc with hn
      · cases hc
        exact .inr ⟨hn, fun row hr hs => hnew row hr (hs r rfl), hrow⟩
      · exact .inl (.refl hc)

theorem Inv.step (hi : Inv h) (hst : Host.lts.step h a h') : Inv h' ∧ Step h a h' := by
  replace hst : h' = h.after a := hst
  unfold Host.after at hst
  cases hok : h.attempt a with
  | error e =>
    rw [hok] at hst
    subst hst
    exact hi.quiet rfl rfl rfl (fun _ ho => ho) rfl
      ((Moves.refl _).mono (fun _ _ _ => trivial) fun _ hn => hn) fun _ _ hn => hn.elim
  | ok x =>
    rw [hok] at hst
    subst hst
    cases a with
    | send env checked owner id content r t =>
      rw [Host.attempt] at hok
      cases hsend : h.send env checked owner id content r t with
      | error e =>
        rw [hsend] at hok
        cases hok
      | ok y =>
        rw [hsend] at hok
        cases hok
        exact hi.send hsend
    | append env owner message k size r t => exact hi.append hok
    | finish env c value cancelled dk rest size r t => exact hi.finish hok
    | cancel env c text rest size r t => exact hi.cancel hok
    | store c cancelled => exact hi.store hok
    | stop c =>
      cases hok
      have hl := later_over (Later.refl h) c
      have hm : Moves (Act.stop c).spares (fun _ => False) h.db.inputs h.db.inputs :=
        (Moves.refl _).mono (fun _ _ _ => trivial) fun _ hn => hn
      exact ⟨hi.next hl hm (fun _ _ hn => hn.elim) hi.keys (sound_over hi.chats c),
        .of_moves hm (old_update rfl rfl fun _ => ⟨rfl, rfl⟩)⟩
    | snapshot owner r =>
      cases hok
      exact hi.quiet rfl rfl rfl (fun _ ho => ho) rfl
        ((moves_filter r.inputs h.db.inputs).mono (fun row _ hs => hs r rfl) fun _ hn => hn)
        fun _ _ hn => hn.elim
    | ack owner seq =>
      rw [Host.attempt] at hok
      cases hack : EventStore.ack owner seq h.db with
      | error e =>
        rw [hack] at hok
        cases hok
      | ok y =>
        rw [hack] at hok
        cases hok
        simp only [EventStore.ack, bind_eq_ok, pure_eq_ok] at hack
        obtain ⟨-, -, rfl⟩ := hack
        exact hi.quiet rfl rfl rfl (fun _ ho => ho) rfl
          ((Moves.refl _).mono (fun _ _ _ => trivial) fun _ hn => hn) fun _ _ hn => hn.elim
    | erase owner =>
      cases hok
      have hm : Moves (Act.erase owner).spares (fun row => row.owner = owner) h.db.inputs
          (EventStore.eraseOwner owner h.db).inputs := by
        refine (moves_map (fun row => ?_) fun row _ => ?_).mono (fun _ _ _ => trivial) fun _ hn => hn
        · split_ifs <;> rfl
        · split_ifs with ho
          · exact .inr ho
          · exact .inl rfl
      exact hi.quiet rfl rfl rfl (fun o ho => List.mem_append_left _ ho) rfl hm fun row _ hn =>
        List.mem_append_right _ (hn ▸ List.mem_singleton_self _)

theorem inv_initial (h₀ : h.Initial) : Inv h := by
  subst h₀
  exact ⟨List.nodup_nil, (fun row hrow => by cases hrow), (fun row hrow => by cases hrow),
    fun c chat hc => by cases hc⟩

/-! ### At most one chat -/

/-- No row of the input expires in a step. -/
def Keeps (owner : Owner) (id : String) (h : Host) (a : Act) : Prop :=
  ∀ row ∈ h.db.inputs, key row = (owner, id) → a.spares row

/-- At most one chat was started for the input, and there is a row for it. -/
structure Once (h : Host) (owner : Owner) (id : String) : Prop where
  /-- at most one -/
  one : ∀ c c' chat chat', h.chats c = some chat → h.chats c' = some chat' →
    (chat.owner, chat.id) = (owner, id) → (chat'.owner, chat'.id) = (owner, id) → c = c'
  /-- the row -/
  accepted : ∀ c chat, h.chats c = some chat → (chat.owner, chat.id) = (owner, id) →
    ∃ row ∈ h.db.inputs, key row = (owner, id)

theorem Once.step (ho : Once h owner id) (hk : Keeps owner id h a)
    (hst : Step h a h') : Once h' owner id := by
  -- A call that is started has no row, and an older call of the input would have one.
  have hnew : ∀ c chat', h'.chats c = some chat' → (chat'.owner, chat'.id) = (owner, id) →
      h.Old c chat' ∨ c = h.next ∧ (∃ row ∈ h'.db.inputs, key row = (owner, id)) ∧
        ∀ c chat, h.chats c = some chat → (chat.owner, chat.id) ≠ (owner, id) := by
    intro c chat' hc hid
    rcases hst.chats c chat' hc with hold | ⟨hn, hnone, hrow⟩
    · exact .inl hold
    · rw [hid] at hnone hrow
      refine .inr ⟨hn, hrow, fun c chat hc hid' => ?_⟩
      obtain ⟨row, hr, hkey⟩ := ho.accepted c chat hc hid'
      exact hnone row hr (hk row hr hkey) hkey
  refine ⟨fun c c' chat chat' hc hc' hid hid' => ?_, fun c chat hc hid => ?_⟩
  · rcases hnew c chat hc hid with ⟨y, hy, howner, hyid⟩ | ⟨hn, -, hnone⟩
    · have hkey : (y.owner, y.id) = (owner, id) := by rw [← howner, ← hyid, hid]
      rcases hnew c' chat' hc' hid' with ⟨y', hy', howner', hyid'⟩ | ⟨-, -, hnone⟩
      · have hkey' : (y'.owner, y'.id) = (owner, id) := by rw [← howner', ← hyid', hid']
        exact ho.one c c' y y' hy hy' hkey hkey'
      · exact absurd hkey (hnone c y hy)
    · rcases hnew c' chat' hc' hid' with ⟨y', hy', howner', hyid'⟩ | ⟨hn', -, -⟩
      · have hkey' : (y'.owner, y'.id) = (owner, id) := by rw [← howner', ← hyid', hid']
        exact absurd hkey' (hnone c' y' hy')
      · exact hn.trans hn'.symm
  · rcases hnew c chat hc hid with ⟨y, hy, howner, hyid⟩ | ⟨-, hrow, -⟩
    · have hkey : (y.owner, y.id) = (owner, id) := by rw [← howner, ← hyid, hid]
      obtain ⟨row, hr, hrkey⟩ := ho.accepted c y hy hkey
      obtain ⟨row', hr', hrkey'⟩ := hst.stays row hr (hk row hr hrkey)
      exact ⟨row', hr', hrkey'.trans hrkey⟩
    · exact hrow

theorem once_reachable (hr : (Host.lts.restrict (Keeps owner id)).Reachable Host.Initial h) :
    Inv h ∧ Once h owner id := by
  refine hr.invariant (I := fun s => Inv s ∧ Once s owner id) (fun s h₀ => ⟨inv_initial h₀, ?_⟩) fun s a s' hs hst => ?_
  · subst h₀
    exact ⟨fun c c' chat chat' hc => (by cases hc), fun c chat hc => (by cases hc)⟩
  · obtain ⟨hi', hstep⟩ := hs.1.step hst.1
    exact ⟨hi', hs.2.step hst.2 hstep⟩

/-- A row that has not expired answers a repetition. -/
theorem Inv.repeated (hi : Inv h) {row : Input} (hrow : row ∈ h.db.inputs)
    (hkey : key row = (owner, id)) (hlt : r.inputs < row.expires) {checked : Host.Checked}
    {content : String} {s : Option InputStatus}
    (hok : h.send env checked owner id content r t = .ok (h', s)) :
    row.digest = some content ∧ s = some row.status ∧ h'.chats = h.chats := by
  simp only [Host.send, bind_eq_ok] at hok
  obtain ⟨-, -, -, -, ⟨db, previous⟩, haccept, hok⟩ := hok
  obtain ⟨-, -, hnone, hsome⟩ := acceptInput_moves haccept
  cases previous with
  | none => exact absurd hkey ((hnone rfl).1 row hrow hlt)
  | some st =>
    simp only [Option.isSome_some, if_true, pure_eq_ok, Prod.mk.injEq] at hok
    obtain ⟨rfl, rfl⟩ := hok
    obtain ⟨row', hrow', -, hkey', hdigest, hstatus⟩ := hsome st rfl
    have heq := List.inj_on_of_nodup_map hi.nodup hrow' hrow (hkey'.trans hkey.symm)
    subst heq
    exact ⟨hdigest, congrArg some hstatus.symm, rfl⟩

/-- A row that has not expired is the answer to a repetition with the same content. -/
theorem Inv.answered (hi : Inv h) {row : Input} (hrow : row ∈ h.db.inputs)
    (hkey : key row = (owner, id)) (hlt : r.inputs < row.expires) {content : String}
    (hdigest : row.digest = some content) (hid : (id ≠ "" && id.length ≤ 128) = true) :
    ∃ h', h.send env (.ok ()) owner id content r t = .ok (h', some row.status) ∧
      h'.chats = h.chats := by
  have hkept : row ∈ (EventStore.cleanup r h.db).inputs :=
    List.mem_filter.2 ⟨hrow, decide_eq_true hlt⟩
  have hfound : ((EventStore.cleanup r h.db).inputs.find? fun i => i.owner = owner && i.id = id) =
      some row := by
    obtain ⟨howner, hidrow⟩ := Prod.mk.inj hkey
    cases hfind : (EventStore.cleanup r h.db).inputs.find? fun i => i.owner = owner && i.id = id with
    | none => exact absurd (List.find?_eq_none.1 hfind row hkept) (by simp [howner, hidrow])
    | some old =>
      have hold := List.find?_some hfind
      simp only [Bool.and_eq_true, decide_eq_true_eq] at hold
      refine congrArg some (List.inj_on_of_nodup_map hi.nodup ?_ hrow ?_)
      · exact (List.mem_filter.1 (List.mem_of_find?_eq_some hfind)).1
      · exact (Prod.ext hold.1 hold.2 : key old = (owner, id)).trans hkey.symm
  have haccept : EventStore.acceptInput env owner id content r t h.db =
      .ok (EventStore.cleanup r h.db, some row.status) := by
    simp only [EventStore.acceptInput, hfound, hdigest, decide_true, ensure_true]
    rfl
  refine ⟨{ h with db := EventStore.cleanup r h.db }, ?_, rfl⟩
  simp only [Host.send, hid, ensure_true, haccept]
  rfl

namespace Host

/-- **A chat input runs at most once.**  In every run in which the row of the input does not expire,
at most one chat is started for it; a repetition starts nothing, and, unless a check that precedes
the input refuses it, is answered with the stored status if it has the same content, and refused
otherwise; and a status other than `uncertain` is stored only after an end of it was appended, or
its owner was erased. -/
theorem chat_once (hr : (lts.restrict (Keeps owner id)).Reachable Initial h) :
    (∀ c c' chat chat', h.chats c = some chat → h.chats c' = some chat' →
      (chat.owner, chat.id) = (owner, id) → (chat'.owner, chat'.id) = (owner, id) → c = c') ∧
    ∀ row ∈ h.db.inputs, key row = (owner, id) →
      (row.status ≠ .uncertain → owner ∈ h.erased ∨ h.Ended owner id) ∧
      (∀ env checked content r t h' s, r.inputs < row.expires →
        h.send env checked owner id content r t = .ok (h', s) →
        row.digest = some content ∧ s = some row.status ∧ h'.chats = h.chats) ∧
      ∀ env content r t, r.inputs < row.expires → row.digest = some content →
        (id ≠ "" && id.length ≤ 128) = true → ∃ h',
          h.send env (.ok ()) owner id content r t = .ok (h', some row.status) ∧
            h'.chats = h.chats := by
  obtain ⟨hi, ho⟩ := once_reachable hr
  refine ⟨ho.one, fun row hrow hkey => ⟨fun hne => ?_, ?_, fun env content r t hlt hdigest hid =>
    hi.answered hrow hkey hlt hdigest hid⟩⟩
  · obtain ⟨rfl, rfl⟩ := Prod.mk.inj hkey
    exact hi.inputs row hrow hne
  · intro env checked content r t h' s hlt hok
    exact hi.repeated hrow hkey hlt hok

/-! ### A chat that ends -/

namespace Sample

/-- No input was accepted. -/
def start : Host := { db := .empty }

/-- The environment without any limit. -/
def limits : Environment := fun _ => none

/-- A chat was started. -/
def sent : Host := start.after (.send limits (.ok ()) "owner" "m" "hello" ⟨0, 0, 0⟩ 0)

/-- It has come to its end. -/
def ended : Host := sent.after (.finish limits 0 {} false none "" 40 ⟨0, 0, 0⟩ 0)

/-- Its status is stored. -/
def stored : Host := ended.after (.store 0 false)

/-- The message comes again. -/
def repeated : Host := stored.after (.send limits (.ok ()) "owner" "m" "hello" ⟨0, 0, 0⟩ 0)

theorem keeps {h : Host} {a : Act} (hrows : ∀ row ∈ h.db.inputs, 0 < row.expires)
    (hreads : ∀ r, a.reads = some r → r.inputs = 0) : Keeps "owner" "m" h a := by
  intro row hrow _ r hr
  rw [hreads r hr]
  exact hrows row hrow

theorem reachable : (lts.restrict (Keeps "owner" "m")).Reachable Initial repeated := by
  have h₁ : (lts.restrict (Keeps "owner" "m")).Reachable Initial sent :=
    (Lts.Reachable.of_init (show Initial start from rfl)).step
      ⟨rfl, keeps (fun row hrow => by cases hrow) fun r hr => by cases hr; rfl⟩
  have h₂ : (lts.restrict (Keeps "owner" "m")).Reachable Initial ended :=
    h₁.step ⟨rfl, keeps (by decide) fun r hr => by cases hr; rfl⟩
  have h₃ : (lts.restrict (Keeps "owner" "m")).Reachable Initial stored :=
    h₂.step ⟨rfl, keeps (by decide) fun r hr => by cases hr⟩
  exact h₃.step ⟨rfl, keeps (by decide) fun r hr => by cases hr; rfl⟩

end Sample

/-- The chat was started once, its end is stored, and the message that came again has started
nothing; when it comes once more, it is answered with the stored status. -/
theorem chat_once_sample : Sample.repeated.Ended "owner" "m" ∧ Sample.repeated.next = 1 ∧
    Sample.repeated.db.inputs.map (·.status) = [.completed] ∧
    ∃ h', Sample.repeated.send Sample.limits (.ok ()) "owner" "m" "hello" ⟨1, 1, 1⟩ 1 =
      .ok (h', some .completed) ∧ h'.chats = Sample.repeated.chats := by
  obtain ⟨-, hrows⟩ := chat_once Sample.reachable
  have hrow : (⟨"owner", "m", some "hello", .completed, 604800⟩ : Input) ∈
      Sample.repeated.db.inputs := by decide
  obtain ⟨hstatus, -, hagain⟩ := hrows _ hrow rfl
  refine ⟨(hstatus fun hc => by cases hc).resolve_left fun hc => ?_, by decide, by decide,
    hagain Sample.limits "hello" ⟨1, 1, 1⟩ 1 (by decide) rfl (by decide)⟩
  exact absurd hc (by decide)

end Host

end Inputs

end Delivery

end PythonAI
