import PythonAI.Delivery.History
import PythonAI.Temporal.Settled

/-!
# The stream that a client sees

`publish` copies the journal of a submission to the event history of its WebSocket client: it
selects pending events, appends them to the history one by one, and marks each as sent.  The two
databases have no common transaction, and any number of publishers work at the same time.

* `Host.lts` : the operations of the backend, the event history and the publishers, in any order;
* `InOrder` : the events of a submission are in the history in the order of the journal, at most
  once each, and nothing follows the final event;
* `Host.publish_ordered` : **the stream is in order** in the runs in which no publisher sends an
  event that another one has cancelled since it was selected;
* `publish_late` : a run in which an event follows the final event.
-/

namespace PythonAI

open Library

namespace Temporal

namespace Publishing

/-- How events become frames. -/
structure Frames where
  /-- `temporal_event_id`: the digest of the submission and the key of the event -/
  eventId : SubmissionId → String → String
  /-- `target['owner']` -/
  owner : Context → Owner
  /-- `json.loads(item['payload'])` -/
  payload : String → Delivery.Payload

/-- The type of the frame of an event. -/
def frameType (kind : String) : String :=
  if kind = "model.delta" then "chat.delta" else if kind = "end" then "chat.end" else kind

/-- The frame of an event; `rest` holds its time stamp. -/
def Frames.message (F : Frames) (row : Submission) (e : Event) (rest : String) :
    Delivery.Message where
  content := ⟨some (frameType e.kind), some row.task, some (F.payload e.payload)⟩
  rest := rest

/-! ### `publish` -/

/-- The pending events other than the final one are cancelled. -/
def cancelPending (events : List Event) : List Event :=
  events.map fun e =>
    if e.delivery = .pending ∧ e.key ≠ finalKey then { e with delivery := .cancelled } else e

/-- The first pending events, with their positions. -/
def pending (events : List Event) : List (ℕ × Event) :=
  ((events.zipIdx.map Prod.swap).filter fun x => x.2.delivery = .pending).take 256

/-- The event at the position `n` is marked as sent. -/
def markSent (n : ℕ) (events : List Event) : List Event :=
  events.modify n fun e => { e with delivery := .sent }

/-- Where a call of `publish` is. -/
inductive Pc
  /-- it has its row -/
  | ready
  /-- it goes on with the events it selected -/
  | sending (rest : List (ℕ × Event))
  /-- the event at `n` is in the history, and is not marked yet -/
  | marking (n : ℕ) (rest : List (ℕ × Event))
  deriving DecidableEq, Repr

/-- A call of `publish`. -/
structure Publisher where
  /-- `row['id']` -/
  key : SubmissionId
  /-- `row`, as it was read -/
  row : Submission
  /-- where it is -/
  pc : Pc
  deriving DecidableEq, Repr

/-- The journal after the call has selected its events. -/
def Publisher.selected (pub : Publisher) (events : List Event) : List Event :=
  if pub.row.state = .cancelled ∨ pub.row.state = .uncertain then cancelPending events else events

/-- The append of the event `e` to the history. -/
def Publisher.append (F : Frames) (pub : Publisher) (e : Event) (env : Environment)
    (rest : String) (size : ℕ) (r : Delivery.Reads) (t : Time) : Delivery.Act :=
  .append env (F.owner pub.row.scope.context) (F.message pub.row e rest)
    (some (F.eventId pub.key e.key)) size r t

/-- Where the call goes on after the append of the event at `n`, which may raise. -/
def Publisher.after (pub : Publisher) (n : ℕ) (later : List (ℕ × Event)) :
    Except Error Delivery.Db → Option Publisher
  | .ok _ => some { pub with pc := .marking n later }
  | .error _ => none

/-! ### Any number of publishers -/

/-- The backend, the event history and the publishers. -/
structure Host where
  /-- the task database -/
  base : Sys
  /-- the event history -/
  outbox : Delivery.Host
  /-- the calls of `publish` -/
  publishers : ℕ → Option Publisher

/-- A step. -/
inductive Act
  /-- an operation of the backend -/
  | op (o : Op)
  /-- an operation of the event history that is not one of a publisher -/
  | outbox (a : Delivery.Act)
  /-- the call `p` starts with the row of a submission -/
  | read (p : ℕ) (key : SubmissionId)
  /-- it selects its events, in a scope that may be refused -/
  | select (p : ℕ) (scope : Except Error Unit)
  /-- it appends the next event to the history -/
  | send (p : ℕ) (env : Environment) (rest : String) (size : ℕ) (r : Delivery.Reads) (t : Time)
  /-- it marks that event as sent -/
  | mark (p : ℕ)
  /-- it ends, or its process crashes -/
  | stop (p : ℕ)

/-- `finalize` appends the final event, and nothing else has its key or is terminal. -/
def finalOnly : Op → Prop
  | .append _ _ _ _ eventKey _ _ terminal _ => terminal = true ↔ eventKey = finalKey
  | _ => True

/-- The keys of the journal of a submission. -/
def keys (db : Db) (key : SubmissionId) : List String := (db.events key).map Event.key

/-- The digests of the journals do not collide. -/
def Distinct (F : Frames) (db : Db) : Prop :=
  ∀ key key' k k', k ∈ keys db key → k' ∈ keys db key' →
    F.eventId key k = F.eventId key' k' → key = key' ∧ k = k'

namespace Host

/-- The call `p` goes on as `x`. -/
def put (h : Host) (p : ℕ) (x : Option Publisher) : Host :=
  { h with publishers := Function.update h.publishers p x }

/-- The journal of `key` is written. -/
def write (h : Host) (key : SubmissionId) (events : List Event) : Host :=
  { h with base := { h.base with
      db := { h.base.db with events := Function.update h.base.db.events key events } } }

/-- What a step does. -/
def Step (F : Frames) (ttl : ℕ) (h : Host) (a : Act) (h' : Host) : Prop :=
  match a with
  | .op o => finalOnly o ∧ Distinct F (h.base.after o).db ∧ h' = { h with base := h.base.after o }
  | .outbox a => a.key = none ∧ ∃ outbox, (Delivery.Host.lts ttl).step h.outbox a outbox ∧
      h' = { h with outbox := outbox }
  | .read p key => ∃ row, h.publishers p = none ∧ h.base.db.submissions key = some row ∧
      h' = h.put p (some ⟨key, row, .ready⟩)
  | .select p scope => ∃ pub, h.publishers p = some pub ∧ pub.pc = .ready ∧
      pub.row.scope.context.publication.bind (·.delivery) = some "websocket" ∧
      h' = match scope with
        | .error _ => h.put p none
        | .ok () =>
          let events := pub.selected (h.base.db.events pub.key)
          (h.write pub.key events).put p (some { pub with pc := .sending (pending events) })
  | .send p env rest size r t => ∃ pub n e later, h.publishers p = some pub ∧
      pub.pc = .sending ((n, e) :: later) ∧
      let a := pub.append F e env rest size r t
      ∃ outbox, (Delivery.Host.lts ttl).step h.outbox a outbox ∧
        h' = { h with outbox := outbox }.put p (pub.after n later (a.attempt h.outbox.db))
  | .mark p => ∃ pub n later, h.publishers p = some pub ∧ pub.pc = .marking n later ∧
      h' = (h.write pub.key (markSent n (h.base.db.events pub.key))).put p
        (some { pub with pc := .sending later })
  | .stop p => h' = h.put p none

/-- One step at a time; the TTL of the events of the history is `ttl`. -/
def lts (F : Frames) (ttl : ℕ) : Lts Host Act where
  step := Step F ttl

/-- New databases, and no publisher. -/
structure Initial (h : Host) : Prop where
  /-- the task database -/
  base : h.base.Initial
  /-- the event history -/
  outbox : h.outbox.Initial
  /-- the publishers -/
  publishers : ∀ p, h.publishers p = none

end Host

/-- **What a client sees.**  Of two entries of the history that are events of one submission, the
earlier one is the earlier one in the journal, has the smaller number, and is not the final one. -/
def InOrder (F : Frames) (db : Db) (log : List (Delivery.Event × Option String)) : Prop :=
  log.Pairwise fun x y => ∀ key (n m : ℕ) k k', (keys db key)[n]? = some k →
    (keys db key)[m]? = some k' → x.2 = some (F.eventId key k) →
    y.2 = some (F.eventId key k') → n < m ∧ x.1.seq < y.1.seq ∧ k ≠ finalKey

/-- The event that a publisher sends was not cancelled in the journal since it was selected. -/
def Fresh (h : Host) : Act → Prop
  | .send p .. => ∀ pub n e later f, h.publishers p = some pub →
      pub.pc = .sending ((n, e) :: later) → (h.base.db.events pub.key)[n]? = some f →
      f.delivery ≠ .cancelled
  | _ => True

/-! ### Journals -/

section

variable {F : Frames} {events : List Event} {db db' : Db} {key : SubmissionId} {n : ℕ} {e : Event}

/-- The event is neither to be sent nor sent. -/
def Aside (e : Event) : Prop := e.delivery ≠ .pending ∧ e.delivery ≠ .sent

/-- The event has been one to send. -/
def Sendable (e : Event) : Prop := e.delivery ≠ .local ∧ e.delivery ≠ .none

/-- The event of `key` under `k` is in the history. -/
def Appended (F : Frames) (h : Host) (key : SubmissionId) (k : String) : Prop :=
  ∃ x ∈ h.outbox.log, x.2 = some (F.eventId key k)

theorem getElem?_keys (h : (db.events key)[n]? = some e) : (keys db key)[n]? = some e.key := by
  rw [keys, List.getElem?_map, h]; rfl

theorem event_of_key {k : String} (h : (keys db key)[n]? = some k) :
    ∃ e, (db.events key)[n]? = some e ∧ e.key = k := by
  rw [keys, List.getElem?_map, Option.map_eq_some_iff] at h
  exact h

theorem cancelPending_keys (events : List Event) :
    (cancelPending events).map Event.key = events.map Event.key := by
  rw [cancelPending, List.map_map]
  refine List.map_congr_left fun e _ => ?_
  show (if _ then _ else _ : Event).key = e.key
  split_ifs <;> rfl

theorem markSent_keys (n : ℕ) (events : List Event) :
    (markSent n events).map Event.key = events.map Event.key := by
  refine List.ext_getElem? fun m => ?_
  rw [markSent, List.getElem?_map, List.getElem?_map, List.getElem?_modify]
  cases events[m]? with
  | none => rfl
  | some e =>
    show some (if n = m then _ else _ : Event).key = some e.key
    split_ifs <;> rfl

theorem selected_keys (pub : Publisher) (events : List Event) :
    (pub.selected events).map Event.key = events.map Event.key := by
  unfold Publisher.selected
  split_ifs
  · exact cancelPending_keys events
  · rfl

/-- What a selection does to an event. -/
theorem selected_event (pub : Publisher) {f : Event} (h : (pub.selected events)[n]? = some f) :
    ∃ e, events[n]? = some e ∧
      (f = e ∨ e.delivery = .pending ∧ f = { e with delivery := .cancelled }) := by
  unfold Publisher.selected at h
  split_ifs at h
  · rw [cancelPending, List.getElem?_map, Option.map_eq_some_iff] at h
    obtain ⟨e, he, rfl⟩ := h
    refine ⟨e, he, ?_⟩
    split_ifs with hp
    · exact .inr ⟨hp.1, rfl⟩
    · exact .inl rfl
  · exact ⟨f, h, .inl rfl⟩

theorem markSent_event {m : ℕ} {f : Event} (h : (markSent n events)[m]? = some f) :
    ∃ e, events[m]? = some e ∧
      (m ≠ n ∧ f = e ∨ m = n ∧ f = { e with delivery := .sent }) := by
  rw [markSent, List.getElem?_modify] at h
  obtain ⟨e, he, rfl⟩ := Option.map_eq_some_iff.1 h
  refine ⟨e, he, ?_⟩
  by_cases hn : n = m
  · rw [if_pos hn]; exact .inr ⟨hn.symm, rfl⟩
  · rw [if_neg hn]; exact .inl ⟨Ne.symm hn, rfl⟩

/-- The selected events with their positions. -/
theorem mem_pending {x : ℕ × Event} (h : x ∈ pending events) :
    events[x.1]? = some x.2 ∧ x.2.delivery = .pending := by
  obtain ⟨hx, hp⟩ := List.mem_filter.1 (List.mem_of_mem_take h)
  obtain ⟨y, hy, rfl⟩ := List.mem_map.1 hx
  exact ⟨List.mem_zipIdx_iff_getElem?.1 hy, of_decide_eq_true hp⟩

theorem positions_sorted (events : List Event) :
    (events.zipIdx.map Prod.swap).Pairwise fun x y => x.1 < y.1 := by
  rw [List.pairwise_map]
  show events.zipIdx.Pairwise fun x y => x.2 < y.2
  rw [← List.pairwise_map (f := Prod.snd) (R := (· < ·)), List.zipIdx_map_snd]
  exact List.pairwise_lt_range'

theorem pending_sorted (events : List Event) :
    (pending events).Pairwise fun x y => x.1 < y.1 :=
  ((positions_sorted events).filter _).sublist (List.take_sublist ..)

/-- A pending event before a selected one is selected. -/
theorem pending_before {x : ℕ × Event} (h : x ∈ pending events) (hlt : n < x.1)
    (he : events[n]? = some e) (hp : e.delivery = .pending) : (n, e) ∈ pending events := by
  have hmem : (n, e) ∈ (events.zipIdx.map Prod.swap).filter fun x => x.2.delivery = .pending :=
    List.mem_filter.2 ⟨List.mem_map.2 ⟨(e, n), List.mem_zipIdx_iff_getElem?.2 he, rfl⟩,
      decide_eq_true hp⟩
  have hsorted := (positions_sorted events).filter fun x => decide (x.2.delivery = .pending)
  rw [← List.take_append_drop 256 (List.filter _ _)] at hmem hsorted
  rcases List.mem_append.1 hmem with htake | hdrop
  · exact htake
  · have := (List.pairwise_append.1 hsorted).2.2 x h (n, e) hdrop
    omega

end

/-! ### The invariant -/

/-- What a publisher has left to send. -/
structure Queue (F : Frames) (h : Host) (key : SubmissionId) (rest : List (ℕ × Event)) : Prop where
  /-- it is in the order of the journal -/
  sorted : rest.Pairwise fun x y => x.1 < y.1
  /-- it is of the journal -/
  found : ∀ x ∈ rest, ∃ e, (h.base.db.events key)[x.1]? = some e ∧ e.key = x.2.key ∧ Sendable e
  /-- what comes before is in the history, is set aside, or is left to send as well -/
  before : ∀ x ∈ rest, ∀ m f, m < x.1 → (h.base.db.events key)[m]? = some f →
    Appended F h key f.key ∨ Aside f ∨ ∃ y ∈ rest, y.1 = m

/-- What a publisher goes on with. -/
def Goes (F : Frames) (h : Host) (key : SubmissionId) : Pc → Prop
  | .ready => True
  | .sending rest => Queue F h key rest
  | .marking n rest => Queue F h key rest ∧
      ∃ e, (h.base.db.events key)[n]? = some e ∧ Appended F h key e.key

/-- What holds of a publisher. -/
structure Holds (F : Frames) (h : Host) (pub : Publisher) : Prop where
  /-- its row is one of the submission -/
  row : ∃ row, h.base.db.submissions pub.key = some row ∧ row.scope = pub.row.scope
  /-- it goes on in the order of the journal -/
  goes : Goes F h pub.key pub.pc

/-- What holds in every run whose sends are fresh. -/
structure Inv (F : Frames) (ttl : ℕ) (h : Host) : Prop where
  /-- the submissions are indexed -/
  indexed : Indexed h.base
  /-- the history gives numbers and keys once -/
  kept : h.outbox.Kept ttl
  /-- and records every key it gave -/
  listed : h.outbox.Listed
  /-- a key is in a journal once -/
  nodup : ∀ key, (keys h.base.db key).Nodup
  /-- digests do not collide -/
  distinct : Distinct F h.base.db
  /-- the final event is the last one, of a submission that has ended -/
  final : ∀ key n, (keys h.base.db key)[n]? = some finalKey →
    n + 1 = (keys h.base.db key).length ∧
      ∃ row, h.base.db.submissions key = some row ∧ Store.live row = false
  /-- a durable key of the history is of an event in a journal -/
  known : ∀ x ∈ h.outbox.log, ∀ k, x.2 = some k → ∃ key k', k' ∈ keys h.base.db key ∧
    k = F.eventId key k'
  /-- the events of a submission are in the history of its client -/
  target : ∀ x ∈ h.outbox.log, ∀ key k, k ∈ keys h.base.db key → x.2 = some (F.eventId key k) →
    ∃ row, h.base.db.submissions key = some row ∧ x.1.owner = F.owner row.scope.context
  /-- what is marked as sent is in the history -/
  sent : ∀ key, ∀ e ∈ h.base.db.events key, e.delivery = .sent → Appended F h key e.key
  /-- what comes before an event of the history is there too, or is set aside -/
  before : ∀ key (m n : ℕ) f e, m < n → (h.base.db.events key)[m]? = some f →
    (h.base.db.events key)[n]? = some e → Appended F h key e.key →
    Appended F h key f.key ∨ Aside f
  /-- the publishers -/
  holds : ∀ p pub, h.publishers p = some pub → Holds F h pub
  /-- what the clients see -/
  inOrder : InOrder F h.base.db h.outbox.log

/-- What a step leaves of an event. -/
structure Leaves (F : Frames) (h : Host) (key : SubmissionId) (e e' : Event) : Prop where
  /-- its key -/
  same : e'.key = e.key
  /-- that it is one to send -/
  sendable : Sendable e → Sendable e'
  /-- that it is set aside, until it is in the history -/
  aside : Aside e → Aside e' ∨ Appended F h key e.key

/-- What a step leaves of the state that a publisher depends on. -/
structure Grows (F : Frames) (h h' : Host) : Prop where
  /-- the history grows -/
  log : ∀ x ∈ h.outbox.log, x ∈ h'.outbox.log
  /-- the journals grow -/
  events : ∀ key (n : ℕ) e, (h.base.db.events key)[n]? = some e →
    ∃ e', (h'.base.db.events key)[n]? = some e' ∧ Leaves F h' key e e'
  /-- the submissions keep their scopes -/
  submissions : ∀ key row, h.base.db.submissions key = some row →
    ∃ row', h'.base.db.submissions key = some row' ∧ row'.scope = row.scope

section

variable {F : Frames} {ttl : ℕ} {h h' : Host} {key : SubmissionId} {e : Event} {k : String}

theorem Leaves.refl (F : Frames) (h : Host) (key : SubmissionId) (e : Event) : Leaves F h key e e :=
  ⟨rfl, id, .inl⟩

theorem Appended.mono (hlog : ∀ x ∈ h.outbox.log, x ∈ h'.outbox.log) (ha : Appended F h key k) :
    Appended F h' key k := by
  obtain ⟨x, hx, hk⟩ := ha
  exact ⟨x, hlog x hx, hk⟩

theorem Queue.grows {rest : List (ℕ × Event)} (hq : Queue F h key rest) (hg : Grows F h h') :
    Queue F h' key rest := by
  refine ⟨hq.sorted, fun x hx => ?_, fun x hx m f' hm hf' => ?_⟩
  · obtain ⟨e, he, hkey, hs⟩ := hq.found x hx
    obtain ⟨e', he', hl⟩ := hg.events key x.1 e he
    exact ⟨e', he', hl.same.trans hkey, hl.sendable hs⟩
  · obtain ⟨e, he, -⟩ := hq.found x hx
    have hlt : m < (h.base.db.events key).length := by
      have := (List.getElem?_eq_some_iff.1 he).1
      omega
    obtain ⟨f'', hf'', hl⟩ := hg.events key m _ (List.getElem?_eq_getElem hlt)
    rw [hf'] at hf''
    cases hf''
    rcases hq.before x hx m _ hm (List.getElem?_eq_getElem hlt) with ha | ha | hy
    · rw [hl.same]; exact .inl (ha.mono hg.log)
    · rcases hl.aside ha with ha' | ha'
      · exact .inr (.inl ha')
      · rw [hl.same]; exact .inl ha'
    · exact .inr (.inr hy)

theorem Goes.grows {pc : Pc} (hp : Goes F h key pc) (hg : Grows F h h') : Goes F h' key pc := by
  cases pc with
  | ready => trivial
  | sending rest => exact Queue.grows hp hg
  | marking n rest =>
    obtain ⟨hq, e, he, ha⟩ := hp
    obtain ⟨e', he', hl⟩ := hg.events key n e he
    exact ⟨hq.grows hg, e', he', hl.same ▸ ha.mono hg.log⟩

theorem Holds.grows {pub : Publisher} (hp : Holds F h pub) (hg : Grows F h h') :
    Holds F h' pub := by
  obtain ⟨row, hrow, hscope⟩ := hp.row
  obtain ⟨row', hrow', hsame⟩ := hg.submissions pub.key row hrow
  exact ⟨⟨row', hrow', hsame.trans hscope⟩, hp.goes.grows hg⟩

theorem Grows.put (F : Frames) (h : Host) (p : ℕ) (x : Option Publisher) :
    Grows F h (h.put p x) :=
  ⟨fun _ hx => hx, fun key _ e he => ⟨e, he, .refl F _ key e⟩, fun _ row hrow => ⟨row, hrow, rfl⟩⟩

/-- One publisher goes on. -/
theorem Inv.put (hi : Inv F ttl h) {p : ℕ} {x : Option Publisher}
    (hx : ∀ pub, x = some pub → Holds F h pub) : Inv F ttl (h.put p x) := by
  refine ⟨hi.indexed, hi.kept, hi.listed, hi.nodup, hi.distinct, hi.final, hi.known, hi.target,
    hi.sent, hi.before, fun q pub hq => ?_, hi.inOrder⟩
  replace hq : Function.update h.publishers p x q = some pub := hq
  by_cases hp : q = p
  · subst hp
    rw [Function.update_self] at hq
    exact (hx pub hq).grows (.put F h q x)
  · rw [Function.update_of_ne hp] at hq
    exact (hi.holds q pub hq).grows (.put F h p x)

/-- One publisher ends. -/
theorem Inv.drop (hi : Inv F ttl h) (p : ℕ) : Inv F ttl (h.put p none) :=
  hi.put fun _ hx => by cases hx

theorem keys_write {events : List Event} (hkeys : events.map Event.key = keys h.base.db key) :
    keys (h.write key events).base.db = keys h.base.db := by
  funext key'
  show (Function.update h.base.db.events key events key').map Event.key = _
  by_cases hk : key' = key
  · subst hk
    rw [Function.update_self]
    exact hkeys
  · rw [Function.update_of_ne hk]
    rfl

/-- What a publisher writes of the deliveries of a journal. -/
structure Written (F : Frames) (h : Host) (key : SubmissionId) (events : List Event) : Prop where
  /-- the keys stay -/
  keys_eq : events.map Event.key = keys h.base.db key
  /-- an event is left, and only marked as sent when it is in the history -/
  old : ∀ (n : ℕ) e', events[n]? = some e' → ∃ e, (h.base.db.events key)[n]? = some e ∧
    Leaves F h key e e' ∧ (e'.delivery = .sent → e.delivery = .sent ∨ Appended F h key e.key)

theorem Written.grows {events : List Event} (hw : Written F h key events) :
    Grows F h (h.write key events) := by
  refine ⟨fun _ hx => hx, fun key' n e he => ?_, fun _ row hrow => ⟨row, hrow, rfl⟩⟩
  show ∃ e', (Function.update h.base.db.events key events key')[n]? = some e' ∧ _
  by_cases hk : key' = key
  · subst hk
    have hlen := congrArg List.length hw.keys_eq
    rw [keys, List.length_map, List.length_map] at hlen
    have hlt : n < events.length := hlen ▸ (List.getElem?_eq_some_iff.1 he).1
    obtain ⟨e', he', hl, -⟩ := hw.old n _ (List.getElem?_eq_getElem hlt)
    rw [he] at he'
    cases he'
    rw [Function.update_self]
    exact ⟨_, List.getElem?_eq_getElem hlt, hl.same, hl.sendable, hl.aside⟩
  · rw [Function.update_of_ne hk]
    exact ⟨e, he, .refl F _ key' e⟩

/-- A publisher writes the deliveries of a journal. -/
theorem Inv.write (hi : Inv F ttl h) {events : List Event} (hw : Written F h key events) :
    Inv F ttl (h.write key events) := by
  have hsame := keys_write (h := h) hw.keys_eq
  have hback : ∀ (key' : SubmissionId) (n : ℕ) e',
      ((h.write key events).base.db.events key')[n]? = some e' →
      ∃ e, (h.base.db.events key')[n]? = some e ∧ Leaves F h key' e e' ∧
        (e'.delivery = .sent → e.delivery = .sent ∨ Appended F h key' e.key) := by
    intro key' n e' he'
    by_cases hk : key' = key
    · subst hk
      rw [show (h.write key' events).base.db.events key' = events from Function.update_self ..]
        at he'
      exact hw.old n e' he'
    · rw [show (h.write key events).base.db.events key' = h.base.db.events key' from
        Function.update_of_ne hk ..] at he'
      exact ⟨e', he', .refl F h key' e', .inl⟩
  refine ⟨⟨hi.indexed.named, hi.indexed.names, hi.indexed.drawn⟩, hi.kept, hi.listed, ?_, ?_, ?_,
    ?_, ?_, fun key' e' he' hs => ?_, fun key' m n f' e' hlt hf' he' ha => ?_, ?_, ?_⟩
  · rw [hsame]; exact hi.nodup
  · rw [Distinct, hsame]; exact hi.distinct
  · rw [hsame]; exact hi.final
  · rw [hsame]; exact hi.known
  · rw [hsame]; exact hi.target
  · obtain ⟨n, hn⟩ := List.mem_iff_getElem?.1 he'
    obtain ⟨e, he, hl, hsent⟩ := hback key' n e' hn
    rw [hl.same]
    rcases hsent hs with hs | ha
    · exact hi.sent key' e (List.mem_of_getElem? he) hs
    · exact ha
  · obtain ⟨f, hf, hlf, -⟩ := hback key' m f' hf'
    obtain ⟨e, he, hle, -⟩ := hback key' n e' he'
    rw [hlf.same]
    rcases hi.before key' m n f e hlt hf he (hle.same ▸ ha) with hf | hf
    · exact .inl hf
    · exact (hlf.aside hf).symm
  · intro p pub hp
    exact (hi.holds p pub hp).grows hw.grows
  · rw [InOrder, hsame]; exact hi.inOrder

theorem selected_written (F : Frames) (h : Host) (pub : Publisher) (key : SubmissionId) :
    Written F h key (pub.selected (h.base.db.events key)) := by
  refine ⟨selected_keys pub _, fun n e' he' => ?_⟩
  obtain ⟨e, he, rfl | ⟨hp, rfl⟩⟩ := selected_event pub he'
  · exact ⟨e', he, .refl F h key e', .inl⟩
  · exact ⟨e, he, ⟨rfl, fun _ => ⟨nofun, nofun⟩, fun ha => absurd hp ha.1⟩, nofun⟩

theorem markSent_written {n : ℕ} (he : (h.base.db.events key)[n]? = some e)
    (ha : Appended F h key e.key) : Written F h key (markSent n (h.base.db.events key)) := by
  refine ⟨markSent_keys n _, fun m f' hf' => ?_⟩
  obtain ⟨f, hf, ⟨-, rfl⟩ | ⟨rfl, rfl⟩⟩ := markSent_event hf'
  · exact ⟨f', hf, .refl F h key f', .inl⟩
  · cases he.symm.trans hf
    exact ⟨e, hf, ⟨rfl, fun _ => ⟨nofun, nofun⟩, fun _ => .inr ha⟩, fun _ => .inr ha⟩

/-- What a selection starts with. -/
theorem Inv.queue (hi : Inv F ttl h) (key : SubmissionId) :
    Queue F h key (pending (h.base.db.events key)) := by
  refine ⟨pending_sorted _, fun x hx => ?_, fun x hx m f hlt hf => ?_⟩
  · obtain ⟨he, hp⟩ := mem_pending hx
    exact ⟨x.2, he, rfl, by rw [hp]; nofun, by rw [hp]; nofun⟩
  · by_cases hp : f.delivery = .pending
    · exact .inr (.inr ⟨(m, f), pending_before hx hlt hf hp, rfl⟩)
    · by_cases hs : f.delivery = .sent
      · exact .inl (hi.sent key f (List.mem_of_getElem? hf) hs)
      · exact .inr (.inl ⟨hp, hs⟩)

theorem Queue.tail {x : ℕ × Event} {rest : List (ℕ × Event)} (hq : Queue F h key (x :: rest))
    (he : (h.base.db.events key)[x.1]? = some e) (ha : Appended F h key e.key) :
    Queue F h key rest := by
  refine ⟨(List.pairwise_cons.1 hq.sorted).2, fun y hy => hq.found y (List.mem_cons_of_mem _ hy),
    fun y hy m f hlt hf => ?_⟩
  rcases hq.before y (List.mem_cons_of_mem _ hy) m f hlt hf with hf' | hf' | ⟨z, hz, hzm⟩
  · exact .inl hf'
  · exact .inr (.inl hf')
  · rcases List.mem_cons.1 hz with rfl | hz
    · rw [hzm, hf] at he
      cases he
      exact .inl ha
    · exact .inr (.inr ⟨z, hz, hzm⟩)

/-- What is left to send does not come before its head. -/
theorem Queue.head_before {x : ℕ × Event} {rest : List (ℕ × Event)}
    (hq : Queue F h key (x :: rest)) {m : ℕ} {f : Event} (hlt : m < x.1)
    (hf : (h.base.db.events key)[m]? = some f) : Appended F h key f.key ∨ Aside f := by
  rcases hq.before x List.mem_cons_self m f hlt hf with hf' | hf' | ⟨z, hz, hzm⟩
  · exact .inl hf'
  · exact .inr hf'
  · rcases List.mem_cons.1 hz with rfl | hz
    · omega
    · have := (List.pairwise_cons.1 hq.sorted).1 z hz
      omega

/-! ### The history grows -/

/-- An entry that a step adds to the history. -/
structure Extra (F : Frames) (h : Host) (y : Delivery.Event × Option String) : Prop where
  /-- its key is of an event in a journal -/
  known : ∀ k, y.2 = some k → ∃ key k', k' ∈ keys h.base.db key ∧ k = F.eventId key k'
  /-- its number is the largest of its owner -/
  last : ∀ x ∈ h.outbox.log, x.1.owner = y.1.owner → x.1.seq < y.1.seq
  /-- it is of the client of the submission -/
  owner : ∀ key k, k ∈ keys h.base.db key → y.2 = some (F.eventId key k) →
    ∃ row, h.base.db.submissions key = some row ∧ y.1.owner = F.owner row.scope.context
  /-- its event is not in the history, and is not set aside -/
  fresh : ∀ key (m : ℕ) f, (h.base.db.events key)[m]? = some f →
    y.2 = some (F.eventId key f.key) → ¬ Appended F h key f.key ∧ ¬ Aside f
  /-- what comes before it is in the history, or is set aside -/
  before : ∀ key (m n : ℕ) f g, m < n → (h.base.db.events key)[m]? = some f →
    (h.base.db.events key)[n]? = some g → y.2 = some (F.eventId key g.key) →
    Appended F h key f.key ∨ Aside f

theorem Grows.outbox {outbox : Delivery.Host} {new : List (Delivery.Event × Option String)}
    (F : Frames) (hlog : outbox.log = h.outbox.log ++ new) :
    Grows F h { h with outbox := outbox } :=
  ⟨fun x hx => by rw [hlog]; exact List.mem_append_left _ hx,
    fun key _ e he => ⟨e, he, .refl F _ key e⟩, fun _ row hrow => ⟨row, hrow, rfl⟩⟩

/-- An entry that is added comes after those that are there. -/
theorem Inv.extra_inOrder (hi : Inv F ttl h) {y : Delivery.Event × Option String}
    (hy : Extra F h y) {x : Delivery.Event × Option String} (hx : x ∈ h.outbox.log)
    {n m : ℕ} {k k' : String} (hn : (keys h.base.db key)[n]? = some k)
    (hm : (keys h.base.db key)[m]? = some k') (hxk : x.2 = some (F.eventId key k))
    (hyk : y.2 = some (F.eventId key k')) : n < m ∧ x.1.seq < y.1.seq ∧ k ≠ finalKey := by
  obtain ⟨e, he, rfl⟩ := event_of_key hn
  obtain ⟨f, hf, rfl⟩ := event_of_key hm
  obtain ⟨hnew, haside⟩ := hy.fresh key m f hf hyk
  have hlt : n < m := by
    rcases Nat.lt_trichotomy n m with hlt | rfl | hgt
    · exact hlt
    · cases he.symm.trans hf
      exact absurd ⟨x, hx, hxk⟩ hnew
    · rcases hi.before key m n f e hgt hf he ⟨x, hx, hxk⟩ with ha | ha
      · exact absurd ha hnew
      · exact absurd ha haside
  refine ⟨hlt, hy.last x hx ?_, fun hfinal => ?_⟩
  · obtain ⟨row, hrow, hox⟩ := hi.target x hx key e.key (List.mem_of_getElem? hn) hxk
    obtain ⟨row', hrow', hoy⟩ := hy.owner key f.key (List.mem_of_getElem? hm) hyk
    cases hrow.symm.trans hrow'
    rw [hox, hoy]
  · have hend := (hi.final key n (hfinal ▸ hn)).1
    have := (List.getElem?_eq_some_iff.1 hm).1
    omega

/-- The history stores at most one entry. -/
theorem Inv.store (hi : Inv F ttl h) {outbox : Delivery.Host}
    {new : List (Delivery.Event × Option String)} (hk : outbox.Kept ttl) (hl : outbox.Listed)
    (hlog : outbox.log = h.outbox.log ++ new) (hone : new.length ≤ 1)
    (hnew : ∀ y ∈ new, Extra F h y) : Inv F ttl { h with outbox := outbox } := by
  have hg : Grows F h { h with outbox := outbox } := .outbox F hlog
  have hmem : ∀ x ∈ outbox.log, x ∈ h.outbox.log ∨ x ∈ new := fun x hx => by
    rwa [hlog, List.mem_append] at hx
  refine ⟨hi.indexed, hk, hl, hi.nodup, hi.distinct, hi.final, fun x hx k hxk => ?_,
    fun x hx key k hk hxk => ?_, fun key e he hs => (hi.sent key e he hs).mono hg.log,
    fun key m n f e hlt hf he ha => ?_, fun p pub hp => (hi.holds p pub hp).grows hg, ?_⟩
  · rcases hmem x hx with hx | hx
    · exact hi.known x hx k hxk
    · exact (hnew x hx).known k hxk
  · rcases hmem x hx with hx | hx
    · exact hi.target x hx key k hk hxk
    · exact (hnew x hx).owner key k hk hxk
  · have hbefore : Appended F h key f.key ∨ Aside f := by
      obtain ⟨x, hx, hxk⟩ := ha
      rcases hmem x hx with hx | hx
      · exact hi.before key m n f e hlt hf he ⟨x, hx, hxk⟩
      · exact (hnew x hx).before key m n f e hlt hf he hxk
    exact hbefore.imp_left (·.mono hg.log)
  · show InOrder F h.base.db outbox.log
    rw [InOrder, hlog, List.pairwise_append]
    refine ⟨hi.inOrder, ?_, fun x hx y hy key n m k k' hn hm hxk hyk =>
      hi.extra_inOrder (hnew y hy) hx hn hm hxk hyk⟩
    rcases new with _ | ⟨y, _ | ⟨z, rest⟩⟩
    · exact .nil
    · exact List.pairwise_singleton _ y
    · rw [List.length_cons, List.length_cons] at hone
      omega

theorem last_of_seq {o : Owner} {x : Delivery.Event × Option String} {n : ℕ}
    (hk : h.outbox.Kept ttl) (hlt : h.outbox.db.seq o < n) (hx : x ∈ h.outbox.log)
    (ho : x.1.owner = o) : x.1.seq < n := by
  have := hk.logged x hx
  rw [ho] at this
  omega

/-- An entry without a key is none of the journals. -/
theorem Extra.of_none {y : Delivery.Event × Option String} (hy : y.2 = none)
    (hlast : ∀ x ∈ h.outbox.log, x.1.owner = y.1.owner → x.1.seq < y.1.seq) : Extra F h y := by
  refine ⟨fun k hk => ?_, hlast, fun key k _ hk => ?_, fun key m f _ hk => ?_,
    fun key m n f g _ _ _ hk => ?_⟩
  all_goals
    rw [hy] at hk
    cases hk

/-- An operation of the event history that is not one of a publisher. -/
theorem Inv.outbox (hi : Inv F ttl h) {a : Delivery.Act} (hkey : a.key = none)
    {outbox : Delivery.Host} (hst : (Delivery.Host.lts ttl).step h.outbox a outbox) :
    Inv F ttl { h with outbox := outbox } := by
  have hk := hi.kept.step hst
  have hl := hi.listed.step hi.kept hst
  rcases hi.kept.stores hst with ⟨hlog, -⟩ |
    ⟨env, owner, message, key, size, r, t, e, rfl, ho, hlt, -, hlog, -⟩
  · exact hi.store hk hl (hlog.trans (List.append_nil _).symm) (Nat.zero_le _)
      fun _ hy => absurd hy List.not_mem_nil
  · refine hi.store hk hl hlog le_rfl fun y hy => ?_
    cases List.mem_singleton.1 hy
    exact .of_none hkey fun x hx hxo => last_of_seq hi.kept hlt hx (hxo.trans ho)

/-- The events of a submission have one position. -/
theorem Inv.position (hi : Inv F ttl h) {key' : SubmissionId} {n m : ℕ} {e f : Event}
    (he : (h.base.db.events key)[n]? = some e) (hf : (h.base.db.events key')[m]? = some f)
    (heq : F.eventId key e.key = F.eventId key' f.key) : key' = key ∧ m = n := by
  have he' := getElem?_keys he
  have hf' := getElem?_keys hf
  obtain ⟨rfl, hk⟩ := hi.distinct key key' e.key f.key (List.mem_of_getElem? he')
    (List.mem_of_getElem? hf') heq
  refine ⟨rfl, ?_⟩
  rw [← hk, ← he'] at hf'
  have hlt : m < (keys h.base.db key).length := by
    rw [he'] at hf'
    exact (List.getElem?_eq_some_iff.1 hf').1
  exact (List.getElem?_inj hlt (hi.nodup key)).1 hf'

/-- **A fresh send adds the next event of the journal**, or nothing. -/
theorem Inv.send (hi : Inv F ttl h) {pub : Publisher} {n : ℕ} {later : List (ℕ × Event)}
    {env : Environment} {rest : String} {size : ℕ} {r : Delivery.Reads} {t : Time}
    {outbox : Delivery.Host} (hp : Holds F h pub) (hpc : pub.pc = .sending ((n, e) :: later))
    (hfresh : ∀ f, (h.base.db.events pub.key)[n]? = some f → f.delivery ≠ .cancelled)
    (hst : (Delivery.Host.lts ttl).step h.outbox (pub.append F e env rest size r t) outbox) :
    Inv F ttl { h with outbox := outbox } := by
  have hk := hi.kept.step hst
  have hl := hi.listed.step hi.kept hst
  have hq := hp.goes
  rw [hpc] at hq
  obtain ⟨e', he', hkey, hsendable⟩ := hq.found (n, e) List.mem_cons_self
  obtain ⟨row, hrow, hscope⟩ := hp.row
  rcases hi.kept.stores hst with ⟨hlog, -⟩ |
    ⟨_, owner, _, key, _, _, _, ev, ha, ho, hlt, hnew, hlog, -⟩
  · exact hi.store hk hl (hlog.trans (List.append_nil _).symm) (Nat.zero_le _)
      fun _ hy => absurd hy List.not_mem_nil
  · obtain ⟨rfl, rfl⟩ : F.owner pub.row.scope.context = owner ∧
        some (F.eventId pub.key e.key) = key := by
      cases ha
      exact ⟨rfl, rfl⟩
    refine hi.store hk hl hlog le_rfl fun y hy => ?_
    cases List.mem_singleton.1 hy
    have hpos : ∀ key (m : ℕ) f, (h.base.db.events key)[m]? = some f →
        some (F.eventId pub.key e.key) = some (F.eventId key f.key) → key = pub.key ∧ m = n :=
      fun key m f hf heq => hi.position he' hf (by rw [hkey]; exact Option.some.inj heq)
    refine ⟨fun k hyk => ?_, fun x hx hxo => last_of_seq hi.kept hlt hx (hxo.trans ho),
      fun key k hk hyk => ?_, fun key m f hf hyk => ?_, fun key m m' f g hlt' hf hg hyk => ?_⟩
    · cases hyk
      exact ⟨pub.key, e.key, hkey ▸ List.mem_of_getElem? (getElem?_keys he'), rfl⟩
    · obtain ⟨m, hm⟩ := List.mem_iff_getElem?.1 hk
      obtain ⟨f, hf, rfl⟩ := event_of_key hm
      obtain ⟨rfl, -⟩ := hpos key m f hf hyk
      exact ⟨row, hrow, by rw [hscope]; exact ho⟩
    · obtain ⟨rfl, rfl⟩ := hpos key m f hf hyk
      refine ⟨?_, ?_⟩
      · rintro ⟨x, hx, hxk⟩
        rw [← hyk] at hxk
        obtain ⟨row', hrow', hox⟩ := hi.target x hx pub.key e.key
          (hkey ▸ List.mem_of_getElem? (getElem?_keys he')) hxk
        cases hrow.symm.trans hrow'
        obtain ⟨old, hold, -⟩ := hi.kept.keyed x hx _ hxk
        rw [hox, hscope, hnew _ rfl] at hold
        cases hold
      · have hc := hfresh f hf
        cases he'.symm.trans hf
        rintro ⟨hpending, hsent⟩
        cases hd : e'.delivery with
        | none => exact hsendable.2 hd
        | pending => exact hpending hd
        | sent => exact hsent hd
        | «local» => exact hsendable.1 hd
        | cancelled => exact hc hd
    · obtain ⟨rfl, rfl⟩ := hpos key m' g hg hyk
      exact hq.head_before hlt' hf

/-! ### The backend goes on -/

/-- What an operation does to the journals. -/
theorem after_events (s : Sys) (o : Op) : (s.after o).db.events = s.db.events ∨
    ∃ key e, Adds o s.db key e ∧ (s.after o).db.submissions = s.db.submissions ∧
      (s.after o).db.events = Function.update s.db.events key (s.db.events key ++ [e]) := by
  cases Sys.publishes s o with
  | intends hevents => exact .inl hevents
  | adds key e hadds hevents hsubs => exact .inr ⟨key, e, hadds, hsubs, hevents⟩
  | finalized key ho hevents => exact .inl hevents

theorem Grows.op (F : Frames) {o : Op} (hi : Inv F ttl h)
    (hevents : ∀ key (n : ℕ) e, (h.base.db.events key)[n]? = some e →
      ((h.base.after o).db.events key)[n]? = some e) :
    Grows F h { h with base := h.base.after o } := by
  refine ⟨fun _ hx => hx, fun key n e he => ⟨e, hevents key n e he, .refl F _ key e⟩,
    fun key row hrow => ?_⟩
  obtain ⟨row', hrow', hstep⟩ := hi.indexed.moved (Sys.step_after h.base o) hrow
  exact ⟨row', hrow', hstep.kept.scope⟩

/-- An operation that adds no event. -/
theorem Inv.op_quiet (hi : Inv F ttl h) {o : Op}
    (hevents : (h.base.after o).db.events = h.base.db.events) :
    Inv F ttl { h with base := h.base.after o } := by
  have hst := Sys.step_after h.base o
  have hg : Grows F h { h with base := h.base.after o } :=
    .op F hi fun key n e he => by rw [hevents]; exact he
  have hkeys : keys (h.base.after o).db = keys h.base.db := by
    funext key
    rw [keys, hevents]
    rfl
  refine ⟨hi.indexed.step hst, hi.kept, hi.listed, ?_, ?_, fun key n hn => ?_, ?_,
    fun x hx key k hk hxk => ?_, ?_, ?_, fun p pub hp => (hi.holds p pub hp).grows hg, ?_⟩
  · rw [hkeys]; exact hi.nodup
  · rw [Distinct, hkeys]; exact hi.distinct
  · rw [hkeys] at hn ⊢
    obtain ⟨hlen, row, hrow, hend⟩ := hi.final key n hn
    obtain ⟨row', hrow', hstep⟩ := hi.indexed.moved hst hrow
    exact ⟨hlen, row', hrow', hstep.ended hend⟩
  · rw [hkeys]; exact hi.known
  · rw [hkeys] at hk
    obtain ⟨row, hrow, ho⟩ := hi.target x hx key k hk hxk
    obtain ⟨row', hrow', hstep⟩ := hi.indexed.moved hst hrow
    exact ⟨row', hrow', by rw [hstep.kept.scope]; exact ho⟩
  · rw [hevents]; exact hi.sent
  · rw [hevents]; exact hi.before
  · rw [InOrder, hkeys]; exact hi.inOrder

/-- An event that is added is new, is not marked as sent, and is the final one exactly when the
submission has ended. -/
theorem added {db : Db} {o : Op} (hadds : Adds o db key e) (hfinal : finalOnly o) :
    e.delivery ≠ .sent ∧ e.key ∉ keys db key ∧ ∃ now, db.submissions key = some now ∧
      (e.key = finalKey ↔ Store.live now = false) := by
  obtain ⟨env, c, eventKey, kind, payload, terminal, budget, target, htakes, hnew, -⟩ := hadds
  obtain ⟨now, hnow, -, hstate⟩ := htakes
  refine ⟨?_, fun hmem => ?_, now, hnow, ?_⟩
  · show eventDelivery kind target ≠ .sent
    unfold eventDelivery
    split
    · nofun
    · split_ifs <;> nofun
  · obtain ⟨f, hf, hk⟩ := List.mem_map.1 hmem
    exact hnew f hf hk
  · show eventKey = finalKey ↔ _
    cases terminal with
    | true => exact ⟨fun _ => eventStates_ended hstate, fun _ => hfinal.1 rfl⟩
    | false =>
      refine ⟨fun hk => absurd (hfinal.2 hk) nofun, fun hend => ?_⟩
      rw [eventStates_running hstate] at hend
      cases hend

/-- An operation that adds an event. -/
theorem Inv.op_adds (hi : Inv F ttl h) {o : Op} (hfinal : finalOnly o)
    (hdist : Distinct F (h.base.after o).db) {e₀ : Event} (hadds : Adds o h.base.db key e₀)
    (hsubs : (h.base.after o).db.submissions = h.base.db.submissions)
    (hevents : (h.base.after o).db.events =
      Function.update h.base.db.events key (h.base.db.events key ++ [e₀])) :
    Inv F ttl { h with base := h.base.after o } := by
  have hst := Sys.step_after h.base o
  have hold : ∀ key' (n : ℕ) e, (h.base.db.events key')[n]? = some e →
      ((h.base.after o).db.events key')[n]? = some e := fun key' n e he => by
    rw [hevents]
    by_cases hk : key' = key
    · subst hk
      rw [Function.update_self, List.getElem?_append_left (List.getElem?_eq_some_iff.1 he).1]
      exact he
    · rw [Function.update_of_ne hk]; exact he
  have hcases : ∀ key' (n : ℕ) e, ((h.base.after o).db.events key')[n]? = some e →
      (h.base.db.events key')[n]? = some e ∨
        key' = key ∧ n = (h.base.db.events key).length ∧ e = e₀ := fun key' n e he => by
    rw [hevents] at he
    by_cases hk : key' = key
    · subst hk
      rw [Function.update_self] at he
      rcases Nat.lt_trichotomy n (h.base.db.events key').length with hlt | heq | hgt
      · rw [List.getElem?_append_left hlt] at he
        exact .inl he
      · rw [heq, List.getElem?_concat_length] at he
        cases he
        exact .inr ⟨rfl, heq, rfl⟩
      · rw [List.getElem?_eq_none (by rw [List.length_append, List.length_singleton]; omega)] at he
        cases he
    · rw [Function.update_of_ne hk] at he
      exact .inl he
  have hg : Grows F h { h with base := h.base.after o } := .op F hi hold
  obtain ⟨hnotsent, hfresh, now, hnow, hends⟩ := added hadds hfinal
  have hkeys : ∀ key' (n : ℕ) k, (keys (h.base.after o).db key')[n]? = some k →
      (keys h.base.db key')[n]? = some k ∨
        key' = key ∧ n = (h.base.db.events key).length ∧ k = e₀.key := fun key' n k hn => by
    obtain ⟨e, he, rfl⟩ := event_of_key hn
    rcases hcases key' n e he with he | ⟨rfl, hlen, rfl⟩
    · exact .inl (getElem?_keys he)
    · exact .inr ⟨rfl, hlen, rfl⟩
  have hmono : ∀ key' k, k ∈ keys h.base.db key' → k ∈ keys (h.base.after o).db key' :=
    fun key' k hk => by
      obtain ⟨n, hn⟩ := List.mem_iff_getElem?.1 hk
      obtain ⟨e, he, rfl⟩ := event_of_key hn
      exact List.mem_of_getElem? (getElem?_keys (hold key' n e he))
  -- The digest of the new event is none of those in the history.
  have hunknown : ∀ x ∈ h.outbox.log, x.2 ≠ some (F.eventId key e₀.key) := fun x hx hxk => by
    obtain ⟨key', k', hk', heq⟩ := hi.known x hx _ hxk
    have hmem : e₀.key ∈ keys (h.base.after o).db key := by
      rw [keys, hevents, Function.update_self, List.map_append]
      exact List.mem_append_right _ (List.mem_singleton_self _)
    obtain ⟨rfl, hsame⟩ := hdist key key' e₀.key k' hmem (hmono key' k' hk') heq
    exact hfresh (hsame ▸ hk')
  refine ⟨hi.indexed.step hst, hi.kept, hi.listed, fun key' => ?_, hdist, fun key' n hn => ?_,
    fun x hx k hxk => ?_, fun x hx key' k hk hxk => ?_, fun key' e he hs => ?_,
    fun key' m n f e hlt hf he ha => ?_, fun p pub hp => (hi.holds p pub hp).grows hg,
    hi.inOrder.imp_of_mem fun hx hy hxy key' n m k k' hn hm hxk hyk => ?_⟩
  · rw [keys, hevents]
    by_cases hk : key' = key
    · subst hk
      rw [Function.update_self, List.map_append]
      exact List.Nodup.append (hi.nodup key') (List.nodup_singleton _)
        (List.disjoint_singleton.2 hfresh)
    · rw [Function.update_of_ne hk]
      exact hi.nodup key'
  · have hlen : (keys (h.base.after o).db key).length = (h.base.db.events key).length + 1 := by
      rw [keys, hevents, Function.update_self, List.length_map, List.length_append]
      rfl
    rw [hsubs]
    rcases hkeys key' n _ hn with hn | ⟨rfl, rfl, hk⟩
    · obtain ⟨hlast, row, hrow, hend⟩ := hi.final key' n hn
      by_cases hk : key' = key
      · -- No event is added after the final one.
        subst hk
        cases hrow.symm.trans hnow
        exact absurd (hends.2 hend ▸ List.mem_of_getElem? hn) hfresh
      · refine ⟨?_, row, hrow, hend⟩
        rw [keys, hevents, Function.update_of_ne hk]
        exact hlast
    · exact ⟨hlen.symm, now, hnow, hends.1 hk.symm⟩
  · obtain ⟨key', k', hk', heq⟩ := hi.known x hx k hxk
    exact ⟨key', k', hmono key' k' hk', heq⟩
  · rw [hsubs]
    obtain ⟨n, hn⟩ := List.mem_iff_getElem?.1 hk
    rcases hkeys key' n k hn with hn | ⟨rfl, -, rfl⟩
    · exact hi.target x hx key' k (List.mem_of_getElem? hn) hxk
    · exact absurd hxk (hunknown x hx)
  · obtain ⟨n, hn⟩ := List.mem_iff_getElem?.1 he
    rcases hcases key' n e hn with hn | ⟨rfl, -, rfl⟩
    · exact hi.sent key' e (List.mem_of_getElem? hn) hs
    · exact absurd hs hnotsent
  · rcases hcases key' n e he with he | ⟨rfl, -, rfl⟩
    · have hlt' : m < (h.base.db.events key').length := by
        have := (List.getElem?_eq_some_iff.1 he).1
        omega
      rcases hcases key' m f hf with hf | ⟨rfl, hm, -⟩
      · exact hi.before key' m n f e hlt hf he ha
      · omega
    · obtain ⟨x, hx, hxk⟩ := ha
      exact absurd hxk (hunknown x hx)
  · rcases hkeys key' n k hn with hn | ⟨rfl, -, rfl⟩
    · rcases hkeys key' m k' hm with hm | ⟨rfl, -, rfl⟩
      · exact hxy key' n m k k' hn hm hxk hyk
      · exact absurd hyk (hunknown _ hy)
    · exact absurd hxk (hunknown _ hx)

/-! ### Every run -/

/-- A send that succeeds leaves the event in the history. -/
theorem appended_of_ok {pub : Publisher} {env : Environment} {rest : String} {size : ℕ}
    {r : Delivery.Reads} {t : Time} {outbox : Delivery.Host} {db' : Delivery.Db}
    (hl : outbox.Listed)
    (hst : (Delivery.Host.lts ttl).step h.outbox (pub.append F e env rest size r t) outbox)
    (hok : (pub.append F e env rest size r t).attempt h.outbox.db = .ok db') :
    Appended F { h with outbox := outbox } pub.key e.key := by
  obtain ⟨row, hrow, -, hk⟩ := Delivery.Act.recorded hok
  have hdb : outbox.db = db' := by
    obtain ⟨t', -, -, rfl⟩ := hst
    show Library.commit _ _ = _
    rw [hok]
    rfl
  obtain ⟨x, hx, -, hxk⟩ := hl row (hdb ▸ hrow)
  exact ⟨x, hx, hxk.trans (congrArg some hk)⟩

/-- The publisher goes on after its send, or gives up. -/
theorem Inv.sent_put (hi : Inv F ttl h) {p n : ℕ} {pub : Publisher} {later : List (ℕ × Event)}
    (hp : h.publishers p = some pub) (hpc : pub.pc = .sending ((n, e) :: later))
    {x : Except Error Delivery.Db} (ha : ∀ db, x = .ok db → Appended F h pub.key e.key) :
    Inv F ttl (h.put p (pub.after n later x)) := by
  cases x with
  | error err => exact hi.drop p
  | ok db' =>
    refine hi.put fun pub' hpub => ?_
    cases hpub
    have hholds := hi.holds p pub hp
    have hq := hholds.goes
    rw [hpc] at hq
    obtain ⟨e', he', hkey, -⟩ := Queue.found hq (n, e) List.mem_cons_self
    have ha' : Appended F h pub.key e'.key := hkey ▸ ha db' rfl
    exact ⟨hholds.row, Queue.tail hq he' ha', e', he', ha'⟩

/-- **A step whose send is fresh keeps the invariant.** -/
theorem Inv.step (hi : Inv F ttl h) {a : Act} (hst : (Host.lts F ttl).step h a h')
    (hfresh : Fresh h a) : Inv F ttl h' := by
  cases a with
  | op o =>
    obtain ⟨hfinal, hdist, rfl⟩ := hst
    rcases after_events h.base o with hevents | ⟨key, e, hadds, hsubs, hevents⟩
    · exact hi.op_quiet hevents
    · exact hi.op_adds hfinal hdist hadds hsubs hevents
  | outbox a =>
    obtain ⟨hkey, outbox, hst, rfl⟩ := hst
    exact hi.outbox hkey hst
  | read p key =>
    obtain ⟨row, -, hrow, rfl⟩ := hst
    refine hi.put fun pub hpub => ?_
    cases hpub
    exact ⟨⟨row, hrow, rfl⟩, trivial⟩
  | select p scope =>
    obtain ⟨pub, hp, -, -, rfl⟩ := hst
    cases scope with
    | error e => exact hi.drop p
    | ok =>
      have hw := selected_written F h pub pub.key
      refine (hi.write hw).put fun pub' hpub => ?_
      cases hpub
      refine ⟨((hi.holds p pub hp).grows hw.grows).row, ?_⟩
      have hq := (hi.write hw).queue pub.key
      rwa [show (h.write pub.key _).base.db.events pub.key = _ from Function.update_self ..] at hq
  | send p env rest size r t =>
    obtain ⟨pub, n, e, later, hp, hpc, outbox, hst, rfl⟩ := hst
    have hi' := hi.send (hi.holds p pub hp) hpc
      (fun f hf => hfresh pub n e later f hp hpc hf) hst
    exact hi'.sent_put hp hpc fun db' hok => appended_of_ok hi'.listed hst hok
  | mark p =>
    obtain ⟨pub, n, later, hp, hpc, rfl⟩ := hst
    have hholds := hi.holds p pub hp
    have hgoes := hholds.goes
    rw [hpc] at hgoes
    obtain ⟨hq, e, he, ha⟩ := hgoes
    have hw := markSent_written he ha
    refine (hi.write hw).put fun pub' hpub => ?_
    cases hpub
    exact ⟨(hholds.grows hw.grows).row, hq.grows hw.grows⟩
  | stop p =>
    have heq : h' = h.put p none := hst
    rw [heq]
    exact hi.drop p

theorem Inv.initial (h₀ : h.Initial) : Inv F ttl h := by
  obtain ⟨host, hdb⟩ := h₀.base
  have hevents : ∀ key, h.base.db.events key = [] := fun key => by rw [hdb]; rfl
  have hkeys : ∀ key, keys h.base.db key = [] := fun key => by rw [keys, hevents]; rfl
  refine ⟨.initial h₀.base, h₀.outbox.kept, h₀.outbox.listed, fun key => ?_,
    fun key key' k k' hk => ?_, fun key n hn => ?_, fun x hx => ?_, fun x hx => ?_,
    fun key e he => ?_, fun key m n f e _ hf => ?_, fun p pub hp => ?_, ?_⟩
  · rw [hkeys]; exact List.nodup_nil
  · rw [hkeys] at hk; cases hk
  · rw [hkeys] at hn; cases hn
  · rw [h₀.outbox.log] at hx; cases hx
  · rw [h₀.outbox.log] at hx; cases hx
  · rw [hevents] at he; cases he
  · rw [hevents] at hf; cases hf
  · rw [h₀.publishers] at hp; cases hp
  · rw [InOrder, h₀.outbox.log]; exact .nil

/-- **The stream of a submission is in order** in the runs in which no publisher sends an event
that was cancelled since it was selected: each event has at most one number, in the order of the
journal, and nothing follows the final event. -/
theorem Host.publish_ordered
    (hr : ((Host.lts F ttl).restrict Fresh).Reachable Host.Initial h) :
    InOrder F h.base.db h.outbox.log :=
  (hr.invariant (fun _ h₀ => Inv.initial h₀) fun _ _ _ hi hst => Inv.step hi hst.1 hst.2).inOrder

end

/-! ### Two runs

A submission journals one event, a publisher selects it, and the task is cancelled.  A second
publisher cancels the event and sends the final one; the first one has sent its event before, or
sends it then.
-/

namespace Sample

/-- The frames. -/
def frames : Frames where
  eventId _ k := if k = finalKey then
      "ffffffffffffffffffffffffffffffffffffffffffffffffffffffffffffffff"
    else "aaaaaaaaaaaaaaaaaaaaaaaaaaaaaaaaaaaaaaaaaaaaaaaaaaaaaaaaaaaaaaaa"
  owner _ := "c"
  payload text := { rest := text }

/-- The context of the submission. -/
def context : Context :=
  { workspace := "w", publication := some { delivery := some "websocket" } }

/-- The input of the submission. -/
def input : Message := { role := "user", content := "go" }

/-- The submission, in the state `state`. -/
def row (state : SubmissionState) : Submission :=
  { owner := "o", task := "t", scope := ⟨input, context, "assistant"⟩, input := [input]
    address := "a", space := "s", queue := queueFor "h" .bridge, state := state
    fence := some 4 }

/-- The caller of `append`. -/
def caller : Caller :=
  { owner := "o", task := some "t", workspace := some "w", configured := "w" }

/-- The submission is bound, submitted and claimed, and journals an event. -/
def opening : List Op :=
  [.bind {} "o" "t" (some .temporal) (.ok .temporal),
    .submit {} "o" "t" [input] context "assistant" ⟨"a", "s", .bridge⟩ (.ok { deadline := 9 })
      (.ok ()) {},
    .claim {} 2 ⟨"a", "s", .bridge⟩,
    .append {} caller 2 (row .running) "bridge:0" "model.delta" "p" false (.ok ())]

/-- The task is cancelled, and its submission is finalized. -/
def ending : List Op :=
  [.cancel 2 "o", .append {} caller 2 (row .cancelled) finalKey "end" "q" true (.ok ())]

/-- The event. -/
def delta : Event := ⟨"bridge:0", "model.delta", "p", .pending⟩

/-- The final event. -/
def last : Event := ⟨finalKey, "end", "q", .pending⟩

/-- New databases. -/
def start : Host := ⟨⟨.empty "h", 0⟩, Delivery.Host.Sample.start, fun _ => none⟩

/-- The backend performs some operations. -/
def ops (h : Host) (os : List Op) : Host := { h with base := h.base.runs os }

/-- The call `p` reads the submission and selects its events. -/
def selects (h : Host) (p : ℕ) (state : SubmissionState) : Host :=
  let pub : Publisher := ⟨2, row state, .ready⟩
  let events := pub.selected (h.base.db.events 2)
  ((h.put p (some pub)).write 2 events).put p (some { pub with pc := .sending (pending events) })

/-- The call `p` sends the event `e` at `n`, its last one. -/
def sends (h : Host) (p : ℕ) (state : SubmissionState) (n : ℕ) (e : Event) : Host :=
  let pub : Publisher := ⟨2, row state, .sending [(n, e)]⟩
  let a := pub.append frames e Delivery.Host.Sample.env "" 40 ⟨0, 0, 0⟩ 0
  { h with outbox := h.outbox.after a 0 }.put p (some { pub with pc := .marking n [] })

/-- A publisher has selected the event. -/
def selected : Host := selects (ops start opening) 0 .running

/-- It has sent it, and a second one has sent the final event. -/
def inTime : Host :=
  sends (selects (ops (sends selected 0 .running 0 delta) ending) 1 .cancelled) 1 .cancelled 1 last

/-- The second one has sent the final event, and the first one sends its event. -/
def late : Host :=
  sends (sends (selects (ops selected ending) 1 .cancelled) 1 .cancelled 1 last) 0 .running 0 delta

/-- The journals hold the two events of the submission only. -/
def Plain (db : Db) : Prop :=
  ∀ key k, k ∈ keys db key → key = 2 ∧ (k = "bridge:0" ∨ k = finalKey)

theorem Plain.distinct {db : Db} (h : Plain db) : Distinct frames db := by
  intro key key' k k' hk hk' heq
  obtain ⟨hkey, hdelta⟩ := h key k hk
  obtain ⟨hkey', hdelta'⟩ := h key' k' hk'
  refine ⟨hkey.trans hkey'.symm, ?_⟩
  rcases hdelta with rfl | rfl <;> rcases hdelta' with rfl | rfl
  · rfl
  · exact absurd (show frames.eventId 2 "bridge:0" = frames.eventId 2 finalKey from heq) (by decide)
  · exact absurd (show frames.eventId 2 finalKey = frames.eventId 2 "bridge:0" from heq) (by decide)
  · rfl

/-- The operation journals no other event. -/
structure Plainly (o : Op) : Prop where
  /-- the final event is terminal -/
  final : finalOnly o
  /-- what it adds -/
  adds : ∀ db key e, Adds o db key e → key = 2 ∧ (e.key = "bridge:0" ∨ e.key = finalKey)

theorem Plain.after {s : Sys} {o : Op} (h : Plain s.db) (ho : Plainly o) :
    Plain (s.after o).db := by
  intro key k hk
  rcases after_events s o with heq | ⟨key', e, hadds, -, heq⟩
  · rw [keys, heq] at hk
    exact h key k hk
  · rw [keys, heq] at hk
    by_cases hkey : key = key'
    · subst hkey
      rw [Function.update_self, List.map_append, List.mem_append] at hk
      rcases hk with hk | hk
      · exact h key k hk
      · rw [List.mem_singleton.1 hk]
        exact ho.adds s.db key e hadds
    · rw [Function.update_of_ne hkey] at hk
      exact h key k hk

theorem plainly_append (row : Submission) (kind payload : String) :
    Plainly (.append {} caller 2 row "bridge:0" kind payload false (.ok ())) ∧
      Plainly (.append {} caller 2 row finalKey kind payload true (.ok ())) := by
  refine ⟨⟨⟨nofun, fun h => absurd h (by decide)⟩, fun db key e h => ?_⟩,
    ⟨⟨fun _ => rfl, fun _ => rfl⟩, fun db key e h => ?_⟩⟩
  · cases h
    exact ⟨rfl, .inl rfl⟩
  · cases h
    exact ⟨rfl, .inr rfl⟩

theorem opening_plainly : ∀ o ∈ opening, Plainly o := by
  intro o ho
  simp only [opening, List.mem_cons, List.not_mem_nil, or_false] at ho
  rcases ho with rfl | rfl | rfl | rfl
  · exact ⟨trivial, fun db key e h => nomatch h⟩
  · exact ⟨trivial, fun db key e h => nomatch h⟩
  · exact ⟨trivial, fun db key e h => nomatch h⟩
  · exact (plainly_append _ _ _).1

theorem ending_plainly : ∀ o ∈ ending, Plainly o := by
  intro o ho
  rcases List.mem_pair.1 ho with rfl | rfl
  · exact ⟨trivial, fun db key e h => nomatch h⟩
  · exact (plainly_append _ _ _).2

/-- The runs whose sends are fresh. -/
def Ordered (h : Host) : Prop :=
  ((Host.lts frames 86400).restrict Fresh).Reachable Host.Initial h

theorem ops_ordered {h : Host} (hr : Ordered h) (os : List Op) (hos : ∀ o ∈ os, Plainly o)
    (hp : Plain h.base.db) : Ordered (ops h os) ∧ Plain (ops h os).base.db := by
  induction os generalizing h with
  | nil => exact ⟨hr, hp⟩
  | cons o os ih =>
    have ho := hos o List.mem_cons_self
    have hp' := hp.after ho
    exact ih (hr.step (l := .op o) ⟨⟨ho.final, hp'.distinct, rfl⟩, trivial⟩)
      (fun o' h => hos o' (List.mem_cons_of_mem _ h)) hp'

theorem selects_ordered {h : Host} {p : ℕ} {state : SubmissionState} (hr : Ordered h)
    (hfree : h.publishers p = none) (hrow : h.base.db.submissions 2 = some (row state)) :
    Ordered (selects h p state) := by
  have hread : Ordered (h.put p (some ⟨2, row state, .ready⟩)) :=
    hr.step (l := .read p 2) ⟨⟨row state, hfree, hrow, rfl⟩, trivial⟩
  exact hread.step (l := .select p (.ok ()))
    ⟨⟨⟨2, row state, .ready⟩, Function.update_self .., rfl, rfl, rfl⟩, trivial⟩

theorem selects_plain {h : Host} {p : ℕ} {state : SubmissionState} (hp : Plain h.base.db) :
    Plain (selects h p state).base.db := by
  have hkeys : keys (selects h p state).base.db = keys h.base.db :=
    keys_write (h := h.put p _) (selected_keys ⟨2, row state, .ready⟩ _)
  rw [Plain, hkeys]
  exact hp

theorem opened : Ordered (ops start opening) ∧ Plain (ops start opening).base.db :=
  ops_ordered (.of_init ⟨⟨"h", rfl⟩, Delivery.Host.Sample.start_initial, fun _ => rfl⟩) opening
    opening_plainly fun _ _ hk => absurd hk List.not_mem_nil

theorem selected_ordered : Ordered selected := selects_ordered opened.1 rfl rfl

theorem selected_plain : Plain selected.base.db := selects_plain opened.2

/-- What a send does. -/
theorem sends_step {h : Host} {p n : ℕ} {state : SubmissionState} {e : Event}
    (hp : h.publishers p = some ⟨2, row state, .sending [(n, e)]⟩) (hnow : h.outbox.now = 0)
    (hok : (Publisher.mk 2 (row state) (.sending [(n, e)])).after n []
        ((Publisher.append frames ⟨2, row state, .sending [(n, e)]⟩ e Delivery.Host.Sample.env "" 40
          ⟨0, 0, 0⟩ 0).attempt h.outbox.db) =
      some ⟨2, row state, .marking n []⟩) :
    (Host.lts frames 86400).step h (.send p Delivery.Host.Sample.env "" 40 ⟨0, 0, 0⟩ 0)
      (sends h p state n e) := by
  refine ⟨_, n, e, [], hp, rfl, _, ⟨0, ?_, fun m hm => ?_, rfl⟩, ?_⟩
  · rw [hnow]
    exact ⟨le_rfl, le_rfl, le_rfl, le_rfl, le_rfl⟩
  · have : positiveLimit Delivery.Host.Sample.env "COMPANION_EVENT_TTL" 86400 = .ok 86400 := rfl
    rw [this] at hm
    exact (Except.ok.inj hm).symm
  · rw [hok]
    rfl

theorem sends_ordered {h : Host} {p n : ℕ} {state : SubmissionState} {e : Event} (hr : Ordered h)
    (hp : h.publishers p = some ⟨2, row state, .sending [(n, e)]⟩) (hnow : h.outbox.now = 0)
    (hok : (Publisher.mk 2 (row state) (.sending [(n, e)])).after n []
        ((Publisher.append frames ⟨2, row state, .sending [(n, e)]⟩ e Delivery.Host.Sample.env "" 40
          ⟨0, 0, 0⟩ 0).attempt h.outbox.db) =
      some ⟨2, row state, .marking n []⟩)
    (hfresh : (h.base.db.events 2)[n]? = some e) (he : e.delivery = .pending) :
    Ordered (sends h p state n e) := by
  refine hr.step ⟨sends_step hp hnow hok, fun pub m f later g hpub hpc hg => ?_⟩
  cases hp.symm.trans hpub
  cases hpc
  cases hfresh.symm.trans hg
  rw [he]; nofun

theorem inTime_ordered : Ordered inTime := by
  have hsent : Ordered (sends selected 0 .running 0 delta) :=
    sends_ordered selected_ordered rfl rfl (by decide) rfl rfl
  have hended := (ops_ordered hsent ending ending_plainly selected_plain).1
  exact sends_ordered (selects_ordered hended rfl (by decide)) rfl rfl (by decide)
    (by decide) rfl

theorem late_reachable : (Host.lts frames 86400).Reachable Host.Initial late := by
  have hended := (ops_ordered selected_ordered ending ending_plainly selected_plain).1
  have hselected : Ordered (selects (ops selected ending) 1 .cancelled) :=
    selects_ordered hended rfl (by decide)
  have hsent : Ordered (sends (selects (ops selected ending) 1 .cancelled) 1 .cancelled 1 last) :=
    sends_ordered hselected (by decide) rfl (by decide) (by decide) rfl
  obtain ⟨s, ls, hs, hr⟩ := hsent
  exact Lts.Reachable.step ⟨s, ls, hs, hr.of_restrict⟩ (sends_step rfl rfl (by decide))

end Sample

/-- The stream of a cancelled submission: its event, then the final one. -/
theorem publish_ordered_sample :
    InOrder Sample.frames Sample.inTime.base.db Sample.inTime.outbox.log ∧
      Sample.inTime.outbox.log.map (·.1.message.content.type) =
        [some "chat.delta", some "chat.end"] :=
  ⟨Host.publish_ordered Sample.inTime_ordered, by decide⟩

/-- A publisher selects an event before the task is cancelled and sends it after another publisher
has sent the final event: the client sees an event after the end. -/
theorem publish_late : ∃ h, (Host.lts Sample.frames 86400).Reachable Host.Initial h ∧
    ¬ InOrder Sample.frames h.base.db h.outbox.log := by
  refine ⟨Sample.late, Sample.late_reachable, fun hin => ?_⟩
  obtain ⟨x, y, hlog, hx, hy⟩ : ∃ x y, Sample.late.outbox.log = [x, y] ∧
      x.2 = some (Sample.frames.eventId 2 finalKey) ∧
      y.2 = some (Sample.frames.eventId 2 "bridge:0") :=
    ⟨_, _, rfl, rfl, rfl⟩
  rw [InOrder, hlog] at hin
  exact ((List.pairwise_cons.1 hin).1 y (List.mem_singleton_self y) 2 1 0 finalKey "bridge:0"
    (by decide) (by decide) hx hy).2.2 rfl

end Publishing

end Temporal

end PythonAI
