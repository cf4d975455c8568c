import Mathlib.Data.List.Pairwise
import PythonAI.Delivery.History

/-!
# The connections of a companion session

A `Session` of the WebSocket server holds at most one connection.  Reliable messages get a number
in the event store; `flush` sends the stored ones that are above `sent_seq`.  A client that
reconnects tells the last number it has, and `ws_endpoint` replays the outbox, a copy of the stored
events in memory, before `flush` goes on.

A step is what a coroutine does between two of its awaits.  The messages that are handed to a
connection are recorded in the order in which this happens; how a sending ends is a later step.

* `Host` : the session, with the store, the handshakes and the running flushes;
* `Host.perform` : the state after a step;
* `Ordered`, `Appended` : what the operations of the store do to the events of the owner.
-/

namespace PythonAI

open Library

namespace Delivery

namespace Sockets

/-- A message with its number. -/
abbrev Numbered := Message × ℕ

/-- Where `ws_endpoint` is. -/
inductive Handshake
  /-- `welcome` is being sent; the replay starts after the number `replayed` -/
  | welcome (replayed : ℕ)
  /-- a message of the replay is being sent, and `rest` comes after it -/
  | replay (sending : Numbered) (rest : List Numbered) (replayed : ℕ)
  /-- messages of the client are received -/
  | ready
  /-- the handler has ended -/
  | ended
  deriving DecidableEq, Repr

/-- A connection. -/
structure Conn where
  lastSeq : ℤ
  /-- `resumed`, as the welcome says it -/
  resumed : Bool
  /-- its handler -/
  pc : Handshake
  /-- the numbered messages that were sent on it -/
  sent : List Numbered := []
  /-- the last number when it was attached -/
  base : ℕ
  deriving DecidableEq, Repr

/-- Where a call of `flush` is. -/
inductive FlushPc
  /-- it waits for the lock -/
  | waiting
  /-- it holds the lock and is sending a message on the connection, and `rest` comes after it -/
  | sending (conn : ℕ) (message : Numbered) (rest : List Numbered)
  deriving DecidableEq, Repr

/-- A call of `flush`. -/
structure Flush where
  /-- the lock, which is the one of a connection -/
  lock : ℕ
  /-- where it is -/
  pc : FlushPc
  deriving DecidableEq, Repr

/-- A `Session`, with the event store. -/
structure Host where
  /-- the event store -/
  db : Db
  owner : Owner
  ws : Option ℕ := none
  /-- the connection that was attached last -/
  last : Option ℕ := none
  /-- `connection_ready` -/
  ready : Bool := true
  /-- `send_lock`: the connection that it was made for -/
  lock : ℕ := 0
  seq : ℕ
  outbox : List Numbered
  sentSeq : ℕ := 0
  /-- the connections -/
  conns : ℕ → Option Conn := fun _ => none
  /-- the calls of `flush` -/
  flushes : ℕ → Option Flush := fun _ => none

namespace Host

variable (h : Host)

/-- The connection `c` becomes `x`. -/
def putConn (c : ℕ) (x : Conn) : Host := { h with conns := Function.update h.conns c (some x) }

/-- The handler of the connection `c` goes on at `pc`. -/
def setPc (c : ℕ) (pc : Handshake) : Host :=
  { h with conns := Function.update h.conns c ((h.conns c).map fun x => { x with pc := pc }) }

/-- `send_text` of a numbered message is called. -/
def sendOn (c : ℕ) (m : Numbered) : Host :=
  { h with
    conns := Function.update h.conns c ((h.conns c).map fun x => { x with sent := x.sent ++ [m] }) }

/-- `if self.ws is connection: self.ws = None`. -/
def leave (c : ℕ) : Host := if h.ws = some c then { h with ws := none } else h

/-! ### `flush` -/

/-- The next message that the loop of `flush` sends on the connection `c`, and what comes after
it. -/
def next (c : ℕ) : List Numbered → Option (Numbered × List Numbered)
  | [] => none
  | m :: rest => if m.2 ≤ h.sentSeq || h.ws ≠ some c then next c rest else some (m, rest)

/-- The lock is held. -/
def Locked (l : ℕ) : Prop := ∃ f c m rest, h.flushes f = some ⟨l, .sending c m rest⟩

/-- The loop of the call `f` of `flush` goes on, up to its next await; at its end the lock is
released. -/
def goOn (f l c : ℕ) (rest : List Numbered) : Host :=
  match h.next c rest with
  | none => { h with flushes := Function.update h.flushes f none }
  | some (m, rest) =>
    { h.sendOn c m with flushes := Function.update h.flushes f (some ⟨l, .sending c m rest⟩) }

/-- `flush`, when it has the lock. -/
def begin (f l : ℕ) (r : Reads) : Host :=
  match h.ws with
  | none => { h with flushes := Function.update h.flushes f none }
  | some c =>
    let (db, seq, _, messages) := EventStore.snapshot h.owner r h.db
    { h with db := db, seq := seq, outbox := messages }.goOn f l c messages

/-- What `flush` finds when it is called. -/
inductive Entry
  /-- there is nothing to do -/
  | leaves
  /-- the lock is held -/
  | waits
  /-- the lock is free -/
  | enters
  deriving DecidableEq, Repr

/-- `flush` is called, and finds `e`. -/
def Enters : Entry → Prop
  | .leaves => h.ws = none ∨ h.ready = false
  | .waits => h.ws ≠ none ∧ h.ready = true ∧ h.Locked h.lock
  | .enters => h.ws ≠ none ∧ h.ready = true ∧ ¬ h.Locked h.lock

/-- The call `f` of `flush`, up to its first await. -/
def enter (f : ℕ) (r : Reads) : Entry → Host
  | .leaves => h
  | .waits => { h with flushes := Function.update h.flushes f (some ⟨h.lock, .waiting⟩) }
  | .enters => h.begin f h.lock r

/-! ### The session -/

/-- `send` of a reliable message, up to the call of `flush`; the flag says whether it is called. -/
def append (env : Environment) (message : Message) (key : Option String) (size : ℕ) (r : Reads)
    (t : Time) : Host × Bool :=
  match EventStore.append env h.owner message key size r t h.db with
  | .error _ => (h, false)
  | .ok (db, none) => ({ h with db := db }, false)
  | .ok (db, some m) =>
    ({ h with
      db := db
      seq := max h.seq m.2
      outbox := if h.outbox.any fun m' => m'.2 = m.2 then h.outbox else h.outbox ++ [m] }, true)

/-- `ack`. -/
def acked (n : ℤ) : Host :=
  match EventStore.ack h.owner n h.db with
  | .error _ => h
  | .ok (db, _) => { h with db := db, outbox := h.outbox.dropWhile fun m => (m.2 : ℤ) ≤ n }

/-- `request_desktop_tool`, up to the sending. -/
def desktop (env : Environment) (message : Message) (size : ℕ) (r : Reads) (t : Time) : Host :=
  match h.ws with
  | none => h
  | some c =>
    match EventStore.append env h.owner message none size r t h.db with
    | .ok (db, some m) => { h with db := db, seq := m.2, outbox := h.outbox ++ [m] }.sendOn c m
    | _ => h

/-! ### `ws_endpoint` -/

/-- A connection `c` is attached, when the one before it is closed. -/
def attach (c : ℕ) (lastSeq : ℤ) (r : Reads) : Host :=
  let (db, seq, floor, messages) := EventStore.snapshot h.owner r h.db
  let resumed : Bool := floor ≤ lastSeq && lastSeq ≤ seq
  let h := { h with
    db := db, ws := some c, last := some c, ready := false, lock := c, seq := seq
    outbox := messages }
  let h := h.putConn c
    { lastSeq := lastSeq, resumed := resumed, base := seq
      pc := .welcome (if resumed then lastSeq.toNat else seq) }
  if resumed then h.acked lastSeq else h

/-- The replay goes on, up to its next await. -/
def replay (c : ℕ) (rest : List Numbered) (replayed : ℕ) : Host :=
  match rest with
  | [] => { h.setPc c .ready with sentSeq := replayed, ready := true }
  | m :: rest => (h.sendOn c m).setPc c (.replay m rest replayed)

/-- The messages that a replay sends. -/
def replayed (x : Conn) : List Numbered :=
  if x.resumed then h.outbox.filter fun m => x.lastSeq < m.2 else []

end Host

/-- A step. -/
inductive Act
  /-- a connection is attached -/
  | attach (c : ℕ) (lastSeq : ℤ) (r : Reads)
  /-- the sending of its welcome ends; an exception takes the connection from the session -/
  | welcomed (c : ℕ) (ok : Bool)
  /-- the sending of a message of its replay ends; an exception ends the handler -/
  | replayed (c : ℕ) (ok : Bool)
  /-- `send` of a reliable message, in the coroutine `f` -/
  | send (f : ℕ) (env : Environment) (message : Message) (key : Option String) (size : ℕ)
      (r : Reads) (t : Time) (r' : Reads) (e : Host.Entry)
  /-- another process appends an event, of any owner -/
  | append (env : Environment) (owner : Owner) (message : Message) (key : Option String) (size : ℕ)
      (r : Reads) (t : Time)
  /-- the coroutine `f` calls `flush` -/
  | flush (f : ℕ) (r : Reads) (e : Host.Entry)
  /-- a waiting call gets the lock -/
  | wake (f : ℕ) (r : Reads)
  /-- the sending of a message by a call of `flush` ends -/
  | flushed (f : ℕ) (ok : Bool)
  /-- a call of `flush` is cancelled -/
  | cancel (f : ℕ)
  /-- a client acknowledges a number on the connection `c` -/
  | ack (c : ℕ) (n : ℤ)
  /-- another sending has failed: the session loses its connection -/
  | lost
  /-- the handler of a connection ends -/
  | close (c : ℕ)
  /-- `request_desktop_tool` -/
  | desktop (env : Environment) (message : Message) (size : ℕ) (r : Reads) (t : Time)

namespace Host

/-- What a coroutine does between two awaits. -/
def Step (h : Host) (a : Act) (h' : Host) : Prop :=
  match a with
  | .attach c lastSeq r => h.conns c = none ∧ h' = h.attach c lastSeq r
  | .welcomed c ok => ∃ x n, h.conns c = some x ∧ x.pc = .welcome n ∧
      h' = (if ok then h else { h with ws := none }).replay c (h.replayed x) n
  | .replayed c ok => ∃ x m rest n, h.conns c = some x ∧ x.pc = .replay m rest n ∧
      h' = if ok then h.replay c rest (max n m.2) else (h.setPc c .ended).leave c
  | .send f env message key size r t r' e => h.flushes f = none ∧
      ((h.append env message key size r t).2 = false ∧
          h' = (h.append env message key size r t).1 ∨
        (h.append env message key size r t).2 = true ∧
          (h.append env message key size r t).1.Enters e ∧
          h' = (h.append env message key size r t).1.enter f r' e)
  | .append env owner message key size r t =>
      h' = { h with db := (Delivery.Act.append env owner message key size r t).perform h.db }
  | .flush f r e => h.flushes f = none ∧ h.Enters e ∧ h' = h.enter f r e
  | .wake f r => ∃ l, h.flushes f = some ⟨l, .waiting⟩ ∧ ¬ h.Locked l ∧ h' = h.begin f l r
  | .flushed f ok => ∃ l c m rest, h.flushes f = some ⟨l, .sending c m rest⟩ ∧
      h' = if ok then { h with sentSeq := m.2 }.goOn f l c rest
        else { h.leave c with flushes := Function.update h.flushes f none }
  | .cancel f => h' = { h with flushes := Function.update h.flushes f none }
  | .ack c n => (∃ x, h.conns c = some x ∧ x.pc = .ready) ∧ h' = h.acked n
  | .lost => h' = { h with ws := none }
  | .close c => h' = (h.setPc c .ended).leave c
  | .desktop env message size r t => h' = h.desktop env message size r t

end Host

/-! ### The events of an owner -/

section

variable {db db' : Db} {o owner : Owner} {r : Reads} {env : Environment} {message : Message}
  {key : Option String} {size : ℕ} {t : Time} {out : Option Numbered}

/-- The events of an owner are stored in the order of their numbers. -/
structure Ordered (o : Owner) (db : Db) : Prop where
  /-- the order -/
  sorted : (db.eventsOf o).Pairwise fun e e' => e.seq < e'.seq
  /-- the numbers -/
  numbers : ∀ e ∈ db.eventsOf o, 0 < e.seq ∧ e.seq ≤ db.seq o

/-- The events of the owner after an operation: some have gone, and none has come. -/
structure Fewer (o : Owner) (db db' : Db) : Prop where
  /-- the events -/
  events : (db'.eventsOf o).Sublist (db.eventsOf o)
  /-- the last number -/
  seq : db'.seq o = db.seq o

/-- An event of the owner is stored, after some have gone. -/
structure Stored (o : Owner) (db db' : Db) : Prop where
  /-- the events -/
  events : ∃ es e, es.Sublist (db.eventsOf o) ∧ db'.eventsOf o = es ++ [e] ∧ e.seq = db.seq o + 1
  /-- the last number -/
  seq : db'.seq o = db.seq o + 1

theorem Ordered.fewer (h : Ordered o db) (hf : Fewer o db db') : Ordered o db' :=
  ⟨h.sorted.sublist hf.events, fun e he => hf.seq ▸ h.numbers e (hf.events.subset he)⟩

theorem Ordered.stored (h : Ordered o db) (hs : Stored o db db') : Ordered o db' := by
  obtain ⟨⟨es, e, hsub, hevents, hnum⟩, hseq⟩ := hs
  refine ⟨?_, fun e' he' => ?_⟩
  · rw [hevents, List.pairwise_append]
    refine ⟨h.sorted.sublist hsub, List.pairwise_singleton _ _, fun a ha b hb => ?_⟩
    rw [List.mem_singleton.1 hb, hnum]
    exact Nat.lt_succ_of_le (h.numbers a (hsub.subset ha)).2
  · rw [hevents, List.mem_append, List.mem_singleton] at he'
    rw [hseq]
    rcases he' with he' | rfl
    · have := h.numbers e' (hsub.subset he')
      omega
    · omega

theorem cleanup_eventsOf : ((EventStore.cleanup r db).eventsOf o).Sublist (db.eventsOf o) :=
  (List.filter_sublist (l := db.events)).filter _

theorem cleanup_fewer : Fewer o db (EventStore.cleanup r db) := ⟨cleanup_eventsOf, cleanup_seq r⟩

/-- What `snapshot` returns, when the rows are in the order of their numbers. -/
theorem snapshot_sorted {s : Session} (hs : (EventStore.cleanup r db).session o = some s)
    (h : ((EventStore.cleanup r db).eventsOf o).Pairwise fun e e' => e.seq ≤ e'.seq) :
    EventStore.snapshot o r db = (EventStore.cleanup r db, s.seq, s.floor,
      ((EventStore.cleanup r db).eventsOf o).map fun e => (e.message, e.seq)) := by
  have hsort : ((EventStore.cleanup r db).eventsOf o).mergeSort (fun e e' => e.seq ≤ e'.seq) =
      (EventStore.cleanup r db).eventsOf o :=
    List.mergeSort_of_pairwise (h.imp fun hle => by simpa using hle)
  simp only [EventStore.snapshot, hsort, hs]

/-- What `snapshot` returns. -/
theorem snapshot_eq (h : Ordered o db) : (EventStore.snapshot o r db).1 = EventStore.cleanup r db ∧
    (EventStore.snapshot o r db).2.1 = db.seq o ∧
    (EventStore.snapshot o r db).2.2.1 = (EventStore.cleanup r db).floor o ∧
    (EventStore.snapshot o r db).2.2.2.map Prod.snd =
      ((EventStore.cleanup r db).eventsOf o).map Event.seq := by
  have hordered : Ordered o (EventStore.cleanup r db) := h.fewer cleanup_fewer
  have hseq := @cleanup_seq db o r
  cases hs : (EventStore.cleanup r db).session o with
  | some s =>
    rw [Db.seq, hs] at hseq
    rw [snapshot_sorted hs (hordered.sorted.imp fun hlt => hlt.le)]
    exact ⟨rfl, hseq, by rw [Db.floor, hs]; rfl, by simp⟩
  | none =>
    rw [Db.seq, hs] at hseq
    simp only [EventStore.snapshot, hs]
    have hempty : (EventStore.cleanup r db).eventsOf o = [] := by
      refine List.eq_nil_iff_forall_not_mem.2 fun e he => ?_
      have hnum := hordered.numbers e he
      rw [cleanup_seq, ← hseq] at hnum
      exact absurd (hnum.1.trans_le hnum.2) (Nat.lt_irrefl 0)
    refine ⟨trivial, hseq, by rw [Db.floor, hs]; rfl, ?_⟩
    rw [hempty]
    rfl

/-- What an append of `owner` does, and what it returns. -/
inductive Appended (r : Reads) (owner : Owner) (db db' : Db) (out : Option Numbered) : Prop
  /-- its durable key is known: the event is returned, if it is still stored -/
  | old (hdb : db' = EventStore.cleanup r db)
      (hout : ∀ m, out = some m → ∃ e ∈ db'.eventsOf owner, e.seq = m.2)
  /-- an event is stored -/
  | new (e : Event) (howner : e.owner = owner) (hnum : e.seq = db.seq owner + 1)
      (hout : ∃ message, out = some (message, db.seq owner + 1))
      (hseq : ∀ o, db'.seq o = if o = owner then db.seq o + 1 else db.seq o)
      (hfloor : ∀ o, db'.floor o = (EventStore.cleanup r db).floor o)
      (hevents : db'.events = (EventStore.cleanup r db).events ++ [e])

theorem insert_appended
    (h : EventStore.insert env owner message key size t (EventStore.cleanup r db) =
      .ok (db', out)) : Appended r owner db db' out := by
  obtain ⟨ttl, -, hseq, hfloor, hevents, -, hout⟩ := insert_ok h
  simp only [cleanup_seq] at hseq hevents hout
  exact .new ⟨owner, db.seq owner + 1, message, size, t + ttl⟩ rfl rfl ⟨message, hout⟩ hseq hfloor
    hevents

theorem append_appended (h : EventStore.append env owner message key size r t db = .ok (db', out)) :
    Appended r owner db db' out := by
  cases key with
  | none =>
    simp only [EventStore.append] at h
    exact insert_appended h
  | some k =>
    simp only [EventStore.append, bind_eq_ok, ensure_eq_ok] at h
    obtain ⟨-, -, -, -, h⟩ := h
    split at h
    case h_1 old hold =>
      simp only [bind_eq_ok, ensure_eq_ok, pure_eq_ok, Prod.mk.injEq] at h
      obtain ⟨-, -, rfl, rfl⟩ := h
      refine .old rfl fun m hm => ?_
      obtain ⟨e, he, rfl⟩ := Option.map_eq_some_iff.1 hm
      have hmine := List.find?_some he
      simp only [Bool.and_eq_true, decide_eq_true_eq] at hmine
      exact ⟨e, List.mem_filter.2 ⟨List.mem_of_find?_eq_some he, by simpa using hmine.1⟩, rfl⟩
    case h_2 =>
      simp only [bind_eq_ok, ensure_eq_ok] at h
      obtain ⟨limit, -, -, -, h⟩ := h
      exact insert_appended h

end

end Sockets

end Delivery

end PythonAI
