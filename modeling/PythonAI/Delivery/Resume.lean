import PythonAI.Delivery.Sockets

/-!
# Reconnecting skips no event

The runs of a session without desktop tool calls, in which no event expires and clients acknowledge
only numbers that they have received.

* `Host.Delivered` : what was sent on a connection has no gap above the last number of its client;
* `Host.no_event_skipped` : **no event is skipped** in the runs that are `Host.Sound`: the replay of a
  connection finds no gap in the outbox, a handshake that was replaced finds nothing newer than the
  connection that replaced it, and an acknowledgement on a connection that was replaced is of a number
  that has reached the new one;
* `Host.event_skipped` : a run in which another process stores an event while the welcome is being
  sent, and the replay skips it.
-/

namespace PythonAI

open Library

namespace Delivery

namespace Sockets

/-- No event of the owner has expired for the clock values. -/
def Live (r : Reads) (o : Owner) (db : Db) : Prop :=
  ∀ e ∈ db.eventsOf o, r.floors < e.expires ∧ r.events < e.expires

/-- The events of the owner that are stored have the numbers above its floor. -/
def Whole (o : Owner) (db : Db) : Prop :=
  Window Event.seq (db.floor o) (db.seq o) (db.eventsOf o)

/-! ### The store, when nothing expires -/

section

variable {db db' : Db} {o owner : Owner} {r : Reads} {out : Option Numbered}

theorem Whole.ordered (h : Whole o db) : Ordered o db := by
  refine ⟨?_, fun e he => ?_⟩
  · have hnums : ((db.eventsOf o).map Event.seq).Pairwise (· < ·) := by
      rw [h.nums]
      exact List.pairwise_lt_range'
    exact List.pairwise_map.1 hnums
  · have := h.mem_nums he
    omega

theorem cleanup_eventsOf_live (hl : Live r o db) :
    (EventStore.cleanup r db).eventsOf o = db.eventsOf o := by
  rw [Db.eventsOf, EventStore.cleanup, List.filter_comm]
  exact List.filter_eq_self.2 fun e he => decide_eq_true (hl e he).2

theorem cleanup_floor_live (hl : Live r o db) :
    (EventStore.cleanup r db).floor o = db.floor o := by
  have hlast : EventStore.lastExpired o r.floors db.events = 0 := by
    have hnone : (db.events.filter fun e => e.owner = o && e.expires ≤ r.floors) = [] := by
      refine List.filter_eq_nil_iff.2 fun e he hexp => ?_
      simp only [Bool.and_eq_true, decide_eq_true_eq] at hexp
      have := (hl e (List.mem_filter.2 ⟨he, decide_eq_true hexp.1⟩)).1
      exact absurd hexp.2 (not_le.2 this)
    rw [EventStore.lastExpired, hnone]
    rfl
  rw [cleanup_floor, hlast]
  split_ifs with hs
  · exact max_eq_left (Nat.zero_le _)
  · rw [Db.floor, Option.not_isSome_iff_eq_none.1 hs]
    rfl

theorem Whole.cleanup (hw : Whole o db) (hl : Live r o db) : Whole o (EventStore.cleanup r db) := by
  rw [Whole, cleanup_floor_live hl, cleanup_seq, cleanup_eventsOf_live hl]
  exact hw

/-- The messages of a snapshot are those above the floor. -/
theorem Whole.snapshot (hw : Whole o db) (hl : Live r o db) :
    Window Prod.snd (db.floor o) (db.seq o) (EventStore.snapshot o r db).2.2.2 := by
  obtain ⟨-, -, -, hmap⟩ := snapshot_eq (r := r) hw.ordered
  refine ⟨hw.le, ?_⟩
  rw [hmap, cleanup_eventsOf_live hl]
  exact hw.nums

/-- An append, of any owner. -/
theorem Whole.appended (hw : Whole o db) (hl : Live r o db) (ha : Appended r owner db db' out) :
    Whole o db' ∧ db'.floor o = db.floor o ∧ db.seq o ≤ db'.seq o ∧
      (owner = o → ∀ m, out = some m → m.2 ≤ db'.seq o) := by
  cases ha with
  | old hdb hout =>
    subst hdb
    refine ⟨hw.cleanup hl, cleanup_floor_live hl, (cleanup_seq r).ge, fun ho m hm => ?_⟩
    obtain ⟨e, he, hnum⟩ := hout m hm
    rw [← hnum]
    exact ((hw.cleanup hl).mem_nums (ho ▸ he)).2
  | new e howner hnum hout hseq hfloor hevents =>
    have hfloor' : db'.floor o = db.floor o := (hfloor o).trans (cleanup_floor_live hl)
    have hle : db.seq o ≤ db'.seq o := by
      rw [hseq]
      split_ifs <;> omega
    refine ⟨?_, hfloor', hle, fun ho m hm => ?_⟩
    · rw [Whole, hfloor', hseq, Delivery.Host.eventsOf_append hevents]
      have hsame : (EventStore.cleanup r db).events.filter (fun e => e.owner = o) =
          db.eventsOf o := cleanup_eventsOf_live hl
      rw [hsame]
      by_cases ho : o = owner
      · subst ho
        rw [if_pos rfl, if_pos howner]
        exact hw.snoc hnum
      · rw [if_neg ho, if_neg (by rw [howner]; exact Ne.symm ho), List.append_nil]
        exact hw
    · obtain ⟨message, hout⟩ := hout
      rw [hm] at hout
      cases hout
      rw [hseq, if_pos ho.symm, ho]

end

namespace Host

/-- The client of the connection `c` has received the number `n`, or says so. -/
def Received (h : Host) (c : ℕ) (n : ℤ) : Prop :=
  ∃ x, h.conns c = some x ∧ (n ≤ x.lastSeq ∨ ∃ m ∈ x.sent, (m.2 : ℤ) = n)

/-- No event expires, only numbers that were received are acknowledged, and there are no desktop
calls. -/
def Allowed (h : Host) : Act → Prop
  | .attach _ _ r | .flush _ r _ | .wake _ r => Live r h.owner h.db
  | .append _ _ _ _ _ r _ => Live r h.owner h.db
  | .send _ env message key size r t r' _ =>
    Live r h.owner h.db ∧ Live r' h.owner (h.append env message key size r t).1.db
  | .ack c n => h.Received c n
  | .desktop .. => False
  | _ => True

/-- The runs of the session. -/
def lts : Lts Host Act where
  step h a h' := h.Step a h' ∧ h.Allowed a

/-- A new session: nothing has expired, and nothing was sent. -/
structure Initial (h : Host) : Prop where
  /-- the events that are not acknowledged are stored -/
  stored : Whole h.owner h.db
  /-- the outbox -/
  outbox : h.outbox = []
  /-- the last number sent -/
  sentSeq : h.sentSeq = 0
  /-- no connection -/
  ws : h.ws = none
  /-- and none before -/
  last : h.last = none
  /-- none at all -/
  conns : ∀ c, h.conns c = none
  /-- no call of `flush` -/
  flushes : ∀ f, h.flushes f = none

/-- Nothing is skipped: every event between the last number of the client and the last number sent
was sent on the connection, once its replay is over. -/
def Delivered (h : Host) : Prop :=
  ∀ c x, h.ws = some c → h.conns c = some x → x.pc = .ready → x.resumed = true →
    ∀ k : ℕ, x.lastSeq < k → k ≤ h.sentSeq → ∃ m ∈ x.sent, m.2 = k

/-- The events that are gone are events that the client had, or that were sent to it. -/
def Keeps (h h' : Host) : Prop :=
  ∀ c x, h.last = some c → h.conns c = some x → x.resumed = true →
    ∀ e ∈ h.db.eventsOf h.owner, e ∉ h'.db.eventsOf h.owner →
      (e.seq : ℤ) ≤ x.lastSeq ∨ ∃ m ∈ x.sent, m.2 = e.seq

/-- The replay that starts when a welcome was sent has no gap; if the connection was replaced, then
it has nothing that came after the new one.  A number that is acknowledged on a connection that was
replaced is one that the client had when it connected again, or one that was sent on the new
connection, whose replay is over. -/
def Sound (h : Host) : Act → Prop
  | .welcomed c _ => ∀ x, h.conns c = some x →
    (h.last = some c → ∀ m ∈ h.replayed x, ∀ j : ℕ, x.lastSeq < j → j < m.2 →
      ∃ m' ∈ h.replayed x, m'.2 = j) ∧
    ∀ d y, h.ws = some d → d ≠ c → h.conns d = some y → ∀ m ∈ h.replayed x, m.2 ≤ y.base
  | .ack c n => ∀ d x, h.last = some d → d ≠ c → h.conns d = some x → x.resumed = true →
    n ≤ x.lastSeq ∨ x.pc = .ready ∧ ∃ m ∈ x.sent, (m.2 : ℤ) = n
  | _ => True

end Host

/-! ### The invariant -/

/-- Every number above `l`, up to `k`, is the number of a message in the list. -/
def UpTo (l : ℤ) (ms : List Numbered) (k : ℕ) : Prop :=
  ∀ j : ℕ, l < j → j ≤ k → ∃ m ∈ ms, m.2 = j

theorem UpTo.mono {l : ℤ} {ms ms' : List Numbered} {k : ℕ} (h : UpTo l ms k)
    (hms : ∀ m ∈ ms, l < m.2 → ∃ m' ∈ ms', m'.2 = m.2) : UpTo l ms' k := fun j hl hk => by
  obtain ⟨m, hm, rfl⟩ := h j hl hk
  exact hms m hm hl

theorem UpTo.le {l : ℤ} {ms : List Numbered} {j k : ℕ} (h : UpTo l ms k) (hj : j ≤ k) :
    UpTo l ms j := fun i hl hi => h i hl (hi.trans hj)

/-- The numbers that a handshake has at hand. -/
def Handshake.numbers : Handshake → List ℕ
  | .welcome n => [n]
  | .replay m rest n => m.2 :: n :: rest.map Prod.snd
  | .ready | .ended => []

/-- What is left to be sent of the replay, if its start finds `outbox`. -/
def Handshake.remaining (outbox : List Numbered) : Handshake → List Numbered
  | .welcome _ => outbox
  | .replay _ rest _ => rest
  | .ready | .ended => []

namespace Host

/-- What was sent on a connection, or is left to be sent by its replay. -/
def covered (h : Host) (x : Conn) : List Numbered := x.sent ++ x.pc.remaining h.outbox

/-- The messages that a call of `flush` goes on with, after what is covered. -/
def Pending (h : Host) (x : Conn) (rest : List Numbered) : Prop :=
  rest.Pairwise (fun m m' => m.2 < m'.2) ∧ ∀ m ∈ rest, UpTo x.lastSeq (rest ++ h.covered x) m.2

/-- What is covered has no gap, on a connection `c` that was resumed. -/
structure Complete (h : Host) (c : ℕ) (x : Conn) : Prop where
  /-- up to each number that was sent -/
  sent : ∀ m ∈ x.sent, UpTo x.lastSeq (h.covered x) m.2
  /-- up to each number that its handshake has -/
  numbers : ∀ k ∈ x.pc.numbers, UpTo x.lastSeq (h.covered x) k
  /-- up to the last number when it was attached -/
  base : UpTo x.lastSeq (h.covered x) x.base
  /-- up to the floor -/
  floor : UpTo x.lastSeq (h.covered x) (h.db.floor h.owner)
  /-- nothing is acknowledged while the welcome is being sent -/
  welcome : ∀ n, x.pc = .welcome n → (h.db.floor h.owner : ℤ) ≤ x.lastSeq
  /-- for the calls of `flush` that send on it -/
  flushes : ∀ f l m rest, h.flushes f = some ⟨l, .sending c m rest⟩ →
    (∃ m' ∈ x.sent, m'.2 = m.2) ∧ h.Pending x rest

/-- What holds of the connection `c` of the session. -/
structure Current (h : Host) (c : ℕ) (x : Conn) : Prop where
  /-- its handler goes on -/
  pc : x.pc ≠ .ended
  /-- the last number sent -/
  sentSeq : x.resumed = true → UpTo x.lastSeq (h.covered x) h.sentSeq
  /-- the calls of `flush` that send on other connections have older messages -/
  flushes : ∀ f l d m rest, h.flushes f = some ⟨l, .sending d m rest⟩ → d ≠ c → m.2 ≤ x.base
  /-- and so do the other handshakes -/
  conns : ∀ d y, d ≠ c → h.conns d = some y → ∀ k ∈ y.pc.numbers, k ≤ x.base

/-- The invariant. -/
structure Inv (h : Host) : Prop where
  /-- the stored events -/
  stored : Whole h.owner h.db
  /-- the last number sent -/
  sentSeq : h.sentSeq ≤ h.db.seq h.owner
  /-- the numbers of the outbox -/
  outbox : ∀ m ∈ h.outbox, m.2 ≤ h.db.seq h.owner
  /-- the numbers of the calls of `flush` -/
  flushes : ∀ f l d m rest, h.flushes f = some ⟨l, .sending d m rest⟩ →
    h.conns d ≠ none ∧ ∀ m' ∈ m :: rest, m'.2 ≤ h.db.seq h.owner
  /-- the numbers of the handshakes -/
  conns : ∀ d y, h.conns d = some y → ∀ k ∈ y.pc.numbers, k ≤ h.db.seq h.owner
  /-- the connection of the session was attached last -/
  ws : ∀ c, h.ws = some c → h.last = some c
  /-- the connection that was attached last -/
  last : ∀ c, h.last = some c → ∃ x, h.conns c = some x ∧
    (x.resumed = true → x.pc ≠ .ended → h.Complete c x) ∧ (h.ws = some c → h.Current c x)

variable {h h' : Host}

theorem Initial.inv (hi : h.Initial) : h.Inv := by
  refine ⟨hi.stored, ?_, ?_, ?_, ?_, ?_, ?_⟩
  · rw [hi.sentSeq]
    exact Nat.zero_le _
  · simp [hi.outbox]
  · intro f l d m rest hf
    rw [hi.flushes f] at hf
    cases hf
  · intro d y hd
    rw [hi.conns d] at hd
    cases hd
  · intro c hc
    rw [hi.ws] at hc
    cases hc
  · intro c hc
    rw [hi.last] at hc
    cases hc

/-- A host in which at least as much is covered, and no call of `flush` has come. -/
theorem Complete.transfer {c : ℕ} {x : Conn} (hc : h.Complete c x)
    (hcov : ∀ m ∈ h.covered x, x.lastSeq < m.2 → ∃ m' ∈ h'.covered x, m'.2 = m.2)
    (hfloor : UpTo x.lastSeq (h'.covered x) (h'.db.floor h'.owner))
    (hwelcome : ∀ n, x.pc = .welcome n → (h'.db.floor h'.owner : ℤ) ≤ x.lastSeq)
    (hflushes : ∀ f l m rest, h'.flushes f = some ⟨l, .sending c m rest⟩ →
      h.flushes f = some ⟨l, .sending c m rest⟩) : h'.Complete c x := by
  refine ⟨fun m hm => (hc.sent m hm).mono hcov, fun k hk => (hc.numbers k hk).mono hcov,
    hc.base.mono hcov, hfloor, hwelcome, fun f l m rest hf => ?_⟩
  obtain ⟨hm, hsorted, hrest⟩ := hc.flushes f l m rest (hflushes f l m rest hf)
  refine ⟨hm, hsorted, fun m' hm' => (hrest m' hm').mono fun a ha hla => ?_⟩
  rcases List.mem_append.1 ha with ha | ha
  · exact ⟨a, List.mem_append_left _ ha, rfl⟩
  · obtain ⟨b, hb, hba⟩ := hcov a ha hla
    exact ⟨b, List.mem_append_right _ hb, hba⟩

/-- The store and the outbox change, and the floor stays. -/
theorem Inv.store (hi : h.Inv) {db : Db} {outbox : List Numbered} {seq : ℕ}
    (hstored : Whole h.owner db) (hseq : h.db.seq h.owner ≤ db.seq h.owner)
    (hfloor : db.floor h.owner = h.db.floor h.owner)
    (hbound : ∀ m ∈ outbox, m.2 ≤ db.seq h.owner)
    (hkept : ∀ m ∈ h.outbox, h.db.floor h.owner < m.2 → ∃ m' ∈ outbox, m'.2 = m.2) :
    Inv { h with db := db, outbox := outbox, seq := seq } := by
  refine ⟨hstored, hi.sentSeq.trans hseq, hbound, fun f l d m rest hf => ?_, fun d y hd k hk => ?_,
    hi.ws, fun c hc => ?_⟩
  · exact ⟨(hi.flushes f l d m rest hf).1, fun m' hm' =>
      ((hi.flushes f l d m rest hf).2 m' hm').trans hseq⟩
  · exact (hi.conns d y hd k hk).trans hseq
  · obtain ⟨x, hx, hcomplete, hcurrent⟩ := hi.last c hc
    -- Only a handshake that has not read the outbox depends on it.
    have hcov : (∀ n, x.pc = .welcome n → (h.db.floor h.owner : ℤ) ≤ x.lastSeq) →
        ∀ m ∈ h.covered x, x.lastSeq < m.2 →
          ∃ m' ∈ covered { h with db := db, outbox := outbox, seq := seq } x, m'.2 = m.2 := by
      intro hwelcome m hm hl
      rcases List.mem_append.1 hm with hm | hm
      · exact ⟨m, List.mem_append_left _ hm, rfl⟩
      · cases hpc : x.pc with
        | welcome n =>
          rw [hpc] at hm
          have := hwelcome n hpc
          obtain ⟨m', hm', hnum⟩ := hkept m hm (by omega)
          refine ⟨m', List.mem_append_right _ ?_, hnum⟩
          rw [hpc]
          exact hm'
        | replay | ready | ended =>
          refine ⟨m, List.mem_append_right _ ?_, rfl⟩
          rw [hpc] at hm ⊢
          exact hm
    refine ⟨x, hx, fun hr hpc => ?_, fun hws => ?_⟩
    · have hx := hcomplete hr hpc
      refine hx.transfer (hcov hx.welcome) ?_ ?_ fun _ _ _ _ hf => hf
      · show UpTo _ _ (db.floor h.owner)
        rw [hfloor]
        exact hx.floor.mono (hcov hx.welcome)
      · show ∀ n, x.pc = .welcome n → (db.floor h.owner : ℤ) ≤ x.lastSeq
        rw [hfloor]
        exact hx.welcome
    · have hx := hcurrent hws
      exact ⟨hx.pc, fun hr => (hx.sentSeq hr).mono (hcov (hcomplete hr hx.pc).welcome), hx.flushes,
        hx.conns⟩

/-- The connection may be lost, and calls of `flush` may end. -/
theorem Inv.less (hi : h.Inv) {ws : Option ℕ} {flushes : ℕ → Option Flush}
    (hws : ∀ c, ws = some c → h.ws = some c)
    (hflushes : ∀ f l d m rest, flushes f = some ⟨l, .sending d m rest⟩ →
      h.flushes f = some ⟨l, .sending d m rest⟩) :
    Inv { h with ws := ws, flushes := flushes } := by
  refine ⟨hi.stored, hi.sentSeq, hi.outbox, fun f l d m rest hf =>
    hi.flushes f l d m rest (hflushes f l d m rest hf), hi.conns, fun c hc => hi.ws c (hws c hc),
    fun c hc => ?_⟩
  obtain ⟨x, hx, hcomplete, hcurrent⟩ := hi.last c hc
  refine ⟨x, hx, fun hr hpc => ?_, fun hc' => ?_⟩
  · have hx := hcomplete hr hpc
    exact hx.transfer (fun m hm _ => ⟨m, hm, rfl⟩) hx.floor hx.welcome
      fun f l m rest hf => hflushes f l c m rest hf
  · have hx := hcurrent (hws c hc')
    exact ⟨hx.pc, hx.sentSeq, fun f l d m rest hf =>
      hx.flushes f l d m rest (hflushes f l d m rest hf), hx.conns⟩

theorem Inv.lost (hi : h.Inv) : Inv { h with ws := none } :=
  hi.less (fun _ hd => by cases hd) fun _ _ _ _ _ hf => hf

/-- A call of `flush` ends, or waits. -/
theorem Inv.idle (hi : h.Inv) {f : ℕ} {x : Option Flush}
    (hx : ∀ l d m rest, x ≠ some ⟨l, .sending d m rest⟩) :
    Inv { h with flushes := Function.update h.flushes f x } := by
  refine hi.less (fun _ hc => hc) fun f' l d m rest hf => ?_
  by_cases hff : f' = f
  · rw [hff, Function.update_self] at hf
    exact absurd hf (hx l d m rest)
  · rwa [Function.update_of_ne hff] at hf

/-- The sending of a message by a call of `flush` has ended. -/
theorem Inv.flushed (hi : h.Inv) {f l c : ℕ} {m : Numbered} {rest : List Numbered}
    (hf : h.flushes f = some ⟨l, .sending c m rest⟩) : Inv { h with sentSeq := m.2 } := by
  refine ⟨hi.stored, (hi.flushes f l c m rest hf).2 m List.mem_cons_self, hi.outbox, hi.flushes,
    hi.conns, hi.ws, fun d hd => ?_⟩
  obtain ⟨x, hx, hcomplete, hcurrent⟩ := hi.last d hd
  refine ⟨x, hx, fun hr hpc => ?_, fun hws => ?_⟩
  · have hx := hcomplete hr hpc
    exact ⟨hx.sent, hx.numbers, hx.base, hx.floor, hx.welcome, hx.flushes⟩
  · have hcur := hcurrent hws
    refine ⟨hcur.pc, fun hr => ?_, hcur.flushes, hcur.conns⟩
    show UpTo x.lastSeq (h.covered x) m.2
    have hcomp := hcomplete hr hcur.pc
    by_cases hdc : c = d
    · subst hdc
      obtain ⟨⟨m', hm', hnum⟩, -⟩ := hcomp.flushes f l m rest hf
      exact hnum ▸ hcomp.sent m' hm'
    · exact hcomp.base.le (hcur.flushes f l c m rest hf hdc)

/-- The message that the loop of `flush` sends next: those before it were sent. -/
theorem next_some {c : ℕ} {m : Numbered} {rest' : List Numbered} :
    ∀ {rest : List Numbered}, h.next c rest = some (m, rest') →
      h.ws = some c ∧ ∃ before, rest = before ++ m :: rest' ∧ ∀ a ∈ before, a.2 ≤ h.sentSeq
  | [], hn => nomatch hn
  | a :: rest, hn => by
    rw [next] at hn
    split_ifs at hn with hskip
    · obtain ⟨hws, before, rfl, hle⟩ := next_some hn
      refine ⟨hws, a :: before, rfl, fun b hb => ?_⟩
      rcases List.mem_cons.1 hb with rfl | hb
      · simpa [hws] using hskip
      · exact hle b hb
    · cases hn
      have hws : h.ws = some c := by
        by_contra hne
        exact hskip (by simp [hne])
      exact ⟨hws, [], rfl, fun _ ha => absurd ha List.not_mem_nil⟩

/-- `flush` sends a message: those before it are covered, up to the last number sent. -/
theorem Complete.sends {c : ℕ} {x : Conn} {m : Numbered} {before rest : List Numbered}
    (hc : h.Complete c x) (hpending : h.Pending x (before ++ m :: rest))
    (hbefore : ∀ a ∈ before, a.2 ≤ h.sentSeq) (hsent : UpTo x.lastSeq (h.covered x) h.sentSeq)
    (hsame : h'.outbox = h.outbox ∧ h'.db = h.db ∧ h'.owner = h.owner)
    (hflush : ∀ f' l' d m' r, h'.flushes f' = some ⟨l', .sending d m' r⟩ →
      d = c ∧ m' = m ∧ r = rest ∨ h.flushes f' = some ⟨l', .sending d m' r⟩) :
    h'.Complete c { x with sent := x.sent ++ [m] } := by
  obtain ⟨hsorted, hrest⟩ := hpending
  obtain ⟨houtbox, hdb, howner⟩ := hsame
  set x' : Conn := { x with sent := x.sent ++ [m] }
  have hm : m ∈ x'.sent := List.mem_append_right _ (List.mem_singleton_self m)
  have hmem : ∀ a ∈ h.covered x, a ∈ h'.covered x' := fun a ha => by
    rw [covered, houtbox]
    rcases List.mem_append.1 ha with ha | ha
    · exact List.mem_append_left _ (List.mem_append_left _ ha)
    · exact List.mem_append_right _ ha
  have hcov : ∀ a ∈ h.covered x, x.lastSeq < a.2 → ∃ b ∈ h'.covered x', b.2 = a.2 :=
    fun a ha _ => ⟨a, hmem a ha, rfl⟩
  -- What the loop has skipped was sent before, so nothing below the message is missing.
  have hskipped : ∀ a ∈ before ++ m :: rest, x.lastSeq < a.2 → a.2 ≤ m.2 →
      ∃ b ∈ h'.covered x', b.2 = a.2 := fun a ha hl hle => by
    rcases List.mem_append.1 ha with ha | ha
    · obtain ⟨b, hb, hnum⟩ := hsent a.2 hl (hbefore a ha)
      exact ⟨b, hmem b hb, hnum⟩
    · rcases List.mem_cons.1 ha with rfl | ha
      · exact ⟨a, List.mem_append_left _ hm, rfl⟩
      · have := List.rel_of_pairwise_cons (List.pairwise_append.1 hsorted).2.1 ha
        omega
  have hup : UpTo x.lastSeq (h'.covered x') m.2 := fun j hl hj => by
    obtain ⟨a, ha, rfl⟩ := hrest m (List.mem_append_right _ List.mem_cons_self) j hl hj
    rcases List.mem_append.1 ha with ha | ha
    · exact hskipped a ha hl hj
    · exact hcov a ha hl
  refine ⟨fun a ha => ?_, fun k hk => (hc.numbers k hk).mono hcov, hc.base.mono hcov, ?_, ?_,
    fun f' l' m' r hf => ?_⟩
  · rcases List.mem_append.1 ha with ha | ha
    · exact (hc.sent a ha).mono hcov
    · rwa [List.mem_singleton.1 ha]
  · rw [hdb, howner]
    exact hc.floor.mono hcov
  · rw [hdb, howner]
    exact hc.welcome
  · rcases hflush f' l' c m' r hf with ⟨-, rfl, rfl⟩ | hf
    · refine ⟨⟨m', hm, rfl⟩, (List.pairwise_append.1 hsorted).2.1.of_cons, fun a ha j hl hj => ?_⟩
      obtain ⟨b, hb, rfl⟩ :=
        hrest a (List.mem_append_right _ (List.mem_cons_of_mem _ ha)) j hl hj
      rcases List.mem_append.1 hb with hb | hb
      · by_cases hle : b.2 ≤ m'.2
        · obtain ⟨b', hb', hnum⟩ := hskipped b hb hl hle
          exact ⟨b', List.mem_append_right _ hb', hnum⟩
        · have hafter : b ∈ r := by
            rcases List.mem_append.1 hb with hb | hb
            · have := (List.pairwise_append.1 hsorted).2.2 b hb m' List.mem_cons_self
              omega
            · rcases List.mem_cons.1 hb with rfl | hb
              · exact absurd le_rfl hle
              · exact hb
          exact ⟨b, List.mem_append_left _ hafter, rfl⟩
      · exact ⟨b, List.mem_append_right _ (hmem b hb), rfl⟩
    · obtain ⟨⟨a, ha, hnum⟩, hsorted', hr⟩ := hc.flushes f' l' m' r hf
      refine ⟨⟨a, List.mem_append_left _ ha, hnum⟩, hsorted', fun b hb => (hr b hb).mono ?_⟩
      intro d hd _
      rcases List.mem_append.1 hd with hd | hd
      · exact ⟨d, List.mem_append_left _ hd, rfl⟩
      · exact ⟨d, List.mem_append_right _ (hmem d hd), rfl⟩

/-- The loop of `flush` goes on. -/
theorem Inv.goOn (hi : h.Inv) {f l c : ℕ} {rest : List Numbered} (hconn : h.conns c ≠ none)
    (hrest : ∀ m ∈ rest, m.2 ≤ h.db.seq h.owner)
    (hpending : ∀ x, h.ws = some c → h.conns c = some x → x.resumed = true → h.Pending x rest) :
    (h.goOn f l c rest).Inv := by
  unfold Host.goOn
  cases hn : h.next c rest with
  | none => exact hi.idle fun _ _ _ _ hf => by cases hf
  | some p =>
    obtain ⟨m, rest'⟩ := p
    obtain ⟨hws, before, rfl, hbefore⟩ := next_some hn
    obtain ⟨x, hx, hcomplete, hcurrent⟩ := hi.last c (hi.ws c hws)
    have hcur := hcurrent hws
    have hsub : ∀ m' ∈ m :: rest', m' ∈ before ++ m :: rest' :=
      fun m' hm' => List.mem_append_right _ hm'
    set x' : Conn := { x with sent := x.sent ++ [m] } with hx'
    have hput : ∀ d y, Function.update h.conns c ((h.conns c).map fun x =>
        { x with sent := x.sent ++ [m] }) d = some y → d = c ∧ y = x' ∨ d ≠ c ∧
          h.conns d = some y := fun d y hd => by
      by_cases hdc : d = c
      · subst hdc
        rw [Function.update_self, hx] at hd
        exact .inl ⟨rfl, (Option.some.inj hd).symm⟩
      · rw [Function.update_of_ne hdc] at hd
        exact .inr ⟨hdc, hd⟩
    have hflush : ∀ f' l' d m' r, Function.update h.flushes f (some ⟨l, .sending c m rest'⟩) f' =
        some ⟨l', .sending d m' r⟩ → d = c ∧ m' = m ∧ r = rest' ∨
          h.flushes f' = some ⟨l', .sending d m' r⟩ := fun f' l' d m' r hf => by
      by_cases hff : f' = f
      · rw [hff, Function.update_self] at hf
        cases hf
        exact .inl ⟨rfl, rfl, rfl⟩
      · rw [Function.update_of_ne hff] at hf
        exact .inr hf
    have hsome : ∀ d, h.conns d ≠ none → Function.update h.conns c ((h.conns c).map fun x =>
        { x with sent := x.sent ++ [m] }) d ≠ none := fun d hd => by
      by_cases hdc : d = c
      · rw [hdc, Function.update_self, hx]
        rintro ⟨⟩
      · rwa [Function.update_of_ne hdc]
    refine ⟨hi.stored, hi.sentSeq, hi.outbox, fun f' l' d m' r hf => ?_, fun d y hd => ?_, hi.ws,
      fun d hd => ?_⟩
    · rcases hflush f' l' d m' r hf with ⟨rfl, rfl, rfl⟩ | hf
      · exact ⟨hsome _ hconn, fun a ha => hrest a (hsub a ha)⟩
      · exact ⟨hsome d (hi.flushes f' l' d m' r hf).1, (hi.flushes f' l' d m' r hf).2⟩
    · rcases hput d y hd with ⟨rfl, rfl⟩ | ⟨-, hd⟩
      · exact hi.conns d x hx
      · exact hi.conns d y hd
    · obtain rfl : c = d := Option.some.inj ((hi.ws c hws).symm.trans hd)
      have hcov : ∀ a ∈ h.covered x, a ∈ h.covered x' := fun a ha => by
        rcases List.mem_append.1 ha with ha | ha
        · exact List.mem_append_left _ (List.mem_append_left _ ha)
        · exact List.mem_append_right _ ha
      have hm : m ∈ x'.sent := List.mem_append_right _ (List.mem_singleton_self m)
      refine ⟨x', by simp [sendOn, hx, hx'], fun hr hpc => ?_, fun _ => ?_⟩
      · have hcomp := hcomplete hr hpc
        exact hcomp.sends (hpending x hws hx hr) hbefore (hcur.sentSeq hr) ⟨rfl, rfl, rfl⟩ hflush
      · refine ⟨hcur.pc, fun hr => (hcur.sentSeq hr).mono fun a ha _ => ⟨a, hcov a ha, rfl⟩,
          fun f' l' d m' r hf hdc => ?_, fun d y hdc hd => ?_⟩
        · rcases hflush f' l' d m' r hf with ⟨rfl, -, -⟩ | hf
          · exact absurd rfl hdc
          · exact hcur.flushes f' l' d m' r hf hdc
        · rcases hput d y hd with ⟨rfl, -⟩ | ⟨-, hd⟩
          · exact absurd rfl hdc
          · exact hcur.conns d y hdc hd

/-- A call of `flush` gets the lock. -/
theorem Inv.begin (hi : h.Inv) {f l : ℕ} {r : Reads} (hl : Live r h.owner h.db) :
    (h.begin f l r).Inv := by
  unfold Host.begin
  split
  · exact hi.idle fun _ _ _ _ hf => by cases hf
  · rename_i c hws
    have hwindow := hi.stored.snapshot hl
    obtain ⟨hdb, -, -, -⟩ := snapshot_eq (r := r) hi.stored.ordered
    have hfloor : (EventStore.snapshot h.owner r h.db).1.floor h.owner = h.db.floor h.owner := by
      rw [hdb, cleanup_floor_live hl]
    have hseq : (EventStore.snapshot h.owner r h.db).1.seq h.owner = h.db.seq h.owner := by
      rw [hdb, cleanup_seq]
    have hstored : Whole h.owner (EventStore.snapshot h.owner r h.db).1 := by
      rw [hdb]
      exact hi.stored.cleanup hl
    have hbound : ∀ m ∈ (EventStore.snapshot h.owner r h.db).2.2.2, m.2 ≤
        (EventStore.snapshot h.owner r h.db).1.seq h.owner := fun m hm => by
      rw [hseq]
      exact (hwindow.mem_nums hm).2
    have hread : Inv { h with
        db := (EventStore.snapshot h.owner r h.db).1
        seq := (EventStore.snapshot h.owner r h.db).2.1
        outbox := (EventStore.snapshot h.owner r h.db).2.2.2 } :=
      hi.store hstored hseq.ge hfloor hbound
        fun m hm hlt => hwindow.exists_num hlt (hi.outbox m hm)
    obtain ⟨x, hx, -⟩ := hi.last c (hi.ws c hws)
    refine hread.goOn (c := c) (by simp [hx]) hbound fun y hc hy hr => ?_
    obtain ⟨z, hz, hcomplete, hcurrent⟩ := hread.last c (hread.ws c hc)
    obtain rfl : y = z := Option.some.inj (hy.symm.trans hz)
    refine ⟨?_, fun m hm j hlj hj => ?_⟩
    · have hnums : ((EventStore.snapshot h.owner r h.db).2.2.2.map Prod.snd).Pairwise (· < ·) := by
        rw [hwindow.nums]
        exact List.pairwise_lt_range'
      exact List.pairwise_map.1 hnums
    · by_cases hjf : j ≤ h.db.floor h.owner
      · obtain ⟨m', hm', hnum⟩ :=
          (hcomplete hr (hcurrent hc).pc).floor j hlj (hjf.trans hfloor.ge)
        exact ⟨m', List.mem_append_right _ hm', hnum⟩
      · obtain ⟨m', hm', hnum⟩ :=
          hwindow.exists_num (not_le.1 hjf) (hj.trans (hwindow.mem_nums hm).2)
        exact ⟨m', List.mem_append_left _ hm', hnum⟩

/-- `flush` is called. -/
theorem Inv.enter (hi : h.Inv) {f : ℕ} {r : Reads} {e : Entry} (hl : Live r h.owner h.db) :
    (h.enter f r e).Inv := by
  cases e with
  | leaves => exact hi
  | waits => exact hi.idle fun _ _ _ _ hf => by cases hf
  | enters => exact hi.begin hl

/-- `send` stores an event. -/
theorem Inv.append (hi : h.Inv) {env : Environment} {message : Message} {key : Option String}
    {size : ℕ} {r : Reads} {t : Time} (hl : Live r h.owner h.db) :
    (h.append env message key size r t).1.Inv := by
  unfold Host.append
  split
  · exact hi
  · rename_i db heq
    obtain ⟨hstored, hfloor, hseq, -⟩ := hi.stored.appended hl (append_appended heq)
    exact hi.store hstored hseq hfloor (fun m hm => (hi.outbox m hm).trans hseq)
      fun m hm _ => ⟨m, hm, rfl⟩
  · rename_i db m heq
    obtain ⟨hstored, hfloor, hseq, hnum⟩ := hi.stored.appended hl (append_appended heq)
    split_ifs
    · exact hi.store hstored hseq hfloor (fun m hm => (hi.outbox m hm).trans hseq)
        fun m hm _ => ⟨m, hm, rfl⟩
    · refine hi.store hstored hseq hfloor (fun m' hm' => ?_)
        fun m' hm' _ => ⟨m', List.mem_append_left _ hm', rfl⟩
      rcases List.mem_append.1 hm' with hm' | hm'
      · exact (hi.outbox m' hm').trans hseq
      · rw [List.mem_singleton.1 hm']
        exact hnum rfl m rfl

theorem append_owner (env : Environment) (message : Message) (key : Option String) (size : ℕ)
    (r : Reads) (t : Time) : (h.append env message key size r t).1.owner = h.owner := by
  unfold Host.append
  split <;> rfl

/-- Another process appends an event. -/
theorem Inv.appended (hi : h.Inv) {env : Environment} {owner : Owner} {message : Message}
    {key : Option String} {size : ℕ} {r : Reads} {t : Time} (hl : Live r h.owner h.db) :
    Inv { h with db := (Delivery.Act.append env owner message key size r t).perform h.db } := by
  show Inv { h with db := commit h.db (outcome (EventStore.append env owner message key size r t
    h.db)) }
  cases happend : EventStore.append env owner message key size r t h.db with
  | error e => exact hi
  | ok p =>
    obtain ⟨hstored, hfloor, hseq, -⟩ := hi.stored.appended hl (append_appended happend)
    exact hi.store hstored hseq hfloor (fun m hm => (hi.outbox m hm).trans hseq)
      fun m hm _ => ⟨m, hm, rfl⟩

/-- What `ack` does. -/
theorem acked_cases (h : Host) (n : ℤ) : h.acked n = h ∨ ∃ db, 0 ≤ n ∧ n ≤ h.db.seq h.owner ∧
    (∀ o, db.seq o = h.db.seq o) ∧
    (∀ o, db.floor o = if o = h.owner then max (h.db.floor o) n.toNat else h.db.floor o) ∧
    db.events = h.db.events.filter (fun e => !(e.owner = h.owner && e.seq ≤ n.toNat)) ∧
    h.acked n = { h with db := db, outbox := h.outbox.dropWhile fun m => (m.2 : ℤ) ≤ n } := by
  unfold Host.acked
  cases hack : EventStore.ack h.owner n h.db with
  | error e => exact .inl rfl
  | ok p =>
    obtain ⟨h0, hle, hseq, hfloor, he, -⟩ := ack_effect hack
    exact .inr ⟨p.1, h0, hle, hseq, hfloor, he, rfl⟩

theorem mem_dropWhile {n : ℤ} {m : Numbered} {ms : List Numbered} (hm : m ∈ ms) (hn : n < m.2) :
    m ∈ ms.dropWhile fun m => (m.2 : ℤ) ≤ n := by
  rw [← List.takeWhile_append_dropWhile (p := fun m : Numbered => (m.2 : ℤ) ≤ n) (l := ms)] at hm
  refine (List.mem_append.1 hm).resolve_left fun htake => ?_
  have := List.all_eq_true.1 List.all_takeWhile m htake
  simp only [decide_eq_true_eq] at this
  omega

/-- A number is acknowledged: nothing below it is missing, and no welcome is being sent to a client
that does not have it. -/
theorem Inv.acked (hi : h.Inv) {n : ℤ} (hn : 0 ≤ n → ∀ c x, h.last = some c →
    h.conns c = some x → x.resumed = true → x.pc ≠ .ended →
      (∀ k, x.pc = .welcome k → n ≤ x.lastSeq) ∧ UpTo x.lastSeq (h.covered x) n.toNat) :
    (h.acked n).Inv := by
  rcases h.acked_cases n with heq | ⟨db, h0, hle, hseq, hfloor, he, heq⟩
  · rwa [heq]
  · rw [heq]
    have hsub : ∀ m ∈ h.outbox.dropWhile (fun m => (m.2 : ℤ) ≤ n), m ∈ h.outbox :=
      fun m hm => (List.dropWhile_sublist _).subset hm
    have hmax : db.floor h.owner = max (h.db.floor h.owner) n.toNat := by
      rw [hfloor, if_pos rfl]
    refine ⟨Delivery.Host.acked_window hi.stored (by omega) hseq hfloor he, ?_, fun m hm => ?_,
      fun f l d m rest hf => ?_, fun d y hd k hk => ?_, hi.ws, fun c hc => ?_⟩
    · exact hi.sentSeq.trans (hseq _).ge
    · exact (hi.outbox m (hsub m hm)).trans (hseq _).ge
    · obtain ⟨hconn, hbound⟩ := hi.flushes f l d m rest hf
      exact ⟨hconn, fun m' hm' => (hbound m' hm').trans (hseq _).ge⟩
    · exact (hi.conns d y hd k hk).trans (hseq _).ge
    · obtain ⟨x, hx, hcomplete, hcurrent⟩ := hi.last c hc
      have hcov : (∀ k, x.pc = .welcome k → n ≤ x.lastSeq) → ∀ m ∈ h.covered x, x.lastSeq < m.2 →
          ∃ m' ∈ covered { h with
            db := db, outbox := h.outbox.dropWhile fun m => (m.2 : ℤ) ≤ n } x, m'.2 = m.2 := by
        intro hwelcome m hm hl
        refine ⟨m, ?_, rfl⟩
        rcases List.mem_append.1 hm with hm | hm
        · exact List.mem_append_left _ hm
        · refine List.mem_append_right _ ?_
          cases hpc : x.pc with
          | welcome k =>
            rw [hpc] at hm
            have := hwelcome k hpc
            exact mem_dropWhile hm (by omega)
          | replay | ready | ended =>
            rw [hpc] at hm
            exact hm
      refine ⟨x, hx, fun hr hpc => ?_, fun hws => ?_⟩
      · have hcomp := hcomplete hr hpc
        obtain ⟨hwelcome, hup⟩ := hn h0 c x hc hx hr hpc
        refine hcomp.transfer (hcov hwelcome) ?_ (fun k hk => ?_) fun _ _ _ _ hf => hf
        · show UpTo _ _ (db.floor h.owner)
          rw [hmax]
          rcases Nat.le_total (h.db.floor h.owner) n.toNat with hle | hle
          · rw [Nat.max_eq_right hle]
            exact hup.mono (hcov hwelcome)
          · rw [Nat.max_eq_left hle]
            exact hcomp.floor.mono (hcov hwelcome)
        · show (db.floor h.owner : ℤ) ≤ x.lastSeq
          have := hwelcome k hk
          have := hcomp.welcome k hk
          omega
      · have hcur := hcurrent hws
        exact ⟨hcur.pc, fun hr => (hcur.sentSeq hr).mono (hcov (hn h0 c x hc hx hr hcur.pc).1),
          hcur.flushes, hcur.conns⟩

/-- The handler of a connection goes on, and the connection may be lost: what holds of the
connection that was attached last is shown if it is that one. -/
theorem Inv.handler (hi : h.Inv) {c k : ℕ} {x' : Conn} {ws : Option ℕ} {ready : Bool}
    (hws : ∀ d, ws = some d → h.ws = some d)
    (hnumbers : ∀ n ∈ x'.pc.numbers, n ≤ h.db.seq h.owner) (hk : k ≤ h.db.seq h.owner)
    (hothers : ∀ d y, ws = some d → d ≠ c → h.conns d = some y → k ≤ y.base ∨ k = h.sentSeq)
    (hnewer : ∀ d y, ws = some d → d ≠ c → h.conns d = some y →
      ∀ n ∈ x'.pc.numbers, n ≤ y.base)
    (hlast : h.last = some c → (x'.resumed = true → x'.pc ≠ .ended → h.Complete c x') ∧
      (ws = some c → Current { h with sentSeq := k } c x')) :
    Inv { h with
      ws := ws, ready := ready, sentSeq := k, conns := Function.update h.conns c (some x') } := by
  have hput : ∀ d y, Function.update h.conns c (some x') d = some y →
      d = c ∧ y = x' ∨ d ≠ c ∧ h.conns d = some y := fun d y hd => by
    by_cases hdc : d = c
    · subst hdc
      rw [Function.update_self] at hd
      exact .inl ⟨rfl, (Option.some.inj hd).symm⟩
    · rw [Function.update_of_ne hdc] at hd
      exact .inr ⟨hdc, hd⟩
  refine ⟨hi.stored, hk, hi.outbox, fun f l d m rest hf => ?_, fun d y hd => ?_,
    fun d hd => hi.ws d (hws d hd), fun d hd => ?_⟩
  · refine ⟨?_, (hi.flushes f l d m rest hf).2⟩
    show Function.update h.conns c (some x') d ≠ none
    by_cases hdc : d = c
    · rw [hdc, Function.update_self]
      rintro ⟨⟩
    · rw [Function.update_of_ne hdc]
      exact (hi.flushes f l d m rest hf).1
  · rcases hput d y hd with ⟨rfl, rfl⟩ | ⟨-, hd⟩
    · exact hnumbers
    · exact hi.conns d y hd
  · by_cases hdc : d = c
    · subst hdc
      obtain ⟨hcomplete, hcurrent⟩ := hlast hd
      refine ⟨x', Function.update_self .., fun hr hpc => ?_, fun hd' => ?_⟩
      · have hcomp := hcomplete hr hpc
        exact ⟨hcomp.sent, hcomp.numbers, hcomp.base, hcomp.floor, hcomp.welcome, hcomp.flushes⟩
      · have hcur := hcurrent hd'
        refine ⟨hcur.pc, hcur.sentSeq, hcur.flushes, fun e y hed he => ?_⟩
        rcases hput e y he with ⟨rfl, -⟩ | ⟨-, he⟩
        · exact absurd rfl hed
        · exact hcur.conns e y hed he
    · obtain ⟨x, hx, hcomplete, hcurrent⟩ := hi.last d hd
      refine ⟨x, by rw [← hx]; exact Function.update_of_ne hdc .., fun hr hpc => ?_,
        fun hd' => ?_⟩
      · have hcomp := hcomplete hr hpc
        exact ⟨hcomp.sent, hcomp.numbers, hcomp.base, hcomp.floor, hcomp.welcome, hcomp.flushes⟩
      · have hcur := hcurrent (hws d hd')
        refine ⟨hcur.pc, fun hr => ?_, hcur.flushes, fun e y hed he => ?_⟩
        · rcases hothers d x hd' hdc hx with hle | heq
          · exact (hcomplete hr hcur.pc).base.le hle
          · show UpTo x.lastSeq (h.covered x) k
            rw [heq]
            exact hcur.sentSeq hr
        · rcases hput e y he with ⟨rfl, rfl⟩ | ⟨-, he⟩
          · exact hnewer d x hd' hdc hx
          · exact hcur.conns e y hed he

/-- The handler of a connection ends. -/
theorem Inv.close (hi : h.Inv) (c : ℕ) : ((h.setPc c .ended).leave c).Inv := by
  have hws : ∀ d, (if h.ws = some c then none else h.ws) = some d → h.ws = some d ∧ d ≠ c :=
    fun d hd => by
      split_ifs at hd with hc
      exact ⟨hd, fun hdc => hc (hdc ▸ hd)⟩
  have heq : (h.setPc c .ended).leave c = { h with
      ws := if h.ws = some c then none else h.ws
      conns := Function.update h.conns c ((h.conns c).map fun x => { x with pc := .ended }) } := by
    unfold leave setPc
    split_ifs <;> rfl
  rw [heq]
  cases hx : h.conns c with
  | none =>
    have hsame : Function.update h.conns c ((none : Option Conn).map fun x =>
        { x with pc := .ended }) = h.conns := Function.update_eq_self_iff.2 hx.symm
    rw [hsame]
    exact hi.less (fun d hd => (hws d hd).1) fun _ _ _ _ _ hf => hf
  | some x =>
    refine hi.handler (fun d hd => (hws d hd).1) (fun _ hk => absurd hk List.not_mem_nil) hi.sentSeq (fun _ _ _ _ _ => .inr rfl)
      (fun _ _ _ _ _ _ hk => absurd hk List.not_mem_nil) fun _ => ⟨fun _ hpc => absurd rfl hpc, fun hc => ?_⟩
    exact absurd rfl (hws c hc).2

/-- The handler of the connection `c` goes on, and what is covered stays covered. -/
theorem Complete.conn {c : ℕ} {x x' : Conn} (hc : h.Complete c x) (hl : x'.lastSeq = x.lastSeq)
    (hbase : x'.base = x.base)
    (hcov : ∀ m ∈ h.covered x, x.lastSeq < m.2 → ∃ m' ∈ h.covered x', m'.2 = m.2)
    (hold : ∀ m ∈ x.sent, m ∈ x'.sent)
    (hnew : ∀ m ∈ x'.sent, m ∈ x.sent ∨ UpTo x.lastSeq (h.covered x') m.2)
    (hnumbers : ∀ k ∈ x'.pc.numbers, UpTo x.lastSeq (h.covered x') k)
    (hwelcome : ∀ n, x'.pc ≠ .welcome n) : h.Complete c x' := by
  rw [← hl] at hcov hnew hnumbers
  refine ⟨fun m hm => ?_, hnumbers, ?_, ?_, fun n hn => absurd hn (hwelcome n),
    fun f l m rest hf => ?_⟩
  · rcases hnew m hm with hm | hm
    · exact UpTo.mono (hl ▸ hc.sent m hm) hcov
    · exact hm
  · exact UpTo.mono (hl ▸ hbase ▸ hc.base) hcov
  · exact UpTo.mono (hl ▸ hc.floor) hcov
  · obtain ⟨⟨m', hm', hnum⟩, hsorted, hrest⟩ := hc.flushes f l m rest hf
    refine ⟨⟨m', hold m' hm', hnum⟩, hsorted, fun a ha => UpTo.mono (hl ▸ hrest a ha) ?_⟩
    intro b hb hlb
    rcases List.mem_append.1 hb with hb | hb
    · exact ⟨b, List.mem_append_left _ hb, rfl⟩
    · obtain ⟨b', hb', hnum⟩ := hcov b hb hlb
      exact ⟨b', List.mem_append_right _ hb', hnum⟩

/-- The replay goes on with `rest`, which has all that was left to be sent. -/
theorem Inv.replay (hi : h.Inv) {c n : ℕ} {x : Conn} {rest : List Numbered}
    (hx : h.conns c = some x) (hopen : x.pc ≠ .ended) (hn : n ≤ h.db.seq h.owner)
    (hrest : ∀ m ∈ rest, m.2 ≤ h.db.seq h.owner)
    (hothers : ∀ d y, h.ws = some d → d ≠ c → h.conns d = some y →
      n ≤ y.base ∧ ∀ m ∈ rest, m.2 ≤ y.base)
    (hlast : h.last = some c → x.resumed = true →
      (∀ m ∈ x.pc.remaining h.outbox, x.lastSeq < m.2 → m ∈ rest) ∧
      (∀ m ∈ rest, UpTo x.lastSeq (x.sent ++ rest) m.2) ∧ UpTo x.lastSeq (x.sent ++ rest) n) :
    (h.replay c rest n).Inv := by
  have hcurrent : h.last = some c → h.ws = some c → h.Current c x := fun hl hws => by
    obtain ⟨y, hy, -, hcurrent⟩ := hi.last c hl
    obtain rfl : x = y := Option.some.inj (hx.symm.trans hy)
    exact hcurrent hws
  have hcomplete : h.last = some c → x.resumed = true → h.Complete c x := fun hl hr => by
    obtain ⟨y, hy, hcomplete, -⟩ := hi.last c hl
    obtain rfl : x = y := Option.some.inj (hx.symm.trans hy)
    exact hcomplete hr hopen
  cases rest with
  | nil =>
    have heq : h.replay c [] n = { h with
        ws := h.ws, ready := true, sentSeq := n
        conns := Function.update h.conns c (some { x with pc := .ready }) } := by
      rw [Host.replay, setPc, hx]
      rfl
    rw [heq]
    refine hi.handler (fun _ hd => hd) (fun _ hk => absurd hk List.not_mem_nil) hn
      (fun d y hd hdc hy => .inl (hothers d y hd hdc hy).1) (fun _ _ _ _ _ _ hk => absurd hk List.not_mem_nil) fun hl => ⟨fun hr _ => ?_, fun hws => ?_⟩
    · obtain ⟨hrem, -, -⟩ := hlast hl hr
      refine (hcomplete hl hr).conn rfl rfl (fun m hm hlm => ?_) (fun _ hm => hm)
        (fun _ hm => .inl hm) (fun _ hk => absurd hk List.not_mem_nil) (fun _ hk => by cases hk)
      rcases List.mem_append.1 hm with hm | hm
      · exact ⟨m, List.mem_append_left _ hm, rfl⟩
      · exact absurd (hrem m hm hlm) List.not_mem_nil
    · have hcur := hcurrent hl hws
      exact ⟨by rintro ⟨⟩, fun hr => (hlast hl hr).2.2, hcur.flushes, hcur.conns⟩
  | cons m rest =>
    have heq : h.replay c (m :: rest) n = { h with
        ws := h.ws, ready := h.ready, sentSeq := h.sentSeq
        conns := Function.update h.conns c
          (some { x with sent := x.sent ++ [m], pc := .replay m rest n }) } := by
      rw [Host.replay, setPc, sendOn, hx]
      simp
    rw [heq]
    have hnumbers : ∀ k ∈ (Handshake.replay m rest n).numbers,
        k = n ∨ ∃ a ∈ m :: rest, a.2 = k := by
      intro k hk
      rcases List.mem_cons.1 hk with rfl | hk
      · exact .inr ⟨m, List.mem_cons_self, rfl⟩
      · rcases List.mem_cons.1 hk with rfl | hk
        · exact .inl rfl
        · obtain ⟨a, ha, rfl⟩ := List.mem_map.1 hk
          exact .inr ⟨a, List.mem_cons_of_mem _ ha, rfl⟩
    have hcovered : h.covered { x with sent := x.sent ++ [m], pc := .replay m rest n } =
        x.sent ++ m :: rest := by
      show (x.sent ++ [m]) ++ rest = _
      rw [List.append_assoc]
      rfl
    have hcov : h.last = some c → x.resumed = true → ∀ a ∈ h.covered x, x.lastSeq < a.2 →
        ∃ b ∈ x.sent ++ m :: rest, b.2 = a.2 := fun hl hr a ha hla => by
      rcases List.mem_append.1 ha with ha | ha
      · exact ⟨a, List.mem_append_left _ ha, rfl⟩
      · exact ⟨a, List.mem_append_right _ ((hlast hl hr).1 a ha hla), rfl⟩
    refine hi.handler (fun _ hd => hd) (fun k hk => ?_) hi.sentSeq (fun _ _ _ _ _ => .inr rfl)
      (fun d y hd hdc hy k hk => ?_) fun hl => ⟨fun hr _ => ?_, fun hws => ?_⟩
    · rcases hnumbers k hk with rfl | ⟨a, ha, rfl⟩
      · exact hn
      · exact hrest a ha
    · obtain ⟨hle, hall⟩ := hothers d y hd hdc hy
      rcases hnumbers k hk with rfl | ⟨a, ha, rfl⟩
      · exact hle
      · exact hall a ha
    · obtain ⟨-, hup, hupn⟩ := hlast hl hr
      refine (hcomplete hl hr).conn rfl rfl (fun a ha hla => ?_)
        (fun a ha => List.mem_append_left _ ha) (fun a ha => ?_) (fun k hk => ?_) (fun _ hk => by cases hk)
      · rw [hcovered]
        exact hcov hl hr a ha hla
      · rcases List.mem_append.1 ha with ha | ha
        · exact .inl ha
        · rw [hcovered, List.mem_singleton.1 ha]
          exact .inr (hup m List.mem_cons_self)
      · rw [hcovered]
        rcases hnumbers k hk with rfl | ⟨a, ha, rfl⟩
        · exact hupn
        · exact hup a ha
    · have hcur := hcurrent hl hws
      refine ⟨by rintro ⟨⟩, fun hr => ?_, hcur.flushes, hcur.conns⟩
      show UpTo x.lastSeq (h.covered { x with sent := x.sent ++ [m], pc := .replay m rest n }) _
      rw [hcovered]
      exact (hcur.sentSeq hr).mono (hcov hl hr)

/-- A connection is attached. -/
theorem Inv.attach (hi : h.Inv) {c : ℕ} {lastSeq : ℤ} {r : Reads} (hc : h.conns c = none)
    (hl : Live r h.owner h.db) : (h.attach c lastSeq r).Inv := by
  have hwindow := hi.stored.snapshot hl
  obtain ⟨hdb, hnum, hread, -⟩ := snapshot_eq (r := r) hi.stored.ordered
  rw [cleanup_floor_live hl] at hread
  have hstored : Whole h.owner (EventStore.snapshot h.owner r h.db).1 := by
    rw [hdb]
    exact hi.stored.cleanup hl
  have hseq : (EventStore.snapshot h.owner r h.db).1.seq h.owner = h.db.seq h.owner := by
    rw [hdb, cleanup_seq]
  have hfloor : (EventStore.snapshot h.owner r h.db).1.floor h.owner = h.db.floor h.owner := by
    rw [hdb, cleanup_floor_live hl]
  unfold Host.attach
  rcases hsnap : EventStore.snapshot h.owner r h.db with ⟨db, seq, floor, messages⟩
  rw [hsnap] at hwindow hnum hread hstored hseq hfloor
  simp only at hwindow hnum hread hstored hseq hfloor ⊢
  subst hnum hread
  set x : Conn := {
    lastSeq := lastSeq
    resumed := h.db.floor h.owner ≤ lastSeq && lastSeq ≤ h.db.seq h.owner
    pc := .welcome (if (h.db.floor h.owner ≤ lastSeq && lastSeq ≤ h.db.seq h.owner : Bool) then
      lastSeq.toNat else h.db.seq h.owner)
    base := h.db.seq h.owner } with hxdef
  have hresumed : x.resumed = true → (h.db.floor h.owner : ℤ) ≤ lastSeq ∧
      lastSeq ≤ h.db.seq h.owner := fun hr => by simpa [hxdef] using hr
  have hnumber : ∀ k ∈ x.pc.numbers, k ≤ h.db.seq h.owner ∧
      (x.resumed = true → k = lastSeq.toNat) := fun k hk => by
    rw [List.mem_singleton.1 hk]
    split_ifs with hr
    · have := hresumed hr
      exact ⟨by omega, fun _ => rfl⟩
    · exact ⟨le_rfl, fun hr' => absurd hr' hr⟩
  have hold : ∀ d, h.conns d ≠ none → d ≠ c := fun d hd hdc => hd (hdc ▸ hc)
  have hput : ∀ d y, Function.update h.conns c (some x) d = some y →
      d = c ∧ y = x ∨ d ≠ c ∧ h.conns d = some y := fun d y hd => by
    by_cases hdc : d = c
    · subst hdc
      rw [Function.update_self] at hd
      exact .inl ⟨rfl, (Option.some.inj hd).symm⟩
    · rw [Function.update_of_ne hdc] at hd
      exact .inr ⟨hdc, hd⟩
  -- The outbox has all that the client does not have.
  have hbase : x.resumed = true → UpTo lastSeq messages (h.db.seq h.owner) := fun hr j hlj hj => by
    have := hresumed hr
    exact hwindow.exists_num (by omega) hj
  have hinv : Inv { h with
      db := db, ws := some c, last := some c, ready := false, lock := c, seq := h.db.seq h.owner
      outbox := messages, conns := Function.update h.conns c (some x) } := by
    refine ⟨hstored, hi.sentSeq.trans hseq.ge, fun m hm => (hwindow.mem_nums hm).2.trans hseq.ge,
      fun f l d m rest hf => ?_, fun d y hd k hk => ?_, fun d hd => hd, fun d hd => ?_⟩
    · obtain ⟨hconn, hbound⟩ := hi.flushes f l d m rest hf
      refine ⟨?_, fun m' hm' => (hbound m' hm').trans hseq.ge⟩
      show Function.update h.conns c (some x) d ≠ none
      rwa [Function.update_of_ne (hold d hconn)]
    · refine le_trans ?_ hseq.ge
      rcases hput d y hd with ⟨rfl, rfl⟩ | ⟨-, hd⟩
      · exact (hnumber k hk).1
      · exact hi.conns d y hd k hk
    · obtain rfl : c = d := Option.some.inj hd
      refine ⟨x, Function.update_self .., fun hr _ => ?_, fun _ => ?_⟩
      · have := hresumed hr
        refine ⟨fun _ hm => absurd hm List.not_mem_nil, fun k hk => ?_, hbase hr, ?_, fun _ _ => ?_, fun f l m rest hf => ?_⟩
        · rw [(hnumber k hk).2 hr]
          intro j hlj hj
          have hlj' : lastSeq < j := hlj
          omega
        · show UpTo lastSeq _ (db.floor h.owner)
          intro j hlj hj
          omega
        · show (db.floor h.owner : ℤ) ≤ lastSeq
          rw [hfloor]
          exact this.1
        · exact absurd rfl (hold c (hi.flushes f l c m rest hf).1)
      · refine ⟨(fun hpc => by cases hpc), fun hr => (hbase hr).le hi.sentSeq, fun f l d m rest hf _ => ?_,
          fun d y hdc hd k hk => ?_⟩
        · exact (hi.flushes f l d m rest hf).2 m List.mem_cons_self
        · rcases hput d y hd with ⟨rfl, -⟩ | ⟨-, hd⟩
          · exact absurd rfl hdc
          · exact hi.conns d y hd k hk
  have hgoal : ∀ {g : Host}, g = { h with
      db := db, ws := some c, last := some c, ready := false, lock := c, seq := h.db.seq h.owner
      outbox := messages, conns := Function.update h.conns c (some x) } →
      (if (h.db.floor h.owner ≤ lastSeq && lastSeq ≤ h.db.seq h.owner : Bool) then g.acked lastSeq
        else g).Inv := by
    rintro g rfl
    split_ifs with hr
    · refine hinv.acked fun h0 d y hd hy _ _ => ?_
      obtain rfl : c = d := Option.some.inj hd
      have hself : Function.update h.conns c (some x) c = some x := Function.update_self ..
      obtain rfl : x = y := Option.some.inj (hself.symm.trans hy)
      exact ⟨fun _ _ => Int.le_refl lastSeq,
        fun j hlj hj => absurd hlj (by simp only [hxdef]; omega)⟩
    · exact hinv
  exact hgoal rfl

/-- The replay of a connection starts. -/
theorem Inv.welcomed (hi : h.Inv) {c n : ℕ} {x : Conn} (hx : h.conns c = some x)
    (hpc : x.pc = .welcome n)
    (hgap : h.last = some c → ∀ m ∈ h.replayed x, ∀ j : ℕ, x.lastSeq < j → j < m.2 →
      ∃ m' ∈ h.replayed x, m'.2 = j)
    (hnewer : ∀ d y, h.ws = some d → d ≠ c → h.conns d = some y → ∀ m ∈ h.replayed x,
      m.2 ≤ y.base) : (h.replay c (h.replayed x) n).Inv := by
  have hsub : ∀ m ∈ h.replayed x, m ∈ h.outbox := fun m hm => by
    unfold replayed at hm
    split_ifs at hm
    · exact (List.mem_filter.1 hm).1
    · cases hm
  have hn : n ∈ x.pc.numbers := by
    rw [hpc]
    exact List.mem_cons_self
  refine hi.replay hx (by rw [hpc]; rintro ⟨⟩) (hi.conns c x hx n hn) (fun m hm =>
    hi.outbox m (hsub m hm)) (fun d y hd hdc hy => ?_) fun hl hr => ?_
  · obtain ⟨y', hy', -, hcurrent⟩ := hi.last d (hi.ws d hd)
    obtain rfl : y = y' := Option.some.inj (hy.symm.trans hy')
    exact ⟨(hcurrent hd).conns c x (Ne.symm hdc) hx n hn, hnewer d y hd hdc hy⟩
  · obtain ⟨y, hy, hcomplete, -⟩ := hi.last c hl
    obtain rfl : x = y := Option.some.inj (hx.symm.trans hy)
    have hcomp := hcomplete hr (by rw [hpc]; rintro ⟨⟩)
    have hall : h.replayed x = h.outbox.filter fun m => x.lastSeq < m.2 := by
      rw [replayed, if_pos hr]
    have hrem : ∀ m ∈ x.pc.remaining h.outbox, x.lastSeq < m.2 → m ∈ h.replayed x := by
      intro m hm hlm
      rw [hpc] at hm
      rw [hall]
      exact List.mem_filter.2 ⟨hm, decide_eq_true hlm⟩
    refine ⟨hrem, fun m hm j hlj hj => ?_, (hcomp.numbers n hn).mono fun m hm hlm => ?_⟩
    · rcases Nat.lt_or_eq_of_le hj with hlt | rfl
      · obtain ⟨m', hm', hnum⟩ := hgap hl m hm j hlj hlt
        exact ⟨m', List.mem_append_right _ hm', hnum⟩
      · exact ⟨m, List.mem_append_right _ hm, rfl⟩
    · rcases List.mem_append.1 hm with hm | hm
      · exact ⟨m, List.mem_append_left _ hm, rfl⟩
      · exact ⟨m, List.mem_append_right _ (hrem m hm hlm), rfl⟩

/-- The replay of a connection goes on. -/
theorem Inv.replayed (hi : h.Inv) {c n : ℕ} {x : Conn} {m : Numbered} {rest : List Numbered}
    (hx : h.conns c = some x) (hpc : x.pc = .replay m rest n) :
    (h.replay c rest (max n m.2)).Inv := by
  have hn : n ∈ x.pc.numbers := by simp [hpc, Handshake.numbers]
  have hm : m.2 ∈ x.pc.numbers := by simp [hpc, Handshake.numbers]
  have hrest : ∀ a ∈ rest, a.2 ∈ x.pc.numbers := fun a ha => by
    rw [hpc]
    exact List.mem_cons_of_mem _ (List.mem_cons_of_mem _ (List.mem_map_of_mem ha))
  have hbound := hi.conns c x hx
  refine hi.replay hx (by rw [hpc]; rintro ⟨⟩) (max_le (hbound n hn) (hbound _ hm))
    (fun a ha => hbound _ (hrest a ha)) (fun d y hd hdc hy => ?_) fun hl hr => ?_
  · obtain ⟨y', hy', -, hcurrent⟩ := hi.last d (hi.ws d hd)
    obtain rfl : y = y' := Option.some.inj (hy.symm.trans hy')
    have hle := (hcurrent hd).conns c x (Ne.symm hdc) hx
    exact ⟨max_le (hle n hn) (hle _ hm), fun a ha => hle _ (hrest a ha)⟩
  · obtain ⟨y, hy, hcomplete, -⟩ := hi.last c hl
    obtain rfl : x = y := Option.some.inj (hx.symm.trans hy)
    have hcomp := hcomplete hr (by rw [hpc]; rintro ⟨⟩)
    have hcovered : h.covered x = x.sent ++ rest := by rw [covered, hpc]; rfl
    have hup : ∀ k ∈ x.pc.numbers, UpTo x.lastSeq (x.sent ++ rest) k := fun k hk => by
      rw [← hcovered]
      exact hcomp.numbers k hk
    refine ⟨fun a ha _ => ?_, fun a ha => hup _ (hrest a ha), ?_⟩
    · rwa [hpc] at ha
    · rcases Nat.le_total n m.2 with hle | hle
      · rw [Nat.max_eq_right hle]
        exact hup _ hm
      · rw [Nat.max_eq_left hle]
        exact hup n hn

/-- A number that was sent on the connection, when its replay is over: so were those before it. -/
theorem Inv.sent (hi : h.Inv) {d : ℕ} {x : Conn} {m : Numbered} (hd : h.last = some d)
    (hx : h.conns d = some x) (hr : x.resumed = true) (hpc : x.pc = .ready) (hm : m ∈ x.sent) :
    h.covered x = x.sent ∧ UpTo x.lastSeq x.sent m.2 := by
  obtain ⟨y, hy, hcomplete, -⟩ := hi.last d hd
  obtain rfl : x = y := Option.some.inj (hx.symm.trans hy)
  have hcovered : h.covered x = x.sent := by rw [covered, hpc]; exact List.append_nil _
  exact ⟨hcovered, hcovered ▸ (hcomplete hr (by rw [hpc]; rintro ⟨⟩)).sent m hm⟩

/-- The number that a client acknowledges was sent to it, or it had it before. -/
theorem Inv.receives (hi : h.Inv) {c : ℕ} {n : ℤ} (ha : h.Received c n) (hsound : h.Sound (.ack c n))
    (hready : ∃ x, h.conns c = some x ∧ x.pc = .ready) (h0 : 0 ≤ n) {d : ℕ} {x : Conn}
    (hd : h.last = some d) (hx : h.conns d = some x) (hr : x.resumed = true) :
    (∀ k, x.pc = .welcome k → n ≤ x.lastSeq) ∧ UpTo x.lastSeq (h.covered x) n.toNat ∧
      (n ≤ x.lastSeq ∨ UpTo x.lastSeq x.sent n.toNat) := by
  have hcases : n ≤ x.lastSeq ∨ x.pc = .ready ∧ ∃ m ∈ x.sent, (m.2 : ℤ) = n := by
    by_cases hdc : d = c
    · subst hdc
      obtain ⟨y, hy, hreceived⟩ := ha
      obtain rfl : x = y := Option.some.inj (hx.symm.trans hy)
      obtain ⟨z, hz, hpc⟩ := hready
      obtain rfl : x = z := Option.some.inj (hx.symm.trans hz)
      exact hreceived.imp_right fun hm => ⟨hpc, hm⟩
    · exact hsound d x hd hdc hx hr
  rcases hcases with hle | ⟨hpc, m, hm, rfl⟩
  · have hhad : ∀ ms, UpTo x.lastSeq ms n.toNat := fun ms j hlj hj => by omega
    exact ⟨fun _ _ => hle, hhad _, .inl hle⟩
  · obtain ⟨hcovered, hup⟩ := hi.sent hd hx hr hpc hm
    refine ⟨fun k hk => ?_, hcovered ▸ hup, .inr hup⟩
    rw [hpc] at hk
    cases hk

theorem Inv.step {a : Act} (hi : h.Inv) (hst : lts.step h a h') (hsound : h.Sound a) :
    h'.Inv := by
  obtain ⟨hst, ha⟩ := hst
  cases a with
  | attach c lastSeq r =>
    obtain ⟨hc, rfl⟩ := hst
    exact hi.attach hc ha
  | welcomed c ok =>
    obtain ⟨x, n, hx, hpc, rfl⟩ := hst
    obtain ⟨hgap, hnewer⟩ := hsound x hx
    cases ok with
    | true => exact hi.welcomed hx hpc hgap hnewer
    | false => exact hi.lost.welcomed hx hpc hgap fun _ _ hd => by cases hd
  | replayed c ok =>
    obtain ⟨x, m, rest, n, hx, hpc, rfl⟩ := hst
    cases ok with
    | true => exact hi.replayed hx hpc
    | false => exact hi.close c
  | send f env message key size r t r' e =>
    obtain ⟨hr, hr'⟩ := ha
    obtain ⟨-, hst⟩ := hst
    have happend := @Inv.append h hi env message key size r t hr
    rw [← append_owner env message key size r t] at hr'
    rcases hst with ⟨-, rfl⟩ | ⟨-, -, rfl⟩
    · exact happend
    · exact happend.enter hr'
  | append env owner message key size r t =>
    subst hst
    exact hi.appended ha
  | flush f r e =>
    obtain ⟨-, -, rfl⟩ := hst
    exact hi.enter ha
  | wake f r =>
    obtain ⟨l, -, -, rfl⟩ := hst
    exact hi.begin ha
  | flushed f ok =>
    obtain ⟨l, c, m, rest, hf, rfl⟩ := hst
    cases ok with
    | true =>
      obtain ⟨hconn, hbound⟩ := hi.flushes f l c m rest hf
      refine (hi.flushed hf).goOn hconn (fun a ha => hbound a (List.mem_cons_of_mem _ ha))
        fun x hws hx hr => ?_
      obtain ⟨y, hy, hcomplete, hcurrent⟩ := hi.last c (hi.ws c hws)
      obtain rfl : x = y := Option.some.inj (hx.symm.trans hy)
      exact ((hcomplete hr (hcurrent hws).pc).flushes f l m rest hf).2
    | false =>
      have hleft := hi.idle (f := f) (x := none) fun _ _ _ _ hf => by cases hf
      show Inv { h.leave c with flushes := Function.update h.flushes f none }
      unfold leave
      split_ifs
      · exact hleft.lost
      · exact hleft
  | cancel f =>
    subst hst
    exact hi.idle fun _ _ _ _ hf => by cases hf
  | ack c n =>
    obtain ⟨hready, rfl⟩ := hst
    exact hi.acked fun h0 d x hd hx hr _ =>
      ⟨(hi.receives ha hsound hready h0 hd hx hr).1,
        (hi.receives ha hsound hready h0 hd hx hr).2.1⟩
  | lost =>
    subst hst
    exact hi.lost
  | close c =>
    subst hst
    exact hi.close c
  | desktop => exact absurd ha id

theorem Inv.delivers (hi : h.Inv) : h.Delivered := by
  intro c x hws hx hpc hr k hlk hk
  obtain ⟨y, hy, -, hcurrent⟩ := hi.last c (hi.ws c hws)
  obtain rfl : x = y := Option.some.inj (hx.symm.trans hy)
  obtain ⟨m, hm, hnum⟩ := (hcurrent hws).sentSeq hr k hlk hk
  have hcovered : h.covered x = x.sent := by rw [covered, hpc]; exact List.append_nil _
  exact ⟨m, hcovered ▸ hm, hnum⟩

theorem Inv.keeps (hi : h.Inv) {d : ℕ} {n : ℤ} (hst : lts.step h (.ack d n) h')
    (hsound : h.Sound (.ack d n)) : h.Keeps h' := by
  intro c x hl hx hr e he hgone
  obtain ⟨⟨hready, rfl⟩, ha⟩ := hst
  rcases h.acked_cases n with heq | ⟨db, h0, -, -, -, hevents, heq⟩
  · rw [heq] at hgone
    exact absurd he hgone
  · rw [heq] at hgone
    have hle : e.seq ≤ n.toNat := by
      by_contra hlt
      refine hgone (List.mem_filter.2 ⟨?_, (List.mem_filter.1 he).2⟩)
      show e ∈ db.events
      rw [hevents]
      exact List.mem_filter.2 ⟨(List.mem_filter.1 he).1, by simp [hlt]⟩
    obtain ⟨-, -, hsent⟩ := hi.receives ha hsound hready h0 hl hx hr
    by_cases hhad : (e.seq : ℤ) ≤ x.lastSeq
    · exact .inl hhad
    · rcases hsent with hn | hup
      · omega
      · exact .inr (hup e.seq (by omega) hle)

/-- **Reconnecting skips no event** in the runs in which the replay of a connection finds no gap in
the outbox, a handshake that was replaced finds nothing newer than the connection that replaced it,
and what is acknowledged on a connection that was replaced has reached the new one: each event above
the last number of the client, up to the last number sent, was sent on the connection, and an
acknowledgement removes no other event. -/
theorem no_event_skipped (hr : (lts.restrict Sound).Reachable Initial h) :
    h.Delivered ∧ ∀ d n h', (lts.restrict Sound).step h (.ack d n) h' → h.Keeps h' := by
  have hi := hr.invariant (I := Inv) (fun _ hi => hi.inv) fun _ _ _ hi hst => hi.step hst.1 hst.2
  exact ⟨hi.delivers, fun _ _ _ hst => hi.keeps hst.1 hst.2⟩

/-! ### A skipped event -/

namespace Sample

/-- A new session of an owner without events. -/
def start : Host := { db := .empty, owner := "owner", seq := 0, outbox := [] }

/-- The clock values. -/
def reads : Reads := ⟨0, 0, 0⟩

/-- A client that has no event connects. -/
def attached : Host := start.attach 0 0 reads

/-- While the welcome is being sent, another process stores an event. -/
def stored : Host :=
  { attached with db := (Delivery.Act.append Delivery.Host.Sample.env "owner"
      Delivery.Host.Sample.message none 40 reads 0).perform attached.db }

/-- The session stores the next event. -/
def appended : Host :=
  (stored.append Delivery.Host.Sample.env Delivery.Host.Sample.message none 40 reads 0).1

/-- The replay sends what the outbox has. -/
def replaying : Host := appended.replay 0 [(Delivery.Host.Sample.message, 2)] 0

/-- The replay is over. -/
def ready : Host := replaying.replay 0 [] 2

theorem start_initial : start.Initial := by
  refine ⟨?_, rfl, rfl, rfl, rfl, fun _ => rfl, fun _ => rfl⟩
  exact Window.nil 0

theorem attached_step : lts.step start (.attach 0 0 reads) attached :=
  ⟨⟨rfl, rfl⟩, fun _ hm => absurd hm List.not_mem_nil⟩

/-- The replay of the run skips the first event. -/
theorem ready_reachable : lts.Reachable Initial ready := by
  have hstored : lts.step attached (.append Delivery.Host.Sample.env "owner"
      Delivery.Host.Sample.message none 40 reads 0) stored :=
    ⟨rfl, show Live _ _ _ by unfold Live; decide⟩
  have happended : lts.step stored (.send 0 Delivery.Host.Sample.env
      Delivery.Host.Sample.message none 40 reads 0 reads .leaves) appended := by
    refine ⟨⟨by decide, .inr ⟨by decide, .inr (by decide), rfl⟩⟩, ?_, ?_⟩
    · unfold Live
      decide
    · unfold Live
      decide
  have hreplayed : appended.replayed
      { lastSeq := 0, resumed := true, pc := .welcome 0, base := 0 } =
        [(Delivery.Host.Sample.message, 2)] := by decide
  have hreplaying : lts.step appended (.welcomed 0 true) replaying := by
    refine ⟨⟨{ lastSeq := 0, resumed := true, pc := .welcome 0, base := 0 }, 0, by decide,
      rfl, ?_⟩, trivial⟩
    rw [hreplayed]
    rfl
  have hready : lts.step replaying (.replayed 0 true) ready :=
    ⟨⟨{ lastSeq := 0, resumed := true, pc := .replay (Delivery.Host.Sample.message, 2) [] 0
        sent := [(Delivery.Host.Sample.message, 2)], base := 0 },
      (Delivery.Host.Sample.message, 2), [], 0, by decide, rfl, rfl⟩, trivial⟩
  exact (((((Lts.Reachable.of_init start_initial).step attached_step).step hstored).step
    happended).step hreplaying).step hready

/-! A client connects, loses its connection and connects again. -/

/-- The message of the events. -/
abbrev text : Message := Delivery.Host.Sample.message

/-- While the welcome is being sent, the session stores an event. -/
def queued : Host := (attached.append Delivery.Host.Sample.env text none 40 reads 0).1

/-- The replay sends it. -/
def welcomed : Host := queued.replay 0 [(text, 1)] 0

/-- The replay is over. -/
def settled : Host := welcomed.replay 0 [] 1

/-- Another process stores an event. -/
def foreign : Host :=
  { settled with
    db := (Delivery.Act.append Delivery.Host.Sample.env "owner" text none 40 reads 0).perform
      settled.db }

/-- A call of `flush` sends it. -/
def flushing : Host :=
  { foreign with seq := 2, outbox := [(text, 1), (text, 2)] }.goOn 0 0 0 [(text, 1), (text, 2)]

/-- The call ends. -/
def flushed : Host := { flushing with sentSeq := 2 }.goOn 0 0 0 []

/-- The client connects again; it has the first event only. -/
def again : Host :=
  { flushed with
    ws := some 1, last := some 1, ready := false, lock := 1
    conns := Function.update flushed.conns 1
      (some { lastSeq := 1, resumed := true, pc := .welcome 1, base := 2 }) }.acked 1

/-- The replay sends the second event. -/
def catching : Host := again.replay 1 [(text, 2)] 1

/-- The replay is over. -/
def caught : Host := catching.replay 1 [] 2

theorem flushing_eq : foreign.begin 0 0 reads = flushing := by
  have hread : EventStore.snapshot foreign.owner reads foreign.db =
      (foreign.db, 2, 0, [(text, 1), (text, 2)]) :=
    snapshot_sorted (s := ⟨"owner", 2, 0⟩) (by decide) (by decide)
  rw [begin, hread]
  rfl

theorem again_eq : flushed.attach 1 1 reads = again := by
  have hread : EventStore.snapshot flushed.owner reads flushed.db =
      (flushed.db, 2, 0, [(text, 1), (text, 2)]) :=
    snapshot_sorted (s := ⟨"owner", 2, 0⟩) (by decide) (by decide)
  rw [attach, hread]
  rfl

/-- The connections at the end. -/
theorem caught_conns :
    caught.conns 0 = some
      { lastSeq := 0, resumed := true, pc := .ready, sent := [(text, 1), (text, 2)], base := 0 } ∧
    caught.conns 1 = some
      { lastSeq := 1, resumed := true, pc := .ready, sent := [(text, 2)], base := 2 } := by
  decide

/-- The replay of the one event that the client has missed. -/
theorem sound_welcomed {h : Host} {c : ℕ} {x : Conn} {m : Numbered} (hws : h.ws = some c)
    (hx : h.conns c = some x) (hm : h.replayed x = [m]) (hnext : (m.2 : ℤ) = x.lastSeq + 1) :
    h.Sound (.welcomed c true) := by
  intro y hy
  obtain rfl := Option.some.inj (hx.symm.trans hy)
  rw [hm]
  refine ⟨fun _ m' hm' j hlj hj => ?_, fun d y hd hne => ?_⟩
  · obtain rfl := List.mem_singleton.1 hm'
    omega
  · exact absurd (Option.some.inj (hd.symm.trans hws)) hne

theorem settled_reachable : (lts.restrict Sound).Reachable Initial settled := by
  have hqueued : lts.step attached (.send 0 Delivery.Host.Sample.env text none 40 reads 0 reads
      .leaves) queued := by
    refine ⟨⟨by decide, .inr ⟨by decide, .inr (by decide), rfl⟩⟩, ?_, ?_⟩
    · unfold Live
      decide
    · unfold Live
      decide
  have hwelcome : queued.conns 0 =
      some { lastSeq := 0, resumed := true, pc := .welcome 0, base := 0 } := by decide
  have hwelcomed : (lts.restrict Sound).step queued (.welcomed 0 true) welcomed :=
    ⟨⟨⟨_, 0, hwelcome, rfl, rfl⟩, trivial⟩, sound_welcomed rfl hwelcome (by rfl) (by rfl)⟩
  have hsettled : lts.step welcomed (.replayed 0 true) settled :=
    ⟨⟨{ lastSeq := 0, resumed := true, pc := .replay (text, 1) [] 0, sent := [(text, 1)]
        base := 0 }, (text, 1), [], 0, by decide, rfl, rfl⟩, trivial⟩
  have hstart : (lts.restrict Sound).Reachable Initial start := .of_init start_initial
  exact (((hstart.step ⟨attached_step, trivial⟩).step ⟨hqueued, trivial⟩).step hwelcomed).step
    ⟨hsettled, trivial⟩

/-- Every step of the run meets the condition. -/
theorem caught_reachable : (lts.restrict Sound).Reachable Initial caught := by
  have hlive : Live reads foreign.owner foreign.db := by
    unfold Live
    decide
  have hforeign : lts.step settled (.append Delivery.Host.Sample.env "owner" text none 40 reads 0)
      foreign := ⟨rfl, show Live _ _ _ by unfold Live; decide⟩
  have hflushing : lts.step foreign (.flush 0 reads .enters) flushing := by
    refine ⟨⟨rfl, ⟨by decide, rfl, ?_⟩, flushing_eq.symm⟩, hlive⟩
    rintro ⟨f, c, m, rest, hf⟩
    cases hf
  have hflushed : lts.step flushing (.flushed 0 true) flushed :=
    ⟨⟨0, 0, (text, 2), [], rfl, rfl⟩, trivial⟩
  have hagain : lts.step flushed (.attach 1 1 reads) again := ⟨⟨rfl, again_eq.symm⟩, hlive⟩
  have hwelcome : again.conns 1 =
      some { lastSeq := 1, resumed := true, pc := .welcome 1, base := 2 } := by decide
  have hcatching : (lts.restrict Sound).step again (.welcomed 1 true) catching :=
    ⟨⟨⟨_, 1, hwelcome, rfl, rfl⟩, trivial⟩, sound_welcomed rfl hwelcome (by rfl) (by rfl)⟩
  have hcaught : lts.step catching (.replayed 1 true) caught :=
    ⟨⟨{ lastSeq := 1, resumed := true, pc := .replay (text, 2) [] 1, sent := [(text, 2)]
        base := 2 }, (text, 2), [], 1, by decide, rfl, rfl⟩, trivial⟩
  exact (((((settled_reachable.step ⟨hforeign, trivial⟩).step ⟨hflushing, trivial⟩).step
    ⟨hflushed, trivial⟩).step ⟨hagain, trivial⟩).step hcatching).step ⟨hcaught, trivial⟩

/-- The client acknowledges the second event on its first connection. -/
theorem acked_step : (lts.restrict Sound).step caught (.ack 0 2) (caught.acked 2) := by
  obtain ⟨hfirst, hsecond⟩ := caught_conns
  refine ⟨⟨⟨⟨_, hfirst, rfl⟩, rfl⟩, _, hfirst, .inr ⟨(text, 2), by decide, rfl⟩⟩,
    fun d x hd _ hx _ => ?_⟩
  obtain rfl : 1 = d := Option.some.inj hd
  obtain rfl := Option.some.inj (hsecond.symm.trans hx)
  exact .inr ⟨rfl, (text, 2), by decide, rfl⟩

end Sample

/-- An event of the session and one of another process, a connection that is replaced, and an
acknowledgement on the old one. -/
theorem no_event_skipped_sample :
    Sample.caught.Delivered ∧ Sample.caught.Keeps (Sample.caught.acked 2) ∧
      Sample.caught.ws = some 1 ∧ Sample.caught.sentSeq = 2 ∧
      (Sample.caught.acked 2).db.eventsOf "owner" = [] :=
  have h := no_event_skipped Sample.caught_reachable
  ⟨h.1, h.2 0 2 _ Sample.acked_step, rfl, by decide, by decide⟩

/-- The outbox has the second event and not the first, so that the replay ends at the number `2`
with the first event not sent; the acknowledgement of `2` removes it. -/
theorem event_skipped : ∃ h, lts.Reachable Initial h ∧ ¬ h.Delivered := by
  refine ⟨Sample.ready, Sample.ready_reachable, fun hd => ?_⟩
  obtain ⟨m, hm, hnum⟩ := hd 0
    { lastSeq := 0, resumed := true, pc := .ready
      sent := [(Delivery.Host.Sample.message, 2)], base := 0 }
    (by decide) (by decide) rfl rfl 1 (by decide) (by decide)
  rw [List.mem_singleton.1 hm] at hnum
  cases hnum

end Host

end Sockets

end Delivery

end PythonAI
