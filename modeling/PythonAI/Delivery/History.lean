import PythonAI.Delivery.Store
import PythonAI.Library.Lts
import PythonAI.Library.Window

/-!
# The event history has no gap

Any sequence of the operations of `EventStore`, for any owners, under a clock that does not go back.
`Host.log` lists the events that were ever stored, each with its durable key.

* `Host.Gapless` : the stored events of each owner are the window `(floor, seq]` of its history;
* `Host.history` : **the history has no gap** in the runs in which no event expires between the two
  clock values that a `cleanup` computes the floors and deletes the events with; in every run,
  numbers and keys are given once;
* `Host.history_gap` : a run in which an event expires in between, and is lost without a trace.
-/

namespace PythonAI

open Library

namespace Delivery

/-- The number of the last event of an owner. -/
def Db.seq (db : Db) (owner : Owner) : ℕ := ((db.session owner).map Session.seq).getD 0

/-- The number up to which the events of an owner are gone. -/
def Db.floor (db : Db) (owner : Owner) : ℕ := ((db.session owner).map Session.floor).getD 0

/-- An operation, with what it reads outside the database. -/
inductive Act
  | snapshot (owner : Owner) (r : Reads)
  | append (env : Environment) (owner : Owner) (message : Message) (key : Option String)
      (size : ℕ) (r : Reads) (t : Time)
  | ack (owner : Owner) (seq : ℤ)
  | acceptInput (env : Environment) (owner : Owner) (id text : String) (r : Reads) (t : Time)
  | finishInput (owner : Owner) (id : String) (status : InputStatus)
  | eraseOwner (owner : Owner)

namespace Act

/-- The database that the operation commits. -/
def attempt (db : Db) : Act → Except Error Db
  | snapshot owner r => .ok (EventStore.snapshot owner r db).1
  | append env owner message key size r t =>
    outcome (EventStore.append env owner message key size r t db)
  | ack owner seq => outcome (EventStore.ack owner seq db)
  | acceptInput env owner id text r t => outcome (EventStore.acceptInput env owner id text r t db)
  | finishInput owner id status => .ok (EventStore.finishInput owner id status db)
  | eraseOwner owner => .ok (EventStore.eraseOwner owner db)

/-- The database after the operation. -/
def perform (db : Db) (a : Act) : Db := commit db (a.attempt db)

/-- The durable key of the operation. -/
def key : Act → Option String
  | append _ _ _ key _ _ _ => key
  | _ => none

/-- The events that the operation stores, with their durable key. -/
def stores (db : Db) (a : Act) : List (Event × Option String) :=
  ((a.perform db).events.filter (· ∉ db.events)).map (·, a.key)

/-- The clock values that the `cleanup` of the operation reads. -/
def reads : Act → Option Reads
  | snapshot _ r | append _ _ _ _ _ r _ | acceptInput _ _ _ _ r _ => some r
  | _ => none

/-- The clock values of the operation lie between `t` and `t'`, in the order they are read in. -/
def clocked (t t' : Time) : Act → Prop
  | snapshot _ r => t ≤ r.floors ∧ r.floors ≤ r.events ∧ r.events ≤ r.inputs ∧ r.inputs ≤ t'
  | append _ _ _ _ _ r t₁ | acceptInput _ _ _ _ r t₁ =>
    t ≤ r.floors ∧ r.floors ≤ r.events ∧ r.events ≤ r.inputs ∧ r.inputs ≤ t₁ ∧ t₁ ≤ t'
  | _ => t ≤ t'

/-- The TTL of the stored events is `ttl`. -/
def keeps (ttl : ℕ) : Act → Prop
  | append env .. => ∀ n, positiveLimit env "COMPANION_EVENT_TTL" 86400 = .ok n → n = ttl
  | _ => True

/-- No stored event expires between the two clock values that the `cleanup` of the operation
computes the floors and deletes the events with. -/
def Together (db : Db) (a : Act) : Prop :=
  ∀ r, a.reads = some r → ∀ e ∈ db.events, ¬ (r.floors < e.expires ∧ e.expires ≤ r.events)

end Act

/-- The database with the clock and the events that were ever stored. -/
structure Host where
  /-- the database -/
  db : Db
  /-- the clock -/
  now : Time
  /-- the events that were ever stored, with their durable keys -/
  log : List (Event × Option String)

namespace Host

/-- The state after the operation `a`, which ends at `t`. -/
def after (h : Host) (a : Act) (t : Time) : Host :=
  ⟨a.perform h.db, t, h.log ++ a.stores h.db⟩

/-- One operation at a time; the TTL of the events is `ttl`. -/
def lts (ttl : ℕ) : Lts Host Act where
  step h a h' := ∃ t, a.clocked h.now t ∧ a.keeps ttl ∧ h' = h.after a t

/-- New tables. -/
structure Initial (h : Host) : Prop where
  /-- the database -/
  db : h.db = .empty
  /-- nothing was stored -/
  log : h.log = []

/-- The stored events of each owner are those numbered `floor + 1 … seq`, in order. -/
def Gapless (h : Host) : Prop :=
  ∀ owner, Window Event.seq (h.db.floor owner) (h.db.seq owner) (h.db.eventsOf owner)

/-- No number and no durable key was given to two events of one owner. -/
structure Once (h : Host) : Prop where
  /-- the numbers -/
  numbers : (h.log.map fun x => (x.1.owner, x.1.seq)).Nodup
  /-- the durable keys -/
  keys : (h.log.filterMap fun x => x.2.map (x.1.owner, ·)).Nodup

end Host

/-! ### What an operation does -/

/-- What an operation does to the sessions, the events and the keys. -/
inductive Change (a : Act) (db db' : Db) : Prop
  /-- it touches the inputs only -/
  | inputs (hs : db'.sessions = db.sessions) (he : db'.events = db.events)
      (hk : db'.keys = db.keys)
  /-- it removes the expired events -/
  | cleaned (r : Reads) (hr : a.reads = some r)
      (hs : db'.sessions = (EventStore.cleanup r db).sessions)
      (he : db'.events = (EventStore.cleanup r db).events) (hk : db'.keys = db.keys)
  /-- it removes the expired events and stores one -/
  | stored (env : Environment) (owner : Owner) (message : Message) (key : Option String)
      (size : ℕ) (r : Reads) (t : Time) (ttl : ℕ)
      (ha : a = .append env owner message key size r t)
      (httl : positiveLimit env "COMPANION_EVENT_TTL" 86400 = .ok ttl)
      (hnew : ∀ k, key = some k → Records.find EventKey.id (owner, k) db.keys = none)
      (hseq : ∀ o, db'.seq o = if o = owner then db.seq o + 1 else db.seq o)
      (hfloor : ∀ o, db'.floor o = (EventStore.cleanup r db).floor o)
      (he : db'.events = (EventStore.cleanup r db).events ++
        [⟨owner, db.seq owner + 1, message, size, t + ttl⟩])
      (hk : db'.keys = db.keys ++
        (key.map fun k => ⟨owner, k, message.content, db.seq owner + 1⟩).toList)
  /-- it removes the events of an owner up to `n`, and raises the floor to `n` -/
  | acked (owner : Owner) (n : ℕ) (hn : n ≤ db.seq owner) (hseq : ∀ o, db'.seq o = db.seq o)
      (hfloor : ∀ o, db'.floor o = if o = owner then max (db.floor o) n else db.floor o)
      (he : db'.events = db.events.filter fun e => !(e.owner = owner && e.seq ≤ n))
      (hk : db'.keys = db.keys)
  /-- it removes the events of an owner, and raises the floor to its last number -/
  | erased (owner : Owner) (hseq : ∀ o, db'.seq o = db.seq o)
      (hfloor : ∀ o, db'.floor o = if o = owner then db.seq o else db.floor o)
      (he : db'.events = db.events.filter fun e => e.owner ≠ owner)
      (hk : db'.keys = db.keys)

section

variable {db db' : Db} {a : Act} {o owner : Owner} {f : Session → Session}

theorem session_map (hs : db'.sessions = db.sessions.map f) (hf : ∀ s, (f s).owner = s.owner) :
    db'.session o = (db.session o).map f := by
  rw [Db.session, hs]
  exact Records.find_map fun s _ => hf s

theorem owner_of_session {s : Session} (h : db.session o = some s) : s.owner = o :=
  Records.key_of_find h

theorem seq_map (hs : db'.sessions = db.sessions.map f) (hf : ∀ s, (f s).owner = s.owner)
    (hseq : ∀ s, (f s).seq = s.seq) : db'.seq o = db.seq o := by
  rw [Db.seq, session_map hs hf, Db.seq]
  cases db.session o with
  | none => rfl
  | some s => exact hseq s

theorem seq_of_sessions (hs : db'.sessions = db.sessions) : db'.seq o = db.seq o := by
  rw [Db.seq, Db.session, hs]; rfl

theorem floor_of_sessions (hs : db'.sessions = db.sessions) : db'.floor o = db.floor o := by
  rw [Db.floor, Db.session, hs]; rfl

@[simp] theorem cleanup_seq (r : Reads) : (EventStore.cleanup r db).seq o = db.seq o :=
  seq_map rfl (fun _ => rfl) fun _ => rfl

@[simp] theorem cleanup_keys (r : Reads) : (EventStore.cleanup r db).keys = db.keys := rfl

/-- The floor after a `cleanup`, of an owner with a session. -/
theorem cleanup_floor (r : Reads) : (EventStore.cleanup r db).floor o =
    if (db.session o).isSome then max (db.floor o) (EventStore.lastExpired o r.floors db.events)
    else 0 := by
  rw [Db.floor, session_map (f := fun s =>
    { s with floor := max s.floor (EventStore.lastExpired s.owner r.floors db.events) }) rfl
    fun _ => rfl, Db.floor]
  cases hs : db.session o with
  | none => rfl
  | some s =>
    show max s.floor (EventStore.lastExpired s.owner r.floors db.events) = _
    rw [owner_of_session hs]
    rfl

/-- What `ack` does. -/
theorem ack_effect {seq : ℤ} {u : Unit} (h : EventStore.ack owner seq db = .ok (db', u)) :
    0 ≤ seq ∧ seq ≤ db.seq owner ∧ (∀ o, db'.seq o = db.seq o) ∧
      (∀ o, db'.floor o = if o = owner then max (db.floor o) seq.toNat else db.floor o) ∧
      db'.events = db.events.filter (fun e => !(e.owner = owner && e.seq ≤ seq.toNat)) ∧
      db'.keys = db.keys := by
  simp only [EventStore.ack, bind_eq_ok, ensure_eq_ok, pure_eq_ok, Prod.mk.injEq,
    Bool.and_eq_true, decide_eq_true_eq] at h
  obtain ⟨-, ⟨h0, hle⟩, rfl, -⟩ := h
  have hle' : seq ≤ (db.seq owner : ℤ) := hle
  have hn : seq.toNat ≤ db.seq owner := by omega
  have hkeep : ∀ s : Session, (if s.owner = owner then
      { s with floor := max s.floor seq.toNat } else s).owner = s.owner := fun s => by
    split_ifs <;> rfl
  refine ⟨h0, hle', fun o => seq_map rfl hkeep fun s => ?_, fun o => ?_, rfl, rfl⟩
  · split_ifs <;> rfl
  · rw [Db.floor, session_map rfl hkeep, Db.floor]
    cases hs : db.session o with
    | none =>
      split_ifs with ho
      · subst ho
        have hseq : db.seq o = 0 := by rw [Db.seq, hs]; rfl
        show 0 = max 0 _
        omega
      · rfl
    | some s =>
      have hso := owner_of_session hs
      subst hso
      simp only [Option.map_some, Option.getD_some]
      split_ifs <;> rfl

theorem ack_ok {seq : ℤ} {u : Unit} (h : EventStore.ack owner seq db = .ok (db', u)) :
    Change a db db' := by
  obtain ⟨h0, hle, hseq, hfloor, he, hk⟩ := ack_effect h
  exact .acked owner seq.toNat (by omega) hseq hfloor he hk

theorem eraseOwner_change : Change a db (EventStore.eraseOwner owner db) := by
  have hkeep : ∀ s : Session,
      (if s.owner = owner then { s with floor := s.seq } else s).owner = s.owner := fun s => by
    split_ifs <;> rfl
  refine .erased owner (fun o => seq_map rfl hkeep fun s => ?_) (fun o => ?_) rfl rfl
  · split_ifs <;> rfl
  · rw [Db.floor, session_map rfl hkeep, Db.floor, Db.seq]
    cases hs : db.session o with
    | none => split_ifs <;> rfl
    | some s =>
      have hso := owner_of_session hs
      subst hso
      simp only [Option.map_some, Option.getD_some]
      split_ifs <;> rfl

/-- The session that an append uses. -/
theorem find_admitted {sessions : List Session}
    (h : sessions = db.sessions ∧ (db.session owner).isSome ∨
      sessions = db.sessions ++ [{ owner := owner }] ∧ (db.session owner) = none) :
    ∃ s, Records.find Session.owner owner sessions = some s ∧ s.seq = db.seq owner ∧
      s.floor = db.floor owner ∧ ∀ o, o ≠ owner →
        Records.find Session.owner o sessions = db.session o := by
  rcases h with ⟨rfl, hsome⟩ | ⟨rfl, hnone⟩
  · obtain ⟨s, hs⟩ := Option.isSome_iff_exists.1 hsome
    refine ⟨s, hs, ?_, ?_, fun o _ => rfl⟩
    · rw [Db.seq, hs]; rfl
    · rw [Db.floor, hs]; rfl
  · refine ⟨{ owner := owner }, ?_, ?_, ?_, fun o ho => Records.find_append_of_ne (Ne.symm ho)⟩
    · rw [Records.find_append, show Records.find Session.owner owner db.sessions = none from hnone]
      simp [Records.find]
    · rw [Db.seq, hnone]; rfl
    · rw [Db.floor, hnone]; rfl

/-- The numbers after an append. -/
theorem numbered {sessions : List Session} {s : Session} {db₁ : Db}
    (hs : Records.find Session.owner owner sessions = some s) (hfloor : s.floor = db.floor owner)
    (hothers : ∀ o, o ≠ owner → Records.find Session.owner o sessions = db.session o)
    (h₁ : db₁.sessions = sessions.map fun s' =>
      if s'.owner = owner then { s' with seq := db.seq owner + 1 } else s') :
    (∀ o, db₁.seq o = if o = owner then db.seq o + 1 else db.seq o) ∧
      ∀ o, db₁.floor o = db.floor o := by
  have hkeep : ∀ s' : Session, (if s'.owner = owner then
      { s' with seq := db.seq owner + 1 } else s').owner = s'.owner := fun s' => by
    split_ifs <;> rfl
  have hrow : ∀ o, db₁.session o = (Records.find Session.owner o sessions).map fun s' =>
      if s'.owner = owner then { s' with seq := db.seq owner + 1 } else s' := fun o => by
    rw [Db.session, h₁]
    exact Records.find_map fun s' _ => hkeep s'
  have hmine : s.owner = owner := Records.key_of_find hs
  refine ⟨fun o => ?_, fun o => ?_⟩
  · by_cases ho : o = owner
    · subst ho
      rw [Db.seq, hrow, hs, if_pos rfl, Option.map_some, if_pos hmine, Option.map_some,
        Option.getD_some]
    · rw [Db.seq, hrow, hothers o ho, if_neg ho,
        show db.seq o = ((db.session o).map Session.seq).getD 0 from rfl]
      cases hso : db.session o with
      | none => rfl
      | some s' =>
        have hne : s'.owner ≠ owner := by rwa [owner_of_session hso]
        simp only [Option.map_some, Option.getD_some]
        rw [if_neg hne]
  · by_cases ho : o = owner
    · subst ho
      rw [Db.floor, hrow, hs, Option.map_some, if_pos hmine]
      exact hfloor
    · rw [Db.floor, hrow, hothers o ho, Db.floor]
      cases hso : db.session o with
      | none => rfl
      | some s' =>
        simp only [Option.map_some, Option.getD_some]
        split_ifs <;> rfl

/-- What the last part of an append does. -/
theorem insert_ok {env : Environment} {message : Message} {key : Option String} {size : ℕ}
    {t : Time} {out : Option (Message × ℕ)}
    (h : EventStore.insert env owner message key size t db = .ok (db', out)) :
    ∃ ttl, positiveLimit env "COMPANION_EVENT_TTL" 86400 = .ok ttl ∧
      (∀ o, db'.seq o = if o = owner then db.seq o + 1 else db.seq o) ∧
      (∀ o, db'.floor o = db.floor o) ∧
      db'.events = db.events ++ [⟨owner, db.seq owner + 1, message, size, t + ttl⟩] ∧
      db'.keys = db.keys ++
        (key.map fun k => ⟨owner, k, message.content, db.seq owner + 1⟩).toList ∧
      out = some (message, db.seq owner + 1) := by
  simp only [EventStore.insert, bind_eq_ok, ensure_eq_ok, require_eq_ok] at h
  obtain ⟨sessions, hadmit, session, hfind, count, -, -, -, total, -, -, -, ttl, httl, -, -, h⟩ := h
  have hcases : sessions = db.sessions ∧ (db.session owner).isSome ∨
      sessions = db.sessions ++ [{ owner := owner }] ∧ db.session owner = none := by
    by_cases hsome : (db.session owner).isSome
    · rw [if_pos hsome] at hadmit
      cases hadmit
      exact .inl ⟨rfl, hsome⟩
    · rw [if_neg hsome] at hadmit
      simp only [bind_eq_ok, pure_eq_ok] at hadmit
      obtain ⟨-, -, -, -, rfl⟩ := hadmit
      exact .inr ⟨rfl, Option.not_isSome_iff_eq_none.1 hsome⟩
  obtain ⟨s, hs, hseq, hfloor, hothers⟩ := find_admitted hcases
  rw [hs] at hfind
  cases hfind
  rw [hseq] at h
  cases key with
  | none =>
    simp only [pure_eq_ok, Prod.mk.injEq] at h
    obtain ⟨rfl, rfl⟩ := h
    exact ⟨ttl, httl, and_assoc.1
      ⟨numbered hs hfloor hothers rfl, rfl, (List.append_nil _).symm, rfl⟩⟩
  | some k =>
    simp only at h
    split_ifs at h with hend
    · simp only [bind_eq_ok, require_eq_ok, pure_eq_ok, Prod.mk.injEq] at h
      obtain ⟨payload, -, rfl, rfl⟩ := h
      exact ⟨ttl, httl, and_assoc.1 ⟨numbered hs hfloor hothers rfl, rfl, rfl, rfl⟩⟩
    · simp only [pure_eq_ok, Prod.mk.injEq] at h
      obtain ⟨rfl, rfl⟩ := h
      exact ⟨ttl, httl, and_assoc.1 ⟨numbered hs hfloor hothers rfl, rfl, rfl, rfl⟩⟩

/-- **Every operation that succeeds is a change.** -/
theorem Act.change (h : a.attempt db = .ok db') : Change a db db' := by
  cases a with
  | snapshot owner r =>
    cases h
    exact .cleaned r rfl rfl rfl rfl
  | append env owner message key size r t =>
    obtain ⟨out, h⟩ := outcome_eq_ok.1 h
    have hstored : (∀ k, key = some k →
        Records.find EventKey.id (owner, k) (EventStore.cleanup r db).keys = none) →
        EventStore.insert env owner message key size t (EventStore.cleanup r db) = .ok (db', out) →
        Change (.append env owner message key size r t) db db' := fun hnew hi => by
      obtain ⟨ttl, httl, hseq, hfloor, he, hk, -⟩ := insert_ok hi
      simp only [cleanup_seq, cleanup_keys] at hseq he hk
      exact .stored env owner message key size r t ttl rfl httl hnew hseq hfloor he hk
    cases key with
    | none => exact hstored (fun _ hk => nomatch hk) h
    | some k =>
      simp only [EventStore.append, bind_eq_ok, ensure_eq_ok] at h
      obtain ⟨-, -, -, -, h⟩ := h
      split at h
      case h_1 old hold =>
        simp only [bind_eq_ok, ensure_eq_ok, pure_eq_ok, Prod.mk.injEq] at h
        obtain ⟨-, -, rfl, -⟩ := h
        exact .cleaned r rfl rfl rfl rfl
      case h_2 hnone =>
        simp only [bind_eq_ok, ensure_eq_ok] at h
        obtain ⟨limit, -, -, -, h⟩ := h
        exact hstored (fun k' hk => by cases hk; exact hnone) h
  | ack owner seq =>
    obtain ⟨out, h⟩ := outcome_eq_ok.1 h
    exact ack_ok h
  | acceptInput env owner id text r t =>
    obtain ⟨out, h⟩ := outcome_eq_ok.1 h
    simp only [EventStore.acceptInput] at h
    split at h
    · simp only [bind_eq_ok, ensure_eq_ok, pure_eq_ok, Prod.mk.injEq] at h
      obtain ⟨-, -, rfl, -⟩ := h
      exact .cleaned r rfl rfl rfl rfl
    · simp only [bind_eq_ok, ensure_eq_ok, pure_eq_ok, Prod.mk.injEq] at h
      obtain ⟨limit, -, -, -, ttl, -, rfl, -⟩ := h
      exact .cleaned r rfl rfl rfl rfl
  | finishInput owner id status =>
    cases h
    exact .inputs rfl rfl rfl
  | eraseOwner owner =>
    cases h
    exact eraseOwner_change

/-- An append under a durable key that succeeds leaves the key in the table. -/
theorem Act.recorded {env : Environment} {message : Message} {k : String} {size : ℕ} {r : Reads}
    {t : Time} (h : (Act.append env owner message (some k) size r t).attempt db = .ok db') :
    ∃ row ∈ db'.keys, row.owner = owner ∧ row.key = k := by
  obtain ⟨out, h⟩ := outcome_eq_ok.1 h
  simp only [EventStore.append, bind_eq_ok, ensure_eq_ok] at h
  obtain ⟨-, -, -, -, h⟩ := h
  split at h
  case h_1 old hold =>
    simp only [bind_eq_ok, ensure_eq_ok, pure_eq_ok, Prod.mk.injEq] at h
    obtain ⟨-, -, rfl, -⟩ := h
    have hid : old.id = (owner, k) := Records.key_of_find hold
    obtain ⟨ho, hk⟩ := Prod.mk.inj hid
    exact ⟨old, Records.mem_of_find hold, ho, hk⟩
  case h_2 hnone =>
    simp only [bind_eq_ok, ensure_eq_ok] at h
    obtain ⟨limit, -, -, -, h⟩ := h
    obtain ⟨ttl, -, -, -, -, hkeys, -⟩ := insert_ok h
    rw [hkeys]
    exact ⟨_, List.mem_append_right _ (List.mem_singleton_self _), rfl, rfl⟩

/-- A step changes nothing or performs a change. -/
theorem Act.perform_cases (a : Act) (db : Db) :
    (∃ e, a.attempt db = .error e) ∧ a.perform db = db ∨ Change a db (a.perform db) := by
  unfold Act.perform
  cases h : a.attempt db with
  | error e => exact .inl ⟨⟨e, rfl⟩, rfl⟩
  | ok db' => exact .inr (Act.change h)

theorem cleanup_subset {r : Reads} {e : Event} (he : e ∈ (EventStore.cleanup r db).events) :
    e ∈ db.events := (List.mem_filter.1 he).1

/-- What becomes of the events, the numbers and the keys: none is added, or one event is. -/
theorem Change.cases (h : Change a db db') :
    (∀ e ∈ db'.events, e ∈ db.events) ∧ (∀ o, db'.seq o = db.seq o) ∧ db'.keys = db.keys ∨
      ∃ env owner message key size r t ttl, a = .append env owner message key size r t ∧
        positiveLimit env "COMPANION_EVENT_TTL" 86400 = .ok ttl ∧
        (∀ k, key = some k → Records.find EventKey.id (owner, k) db.keys = none) ∧
        (∀ o, db'.seq o = if o = owner then db.seq o + 1 else db.seq o) ∧
        db'.events = (EventStore.cleanup r db).events ++
          [⟨owner, db.seq owner + 1, message, size, t + ttl⟩] ∧
        db'.keys = db.keys ++
          (key.map fun k => ⟨owner, k, message.content, db.seq owner + 1⟩).toList := by
  cases h with
  | inputs hs he hk => exact .inl ⟨fun e h => he ▸ h, fun o => seq_of_sessions hs, hk⟩
  | cleaned r hr hs he hk =>
    refine .inl ⟨fun e h => cleanup_subset (r := r) (he ▸ h), fun o => ?_, hk⟩
    rw [seq_of_sessions hs, cleanup_seq]
  | stored env owner message key size r t ttl ha httl hnew hseq hfloor he hk =>
    exact .inr ⟨env, owner, message, key, size, r, t, ttl, ha, httl, hnew, hseq, he, hk⟩
  | acked owner n hn hseq hfloor he hk =>
    exact .inl ⟨fun e h => (List.mem_filter.1 (he ▸ h)).1, hseq, hk⟩
  | erased owner hseq hfloor he hk =>
    exact .inl ⟨fun e h => (List.mem_filter.1 (he ▸ h)).1, hseq, hk⟩

/-- Numbers do not decrease. -/
theorem Change.seq_le (h : Change a db db') (o : Owner) : db.seq o ≤ db'.seq o := by
  obtain ⟨-, hseq, -⟩ | ⟨_, owner, _, _, _, _, _, _, _, _, _, hseq, -⟩ := h.cases
  · exact (hseq o).ge
  · rw [hseq]
    split_ifs <;> omega

theorem cleanup_floor_le (r : Reads) (o : Owner) :
    db.floor o ≤ (EventStore.cleanup r db).floor o := by
  rw [cleanup_floor]
  split_ifs with hs
  · exact le_max_left ..
  · rw [Db.floor, Option.not_isSome_iff_eq_none.1 hs]
    exact Nat.zero_le _

/-- Floors do not decrease, where they are not above the last number. -/
theorem Change.floor_le (h : Change a db db') (hle : db.floor o ≤ db.seq o) :
    db.floor o ≤ db'.floor o := by
  cases h with
  | inputs hs he hk => exact (floor_of_sessions hs).ge
  | cleaned r hr hs he hk => exact (floor_of_sessions hs).symm ▸ cleanup_floor_le r o
  | stored env owner message key size r t ttl ha httl hnew hseq hfloor he hk =>
    exact (hfloor o).symm ▸ cleanup_floor_le r o
  | acked owner n hn hseq hfloor he hk =>
    rw [hfloor]
    split_ifs
    · exact le_max_left ..
    · exact le_rfl
  | erased owner hseq hfloor he hk =>
    rw [hfloor]
    split_ifs
    · exact hle
    · exact le_rfl

end

/-! ### Every run -/

namespace Host

variable {ttl : ℕ} {h h' : Host} {a : Act}

/-- What holds in every run. -/
structure Kept (ttl : ℕ) (h : Host) : Prop where
  /-- the stored events have been numbered -/
  numbered : ∀ e ∈ h.db.events, 0 < e.seq ∧ e.seq ≤ h.db.seq e.owner
  /-- no event expires later than one that is stored now -/
  expires : ∀ e ∈ h.db.events, e.expires ≤ h.now + ttl
  /-- the events of an owner expire in the order of their numbers -/
  ordered : ∀ e ∈ h.db.events, ∀ e' ∈ h.db.events, e.owner = e'.owner → e.seq ≤ e'.seq →
    e.expires ≤ e'.expires
  /-- every event that was stored has been numbered -/
  logged : ∀ x ∈ h.log, x.1.seq ≤ h.db.seq x.1.owner
  /-- a durable key that was given is recorded with the content of its event -/
  keyed : ∀ x ∈ h.log, ∀ k, x.2 = some k → ∃ row,
    Records.find EventKey.id (x.1.owner, k) h.db.keys = some row ∧
      row.fingerprint = x.1.message.content
  /-- numbers and keys are given once -/
  once : h.Once

theorem Initial.seq (hi : h.Initial) (o : Owner) : h.db.seq o = 0 := by
  rw [Db.seq, hi.db]; rfl

theorem Initial.kept (hi : h.Initial) : h.Kept ttl := by
  have hev : h.db.events = [] := by rw [hi.db]; rfl
  refine ⟨?_, ?_, ?_, ?_, ?_, ⟨?_, ?_⟩⟩
  · simp [hev]
  · simp [hev]
  · simp [hev]
  · simp [hi.log]
  · simp [hi.log]
  · simp [hi.log]
  · simp [hi.log]

/-- An operation that adds no event to the table stores none. -/
theorem stores_eq_nil {db : Db} (hs : ∀ e ∈ (a.perform db).events, e ∈ db.events) :
    a.stores db = [] := by
  have : (a.perform db).events.filter (· ∉ db.events) = [] :=
    List.filter_eq_nil_iff.2 fun e he => by simpa using hs e he
  rw [Act.stores, this, List.map_nil]

/-- What an append stores. -/
theorem stores_eq_single {db : Db} {r : Reads} {e : Event}
    (he : (a.perform db).events = (EventStore.cleanup r db).events ++ [e])
    (hnew : e ∉ db.events) : a.stores db = [(e, a.key)] := by
  have hold : (EventStore.cleanup r db).events.filter (· ∉ db.events) = [] :=
    List.filter_eq_nil_iff.2 fun e he => by simpa using cleanup_subset he
  rw [Act.stores, he, List.filter_append, hold, List.nil_append,
    List.filter_cons_of_pos (by simpa using hnew), List.filter_nil, List.map_singleton]

theorem clocked_le {t t' : Time} (hc : a.clocked t t') : t ≤ t' := by
  cases a with
  | snapshot => exact hc.1.trans (hc.2.1.trans (hc.2.2.1.trans hc.2.2.2))
  | append | acceptInput =>
    exact hc.1.trans (hc.2.1.trans (hc.2.2.1.trans (hc.2.2.2.1.trans hc.2.2.2.2)))
  | ack | finishInput | eraseOwner => exact hc

/-- `Change.cases` for an operation that may raise. -/
theorem perform_cases (a : Act) (db : Db) :
    (∀ e ∈ (a.perform db).events, e ∈ db.events) ∧ (∀ o, (a.perform db).seq o = db.seq o) ∧
        (a.perform db).keys = db.keys ∨
      ∃ env owner message key size r t ttl, a = .append env owner message key size r t ∧
        positiveLimit env "COMPANION_EVENT_TTL" 86400 = .ok ttl ∧
        (∀ k, key = some k → Records.find EventKey.id (owner, k) db.keys = none) ∧
        (∀ o, (a.perform db).seq o = if o = owner then db.seq o + 1 else db.seq o) ∧
        (a.perform db).events = (EventStore.cleanup r db).events ++
          [⟨owner, db.seq owner + 1, message, size, t + ttl⟩] ∧
        (a.perform db).keys = db.keys ++
          (key.map fun k => ⟨owner, k, message.content, db.seq owner + 1⟩).toList := by
  rcases a.perform_cases db with ⟨-, heq⟩ | hchange
  · rw [heq]
    exact .inl ⟨fun e he => he, fun o => rfl, rfl⟩
  · exact hchange.cases

theorem Kept.step (hk : h.Kept ttl) (hst : (lts ttl).step h a h') : h'.Kept ttl := by
  obtain ⟨t', hc, hkeeps, rfl⟩ := hst
  have hnow := clocked_le hc
  rcases perform_cases a h.db with ⟨hev, hseq, hkeys⟩ |
    ⟨env, owner, message, key, size, r, t, n, rfl, httl, hnew, hseq, hev, hkeys⟩
  · have hlog : (h.after a t').log = h.log := by
      show h.log ++ a.stores h.db = h.log
      rw [stores_eq_nil hev, List.append_nil]
    refine ⟨fun e he => ?_, fun e he => ?_, fun e he e' he' => ?_, fun x hx => ?_,
      fun x hx k hxk => ?_, ?_⟩
    · show 0 < e.seq ∧ e.seq ≤ (a.perform h.db).seq e.owner
      rw [hseq]
      exact hk.numbered e (hev e he)
    · exact (hk.expires e (hev e he)).trans (Nat.add_le_add_right hnow ttl)
    · exact hk.ordered e (hev e he) e' (hev e' he')
    · show x.1.seq ≤ (a.perform h.db).seq x.1.owner
      rw [hseq]
      exact hk.logged x (hlog ▸ hx)
    · show ∃ row, Records.find EventKey.id (x.1.owner, k) (a.perform h.db).keys = some row ∧ _
      rw [hkeys]
      exact hk.keyed x (hlog ▸ hx) k hxk
    · refine ⟨?_, ?_⟩
      · rw [hlog]; exact hk.once.numbers
      · rw [hlog]; exact hk.once.keys
  · obtain rfl : n = ttl := hkeeps n httl
    have ht : h.now ≤ t ∧ t ≤ t' :=
      ⟨hc.1.trans (hc.2.1.trans (hc.2.2.1.trans hc.2.2.2.1)), hc.2.2.2.2⟩
    have hfresh : ∀ e ∈ h.db.events, e.owner = owner → e.seq ≤ h.db.seq owner := fun e he ho =>
      ho ▸ (hk.numbered e he).2
    have hlog : (h.after (.append env owner message key size r t) t').log =
        h.log ++ [(⟨owner, h.db.seq owner + 1, message, size, t + n⟩, key)] := by
      show h.log ++ Act.stores h.db _ = _
      rw [stores_eq_single hev fun hmem =>
        absurd (hfresh _ hmem rfl) (Nat.not_succ_le_self _)]
      rfl
    have hmem : ∀ e ∈ ((Act.append env owner message key size r t).perform h.db).events,
        e ∈ h.db.events ∨ e = ⟨owner, h.db.seq owner + 1, message, size, t + n⟩ := fun e he => by
      rw [hev, List.mem_append, List.mem_singleton] at he
      exact he.imp_left cleanup_subset
    have hle : ∀ o, h.db.seq o ≤ ((Act.append env owner message key size r t).perform h.db).seq o :=
      fun o => by
        rw [hseq]
        split_ifs <;> omega
    refine ⟨fun e he => ?_, fun e he => ?_, fun e he e' he' ho hee => ?_, fun x hx => ?_,
      fun x hx k hxk => ?_, ?_⟩
    · rcases hmem e he with he | rfl
      · exact ⟨(hk.numbered e he).1, (hk.numbered e he).2.trans (hle _)⟩
      · refine ⟨Nat.succ_pos _, ?_⟩
        show _ ≤ ((Act.append env owner message key size r t).perform h.db).seq owner
        rw [hseq, if_pos rfl]
    · show e.expires ≤ t' + n
      rcases hmem e he with he | rfl
      · exact (hk.expires e he).trans (Nat.add_le_add_right hnow n)
      · exact Nat.add_le_add_right ht.2 n
    · rcases hmem e he with he | rfl
      · rcases hmem e' he' with he' | rfl
        · exact hk.ordered e he e' he' ho hee
        · exact (hk.expires e he).trans (Nat.add_le_add_right ht.1 n)
      · rcases hmem e' he' with he' | rfl
        · exact absurd (hee.trans (hfresh e' he' ho.symm)) (Nat.not_succ_le_self _)
        · exact le_rfl
    · rw [hlog, List.mem_append, List.mem_singleton] at hx
      rcases hx with hx | rfl
      · exact (hk.logged x hx).trans (hle _)
      · show _ ≤ ((Act.append env owner message key size r t).perform h.db).seq owner
        rw [hseq, if_pos rfl]
    · show ∃ row, Records.find EventKey.id (x.1.owner, k)
        ((Act.append env owner message key size r t).perform h.db).keys = some row ∧ _
      rw [hkeys]
      rw [hlog, List.mem_append, List.mem_singleton] at hx
      rcases hx with hx | rfl
      · obtain ⟨row, hrow, hfp⟩ := hk.keyed x hx k hxk
        exact ⟨row, Records.find_append_of_some hrow, hfp⟩
      · cases hxk
        refine ⟨⟨owner, k, message.content, h.db.seq owner + 1⟩, ?_, rfl⟩
        rw [Records.find_append, hnew k rfl, Option.none_or]
        simp [Records.find, EventKey.id]
    · refine ⟨?_, ?_⟩
      · rw [hlog, List.map_append, List.map_singleton]
        refine List.Nodup.append hk.once.numbers (List.nodup_singleton _) ?_
        rw [List.disjoint_singleton]
        intro hmem
        obtain ⟨x, hx, hxe⟩ := List.mem_map.1 hmem
        obtain ⟨ho, hs⟩ := Prod.mk.inj hxe
        have := hk.logged x hx
        rw [ho, hs] at this
        exact absurd this (Nat.not_succ_le_self _)
      · rw [hlog, List.filterMap_append]
        cases key with
        | none => simpa using hk.once.keys
        | some k =>
          refine List.Nodup.append hk.once.keys (List.nodup_singleton _) ?_
          show List.Disjoint _ [(owner, k)]
          rw [List.disjoint_singleton]
          intro hmem
          obtain ⟨x, hx, hxe⟩ := List.mem_filterMap.1 hmem
          obtain ⟨k', hk', hp⟩ := Option.map_eq_some_iff.1 hxe
          obtain ⟨ho, rfl⟩ := Prod.mk.inj hp
          obtain ⟨row, hrow, -⟩ := hk.keyed x hx k' hk'
          rw [ho, hnew k' rfl] at hrow
          cases hrow

/-- What a step stores: nothing, or one event with the next number of its owner. -/
theorem Kept.stores (hk : h.Kept ttl) (hst : (lts ttl).step h a h') :
    (h'.log = h.log ∧ h'.db.keys = h.db.keys) ∨
      ∃ env owner message key size r t e, a = .append env owner message key size r t ∧
        e.owner = owner ∧ h.db.seq owner < e.seq ∧
        (∀ k, key = some k → Records.find EventKey.id (owner, k) h.db.keys = none) ∧
        h'.log = h.log ++ [(e, key)] ∧
        h'.db.keys = h.db.keys ++
          (key.map fun k => ⟨owner, k, message.content, h.db.seq owner + 1⟩).toList := by
  obtain ⟨t', -, -, rfl⟩ := hst
  rcases perform_cases a h.db with ⟨hev, -, hkeys⟩ |
    ⟨env, owner, message, key, size, r, t, n, rfl, -, hnew, -, hev, hkeys⟩
  · refine .inl ⟨?_, hkeys⟩
    show h.log ++ a.stores h.db = h.log
    rw [stores_eq_nil hev, List.append_nil]
  · refine .inr ⟨env, owner, message, key, size, r, t,
      ⟨owner, h.db.seq owner + 1, message, size, t + n⟩, rfl, rfl, Nat.lt_succ_self _, hnew, ?_,
      hkeys⟩
    show h.log ++ Act.stores h.db _ = _
    rw [stores_eq_single hev fun hmem =>
      absurd (hk.numbered _ hmem).2 (Nat.not_succ_le_self _)]
    rfl

/-- Every durable key that is recorded was given to an event. -/
def Listed (h : Host) : Prop :=
  ∀ row ∈ h.db.keys, ∃ x ∈ h.log, x.1.owner = row.owner ∧ x.2 = some row.key

theorem Initial.listed (hi : h.Initial) : h.Listed := by
  intro row hrow
  rw [hi.db] at hrow
  cases hrow

theorem Listed.step (hl : h.Listed) (hk : h.Kept ttl) (hst : (lts ttl).step h a h') :
    h'.Listed := by
  intro row hrow
  rcases hk.stores hst with ⟨hlog, hkeys⟩ | ⟨_, owner, _, key, _, _, _, e, -, ho, -, -, hlog, hkeys⟩
  · rw [hlog]
    exact hl row (hkeys ▸ hrow)
  · rw [hlog]
    rw [hkeys, List.mem_append] at hrow
    rcases hrow with hrow | hrow
    · obtain ⟨x, hx, hxr⟩ := hl row hrow
      exact ⟨x, List.mem_append_left _ hx, hxr⟩
    · cases key with
      | none => cases hrow
      | some k =>
        cases List.mem_singleton.1 hrow
        exact ⟨(e, some k), List.mem_append_right _ (List.mem_singleton_self _), ho, rfl⟩

/-- **In every run** the numbers and the keys are given once. -/
theorem kept (hr : (lts ttl).Reachable Initial h) : h.Kept ttl :=
  hr.invariant (fun _ hi => hi.kept) fun _ _ _ hk hst => hk.step hst

/-! ### The window of an owner -/

theorem eventsOf_append {db : Db} {events : List Event} {e : Event} {o : Owner}
    (he : db.events = events ++ [e]) : db.eventsOf o =
      (events.filter fun e => e.owner = o) ++ if e.owner = o then [e] else [] := by
  rw [Db.eventsOf, he, List.filter_append, List.filter_singleton]
  simp only [Bool.cond_decide]

/-- A `cleanup` moves the start of the window, if no event expires between its clock values. -/
theorem cleanup_window {r : Reads} {o : Owner} (hk : h.Kept ttl) (hg : h.Gapless)
    (hle : r.floors ≤ r.events)
    (htog : ∀ e ∈ h.db.events, ¬ (r.floors < e.expires ∧ e.expires ≤ r.events)) :
    Window Event.seq ((EventStore.cleanup r h.db).floor o) (h.db.seq o)
      ((EventStore.cleanup r h.db).eventsOf o) := by
  have hw := hg o
  have hlast : EventStore.lastExpired o r.floors h.db.events =
      Window.last Event.seq (fun e => decide (e.expires ≤ r.floors)) (h.db.eventsOf o) := by
    rw [EventStore.lastExpired, Window.last, Db.eventsOf, List.filter_filter]
    simp only [Bool.and_comm]
  have hevents : (EventStore.cleanup r h.db).eventsOf o =
      (h.db.eventsOf o).filter fun e => !decide (e.expires ≤ r.floors) := by
    rw [Db.eventsOf, EventStore.cleanup, List.filter_comm]
    refine List.filter_congr fun e he => ?_
    have hmem : e ∈ h.db.events := (List.mem_filter.1 he).1
    rw [← decide_not, decide_eq_decide, not_le]
    exact ⟨hle.trans_lt, fun hlt => lt_of_not_ge fun hge => htog e hmem ⟨hlt, hge⟩⟩
  rw [hevents, cleanup_floor]
  split_ifs with hs
  · rw [hlast]
    refine hw.expire fun e he e' he' hee hp => ?_
    have ho : e.owner = o := by simpa using (List.mem_filter.1 he).2
    have ho' : e'.owner = o := by simpa using (List.mem_filter.1 he').2
    have := hk.ordered e (List.mem_filter.1 he).1 e' (List.mem_filter.1 he').1
      (ho.trans ho'.symm) hee
    simp only [decide_eq_true_eq] at hp ⊢
    exact this.trans hp
  · have hnone := Option.not_isSome_iff_eq_none.1 hs
    have hseq : h.db.seq o = 0 := by rw [Db.seq, hnone]; rfl
    have hfloor : h.db.floor o = 0 := by rw [Db.floor, hnone]; rfl
    rw [hseq, hfloor] at hw
    rw [hseq, hw.eq_nil, List.filter_nil]
    exact Window.nil 0

/-- An acknowledgement moves the start of the window of the owner. -/
theorem acked_window {db db' : Db} {owner o : Owner} {n : ℕ}
    (hw : Window Event.seq (db.floor o) (db.seq o) (db.eventsOf o)) (hn : n ≤ db.seq owner)
    (hseq : ∀ o, db'.seq o = db.seq o)
    (hfloor : ∀ o, db'.floor o = if o = owner then max (db.floor o) n else db.floor o)
    (he : db'.events = db.events.filter fun e => !(e.owner = owner && e.seq ≤ n)) :
    Window Event.seq (db'.floor o) (db'.seq o) (db'.eventsOf o) := by
  rw [hfloor, hseq, Db.eventsOf, he, List.filter_comm]
  by_cases ho : o = owner
  · subst ho
    rw [if_pos rfl]
    refine hw.drop hn fun e he' => ?_
    have ho' : e.owner = o := by simpa using (List.mem_filter.1 he').2
    simp [ho']
  · rw [if_neg ho]
    refine (List.filter_eq_self.2 fun e he' => ?_) ▸ hw
    have ho' : e.owner = o := by simpa using (List.mem_filter.1 he').2
    simp [ho', ho]

theorem Gapless.step (hk : h.Kept ttl) (hg : h.Gapless) (hst : (lts ttl).step h a h')
    (htog : a.Together h.db) : h'.Gapless := by
  obtain ⟨t', hc, hkeeps, rfl⟩ := hst
  intro o
  show Window Event.seq ((a.perform h.db).floor o) ((a.perform h.db).seq o)
    ((a.perform h.db).eventsOf o)
  have hw := hg o
  have hreads : ∀ r, a.reads = some r → r.floors ≤ r.events := fun r hr => by
    cases a with
    | snapshot => cases hr; exact hc.2.1
    | append | acceptInput => cases hr; exact hc.2.1
    | ack | finishInput | eraseOwner => cases hr
  rcases a.perform_cases h.db with ⟨-, heq⟩ | hchange
  · rw [heq]
    exact hw
  · cases hchange with
    | inputs hs he hk' =>
      rw [floor_of_sessions hs, seq_of_sessions hs, Db.eventsOf, he]
      exact hw
    | cleaned r hr hs he hk' =>
      rw [floor_of_sessions hs, seq_of_sessions hs, cleanup_seq, Db.eventsOf, he]
      exact cleanup_window hk hg (hreads r hr) (htog r hr)
    | stored env owner message key size r t n ha httl hnew hseq hfloor he hk' =>
      subst ha
      have hclean := cleanup_window (o := o) hk hg (hreads r rfl) (htog r rfl)
      rw [hfloor, hseq, eventsOf_append he]
      by_cases ho : o = owner
      · subst ho
        rw [if_pos rfl, if_pos rfl]
        exact hclean.snoc rfl
      · rw [if_neg ho, if_neg (Ne.symm ho), List.append_nil]
        exact hclean
    | acked owner n hn hseq hfloor he hk' => exact acked_window hw hn hseq hfloor he
    | erased owner hseq hfloor he hk' =>
      rw [hfloor, hseq, Db.eventsOf, he, List.filter_comm]
      by_cases ho : o = owner
      · subst ho
        have hnil : (h.db.eventsOf o).filter (fun e => e.owner ≠ o) = [] :=
          List.filter_eq_nil_iff.2 fun e he' => by
            simpa using (List.mem_filter.1 he').2
        rw [if_pos rfl]
        show Window _ _ _ ((h.db.eventsOf o).filter fun e => e.owner ≠ o)
        rw [hnil]
        exact Window.nil _
      · rw [if_neg ho]
        refine (List.filter_eq_self.2 fun e he' => ?_) ▸ hw
        have ho' : e.owner = o := by simpa using (List.mem_filter.1 he').2
        simp [ho', ho]

/-! ### The history -/

/-- An append under a durable key that was given stores nothing, and raises if its content differs
from the content of the event. -/
theorem Kept.retry (hk : h.Kept ttl) {x : Event × Option String} (hx : x ∈ h.log) {k : String}
    (hxk : x.2 = some k) {env : Environment} {message : Message} {size : ℕ} {r : Reads} {t : Time}
    (ha : a = .append env x.1.owner message (some k) size r t) :
    a.stores h.db = [] ∧ (∀ o, (a.perform h.db).seq o = h.db.seq o) ∧
      (message.content ≠ x.1.message.content → ∃ e, a.attempt h.db = .error e) := by
  obtain ⟨row, hrow, hfp⟩ := hk.keyed x hx k hxk
  have hquiet : (∀ e ∈ (a.perform h.db).events, e ∈ h.db.events) ∧
      ∀ o, (a.perform h.db).seq o = h.db.seq o := by
    rcases perform_cases a h.db with ⟨hev, hseq, -⟩ |
      ⟨_, _, _, key, _, _, _, _, ha', -, hnew, -⟩
    · exact ⟨hev, hseq⟩
    · cases ha.symm.trans ha'
      rw [hnew k rfl] at hrow
      cases hrow
  refine ⟨stores_eq_nil hquiet.1, hquiet.2, fun hne => ?_⟩
  subst ha
  cases hattempt : (Act.append env x.1.owner message (some k) size r t).attempt h.db with
  | error e => exact ⟨e, rfl⟩
  | ok db' =>
    obtain ⟨out, hok⟩ := outcome_eq_ok.1 hattempt
    simp only [EventStore.append, bind_eq_ok, ensure_eq_ok] at hok
    obtain ⟨-, -, -, -, hok⟩ := hok
    rw [cleanup_keys, hrow] at hok
    simp only [bind_eq_ok, ensure_eq_ok, decide_eq_true_eq] at hok
    obtain ⟨-, hsame, -⟩ := hok
    exact absurd (hsame.symm.trans hfp) hne

/-- **The history has no gap** in the runs in which no stored event expires between the two clock
values that a `cleanup` computes the floors and deletes the events with.  No number and no durable
key is given twice, and every step from there:

* decreases no number and no floor;
* changes nothing if it raises;
* stores nothing if it is an append under a durable key that was given, and raises if the content
  differs. -/
theorem history (hr : ((lts ttl).restrict fun h a => a.Together h.db).Reachable Initial h) :
    h.Gapless ∧ h.Once ∧ ∀ a h', (lts ttl).step h a h' →
      (∀ o, h.db.seq o ≤ h'.db.seq o ∧ h.db.floor o ≤ h'.db.floor o) ∧
      (∀ e, a.attempt h.db = .error e → h'.db = h.db ∧ h'.log = h.log) ∧
      ∀ x ∈ h.log, ∀ k, x.2 = some k → ∀ env message size r t,
        a = .append env x.1.owner message (some k) size r t →
          (h'.log = h.log ∧ ∀ o, h'.db.seq o = h.db.seq o) ∧
          (message.content ≠ x.1.message.content →
            (∃ e, a.attempt h.db = .error e) ∧ h'.db = h.db) := by
  have hinv := hr.invariant (I := fun h => h.Kept ttl ∧ h.Gapless)
    (fun h hi => ⟨hi.kept, fun o => by
      have hfloor : h.db.floor o = 0 := by rw [Db.floor, hi.db]; rfl
      have hev : h.db.eventsOf o = [] := by rw [Db.eventsOf, hi.db]; rfl
      rw [hfloor, hi.seq, hev]
      exact Window.nil 0⟩)
    fun _ _ _ hI hst => ⟨hI.1.step hst.1, hI.2.step hI.1 hst.1 hst.2⟩
  have hfail : ∀ {a e t}, a.attempt h.db = .error e →
      (h.after a t).db = h.db ∧ (h.after a t).log = h.log := fun {a e t} he => by
    have hdb : a.perform h.db = h.db := by rw [Act.perform, he, commit_error]
    refine ⟨hdb, ?_⟩
    show h.log ++ a.stores h.db = h.log
    rw [stores_eq_nil fun e he' => hdb ▸ he', List.append_nil]
  refine ⟨hinv.2, hinv.1.once, fun a h' hst => ?_⟩
  obtain ⟨t', hc, hkeeps, rfl⟩ := hst
  refine ⟨fun o => ?_, fun e he => hfail he, fun x hx k hxk env message size r t ha => ?_⟩
  · show h.db.seq o ≤ (a.perform h.db).seq o ∧ h.db.floor o ≤ (a.perform h.db).floor o
    rcases a.perform_cases h.db with ⟨-, heq⟩ | hchange
    · rw [heq]
      exact ⟨le_rfl, le_rfl⟩
    · exact ⟨hchange.seq_le o, hchange.floor_le (hinv.2 o).le⟩
  · subst ha
    obtain ⟨hstores, hseq, hdiffers⟩ := hinv.1.retry hx hxk rfl
    refine ⟨⟨?_, hseq⟩, fun hne => ?_⟩
    · show h.log ++ Act.stores h.db _ = h.log
      rw [hstores, List.append_nil]
    · obtain ⟨e, he⟩ := hdiffers hne
      exact ⟨⟨e, he⟩, (hfail he).1⟩

/-! ### A lost event -/

namespace Sample

/-- No event was stored. -/
def start : Host := ⟨.empty, 0, []⟩

/-- The environment without any limit. -/
def env : Environment := fun _ => none

/-- A chat message. -/
def message : Message := { content := { type := some "chat.delta" } }

/-- A durable key. -/
def key : String := "aaaaaaaaaaaaaaaaaaaaaaaaaaaaaaaaaaaaaaaaaaaaaaaaaaaaaaaaaaaaaaaa"

/-- Another one. -/
def next : String := "bbbbbbbbbbbbbbbbbbbbbbbbbbbbbbbbbbbbbbbbbbbbbbbbbbbbbbbbbbbbbbbb"

/-- The first event, which expires at `86400`. -/
def stored : Host :=
  start.after (.append env "owner" message (some key) 40 ⟨0, 0, 0⟩ 0) 0

/-- A snapshot whose `cleanup` reads the clock before and after the expiry. -/
def read : Host := stored.after (.snapshot "owner" ⟨86399, 86400, 86400⟩) 86400

/-- The first event is acknowledged, a second one is stored, and its key is sent again. -/
def retried : Host :=
  ((stored.after (.ack "owner" 1) 1).after
    (.append env "owner" message (some next) 40 ⟨10, 10, 10⟩ 10) 10).after
      (.append env "owner" message (some next) 40 ⟨20, 20, 20⟩ 20) 20

/-- A snapshot at the expiry of the second event. -/
def expired : Host := retried.after (.snapshot "owner" ⟨86410, 86410, 86410⟩) 86410

theorem start_initial : start.Initial := ⟨rfl, rfl⟩

/-- The TTL of the environment. -/
theorem env_keeps {owner : Owner} {m : Message} {k : Option String} {size : ℕ} {r : Reads}
    {t : Time} : (Act.append env owner m k size r t).keeps 86400 := fun n hn => by
  have hlimit : positiveLimit env "COMPANION_EVENT_TTL" 86400 = .ok 86400 := rfl
  rw [hlimit] at hn
  exact (Except.ok.inj hn).symm

theorem stored_step : (lts 86400).step start
    (.append env "owner" message (some key) 40 ⟨0, 0, 0⟩ 0) stored :=
  ⟨0, by simp [Act.clocked, start], env_keeps, rfl⟩

/-- No event is stored while a `cleanup` runs that reads one time only. -/
theorem together {db : Db} {a : Act} (h : ∀ r, a.reads = some r → r.floors = r.events) :
    a.Together db := fun r hr e _ he => by
  rw [h r hr] at he
  exact absurd he.1 (Nat.not_lt.2 he.2)

theorem retried_reachable :
    ((lts 86400).restrict fun h a => a.Together h.db).Reachable Initial retried := by
  have hstored : ((lts 86400).restrict fun h a => a.Together h.db).Reachable Initial stored :=
    (Lts.Reachable.of_init start_initial).step
      ⟨stored_step, together fun r hr => by cases hr; rfl⟩
  have hacked := hstored.step (l := Act.ack "owner" 1)
    ⟨⟨1, by simp [Act.clocked, stored, after], trivial, rfl⟩, together fun r hr => by cases hr⟩
  have hnext := hacked.step (l := Act.append env "owner" message (some next) 40 ⟨10, 10, 10⟩ 10)
    ⟨⟨10, by simp [Act.clocked, after], env_keeps, rfl⟩, together fun r hr => by cases hr; rfl⟩
  exact hnext.step (l := Act.append env "owner" message (some next) 40 ⟨20, 20, 20⟩ 20)
    ⟨⟨20, by simp [Act.clocked, after], env_keeps, rfl⟩, together fun r hr => by cases hr; rfl⟩

end Sample

/-- One event is acknowledged and the other one expires: no event is left, and no number is missing.
The key of the second one does not store it twice, and cannot be used for another content. -/
theorem history_sample : Sample.expired.Gapless ∧ Sample.expired.log.length = 2 ∧
    Sample.expired.db.floor "owner" = 2 ∧ Sample.expired.db.seq "owner" = 2 ∧
    Sample.expired.db.eventsOf "owner" = [] ∧
    ∃ e, (Act.append Sample.env "owner" { content := { type := some "chat.done" } }
      (some Sample.next) 40 ⟨86410, 86410, 86410⟩ 86410).attempt Sample.expired.db = .error e := by
  have hexpired : ((lts 86400).restrict fun h a => a.Together h.db).Reachable Initial
      Sample.expired :=
    Sample.retried_reachable.step (l := Act.snapshot "owner" ⟨86410, 86410, 86410⟩)
      ⟨⟨86410, by simp [Act.clocked, Sample.retried, after], trivial, rfl⟩,
        Sample.together fun r hr => by cases hr; rfl⟩
  obtain ⟨hgapless, -, hsteps⟩ := history hexpired
  have hlog : (⟨"owner", 2, Sample.message, 40, 86410⟩, some Sample.next) ∈ Sample.expired.log := by
    decide
  have hretry := (hsteps _ _ ⟨86410, by simp [Act.clocked, Sample.expired, after],
    Sample.env_keeps, rfl⟩).2.2 _ hlog Sample.next rfl Sample.env
      { content := { type := some "chat.done" } } 40 ⟨86410, 86410, 86410⟩ 86410 rfl
  exact ⟨hgapless, by decide, by decide, by decide, by decide, (hretry.2 (by decide)).1⟩

/-- The floor is computed before the expiry of the event and the event is deleted after it: the
session has the number `1` and the floor `0`, and no event. -/
theorem history_gap : ∃ h, (lts 86400).Reachable Initial h ∧ ¬ h.Gapless := by
  have hread : (lts 86400).step Sample.stored (.snapshot "owner" ⟨86399, 86400, 86400⟩)
      Sample.read := ⟨86400, by simp [Act.clocked, Sample.stored, after], trivial, rfl⟩
  refine ⟨Sample.read, ((Lts.Reachable.of_init Sample.start_initial).step
    Sample.stored_step).step hread, fun hg => ?_⟩
  have hw := (hg "owner").nums
  have hfloor : Sample.read.db.floor "owner" = 0 := by decide
  have hseq : Sample.read.db.seq "owner" = 1 := by decide
  have hev : Sample.read.db.eventsOf "owner" = [] := by decide
  rw [hfloor, hseq, hev] at hw
  exact absurd hw (by decide)

end Host

end Delivery

end PythonAI
