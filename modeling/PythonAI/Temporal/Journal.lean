import Mathlib.Data.List.Nodup
import PythonAI.Library.Lts
import PythonAI.Library.Slices
import PythonAI.Library.Window
import PythonAI.Temporal.Store

/-!
# The event journal of a submission

`append` adds a row to `temporal_events`; an `EventWriter` turns the events of a call of the model
into rows.  It collects the text of `model.delta` events and writes it in larger pieces, when there
is enough of it, when some time has passed, or before another event.

`append` is the function of `publication` with the numbers of the rows; `append_refines` connects it
with the list of events that the other modules keep for a submission.

* `Host.lts` : any number of writers, which take turns between any two of their appends;
* `stream` : what is said by a list of events, however the deltas are cut;
* `Host.journal_keeps` : **the journal keeps the stream of each writer**, its rows are numbered
  without a gap, and a key is given to one content.
-/

namespace PythonAI

open Library

namespace Temporal

namespace Journal

/-! ### Rows -/

/-- A JSON value. -/
inductive Value
  /-- a string -/
  | text (value : String)
  /-- any other value, by its canonical encoding -/
  | other (json : String)
  deriving DecidableEq, Repr

/-- A dictionary of JSON values: the names differ. -/
abbrev Fields := List (String × Value)

/-- The fields that `append` does not set, in the canonical order. -/
def Fields.own (payload : Fields) : Fields :=
  (payload.filter fun f => f.1 ≠ "task_id" && f.1 ≠ "temporal_event_id").mergeSort
    fun f g => f.1 ≤ g.1

/-- The text of a delta. -/
def Fields.text (payload : Fields) : Value := (payload.lookup "text").getD (.text "")

/-- The stored payload.  Its canonical encoding is represented by what it encodes, and a digest by
the value it is the digest of. -/
structure Frame where
  /-- the fields of the payload -/
  fields : Fields
  /-- `task_id` -/
  task : TaskId
  /-- `temporal_event_id` -/
  event : SubmissionId × String
  deriving DecidableEq, Repr

/-- `{**payload, 'task_id': …, 'temporal_event_id': …}`. -/
def frame (key : SubmissionId) (row : Submission) (eventKey : String) (payload : Fields) : Frame :=
  ⟨payload.own, row.task, (key, eventKey)⟩

/-- A row of `temporal_events`. -/
structure EventRow where
  /-- `submission_id` -/
  submission : SubmissionId
  seq : ℕ
  /-- `event_key` -/
  key : String
  kind : String
  payload : Frame
  delivery : Delivery
  deriving DecidableEq, Repr

/-- The rows of a submission, as they were inserted. -/
def rowsOf (key : SubmissionId) (rows : List EventRow) : List EventRow :=
  rows.filter fun r => r.submission = key

/-! ### `append` -/

/-- What an append finds outside the journal. -/
structure Site where
  /-- the limits and the owner -/
  env : Access := {}
  /-- the context of the caller -/
  caller : Caller
  /-- what its budget says -/
  budget : Except Error Unit := .ok ()
  /-- the other tables -/
  db : Db

/-- `append`. -/
def append (x : Site) (key : SubmissionId) (row : Submission) (eventKey kind : String)
    (payload : Fields) (terminal : Bool) (rows : List EventRow) :
    Except Error (List EventRow × Unit) := do
  ensure (x.caller.owner = row.owner) (.permission "Event is outside this owner scope")
  let stopped : Except Error Bool := if terminal then .ok false else x.caller.checkCancelled x.db
  let cancelled ← stopped
  ensure (!cancelled) (.interrupted "Event fenced by cancellation")
  let spent : Except Error Unit := if terminal then .ok () else x.budget
  spent
  ensure (eventKey ≠ "" && eventKey.length ≤ 256) (.value "Invalid event key")
  let data := frame key row eventKey payload
  ensure (x.env.fits && kind.length ≤ 64) (.capacity "Temporal event frame exceeds limit")
  x.env.ownerActive
  let fenced := Error.permission "Event fenced by task or execution"
  let now ← require (x.db.submissions key) fenced
  let task ← require (x.db.task row.taskKey) fenced
  ensure (now.fence = row.fence && eventStates terminal now.state &&
    (terminal || task.state ≠ .cancelled && task.state ≠ .uncertain)) fenced
  match (rowsOf key rows).find? (·.key = eventKey) with
  | some old =>
    ensure (old.kind = kind && old.payload = data) (.value "Event key reused with different content")
    pure (rows, ())
  | none =>
    ensure x.env.room (.capacity "Temporal event journal full")
    let seq := Window.last EventRow.seq (fun r => r.submission = key) rows + 1
    let target ← require row.scope.context.publication (.missing "delivery")
    pure (rows ++ [⟨key, seq, eventKey, kind, data, eventDelivery kind target⟩], ())

section

variable {x : Site} {key : SubmissionId} {row : Submission} {eventKey kind : String}
  {payload : Fields} {terminal : Bool} {rows rows' : List EventRow} {u : Unit}

/-- What an append does to the journal. -/
theorem append_ok (h : append x key row eventKey kind payload terminal rows = .ok (rows', u)) :
    (∃ r ∈ rowsOf key rows, r.key = eventKey ∧ r.kind = kind ∧
      r.payload = frame key row eventKey payload ∧ rows' = rows) ∨
    ((∀ r ∈ rowsOf key rows, r.key ≠ eventKey) ∧ ∃ delivery, rows' = rows ++
      [⟨key, Window.last EventRow.seq (fun r => r.submission = key) rows + 1, eventKey, kind,
        frame key row eventKey payload, delivery⟩]) := by
  simp only [append, bind_eq_ok, require_eq_ok, ensure_eq_ok] at h
  obtain ⟨-, -, -, -, -, -, -, -, -, -, -, -, -, -, -, -, -, -, -, -, h⟩ := h
  split at h
  next old hold =>
    simp only [bind_eq_ok, ensure_eq_ok, pure_eq_ok, Prod.mk.injEq, Bool.and_eq_true,
      decide_eq_true_eq] at h
    obtain ⟨-, ⟨hkind, hpayload⟩, rfl, -⟩ := h
    exact .inl ⟨old, List.mem_of_find?_eq_some hold, by simpa using List.find?_some hold, hkind,
      hpayload, rfl⟩
  next hnone =>
    simp only [bind_eq_ok, pure_eq_ok, Prod.mk.injEq] at h
    obtain ⟨-, -, target, -, rfl, -⟩ := h
    exact .inr ⟨fun r hr => by simpa using List.find?_eq_none.1 hnone r hr, _, rfl⟩

/-- A key that is in the journal: the append adds nothing, and the content is the stored one. -/
theorem append_again {r : EventRow} (hr : r ∈ rowsOf key rows) (hkey : r.key = eventKey)
    (hone : ∀ r' ∈ rowsOf key rows, r'.key = eventKey → r' = r)
    (h : append x key row eventKey kind payload terminal rows = .ok (rows', u)) :
    rows' = rows ∧ r.kind = kind ∧ r.payload = frame key row eventKey payload := by
  rcases append_ok h with ⟨r', hr', hkey', hkind, hpayload, rfl⟩ | ⟨hnew, -⟩
  · rw [← hone r' hr' hkey']
    exact ⟨rfl, hkind, hpayload⟩
  · exact absurd hkey (hnew r hr)

/-! ### The events that the other modules keep -/

/-- The events of a submission, with their payloads encoded by `text`. -/
def view (text : Frame → String) (rows : List EventRow) (key : SubmissionId) : List Event :=
  (rowsOf key rows).map fun r => ⟨r.key, r.kind, text r.payload, r.delivery⟩

/-- **`append` adds the event that the function of the store adds.** -/
theorem append_refines (text : Frame → String)
    (h : append x key row eventKey kind payload terminal rows = .ok (rows', u)) :
    Temporal.append x.env x.caller key row eventKey kind (text (frame key row eventKey payload))
        terminal x.budget { x.db with events := view text rows } =
      .ok ({ x.db with events := view text rows' }, ()) := by
  simp only [append, bind_eq_ok, require_eq_ok, ensure_eq_ok] at h
  obtain ⟨-, howner, cancelled, hcancelled, -, hnot, _, hspent, -, hkey, -, hfits, _, hactive, now,
    hnow, task, htask, -, hopen, h⟩ := h
  have hfind : (view text rows key).find? (·.key = eventKey) =
      ((rowsOf key rows).find? (·.key = eventKey)).map
        fun r => ⟨r.key, r.kind, text r.payload, r.delivery⟩ := by
    rw [view, List.find?_map]
    rfl
  simp only [Temporal.append, bind_eq_ok, require_eq_ok, ensure_eq_ok]
  refine ⟨(), howner, cancelled, hcancelled, (), hnot, (), hspent, (), hkey, (), hfits, (), hactive,
    now, hnow, task, htask, (), hopen, ?_⟩
  rw [hfind]
  split at h
  next old hold =>
    simp only [bind_eq_ok, ensure_eq_ok, pure_eq_ok, Prod.mk.injEq, Bool.and_eq_true,
      decide_eq_true_eq] at h
    obtain ⟨-, ⟨hkind, hpayload⟩, rfl, -⟩ := h
    simp [hold, hkind, hpayload]
  next hnone =>
    simp only [bind_eq_ok, pure_eq_ok, Prod.mk.injEq] at h
    obtain ⟨_, hroom, target, htarget, rfl, -⟩ := h
    simp only [hnone, Option.map_none, bind_eq_ok, pure_eq_ok]
    refine ⟨(), hroom, target, htarget, ?_⟩
    have hview : view text (rows ++ [⟨key, Window.last EventRow.seq (fun r => r.submission = key) rows
        + 1, eventKey, kind, frame key row eventKey payload, eventDelivery kind target⟩]) =
        Function.update (view text rows) key (view text rows key ++
          [⟨eventKey, kind, text (frame key row eventKey payload), eventDelivery kind target⟩]) := by
      funext k
      by_cases hk : k = key
      · subst hk
        simp [view, rowsOf, List.filter_append]
      · rw [Function.update_of_ne hk]
        simp [view, rowsOf, List.filter_append, Ne.symm hk]
    rw [hview]

end

/-! ### `EventWriter` -/

/-- What the running call of a writer has left to do. -/
inductive Pc
  /-- no call runs -/
  | idle
  /-- the slices of the text of a delta that are left -/
  | parts (rest : List String)
  /-- another event, which is written after a flush -/
  | event (kind : String) (payload : Fields)
  deriving DecidableEq, Repr

/-- An `EventWriter`. -/
structure Writer where
  /-- `row['id']` -/
  key : SubmissionId
  row : Submission
  /-- `prefix` -/
  pre : String
  index : ℕ := 0
  parts : List String := []
  size : ℕ := 0
  /-- `last`, an instant of `time.monotonic()` in nanoseconds -/
  last : ℕ
  /-- what its call has left to do -/
  pc : Pc := .idle

/-- `writer`: only where the submission is published. -/
def writer (key : SubmissionId) (row : Submission) (pre : String) (t : ℕ) : Option Writer :=
  if row.scope.context.publication.isSome then some { key := key, row := row, pre := pre, last := t }
  else none

namespace Writer

/-- `f'{prefix}:{index}'`. -/
def eventKey (w : Writer) (i : ℕ) : String := w.pre ++ ":" ++ Nat.repr i

/-- `write`, which ends at `t`. -/
def write (x : Site) (t : ℕ) (kind : String) (payload : Fields) (w : Writer)
    (rows : List EventRow) : Except Error (List EventRow × Writer) := do
  let (rows, _) ← append x w.key w.row (w.eventKey w.index) kind payload false rows
  pure (rows, { w with index := w.index + 1, last := t })

/-- `flush`. -/
def flush (x : Site) (t : ℕ) (w : Writer) (rows : List EventRow) :
    Except Error (List EventRow × Writer) :=
  if w.parts = [] then pure (rows, w)
  else
    let text := String.join w.parts
    { w with parts := [], size := 0 }.write x t "model.delta" [("text", .text text)] rows

/-- The body of the loop over the slices of a delta: the clock is read at `t`. -/
def part (x : Site) (t t' : ℕ) (part : String) (w : Writer) (rows : List EventRow) :
    Except Error (List EventRow × Writer) :=
  let w := { w with parts := w.parts ++ [part], size := w.size + part.length }
  if 2048 ≤ w.size || w.last + 100000000 ≤ t then w.flush x t' rows else pure (rows, w)

/-- `__call__` starts. -/
def call (kind : String) (payload : Fields) (w : Writer) : Except Error Writer :=
  if kind = "model.delta" then
    match payload.text with
    | .text value => pure { w with pc := .parts ((slices 2048 value.toList).map String.ofList) }
    | .other _ => .error (.value "Invalid model delta")
  else pure { w with pc := .event kind payload }

/-- The running call goes on, past at most one append. -/
def advance (x : Site) (t t' : ℕ) (w : Writer) (rows : List EventRow) :
    Except Error (List EventRow × Writer) :=
  match w.pc with
  | .idle => pure (rows, w)
  | .parts [] => pure (rows, { w with pc := .idle })
  | .parts (slice :: rest) => { w with pc := .parts rest }.part x t t' slice rows
  | .event kind payload =>
    if w.parts = [] then { w with pc := .idle }.write x t' kind payload rows
    else w.flush x t' rows

end Writer

/-- The journal and its writers, with the calls that were made of each writer. -/
structure Host where
  /-- `temporal_events` -/
  rows : List EventRow
  /-- the writers -/
  writers : ℕ → Option Writer
  /-- the calls that were made of the writers -/
  calls : ℕ → List (String × Fields)

/-- A step of a writer. -/
inductive Act
  /-- a writer is made at `t` -/
  | open (key : SubmissionId) (row : Submission) (pre : String) (t : ℕ)
  /-- a call starts -/
  | call (kind : String) (payload : Fields)
  /-- a call goes on -/
  | advance (x : Site) (t t' : ℕ)
  /-- `flush`, called on its own -/
  | flush (x : Site) (t : ℕ)

namespace Host

/-- The prefix is new for the submission. -/
def Free (h : Host) (key : SubmissionId) (pre : String) : Prop :=
  ∀ n w, h.writers n = some w → (w.key, w.pre) ≠ (key, pre)

/-- The state after a step that left the journal `rows` and the writer `w` under the number `n`. -/
def put (h : Host) (n : ℕ) (rows : List EventRow) (w : Writer) : Host :=
  { h with rows := rows, writers := Function.update h.writers n (some w) }

/-- The writers take turns, in any order; no append raises.  The steps of a writer that calls its
own functions follow each other: a call is made, and `flush` is called, when no call runs. -/
def lts : Lts Host (ℕ × Act) where
  step h l h' := match l.2 with
    | .open key row pre t => h.writers l.1 = none ∧ h.Free key pre ∧
        ∃ w, writer key row pre t = some w ∧ h' = h.put l.1 h.rows w
    | .call kind payload => ∃ w w', h.writers l.1 = some w ∧ w.pc = .idle ∧
        w.call kind payload = .ok w' ∧
        h' = { h.put l.1 h.rows w' with
          calls := Function.update h.calls l.1 (h.calls l.1 ++ [(kind, payload)]) }
    | .advance x t t' => ∃ w rows w', h.writers l.1 = some w ∧
        w.advance x t t' h.rows = .ok (rows, w') ∧ h' = h.put l.1 rows w'
    | .flush x t => ∃ w rows w', h.writers l.1 = some w ∧ w.pc = .idle ∧
        w.flush x t h.rows = .ok (rows, w') ∧ h' = h.put l.1 rows w'

/-- A new journal. -/
structure Initial (h : Host) : Prop where
  /-- no row -/
  rows : h.rows = []
  /-- no writer -/
  writers : ∀ n, h.writers n = none
  /-- no call -/
  calls : ∀ n, h.calls n = []

end Host

/-! ### Streams -/

/-- What a call says: the characters of a delta, or the event itself. -/
def say (kind : String) (payload : Fields) : List (Char ⊕ String × Fields) :=
  if kind = "model.delta" then
    match payload.text with
    | .text value => value.toList.map .inl
    | .other _ => []
  else [.inr (kind, payload.own)]

/-- What a list of calls says: the text between two other events is the concatenation of the deltas
between them. -/
def stream (calls : List (String × Fields)) : List (Char ⊕ String × Fields) :=
  calls.flatMap fun e => say e.1 e.2

/-- What a row says. -/
def EventRow.says (r : EventRow) : List (Char ⊕ String × Fields) :=
  if r.kind = "model.delta" then
    match r.payload.fields.text with
    | .text value => value.toList.map .inl
    | .other _ => []
  else [.inr (r.kind, r.payload.fields)]

namespace Writer

/-- The keys that the writer has given. -/
def keys (w : Writer) : List String := (List.range w.index).map w.eventKey

/-- The rows of a writer. -/
def rows (w : Writer) (rows : List EventRow) : List EventRow :=
  (rowsOf w.key rows).filter fun r => r.key ∈ w.keys

/-- What the writer has collected, and what its call has left to say. -/
def pending (w : Writer) : List (Char ⊕ String × Fields) :=
  (w.parts.flatMap String.toList).map .inl ++ match w.pc with
    | .idle => []
    | .parts rest => (rest.flatMap String.toList).map .inl
    | .event kind payload => [.inr (kind, payload.own)]

/-- The running call is not one of a delta. -/
def Plain (w : Writer) : Prop := ∀ kind payload, w.pc = .event kind payload → kind ≠ "model.delta"

section

variable {x : Site} {t t' : ℕ} {w w' : Writer} {rows rows' : List EventRow}

/-- What a writer does to the journal and to itself between two of its appends. -/
structure Moved (w : Writer) (rows : List EventRow) (w' : Writer) (rows' : List EventRow) :
    Prop where
  /-- it stays the same writer -/
  same : w'.key = w.key ∧ w'.row = w.row ∧ w'.pre = w.pre
  /-- the call it has begun is one it has begun before -/
  pc : w'.pc = w.pc ∨ w'.pc = .idle ∨ ∃ rest, w'.pc = .parts rest
  /-- it adds nothing, or the row of its next number -/
  rows : (rows' = rows ∧ w'.index = w.index ∧ w'.pending = w.pending) ∨
    ∃ r, rows' = rows ++ [r] ∧ r.submission = w.key ∧
      r.seq = Window.last EventRow.seq (fun r => r.submission = w.key) rows + 1 ∧
      r.key = w.eventKey w.index ∧ r.payload.task = w.row.task ∧
      r.payload.event = (w.key, r.key) ∧
      w'.index = w.index + 1 ∧ r.says ++ w'.pending = w.pending

theorem Moved.plain (hmoved : w.Moved rows w' rows') (hplain : w.Plain) : w'.Plain := by
  intro kind payload hpc
  rcases hmoved.pc with hsame | hidle | ⟨rest, hrest⟩
  · exact hplain kind payload (hsame ▸ hpc)
  · rw [hidle] at hpc
    cases hpc
  · rw [hrest] at hpc
    cases hpc

/-- The next key of the writer is new. -/
def Fresh (w : Writer) (rows : List EventRow) : Prop :=
  ∀ r ∈ rowsOf w.key rows, r.key ≠ w.eventKey w.index

theorem write_ok {kind : String} {payload : Fields} (hw : w.Fresh rows)
    (h : w.write x t kind payload rows = .ok (rows', w')) :
    w' = { w with index := w.index + 1, last := t } ∧ ∃ delivery, rows' = rows ++
      [⟨w.key, Window.last EventRow.seq (fun r => r.submission = w.key) rows + 1,
        w.eventKey w.index, kind, frame w.key w.row (w.eventKey w.index) payload, delivery⟩] := by
  simp only [write, bind_eq_ok, pure_eq_ok, Prod.mk.injEq] at h
  obtain ⟨⟨rows₁, u⟩, happend, rfl, rfl⟩ := h
  rcases append_ok happend with ⟨r, hr, hkey, -⟩ | ⟨-, hrow⟩
  · exact absurd hkey (hw r hr)
  · exact ⟨rfl, hrow⟩

theorem flush_ok (hw : w.Fresh rows) (h : w.flush x t rows = .ok (rows', w')) :
    w'.parts = [] ∧ w'.pc = w.pc ∧ w.Moved rows w' rows' := by
  unfold flush at h
  by_cases hparts : w.parts = []
  · rw [if_pos hparts, pure_eq_ok, Prod.mk.injEq] at h
    obtain ⟨rfl, rfl⟩ := h
    exact ⟨hparts, rfl, ⟨rfl, rfl, rfl⟩, .inl rfl, .inl ⟨rfl, rfl, rfl⟩⟩
  · rw [if_neg hparts] at h
    obtain ⟨rfl, delivery, rfl⟩ := write_ok (w := { w with parts := [], size := 0 }) hw h
    refine ⟨rfl, rfl, ⟨rfl, rfl, rfl⟩, .inl rfl, .inr ⟨_, rfl, rfl, rfl, rfl, rfl, rfl, rfl, ?_⟩⟩
    simp [ EventRow.says, frame, Fields.own, Fields.text, pending, String.toList_join]

theorem part_ok {slice : String} (hw : w.Fresh rows)
    (h : w.part x t t' slice rows = .ok (rows', w')) :
    w'.pc = w.pc ∧ Moved { w with parts := w.parts ++ [slice] } rows w' rows' := by
  simp only [part] at h
  split_ifs at h
  · obtain ⟨-, hpc, hmoved⟩ :=
      flush_ok (w := { w with parts := w.parts ++ [slice], size := w.size + slice.length }) hw h
    exact ⟨hpc, hmoved.same, hmoved.pc, hmoved.rows⟩
  · rw [pure_eq_ok, Prod.mk.injEq] at h
    obtain ⟨rfl, rfl⟩ := h
    exact ⟨rfl, ⟨rfl, rfl, rfl⟩, .inl rfl, .inl ⟨rfl, rfl, rfl⟩⟩

theorem advance_ok (hplain : w.Plain) (hw : w.Fresh rows)
    (h : w.advance x t t' rows = .ok (rows', w')) : w.Moved rows w' rows' := by
  unfold advance at h
  cases hpc : w.pc with
  | idle =>
    simp only [hpc, pure_eq_ok, Prod.mk.injEq] at h
    obtain ⟨rfl, rfl⟩ := h
    exact ⟨⟨rfl, rfl, rfl⟩, .inl rfl, .inl ⟨rfl, rfl, rfl⟩⟩
  | parts rest =>
    cases rest with
    | nil =>
      simp only [hpc, pure_eq_ok, Prod.mk.injEq] at h
      obtain ⟨rfl, rfl⟩ := h
      exact ⟨⟨rfl, rfl, rfl⟩, .inr (.inl rfl), .inl ⟨rfl, rfl, by simp [pending, hpc]⟩⟩
    | cons slice rest =>
      simp only [hpc] at h
      obtain ⟨hpc', hmoved⟩ := part_ok (w := { w with pc := .parts rest }) hw h
      have hpending : pending { w with pc := .parts rest, parts := w.parts ++ [slice] } =
          w.pending := by
        simp [pending, hpc]
      refine ⟨hmoved.same, .inr (.inr ⟨rest, hpc'⟩), ?_⟩
      rw [← hpending]
      exact hmoved.rows
  | event kind payload =>
    simp only [hpc] at h
    split_ifs at h with hparts
    · obtain ⟨rfl, delivery, rfl⟩ := write_ok (w := { w with pc := .idle }) hw h
      refine ⟨⟨rfl, rfl, rfl⟩, .inr (.inl rfl), .inr ⟨_, rfl, rfl, rfl, rfl, rfl, rfl, rfl, ?_⟩⟩
      simp [ EventRow.says, frame, pending, hpc, hparts, hplain kind payload hpc]
    · exact (flush_ok hw h).2.2

theorem colon_notMem_repr (i : ℕ) : ':' ∉ (Nat.repr i).toList := by
  intro h
  rw [Nat.toList_repr] at h
  have := Nat.isDigit_of_mem_toDigits (by decide) (by decide) h
  simp at this

theorem repr_inj {i j : ℕ} (h : (Nat.repr i).toList = (Nat.repr j).toList) : i = j := by
  rw [Nat.toList_repr, Nat.toList_repr] at h
  rw [← Nat.ofDigitChars_toDigits (n := i) (by decide : 1 < 10) (by decide), h,
    Nat.ofDigitChars_toDigits (by decide) (by decide)]

/-- The last colon of a list of characters splits it in one way. -/
theorem append_colon_inj {p p' d d' : List Char} (hd : ':' ∉ d) (hd' : ':' ∉ d')
    (h : p ++ ':' :: d = p' ++ ':' :: d') : p = p' ∧ d = d' := by
  rcases List.append_eq_append_iff.1 h with ⟨a, rfl, ha⟩ | ⟨a, rfl, ha⟩
  · cases a with
    | nil => simpa using ha
    | cons c a =>
      have hmem : ':' ∈ d := by
        rw [(List.cons.inj ha).2]
        simp
      exact absurd hmem hd
  · cases a with
    | nil => simpa using ha.symm
    | cons c a =>
      have hmem : ':' ∈ d' := by
        rw [(List.cons.inj ha).2]
        simp
      exact absurd hmem hd'

theorem eventKey_inj {i j : ℕ} (h : w.eventKey i = w'.eventKey j) : w.pre = w'.pre ∧ i = j := by
  have hlist := congrArg String.toList h
  simp only [eventKey, String.toList_append, List.append_assoc] at hlist
  obtain ⟨hpre, hnum⟩ := append_colon_inj (colon_notMem_repr i) (colon_notMem_repr j) hlist
  exact ⟨String.toList_inj.1 hpre, repr_inj hnum⟩

theorem mem_keys {k : String} : k ∈ w.keys ↔ ∃ i < w.index, w.eventKey i = k := by
  simp [keys]

end

end Writer

namespace Host

variable {h h' : Host} {n : ℕ} {w : Writer}

/-- The rows of a writer, and what it has to say, are what its calls say. -/
structure Kept (h : Host) (n : ℕ) (w : Writer) : Prop where
  /-- the keys, in the order of the rows -/
  keys : (w.rows h.rows).map EventRow.key = w.keys
  /-- what they say -/
  said : (w.rows h.rows).flatMap EventRow.says ++ w.pending = stream (h.calls n)
  /-- the running call -/
  plain : w.Plain

/-- What holds in every state. -/
structure Inv (h : Host) : Prop where
  /-- the rows of a submission are numbered from `1` -/
  numbered : ∀ key, ∃ n, Window EventRow.seq 0 n (rowsOf key h.rows)
  /-- a row is the row of a writer -/
  owned : ∀ r ∈ h.rows, ∃ n w, h.writers n = some w ∧ r.submission = w.key ∧ r.key ∈ w.keys ∧
    r.payload.task = w.row.task ∧ r.payload.event = (w.key, r.key)
  /-- writers of a submission have different prefixes -/
  apart : ∀ n n' w w', h.writers n = some w → h.writers n' = some w' →
    (w.key, w.pre) = (w'.key, w'.pre) → n = n'
  /-- the rows of a writer -/
  kept : ∀ n w, h.writers n = some w → h.Kept n w
  /-- no call is made of a writer that is not there -/
  silent : ∀ n, h.writers n = none → h.calls n = []

theorem Inv.fresh (hi : h.Inv) (hw : h.writers n = some w) : w.Fresh h.rows := by
  intro r hr hkey
  obtain ⟨hmem, hsub⟩ := List.mem_filter.1 hr
  obtain ⟨n', w', hw', hsub', hkeys, -⟩ := hi.owned r hmem
  obtain ⟨i, hlt, hi'⟩ := Writer.mem_keys.1 hkeys
  obtain ⟨hpre, rfl⟩ := Writer.eventKey_inj (hi'.trans hkey)
  have hsame : w'.key = w.key := by
    rw [← hsub']
    simpa using hsub
  obtain rfl := hi.apart n' n w' w hw' hw (by rw [hsame, hpre])
  rw [hw'] at hw
  obtain rfl := Option.some.inj hw
  omega

/-- A row of one writer is not a row of another. -/
theorem Inv.rows_append (hi : h.Inv) (hw : h.writers n = some w) {r : EventRow}
    (hsub : r.submission = w.key) (hkey : r.key = w.eventKey w.index) {n' : ℕ} {w' : Writer}
    (hw' : h.writers n' = some w') (hne : n' ≠ n) : w'.rows (h.rows ++ [r]) = w'.rows h.rows := by
  have hnot : r.key ∉ w'.keys ∨ r.submission ≠ w'.key := by
    by_contra hcon
    rw [not_or, not_not, not_not] at hcon
    obtain ⟨i, -, hi'⟩ := Writer.mem_keys.1 hcon.1
    obtain ⟨hpre, -⟩ := Writer.eventKey_inj (hi'.trans hkey)
    exact hne (hi.apart n' n w' w hw' hw (by rw [← hcon.2, hsub, hpre]))
  unfold Writer.rows rowsOf
  rw [List.filter_append, List.filter_append]
  rcases hnot with hnot | hnot <;> simp [hnot]

/-- The rows of a writer after its next row. -/
theorem Inv.rows_snoc (hi : h.Inv) (hw : h.writers n = some w) {w' : Writer} {r : EventRow}
    (hsame : w'.key = w.key ∧ w'.row = w.row ∧ w'.pre = w.pre) (hindex : w'.index = w.index + 1)
    (hsub : r.submission = w.key) (hkey : r.key = w.eventKey w.index) :
    w'.rows (h.rows ++ [r]) = w.rows h.rows ++ [r] ∧ w'.keys = w.keys ++ [r.key] := by
  have heventKey : w'.eventKey = w.eventKey := by
    funext i
    rw [Writer.eventKey, Writer.eventKey, hsame.2.2]
  have hkeys : w'.keys = w.keys ++ [r.key] := by
    rw [Writer.keys, Writer.keys, heventKey, hindex, List.range_succ, List.map_append, hkey]
    rfl
  refine ⟨?_, hkeys⟩
  unfold Writer.rows rowsOf
  rw [hsame.1, hkeys, List.filter_append, List.filter_append]
  have hold : ∀ r' ∈ h.rows.filter (·.submission = w.key), decide (r'.key ∈ w.keys ++ [r.key]) =
      decide (r'.key ∈ w.keys) := by
    intro r' hr'
    have hne := hi.fresh hw r' hr'
    rw [← hkey] at hne
    simp [hne]
  rw [List.filter_congr hold]
  simp [hsub]

theorem put_self {rows : List EventRow} {w : Writer} : (h.put n rows w).writers n = some w :=
  Function.update_self ..

theorem put_ne {rows : List EventRow} {w : Writer} {n' : ℕ} (hn : n' ≠ n) :
    (h.put n rows w).writers n' = h.writers n' :=
  Function.update_of_ne hn ..

/-- A number without a writer after a step had none before. -/
theorem put_none (rows : List EventRow) {w : Writer} {n' : ℕ}
    (hn : (h.put n rows w).writers n' = none) : n' ≠ n ∧ h.writers n' = none := by
  by_cases hne : n' = n
  · subst hne
    exact absurd (put_self.symm.trans hn) (Option.some_ne_none _)
  · exact ⟨hne, (put_ne hne).symm.trans hn⟩

/-- The writers after a step: the one that moved, and the others. -/
theorem put_writers (rows : List EventRow) {w w₁ : Writer} {n' : ℕ}
    (hw : (h.put n rows w).writers n' = some w₁) :
    (n' = n ∧ w₁ = w) ∨ (n' ≠ n ∧ h.writers n' = some w₁) := by
  by_cases hn : n' = n
  · subst hn
    exact .inl ⟨rfl, (Option.some.inj (put_self.symm.trans hw)).symm⟩
  · exact .inr ⟨hn, (put_ne hn).symm.trans hw⟩

/-- The rows of the other submissions do not change, and those of its own go on. -/
theorem Inv.numbered_snoc (hi : h.Inv) {r : EventRow}
    (hseq : r.seq = Window.last EventRow.seq (fun r' => r'.submission = r.submission) h.rows + 1)
    (key : SubmissionId) : ∃ n, Window EventRow.seq 0 n (rowsOf key (h.rows ++ [r])) := by
  obtain ⟨n, hwindow⟩ := hi.numbered key
  by_cases hkey : r.submission = key
  · subst hkey
    refine ⟨n + 1, ?_⟩
    have hrows : rowsOf r.submission (h.rows ++ [r]) = rowsOf r.submission h.rows ++ [r] := by
      simp [rowsOf]
    have hlast : Window.last EventRow.seq (fun r' => r'.submission = r.submission) h.rows = n := by
      refine le_antisymm ?_ ?_
      · rcases Window.last_mem EventRow.seq (fun r' => decide (r'.submission = r.submission)) h.rows
          with h0 | ⟨r', hr', hp, hn⟩
        · omega
        · rw [← hn]
          exact (hwindow.mem_nums (List.mem_filter.2 ⟨hr', hp⟩)).2
      · rcases Nat.eq_zero_or_pos n with rfl | hpos
        · exact Nat.zero_le _
        · obtain ⟨r', hr', hn⟩ := hwindow.exists_num hpos le_rfl
          obtain ⟨hmem, hp⟩ := List.mem_filter.1 hr'
          exact hn ▸ Window.le_last hmem hp
    rw [hrows]
    exact hwindow.snoc (by rw [hseq, hlast])
  · refine ⟨n, ?_⟩
    have hrows : rowsOf key (h.rows ++ [r]) = rowsOf key h.rows := by
      simp [rowsOf, hkey]
    rwa [hrows]

section

variable {w' : Writer} (rows' : List EventRow) (hi : h.Inv) (hw : h.writers n = some w)
  (hsame : w'.key = w.key ∧ w'.row = w.row ∧ w'.pre = w.pre)

include hi hw hsame

/-- A writer stays the same, so the prefixes stay different. -/
theorem Inv.apart_put : ∀ n₁ n₂ w₁ w₂, (h.put n rows' w').writers n₁ = some w₁ →
    (h.put n rows' w').writers n₂ = some w₂ → (w₁.key, w₁.pre) = (w₂.key, w₂.pre) → n₁ = n₂ := by
  have hid : (w'.key, w'.pre) = (w.key, w.pre) := by rw [hsame.1, hsame.2.2]
  intro n₁ n₂ w₁ w₂ h₁ h₂ heq
  rcases put_writers _ h₁ with ⟨rfl, rfl⟩ | ⟨-, h₁'⟩ <;>
    rcases put_writers _ h₂ with ⟨rfl, rfl⟩ | ⟨-, h₂'⟩
  · rfl
  · exact hi.apart _ _ _ _ hw h₂' (hid.symm.trans heq)
  · exact hi.apart _ _ _ _ h₁' hw (heq.trans hid)
  · exact hi.apart _ _ _ _ h₁' h₂' heq

theorem Inv.owned_put (hle : w.index ≤ w'.index) {r : EventRow} (hr : r ∈ h.rows) :
    ∃ n' w₁, (h.put n rows' w').writers n' = some w₁ ∧ r.submission = w₁.key ∧ r.key ∈ w₁.keys ∧
      r.payload.task = w₁.row.task ∧ r.payload.event = (w₁.key, r.key) := by
  obtain ⟨n', w₁, hw₁, hsub, hkey, htask, hevent⟩ := hi.owned r hr
  by_cases hn : n' = n
  · subst hn
    rw [hw] at hw₁
    obtain rfl := Option.some.inj hw₁
    refine ⟨n', w', put_self, hsub.trans hsame.1.symm, ?_, by rw [htask, hsame.2.1],
      by rw [hevent, hsame.1]⟩
    obtain ⟨i, hlt, hkey⟩ := Writer.mem_keys.1 hkey
    refine Writer.mem_keys.2 ⟨i, by omega, ?_⟩
    rw [← hkey, Writer.eventKey, Writer.eventKey, hsame.2.2]
  · exact ⟨n', w₁, (put_ne hn).trans hw₁, hsub, hkey, htask, hevent⟩

/-- A step that leaves the journal as it is. -/
theorem Inv.replace {calls : ℕ → List (String × Fields)} (hindex : w'.index = w.index)
    (hother : ∀ n' ≠ n, calls n' = h.calls n') (hplain : w'.Plain)
    (hsaid : (w.rows h.rows).flatMap EventRow.says ++ w'.pending = stream (calls n)) :
    Inv { h.put n h.rows w' with calls := calls } := by
  refine ⟨hi.numbered, fun r hr => hi.owned_put h.rows hw hsame hindex.ge hr,
    hi.apart_put h.rows hw hsame,
    fun n' w₁ hw₁ => ?_, fun n' hn' => ?_⟩
  · rcases put_writers h.rows hw₁ with ⟨rfl, rfl⟩ | ⟨hne, hw₁⟩
    · have hkeys : w₁.keys = w.keys := by
        simp only [Writer.keys, hindex]
        refine List.map_congr_left fun i _ => ?_
        rw [Writer.eventKey, Writer.eventKey, hsame.2.2]
      have hrows : w₁.rows h.rows = w.rows h.rows := by
        rw [Writer.rows, Writer.rows, hsame.1, hkeys]
      refine ⟨?_, ?_, hplain⟩
      · show (w₁.rows h.rows).map EventRow.key = _
        rw [hrows, hkeys, (hi.kept n' w hw).keys]
      · show (w₁.rows h.rows).flatMap EventRow.says ++ _ = stream (calls n')
        rw [hrows, hsaid]
    · have hkept := hi.kept n' w₁ hw₁
      refine ⟨hkept.keys, ?_, hkept.plain⟩
      show (w₁.rows h.rows).flatMap EventRow.says ++ _ = stream (calls n')
      rw [hkept.said, hother n' hne]
  · obtain ⟨hne, hnone⟩ := put_none h.rows hn'
    exact (hother n' hne).trans (hi.silent n' hnone)

end

/-- **The invariant is kept when a writer moves.** -/
theorem Inv.moved (hi : h.Inv) (hw : h.writers n = some w) {w' : Writer} {rows' : List EventRow}
    (hmoved : w.Moved h.rows w' rows') : (h.put n rows' w').Inv := by
  have hkept := hi.kept n w hw
  have hplain := hmoved.plain hkept.plain
  rcases hmoved.rows with ⟨rfl, hindex, hpending⟩ |
    ⟨r, rfl, hsub, hseq, hkey, htask, hevent, hindex, hpending⟩
  · exact hi.replace hw hmoved.same hindex (fun _ _ => rfl) hplain (hpending ▸ hkept.said)
  obtain ⟨hrows, hkeys⟩ := hi.rows_snoc hw hmoved.same hindex hsub hkey
  refine ⟨hi.numbered_snoc (hsub ▸ hseq), fun r' hr' => ?_, hi.apart_put _ hw hmoved.same,
    fun n' w₁ hw₁ => ?_, fun n' hn' => ?_⟩
  · rcases List.mem_append.1 hr' with hr' | hr'
    · exact hi.owned_put _ hw hmoved.same (by omega) hr'
    · obtain rfl := List.mem_singleton.1 hr'
      exact ⟨n, w', put_self, hsub.trans hmoved.same.1.symm, by simp [hkeys],
        by rw [htask, hmoved.same.2.1], by rw [hevent, hmoved.same.1]⟩
  · rcases put_writers _ hw₁ with ⟨rfl, rfl⟩ | ⟨hne, hw₁⟩
    · refine ⟨?_, ?_, hplain⟩
      · show (w₁.rows (h.rows ++ [r])).map EventRow.key = _
        rw [hrows, hkeys, List.map_append, hkept.keys]
        rfl
      · show (w₁.rows (h.rows ++ [r])).flatMap EventRow.says ++ _ = stream (h.calls n')
        rw [hrows, List.flatMap_append, List.flatMap_singleton, List.append_assoc, hpending,
          hkept.said]
    · have hkept₁ := hi.kept n' w₁ hw₁
      have hrows₁ := hi.rows_append hw hsub hkey hw₁ hne
      refine ⟨?_, ?_, hkept₁.plain⟩
      · show (w₁.rows (h.rows ++ [r])).map EventRow.key = _
        rw [hrows₁, hkept₁.keys]
      · show (w₁.rows (h.rows ++ [r])).flatMap EventRow.says ++ _ = stream (h.calls n')
        rw [hrows₁, hkept₁.said]
  · exact hi.silent n' (put_none _ hn').2

/-- A call that starts has its content left to say. -/
theorem call_ok {kind : String} {payload : Fields} {w' : Writer} (hidle : w.pc = .idle)
    (h : w.call kind payload = .ok w') : (∃ pc, w' = { w with pc := pc }) ∧ w'.Plain ∧
      w'.pending = w.pending ++ say kind payload := by
  unfold Writer.call at h
  split_ifs at h with hkind
  · split at h
    next value htext =>
      rw [pure_eq_ok] at h
      subst h
      refine ⟨⟨_, rfl⟩, fun k p hp => (by cases hp), ?_⟩
      have hslices : ((slices 2048 value.toList).map String.ofList).flatMap String.toList =
          value.toList := by
        rw [List.flatMap_map]
        simp only [String.toList_ofList]
        rw [List.flatMap_id', flatten_slices (by decide)]
      simp [Writer.pending, hidle, say, hkind, htext, hslices]
    next => cases h
  · rw [pure_eq_ok] at h
    subst h
    refine ⟨⟨_, rfl⟩, fun k p hp => ?_, ?_⟩
    · cases hp
      exact hkind
    · simp [Writer.pending, hidle, say, hkind]

/-- A new writer. -/
theorem Inv.opened (hi : h.Inv) {key : SubmissionId} {row : Submission} {pre : String} {t : ℕ}
    (hnone : h.writers n = none) (hfree : h.Free key pre) (hw : writer key row pre t = some w) :
    (h.put n h.rows w).Inv := by
  rw [writer] at hw
  split_ifs at hw
  obtain rfl := Option.some.inj hw
  have hne : ∀ {n' : ℕ} {w' : Writer}, h.writers n' = some w' → n' ≠ n := by
    rintro n' w' hw' rfl
    rw [hnone] at hw'
    cases hw'
  refine ⟨hi.numbered, fun r hr => ?_, fun n₁ n₂ w₁ w₂ h₁ h₂ heq => ?_, fun n' w₁ hw₁ => ?_,
    fun n' hn' => ?_⟩
  · obtain ⟨n', w', hw', hrow⟩ := hi.owned r hr
    exact ⟨n', w', (put_ne (hne hw')).trans hw', hrow⟩
  · rcases put_writers _ h₁ with ⟨rfl, rfl⟩ | ⟨-, h₁'⟩ <;>
      rcases put_writers _ h₂ with ⟨rfl, rfl⟩ | ⟨-, h₂'⟩
    · rfl
    · exact absurd heq.symm (hfree _ _ h₂')
    · exact absurd heq (hfree _ _ h₁')
    · exact hi.apart _ _ _ _ h₁' h₂' heq
  · rcases put_writers _ hw₁ with ⟨rfl, rfl⟩ | ⟨-, hw₁⟩
    · refine ⟨by simp [Writer.rows, Writer.keys], ?_, fun k p hp => (by cases hp)⟩
      show _ = stream (h.calls n')
      rw [hi.silent n' hnone]
      simp [Writer.rows, Writer.keys, Writer.pending, stream]
    · exact ⟨(hi.kept n' w₁ hw₁).keys, (hi.kept n' w₁ hw₁).said, (hi.kept n' w₁ hw₁).plain⟩
  · exact hi.silent n' (put_none _ hn').2

theorem Inv.step {l : ℕ × Act} (hi : h.Inv) (hst : lts.step h l h') : h'.Inv := by
  obtain ⟨n, a⟩ := l
  cases a with
  | «open» key row pre t =>
    obtain ⟨hnone, hfree, w, hw, rfl⟩ := hst
    exact hi.opened hnone hfree hw
  | call kind payload =>
    obtain ⟨w, w', hw, hidle, hcall, rfl⟩ := hst
    obtain ⟨⟨pc, hw'⟩, hplain, hpending⟩ := call_ok hidle hcall
    have hsame : w'.key = w.key ∧ w'.row = w.row ∧ w'.pre = w.pre := by
      rw [hw']
      exact ⟨rfl, rfl, rfl⟩
    refine hi.replace hw hsame (by rw [hw']) (fun n' hn' => Function.update_of_ne hn' ..) hplain ?_
    rw [Function.update_self, hpending, ← List.append_assoc, (hi.kept n w hw).said, stream, stream,
      List.flatMap_append, List.flatMap_singleton]
  | advance x t t' =>
    obtain ⟨w, rows, w', hw, hadvance, rfl⟩ := hst
    exact hi.moved hw (Writer.advance_ok (hi.kept n w hw).plain (hi.fresh hw) hadvance)
  | flush x t =>
    obtain ⟨w, rows, w', hw, -, hflush, rfl⟩ := hst
    exact hi.moved hw (Writer.flush_ok (hi.fresh hw) hflush).2.2

theorem inv (hr : lts.Reachable Initial h) : h.Inv := by
  refine hr.invariant (fun s hs => ⟨fun key => ⟨0, ?_⟩, ?_, ?_, ?_, fun n _ => hs.calls n⟩)
    fun s l s' hi hst => hi.step hst
  · rw [hs.rows]
    exact .nil 0
  · intro r hr
    rw [hs.rows] at hr
    cases hr
  · intro n n' w w' hw
    rw [hs.writers n] at hw
    cases hw
  · intro n w hw
    rw [hs.writers n] at hw
    cases hw

/-- The keys of a writer differ, so a submission has one row under a key. -/
theorem Inv.unique (hi : h.Inv) {key : SubmissionId} {r r' : EventRow}
    (hr : r ∈ rowsOf key h.rows) (hr' : r' ∈ rowsOf key h.rows) (hkey : r.key = r'.key) :
    r = r' := by
  obtain ⟨hmem, hsub⟩ := List.mem_filter.1 hr
  obtain ⟨hmem', hsub'⟩ := List.mem_filter.1 hr'
  simp only [decide_eq_true_eq] at hsub hsub'
  obtain ⟨n, w, hw, hown, hkeys, -⟩ := hi.owned r hmem
  obtain ⟨n', w', hw', hown', hkeys', -⟩ := hi.owned r' hmem'
  obtain ⟨i, -, hi₁⟩ := Writer.mem_keys.1 hkeys
  obtain ⟨j, -, hj₁⟩ := Writer.mem_keys.1 hkeys'
  obtain ⟨hpre, -⟩ := Writer.eventKey_inj ((hi₁.trans hkey).trans hj₁.symm)
  obtain rfl : n = n' :=
    hi.apart n n' w w' hw hw' (by rw [← hown, ← hown', hsub, hsub', hpre])
  obtain rfl := Option.some.inj (hw.symm.trans hw')
  have hnodup : ((w.rows h.rows).map EventRow.key).Nodup := by
    rw [(hi.kept n w hw).keys]
    exact List.Nodup.map (fun a b hab => (Writer.eventKey_inj hab).2) List.nodup_range
  have hrows : ∀ {r : EventRow}, r ∈ h.rows → r.submission = w.key → r.key ∈ w.keys →
      r ∈ w.rows h.rows := fun hm hs hk =>
    List.mem_filter.2 ⟨List.mem_filter.2 ⟨hm, decide_eq_true hs⟩, decide_eq_true hk⟩
  exact List.inj_on_of_nodup_map hnodup (hrows hmem hown hkeys) (hrows hmem' hown' hkeys') hkey

/-- **The journal keeps the stream of every writer.**  The rows of a submission are numbered from
`1` on, and each is the row of one writer.  The rows of a writer have its keys, in order, and after
a flush they say what its calls say.  An append under a key that is there adds nothing, and raises
if the content is another. -/
theorem journal_keeps (hr : lts.Reachable Initial h) :
    (∀ key, (rowsOf key h.rows).map EventRow.seq = List.range' 1 (rowsOf key h.rows).length) ∧
    (∀ r ∈ h.rows, ∃ n w, h.writers n = some w ∧ r ∈ w.rows h.rows ∧
      r.payload.task = w.row.task ∧ r.payload.event = (w.key, r.key)) ∧
    (∀ n w, h.writers n = some w → (w.rows h.rows).map EventRow.key = w.keys ∧
      (w.pc = .idle → w.parts = [] →
        (w.rows h.rows).flatMap EventRow.says = stream (h.calls n))) ∧
    (∀ n x t h', lts.step h (n, .flush x t) h' → ∃ w, h'.writers n = some w ∧ w.pc = .idle ∧
      w.parts = []) ∧
    ∀ x key row eventKey kind payload terminal, ∀ r ∈ rowsOf key h.rows, r.key = eventKey →
      (∀ rows' u, append x key row eventKey kind payload terminal h.rows = .ok (rows', u) →
        rows' = h.rows) ∧
      ((r.kind, r.payload) ≠ (kind, frame key row eventKey payload) →
        ∃ e, append x key row eventKey kind payload terminal h.rows = .error e) := by
  have hi := inv hr
  refine ⟨fun key => ?_, fun r hr => ?_, fun n w hw => ⟨(hi.kept n w hw).keys, fun hpc hparts => ?_⟩,
    ?_, fun x key row eventKey kind payload terminal r hr hkey => ?_⟩
  · obtain ⟨n, hwindow⟩ := hi.numbered key
    have hlen := congrArg List.length hwindow.nums
    rw [List.length_map, List.length_range'] at hlen
    rw [hwindow.nums, hlen]
  · obtain ⟨n, w, hw, hsub, hkey, hframe⟩ := hi.owned r hr
    exact ⟨n, w, hw, List.mem_filter.2 ⟨List.mem_filter.2 ⟨hr, decide_eq_true hsub⟩,
      decide_eq_true hkey⟩, hframe⟩
  · have hsaid := (hi.kept n w hw).said
    simpa [Writer.pending, hpc, hparts] using hsaid
  · rintro n x t h' ⟨w, rows, w', hw, hidle, hflush, rfl⟩
    obtain ⟨hparts, hpc, -⟩ := Writer.flush_ok (hi.fresh hw) hflush
    exact ⟨w', put_self, hpc.trans hidle, hparts⟩
  · have hagain : ∀ rows' u, append x key row eventKey kind payload terminal h.rows = .ok (rows', u) →
        rows' = h.rows ∧ r.kind = kind ∧ r.payload = frame key row eventKey payload :=
      fun rows' u h' => append_again hr hkey
        (fun r' hr' hkey' => hi.unique hr' hr (hkey'.trans hkey.symm)) h'
    refine ⟨fun rows' u h' => (hagain rows' u h').1, fun hne => ?_⟩
    cases happend : append x key row eventKey kind payload terminal h.rows with
    | error e => exact ⟨e, rfl⟩
    | ok y =>
      obtain ⟨-, hkind, hpayload⟩ := hagain y.1 y.2 happend
      exact absurd (by rw [hkind, hpayload]) hne

/-! ### A run -/

/-- A published submission that runs. -/
def published : Submission :=
  { owner := "ann", task := "t", scope := ⟨⟨"user", "hi", none, []⟩, ⟨"/w", some {}, ""⟩, "user"⟩
    input := [], address := "", space := "", queue := "", state := .running }

/-- Its task. -/
def publishedTask : TaskRow :=
  { goal := "", criteria := {}, state := .running, phase := .modelPending
    checkpoint := { messages := [] } }

/-- Where its events are appended. -/
def site : Site where
  caller := { owner := "ann", task := some "t", workspace := none, configured := "/w" }
  db := { Db.empty "" with
    submissions := Table.empty.set 0 published
    base := { TaskDb.empty with tasks := Table.empty.set ("ann", "t") publishedTask } }

variable {long : String}

/-- A text of the length `n`. -/
def textOf (n : ℕ) : String := String.ofList (List.replicate n 'a')

theorem length_textOf (n : ℕ) : (textOf n).length = n := by
  rw [textOf, String.length_ofList, List.length_replicate]

/-- The calls of two writers: the second one appends an event between the two slices of the first
one's delta, which is flushed. -/
def deltaActs (long : String) : List (ℕ × Act) :=
  [(0, .open 0 published "w" 0), (1, .open 0 published "v" 0),
    (0, .call "model.delta" [("text", .text (long ++ "b"))]), (0, .advance site 1 1),
    (1, .call "tool.start" []), (1, .advance site 2 2), (0, .advance site 3 3),
    (0, .advance site 4 4), (0, .flush site 5)]

/-- The first writer after `n` rows. -/
def deltaWriter (n : ℕ) (parts : List String) (size last : ℕ) (pc : Pc) : Writer :=
  { key := 0, row := published, pre := "w", index := n, parts := parts, size := size, last := last,
    pc := pc }

/-- The second writer after `n` rows. -/
def toolWriter (n last : ℕ) (pc : Pc) : Writer :=
  { key := 0, row := published, pre := "v", index := n, last := last, pc := pc }

/-- A row of the submission. -/
def rowOf (seq : ℕ) (key kind : String) (payload : Fields) : EventRow :=
  ⟨0, seq, key, kind, ⟨payload, "t", (0, key)⟩, .local⟩

/-- The row of the first slice. -/
def longRow (long : String) : EventRow := rowOf 1 "w:0" "model.delta" [("text", .text long)]

/-- The row of the second writer. -/
def toolRow : EventRow := rowOf 2 "v:0" "tool.start" []

/-- The row of the second slice. -/
def shortRow : EventRow := rowOf 3 "w:1" "model.delta" [("text", .text "b")]

/-- A new journal. -/
def new : Host := ⟨[], fun _ => none, fun _ => []⟩

theorem slices_long (hlong : long.length = 2048) :
    (slices 2048 (long ++ "b").toList).map String.ofList = [long, "b"] := by
  have hlength : long.toList.length = 2048 := String.length_toList.trans hlong
  rw [String.toList_append, slices_append (by decide) hlength, List.map_cons, String.ofList_toList]
  rfl

/-- An append under a new key. -/
theorem append_new {rows : List EventRow} {eventKey kind : String} {payload : Fields}
    (hkey : (eventKey ≠ "" && eventKey.length ≤ 256) = true) (hkind : kind.length ≤ 64)
    (hown : payload.own = payload) (hnew : (rowsOf 0 rows).find? (·.key = eventKey) = none) :
    append site 0 published eventKey kind payload false rows = .ok (rows ++
      [rowOf (Window.last EventRow.seq (fun r => r.submission = 0) rows + 1) eventKey kind payload],
        ()) := by
  simp only [append, frame, hown, hkey, hkind, hnew, decide_true, Bool.and_true]
  rfl

theorem own_text (text : String) : Fields.own [("text", .text text)] = [("text", .text text)] := by
  simp [Fields.own]

theorem advance_long (hlong : long.length = 2048) :
    (deltaWriter 0 [] 0 0 (.parts [long, "b"])).advance site 1 1 [] =
      .ok ([longRow long], deltaWriter 1 [] 0 1 (.parts ["b"])) := by
  have hsize : (2048 ≤ 0 + long.length) = True := eq_true (by omega)
  have hjoin : String.join [long] = long := by simp [String.join]
  have happend : append site 0 published "w:0" "model.delta" [("text", .text long)] false [] =
      .ok ([longRow long], ()) := append_new (by decide) (by decide) (own_text long) rfl
  show Writer.part site 1 1 long (deltaWriter 0 [] 0 0 (.parts ["b"])) [] = _
  simp only [Writer.part, deltaWriter, hsize, decide_true, Bool.true_or, if_true, Writer.flush,
    List.nil_append, List.cons_ne_nil, if_false, hjoin]
  show (do
    let (rows, _) ← append site 0 published "w:0" "model.delta" [("text", .text long)] false []
    pure (rows, deltaWriter 1 [] 0 1 (.parts ["b"]))) = _
  rw [happend]
  rfl

theorem advance_tool : (toolWriter 0 0 (.event "tool.start" [])).advance site 2 2 [longRow long] =
    .ok ([longRow long, toolRow], toolWriter 1 2 .idle) := by
  have happend : append site 0 published "v:0" "tool.start" [] false [longRow long] =
      .ok ([longRow long, toolRow], ()) := append_new (by decide) (by decide) (by simp [Fields.own]) rfl
  show (do
    let (rows, _) ← append site 0 published "v:0" "tool.start" [] false [longRow long]
    pure (rows, toolWriter 1 2 .idle)) = _
  rw [happend]
  rfl

theorem flush_short : (deltaWriter 1 ["b"] 1 1 .idle).flush site 5 [longRow long, toolRow] =
    .ok ([longRow long, toolRow, shortRow], deltaWriter 2 [] 0 5 .idle) := by
  have happend : append site 0 published "w:1" "model.delta" [("text", .text "b")] false
      [longRow long, toolRow] = .ok ([longRow long, toolRow, shortRow], ()) :=
    append_new (by decide) (by decide) (own_text "b") rfl
  show (do
    let (rows, _) ← append site 0 published "w:1" "model.delta" [("text", .text "b")] false
      [longRow long, toolRow]
    pure (rows, deltaWriter 2 [] 0 5 .idle)) = _
  rw [happend]
  rfl

theorem call_long (hlong : long.length = 2048) : (deltaWriter 0 [] 0 0 .idle).call "model.delta"
    [("text", .text (long ++ "b"))] = .ok (deltaWriter 0 [] 0 0 (.parts [long, "b"])) := by
  rw [← slices_long hlong]
  rfl

theorem delta_run (hlong : long.length = 2048) : ∃ h, lts.Run new (deltaActs long) h ∧
    h.rows = [longRow long, toolRow, shortRow] ∧
    h.writers 0 = some (deltaWriter 2 [] 0 5 .idle) ∧
    h.writers 1 = some (toolWriter 1 2 .idle) := by
  have hw : new.Free 0 "w" := fun n w hw => by cases hw
  have hv : (new.put 0 [] (deltaWriter 0 [] 0 0 .idle)).Free 0 "v" := by
    intro n w hw
    by_cases hn : n = 0
    · subst hn
      cases hw
      decide
    · have hnone : (new.put 0 [] (deltaWriter 0 [] 0 0 .idle)).writers n = none :=
        Function.update_of_ne hn ..
      rw [hnone] at hw
      cases hw
  exact ⟨_, .cons ⟨rfl, hw, deltaWriter 0 [] 0 0 .idle, rfl, rfl⟩
    (.cons ⟨rfl, hv, toolWriter 0 0 .idle, rfl, rfl⟩
    (.cons ⟨_, deltaWriter 0 [] 0 0 (.parts [long, "b"]), rfl, rfl, call_long hlong, rfl⟩
    (.cons ⟨_, [longRow long], deltaWriter 1 [] 0 1 (.parts ["b"]), rfl, advance_long hlong, rfl⟩
    (.cons ⟨_, toolWriter 0 0 (.event "tool.start" []), rfl, rfl, rfl, rfl⟩
    (.cons ⟨_, [longRow long, toolRow], toolWriter 1 2 .idle, rfl, advance_tool, rfl⟩
    (.cons ⟨_, [longRow long, toolRow], deltaWriter 1 ["b"] 1 1 (.parts []), rfl, rfl, rfl⟩
    (.cons ⟨_, [longRow long, toolRow], deltaWriter 1 ["b"] 1 1 .idle, rfl, rfl, rfl⟩
    (.cons ⟨_, [longRow long, toolRow, shortRow], deltaWriter 2 [] 0 5 .idle, rfl, rfl, flush_short, rfl⟩
    (.nil _))))))))), rfl, rfl, rfl⟩

/-- A delta of two slices, with the event of another writer between them. -/
theorem journal_keeps_sample : ∃ h : Host,
    h.rows = [longRow (textOf 2048), toolRow, shortRow] ∧
    ((deltaWriter 2 [] 0 5 .idle).rows h.rows).flatMap EventRow.says = stream (h.calls 0) ∧
    ((toolWriter 1 2 .idle).rows h.rows).flatMap EventRow.says = stream (h.calls 1) := by
  obtain ⟨h, hrun, hrows, hw, hv⟩ := delta_run (length_textOf 2048)
  have hr : lts.Reachable Initial h :=
    ⟨new, deltaActs (textOf 2048), ⟨rfl, fun _ => rfl, fun _ => rfl⟩, hrun⟩
  obtain ⟨-, -, hstream, -⟩ := journal_keeps hr
  exact ⟨h, hrows, (hstream 0 _ hw).2 rfl rfl, (hstream 1 _ hv).2 rfl rfl⟩

end Host

end Journal

end Temporal

end PythonAI
