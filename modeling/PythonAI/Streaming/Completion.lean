import Mathlib.Algebra.GroupWithZero.Nat
import Mathlib.Data.List.AList
import Mathlib.Data.List.Induction
import Mathlib.Data.List.Sort
import PythonAI.Errors
import PythonAI.Library.Txn

/-!
# A completion from its deltas

`streamed_completion` reads the chunks of a stream: the content of the message comes in parts, and
each tool call comes in fragments that carry its index, its id and parts of its name and of its
arguments.  `Assembled` says what has been collected when some choices have been read: for each
index, what its own fragments say, one after the other.

* `streamedCompletion_spec` : **every way of cutting a message gives the message back**, and a
  stream that does not end properly or has an incomplete call raises

A cancelled stream is closed by a thread, which shows here as a stream that fails.
-/

namespace PythonAI

open Library

namespace Streaming

/-- `ChoiceDeltaToolCallFunction`. -/
structure Function where
  name : Option String := none
  arguments : Option String := none
  deriving DecidableEq, Repr

/-- `ChoiceDeltaToolCall`: a fragment of the tool call with its index. -/
structure Fragment where
  index : ℤ
  id : Option String := none
  function : Option Function := none
  deriving DecidableEq, Repr

/-- A choice of a chunk, with its delta. -/
structure Choice where
  index : ℤ := 0
  /-- `delta.content` -/
  content : Option String := none
  /-- `delta.tool_calls` -/
  toolCalls : List Fragment := []
  finishReason : Option String := none
  deriving DecidableEq, Repr

/-- What the provider sends: the choices of each chunk, and the error that ends the iteration, if
any. -/
structure Stream where
  /-- the chunks -/
  chunks : List (List Choice)
  /-- what the iteration raises after them -/
  failure : Option Error := none

/-- A tool call, as far as it is known. -/
structure ToolCall where
  id : String := ""
  /-- `function.name` -/
  name : String := ""
  /-- `function.arguments` -/
  arguments : String := ""
  deriving DecidableEq, Repr

/-- `ChatCompletionMessage`. -/
structure Completion where
  content : Option String
  toolCalls : Option (List ToolCall)
  deriving DecidableEq, Repr

namespace Fragment

/-- `call.id or ""`. -/
def sent (f : Fragment) : String := f.id.getD ""

/-- `call.function.name or ""`, if there is a function. -/
def name (f : Fragment) : String := (f.function.bind Function.name).getD ""

/-- `call.function.arguments or ""`, if there is a function. -/
def arguments (f : Fragment) : String := (f.function.bind Function.arguments).getD ""

end Fragment

namespace Choice

/-- `delta.content or ""`. -/
def text (c : Choice) : String := c.content.getD ""

/-- The reason that `if choice.finish_reason` accepts. -/
def reason (c : Choice) : Option String := c.finishReason.filter (· ≠ "")

/-- What the choice adds to the size. -/
def size (c : Choice) : ℕ :=
  c.text.utf8ByteSize + (c.toolCalls.map (·.arguments.utf8ByteSize)).sum

end Choice

/-- The local variables of the loop. -/
structure Assembly where
  /-- `content`, which is also what has been emitted -/
  content : List String := []
  calls : AList fun _ : ℤ => ToolCall := ∅
  finish : Option String := none
  size : ℕ := 0

/-- 2 MiB. -/
def outputLimit : ℕ := 2 * 1024 * 1024

/-- A fragment is added to its call. -/
def ToolCall.extend (target : ToolCall) (call : Fragment) : Except Error ToolCall := do
  ensure (call.sent = "" || target.id = "" || target.id = call.sent)
    (.runtime "Streamed tool call ID changed")
  pure {
    id := if call.sent = "" then target.id else call.sent
    name := target.name ++ call.name
    arguments := target.arguments ++ call.arguments }

/-- The loop over `delta.tool_calls`. -/
def readCall (calls : AList fun _ : ℤ => ToolCall) (call : Fragment) :
    Except Error (AList fun _ : ℤ => ToolCall) := do
  let target ← ((calls.lookup call.index).getD {}).extend call
  pure (calls.insert call.index target)

/-- The loop over `chunk.choices`. -/
def readChoice (a : Assembly) (choice : Choice) : Except Error Assembly :=
  if choice.index ≠ 0 then pure a
  else do
    let calls ← choice.toolCalls.foldlM readCall a.calls
    let size := a.size + choice.size
    ensure (size ≤ outputLimit) (.runtime "Model stream exceeded 2 MiB output limit")
    pure {
      content := if choice.text = "" then a.content else a.content ++ [choice.text]
      calls := calls
      finish := choice.reason.or a.finish
      size := size }

/-- `InterruptedError`. -/
def streamCancelled : Error := .interrupted "Model stream cancelled"

/-- The loop over the stream; `cancelled i` is what `cancelled` returns the `i`-th time. -/
def readChunks (cancelled : ℕ → Bool) (failure : Option Error) :
    ℕ → List (List Choice) → Assembly → Except Error Assembly
  | i, [], a => do
    ensure failure.isNone (failure.getD streamCancelled)
    ensure (!cancelled i) streamCancelled
    pure a
  | i, chunk :: chunks, a => do
    ensure (!cancelled i) streamCancelled
    let a ← chunk.foldlM readChoice a
    readChunks cancelled failure (i + 1) chunks a

/-- `finish in {"stop", "tool_calls"}`. -/
def finished (finish : Option String) : Bool := finish = some "stop" || finish = some "tool_calls"

/-- `sorted(calls.items())`, without the indices. -/
def sortedCalls (calls : AList fun _ : ℤ => ToolCall) : List ToolCall :=
  (calls.entries.mergeSort fun x y => x.1 ≤ y.1).map (·.2)

/-- The message, after the loop. -/
def complete (a : Assembly) : Except Error Completion := do
  let reason := a.finish.getD "missing finish_reason"
  ensure (finished a.finish) (.runtime s!"Incomplete model stream ({reason})")
  let toolCalls := sortedCalls a.calls
  ensure (toolCalls.all fun call => call.id ≠ "" && call.name ≠ "")
    (.runtime "Incomplete streamed tool call")
  let content := String.join a.content
  pure {
    content := if content = "" then none else some content
    toolCalls := if toolCalls = [] then none else some toolCalls }

/-- `streamed_completion`: the message and the texts of the `model.delta` events.  `late` is what
`cancelled` returns in the handler of an exception. -/
def streamedCompletion (cancelled : ℕ → Bool) (late : Bool) (stream : Stream) :
    Except Error (Completion × List String) :=
  let result := do
    let a ← readChunks cancelled stream.failure 0 stream.chunks {}
    let completion ← complete a
    pure (completion, a.content)
  result.mapError fun e => if late then streamCancelled else e

/-! ### The fragments of one call -/

variable {f : Fragment} {fs gs : List Fragment} {k : ℤ} {calls calls' : AList fun _ : ℤ => ToolCall}

/-- The fragments of the call with index `k`. -/
def fragmentsAt (k : ℤ) (fs : List Fragment) : List Fragment := fs.filter (·.index = k)

/-- What the fragments of a call say, one after the other. -/
def gather (fs : List Fragment) : ToolCall where
  id := ((fs.map Fragment.sent).find? (· ≠ "")).getD ""
  name := String.join (fs.map Fragment.name)
  arguments := String.join (fs.map Fragment.arguments)

/-- The calls have been collected from the fragments. -/
def Collected (fs : List Fragment) (calls : AList fun _ : ℤ => ToolCall) : Prop :=
  ∀ k, calls.lookup k = if fragmentsAt k fs = [] then none else some (gather (fragmentsAt k fs))

/-- No call has two ids. -/
def Agree (fs : List Fragment) : Prop :=
  ∀ f ∈ fs, ∀ g ∈ fs, f.index = g.index → f.sent ≠ "" → g.sent ≠ "" → f.sent = g.sent

theorem fragmentsAt_append : fragmentsAt k (fs ++ gs) = fragmentsAt k fs ++ fragmentsAt k gs :=
  List.filter_append ..

theorem mem_fragmentsAt : f ∈ fragmentsAt k fs ↔ f ∈ fs ∧ f.index = k := by
  rw [fragmentsAt, List.mem_filter, decide_eq_true_iff]

/-- The id is one that was sent, if any was. -/
theorem gather_id (fs : List Fragment) : ((gather fs).id = "" ∧ ∀ f ∈ fs, f.sent = "") ∨
    ∃ f ∈ fs, f.sent ≠ "" ∧ (gather fs).id = f.sent := by
  simp only [gather]
  cases hid : (fs.map Fragment.sent).find? (· ≠ "") with
  | none =>
    refine .inl ⟨rfl, fun f hf => ?_⟩
    have h := List.find?_eq_none.1 hid f.sent (List.mem_map_of_mem hf)
    simpa using h
  | some i =>
    obtain ⟨f, hf, rfl⟩ := List.mem_map.1 (List.mem_of_find?_eq_some hid)
    have h := List.find?_some hid
    exact .inr ⟨f, hf, by simpa using h, rfl⟩

theorem gather_append (h : f.sent = "" ∨ (gather fs).id = "" ∨ (gather fs).id = f.sent) :
    gather (fs ++ [f]) = {
      id := if f.sent = "" then (gather fs).id else f.sent
      name := (gather fs).name ++ f.name
      arguments := (gather fs).arguments ++ f.arguments } := by
  have hid : (gather (fs ++ [f])).id = if f.sent = "" then (gather fs).id else f.sent := by
    simp only [gather] at h ⊢
    rw [List.map_append, List.find?_append]
    by_cases hf : f.sent = ""
    · simp [hf]
    · cases he : (fs.map Fragment.sent).find? (· ≠ "") with
      | none => simp [hf]
      | some i =>
        have hi : i ≠ "" := by simpa using List.find?_some he
        rw [he] at h
        rcases h with h | h | h
        · exact absurd h hf
        · exact absurd h hi
        · simpa [hf] using h
  rw [← hid]
  simp [gather, String.join_append, String.join_cons]

theorem extend_eq_ok {target t : ToolCall} : target.extend f = .ok t ↔
    (f.sent = "" ∨ target.id = "" ∨ target.id = f.sent) ∧ t = {
      id := if f.sent = "" then target.id else f.sent
      name := target.name ++ f.name
      arguments := target.arguments ++ f.arguments } := by
  simp only [ToolCall.extend, bind_eq_ok, ensure_eq_ok, Bool.or_eq_true, decide_eq_true_eq,
    or_assoc]
  constructor
  · rintro ⟨-, hid, ht⟩
    cases ht
    exact ⟨hid, rfl⟩
  · rintro ⟨hid, rfl⟩
    exact ⟨(), hid, rfl⟩

namespace Collected

theorem getD (h : Collected fs calls) : (calls.lookup k).getD {} = gather (fragmentsAt k fs) := by
  rw [h k]
  split_ifs with hnil
  · rw [hnil]
    rfl
  · rfl

theorem readCall_eq_ok (h : Collected fs calls) : readCall calls f = .ok calls' ↔
    (f.sent = "" ∨ (gather (fragmentsAt f.index fs)).id = "" ∨
      (gather (fragmentsAt f.index fs)).id = f.sent) ∧
    calls' = calls.insert f.index {
      id := if f.sent = "" then (gather (fragmentsAt f.index fs)).id else f.sent
      name := (gather (fragmentsAt f.index fs)).name ++ f.name
      arguments := (gather (fragmentsAt f.index fs)).arguments ++ f.arguments } := by
  simp only [readCall, bind_eq_ok, h.getD, extend_eq_ok]
  constructor
  · rintro ⟨t, ⟨hid, rfl⟩, hr⟩
    cases hr
    exact ⟨hid, rfl⟩
  · rintro ⟨hid, rfl⟩
    exact ⟨_, ⟨hid, rfl⟩, rfl⟩

theorem step (h : Collected fs calls) (hr : readCall calls f = .ok calls') :
    Collected (fs ++ [f]) calls' := by
  obtain ⟨hid, rfl⟩ := h.readCall_eq_ok.1 hr
  intro k
  rw [fragmentsAt_append]
  by_cases hk : k = f.index
  · subst hk
    have hself : fragmentsAt f.index [f] = [f] := by simp [fragmentsAt]
    rw [AList.lookup_insert, hself, gather_append hid]
    simp
  · have hnone : fragmentsAt k [f] = [] := by simp [fragmentsAt, Ne.symm hk]
    rw [AList.lookup_insert_ne hk, hnone, List.append_nil]
    exact h k

theorem foldlM (h : Collected fs calls) (hr : gs.foldlM readCall calls = .ok calls') :
    Collected (fs ++ gs) calls' := by
  induction gs generalizing fs calls with
  | nil =>
    cases hr
    rwa [List.append_nil]
  | cons g gs ih =>
    simp only [List.foldlM_cons, bind_eq_ok] at hr
    obtain ⟨calls₁, hg, hr⟩ := hr
    rw [List.append_cons]
    exact ih (h.step hg) hr

theorem succeeds (h : Collected fs calls) (hagree : Agree (fs ++ gs)) :
    ∃ calls', gs.foldlM readCall calls = .ok calls' := by
  induction gs generalizing fs calls with
  | nil => exact ⟨calls, rfl⟩
  | cons g gs ih =>
    have hid : g.sent = "" ∨ (gather (fragmentsAt g.index fs)).id = "" ∨
        (gather (fragmentsAt g.index fs)).id = g.sent := by
      by_cases hg : g.sent = ""
      · exact .inl hg
      · rcases gather_id (fragmentsAt g.index fs) with ⟨hid, -⟩ | ⟨f, hf, hne, hid⟩
        · exact .inr (.inl hid)
        · obtain ⟨hf, hindex⟩ := mem_fragmentsAt.1 hf
          refine .inr (.inr (hid.trans ?_))
          exact hagree f (by simp [hf]) g (by simp) hindex hne hg
    have hread := h.readCall_eq_ok.2 ⟨hid, rfl⟩
    obtain ⟨calls₂, hrest⟩ := ih (h.step hread) (by rwa [← List.append_cons])
    refine ⟨calls₂, ?_⟩
    simp only [List.foldlM_cons, bind_eq_ok]
    exact ⟨_, hread, hrest⟩

end Collected

/-! ### The choices of a stream -/

/-- The choices that are read. -/
def answers (cs : List Choice) : List Choice := cs.filter (·.index = 0)

/-- The fragments of all calls. -/
def fragments (cs : List Choice) : List Fragment := (answers cs).flatMap Choice.toolCalls

/-- The parts of the content. -/
def parts (cs : List Choice) : List String := (answers cs).map Choice.text

/-- The last reason to finish. -/
def lastReason (cs : List Choice) : Option String := ((answers cs).filterMap Choice.reason).getLast?

/-- The size of the output. -/
def outputSize (cs : List Choice) : ℕ := ((answers cs).map Choice.size).sum

variable {c : Choice} {cs ds : List Choice} {a a' : Assembly}

theorem answers_append : answers (cs ++ ds) = answers cs ++ answers ds := List.filter_append ..

theorem fragments_append : fragments (cs ++ ds) = fragments cs ++ fragments ds := by
  rw [fragments, answers_append, List.flatMap_append]
  rfl

theorem outputSize_append : outputSize (cs ++ ds) = outputSize cs + outputSize ds := by
  rw [outputSize, answers_append, List.map_append, List.sum_append]
  rfl

theorem Agree.append_left {fs gs : List Fragment} (h : Agree (fs ++ gs)) : Agree fs :=
  fun f hf g hg => h f (List.mem_append_left _ hf) g (List.mem_append_left _ hg)

/-- What has been collected when the choices have been read. -/
structure Assembled (cs : List Choice) (a : Assembly) : Prop where
  /-- the content -/
  content : String.join a.content = String.join (parts cs)
  /-- the calls -/
  calls : Collected (fragments cs) a.calls
  /-- the reason to finish -/
  finish : a.finish = lastReason cs
  /-- the size -/
  size : a.size = outputSize cs

namespace Assembled

theorem start : Assembled [] {} := ⟨rfl, fun _ => rfl, rfl, rfl⟩

theorem skip (h : Assembled cs a) (hc : c.index ≠ 0) : Assembled (cs ++ [c]) a := by
  have hsame : answers (cs ++ [c]) = answers cs := by simp [answers, hc]
  obtain ⟨h₁, h₂, h₃, h₄⟩ := h
  refine ⟨?_, ?_, ?_, ?_⟩
  · rwa [parts, hsame]
  · rwa [fragments, hsame]
  · rwa [lastReason, hsame]
  · rwa [outputSize, hsame]

theorem readChoice_eq_ok (hc : c.index = 0) : readChoice a c = .ok a' ↔
    ∃ calls, c.toolCalls.foldlM readCall a.calls = .ok calls ∧ a.size + c.size ≤ outputLimit ∧
      a' = {
        content := if c.text = "" then a.content else a.content ++ [c.text]
        calls := calls
        finish := c.reason.or a.finish
        size := a.size + c.size } := by
  rw [readChoice, if_neg (not_not_intro hc)]
  simp only [bind_eq_ok, ensure_eq_ok, decide_eq_true_eq]
  constructor
  · rintro ⟨calls, hcalls, -, hle, hr⟩
    cases hr
    exact ⟨calls, hcalls, hle, rfl⟩
  · rintro ⟨calls, hcalls, hle, rfl⟩
    exact ⟨calls, hcalls, (), hle, rfl⟩

/-- One more choice is read. -/
theorem step (h : Assembled cs a) (hr : readChoice a c = .ok a') : Assembled (cs ++ [c]) a' := by
  by_cases hc : c.index = 0
  · have hone : answers [c] = [c] := by simp [answers, hc]
    obtain ⟨calls, hcalls, -, rfl⟩ := (readChoice_eq_ok hc).1 hr
    refine ⟨?_, ?_, ?_, ?_⟩
    · have hparts : parts (cs ++ [c]) = parts cs ++ [c.text] := by
        rw [parts, answers_append, hone, List.map_append]
        rfl
      rw [hparts, String.join_append, ← h.content]
      by_cases ht : c.text = ""
      · simp [ht]
      · simp [ht, String.join_append]
    · rw [fragments_append, show fragments [c] = c.toolCalls by simp [fragments, hone]]
      exact h.calls.foldlM hcalls
    · rw [lastReason, answers_append, hone, List.filterMap_append, List.getLast?_append]
      cases hreason : c.reason with
      | none => rw [List.filterMap_cons_none hreason]; exact h.finish
      | some r => rw [List.filterMap_cons_some hreason]; rfl
    · rw [outputSize_append, show outputSize [c] = c.size by simp [outputSize, hone], h.size]
  · rw [readChoice, if_pos hc] at hr
    cases hr
    exact h.skip hc

theorem foldlM (h : Assembled cs a) (hr : ds.foldlM readChoice a = .ok a') :
    Assembled (cs ++ ds) a' := by
  induction ds generalizing cs a with
  | nil =>
    cases hr
    rwa [List.append_nil]
  | cons d ds ih =>
    simp only [List.foldlM_cons, bind_eq_ok] at hr
    obtain ⟨a₁, hd, hr⟩ := hr
    rw [List.append_cons]
    exact ih (h.step hd) hr

theorem succeeds (h : Assembled cs a) (hagree : Agree (fragments (cs ++ ds)))
    (hsize : outputSize (cs ++ ds) ≤ outputLimit) : ∃ a', ds.foldlM readChoice a = .ok a' := by
  induction ds generalizing cs a with
  | nil => exact ⟨a, rfl⟩
  | cons d ds ih =>
    rw [List.append_cons] at hagree hsize
    obtain ⟨a₁, hread⟩ : ∃ a₁, readChoice a d = .ok a₁ := by
      by_cases hd : d.index = 0
      · have hone : answers [d] = [d] := by simp [answers, hd]
        have hagree' : Agree (fragments cs ++ d.toolCalls) := by
          rw [fragments_append, fragments_append,
            show fragments [d] = d.toolCalls by simp [fragments, hone]] at hagree
          exact hagree.append_left
        have hle : a.size + d.size ≤ outputLimit := by
          rw [outputSize_append, outputSize_append, ← h.size,
            show outputSize [d] = d.size by simp [outputSize, hone]] at hsize
          omega
        obtain ⟨calls, hcalls⟩ := h.calls.succeeds hagree'
        exact ⟨_, (readChoice_eq_ok hd).2 ⟨calls, hcalls, hle, rfl⟩⟩
      · exact ⟨a, if_pos hd⟩
    obtain ⟨a₂, hrest⟩ := ih (h.step hread) hagree hsize
    refine ⟨a₂, ?_⟩
    simp only [List.foldlM_cons, bind_eq_ok]
    exact ⟨a₁, hread, hrest⟩

variable {cancelled : ℕ → Bool} {failure : Option Error} {chunks : List (List Choice)} {i : ℕ}

/-- The loop over the stream. -/
theorem run (h : Assembled cs a) (hr : readChunks cancelled failure i chunks a = .ok a') :
    Assembled (cs ++ chunks.flatten) a' := by
  induction chunks generalizing i cs a with
  | nil =>
    simp only [readChunks, bind_eq_ok] at hr
    obtain ⟨-, -, -, -, hr⟩ := hr
    cases hr
    rwa [List.flatten_nil, List.append_nil]
  | cons chunk chunks ih =>
    simp only [readChunks, bind_eq_ok] at hr
    obtain ⟨-, -, a₁, hchunk, hr⟩ := hr
    rw [List.flatten_cons, ← List.append_assoc]
    exact ih (h.foldlM hchunk) hr

theorem run_succeeds (h : Assembled cs a) (hc : ∀ i, cancelled i = false)
    (hagree : Agree (fragments (cs ++ chunks.flatten)))
    (hsize : outputSize (cs ++ chunks.flatten) ≤ outputLimit) :
    ∃ a', readChunks cancelled none i chunks a = .ok a' := by
  induction chunks generalizing i cs a with
  | nil =>
    refine ⟨a, ?_⟩
    simp only [readChunks, hc]
    rfl
  | cons chunk chunks ih =>
    rw [List.flatten_cons, ← List.append_assoc] at hagree hsize
    have hagree' := hagree
    rw [fragments_append] at hagree'
    have hsize' := hsize
    rw [outputSize_append] at hsize'
    obtain ⟨a₁, hchunk⟩ := h.succeeds hagree'.append_left (Nat.le_of_add_right_le hsize')
    obtain ⟨a₂, hrest⟩ := ih (h.foldlM hchunk) hagree hsize
    refine ⟨a₂, ?_⟩
    simp only [readChunks, bind_eq_ok, hc]
    exact ⟨(), rfl, a₁, hchunk, hrest⟩

end Assembled

/-! ### Messages and their cuts -/

/-- An assistant message: its tool calls have an id, a name and an index each. -/
structure Message where
  /-- the content, empty if there is none -/
  content : String
  /-- the calls, each with its index -/
  calls : List (ℤ × ToolCall)
  /-- they are in the order of their indices -/
  sorted : calls.Pairwise fun x y => x.1 < y.1
  /-- they have ids and names -/
  named : ∀ x ∈ calls, x.2.id ≠ "" ∧ x.2.name ≠ ""

/-- The message as the client gives it. -/
def Message.completion (m : Message) : Completion where
  content := if m.content = "" then none else some m.content
  toolCalls := if m.calls.map (·.2) = [] then none else some (m.calls.map (·.2))

/-- The choices are a way of cutting the message into deltas.  Nothing is said about the order in
which the fragments of different calls come. -/
structure Cuts (m : Message) (cs : List Choice) : Prop where
  /-- the parts of the content -/
  content : String.join (parts cs) = m.content
  /-- there are only fragments of these calls -/
  index : ∀ f ∈ fragments cs, ∃ x ∈ m.calls, f.index = x.1
  /-- a fragment carries the id of its call or none -/
  id : ∀ x ∈ m.calls, ∀ f ∈ fragmentsAt x.1 (fragments cs), f.sent = "" ∨ f.sent = x.2.id
  /-- the id is sent -/
  sent : ∀ x ∈ m.calls, ∃ f ∈ fragmentsAt x.1 (fragments cs), f.sent = x.2.id
  /-- the parts of the name -/
  name : ∀ x ∈ m.calls,
    String.join ((fragmentsAt x.1 (fragments cs)).map Fragment.name) = x.2.name
  /-- the parts of the arguments -/
  arguments : ∀ x ∈ m.calls,
    String.join ((fragmentsAt x.1 (fragments cs)).map Fragment.arguments) = x.2.arguments

namespace Cuts

variable {m : Message} {x : ℤ × ToolCall}

theorem agree (h : Cuts m cs) : Agree (fragments cs) := by
  intro f hf g hg hindex hfs hgs
  obtain ⟨x, hx, hfx⟩ := h.index f hf
  have hf' := h.id x hx f (mem_fragmentsAt.2 ⟨hf, hfx⟩)
  have hg' := h.id x hx g (mem_fragmentsAt.2 ⟨hg, hindex.symm.trans hfx⟩)
  exact (hf'.resolve_left hfs).trans (hg'.resolve_left hgs).symm

/-- The fragments of a call say what the call is. -/
theorem gathers (h : Cuts m cs) (hx : x ∈ m.calls) :
    gather (fragmentsAt x.1 (fragments cs)) = x.2 := by
  have hid : (gather (fragmentsAt x.1 (fragments cs))).id = x.2.id := by
    rcases gather_id (fragmentsAt x.1 (fragments cs)) with ⟨-, hnone⟩ | ⟨f, hf, hne, hid⟩
    · obtain ⟨f, hf, hsent⟩ := h.sent x hx
      exact absurd (hsent.symm.trans (hnone f hf)) (m.named x hx).1
    · exact hid.trans ((h.id x hx f hf).resolve_left hne)
  obtain ⟨k, call⟩ := x
  obtain ⟨id, name, arguments⟩ := call
  rw [ToolCall.mk.injEq]
  exact ⟨hid, h.name _ hx, h.arguments _ hx⟩

theorem lookup_eq (h : Cuts m cs) (hcalls : Collected (fragments cs) calls) {t : ToolCall} :
    calls.lookup k = some t ↔ (k, t) ∈ m.calls := by
  rw [hcalls k]
  constructor
  · intro ht
    split_ifs at ht with hnil
    obtain ⟨f, hf⟩ := List.exists_mem_of_ne_nil _ hnil
    obtain ⟨hmem, rfl⟩ := mem_fragmentsAt.1 hf
    obtain ⟨x, hx, hfx⟩ := h.index f hmem
    rw [hfx, h.gathers hx] at ht
    rw [hfx, ← Option.some.inj ht]
    exact hx
  · intro hx
    obtain ⟨f, hf, -⟩ := h.sent _ hx
    rw [if_neg (List.ne_nil_of_mem hf), h.gathers hx]

/-- The calls come out in the order of their indices. -/
theorem sortedCalls_eq (h : Cuts m cs) (hcalls : Collected (fragments cs) calls) :
    sortedCalls calls = m.calls.map (·.2) := by
  let entries := calls.entries.mergeSort fun x y => x.1 ≤ y.1
  let pair : (Σ _ : ℤ, ToolCall) → ℤ × ToolCall := fun e => (e.1, e.2)
  have hle : entries.Pairwise fun x y => x.1 ≤ y.1 := by
    have hsorted : entries.Pairwise fun x y => decide (x.1 ≤ y.1) = true :=
      List.pairwise_mergeSort (by simpa using fun a b c => le_trans)
        (by simpa using fun a b => le_total ..) calls.entries
    exact hsorted.imp fun h => of_decide_eq_true h
  have hkeys : (entries.map (·.1)).Nodup :=
    ((List.mergeSort_perm calls.entries _).map _).nodup_iff.2 calls.nodupKeys
  have hlt : (entries.map pair).Pairwise fun x y => x.1 < y.1 := by
    refine List.pairwise_map.2 ?_
    exact hle.imp₂ (fun _ _ => lt_of_le_of_ne) (List.pairwise_map.1 hkeys)
  have hmem : ∀ x, x ∈ entries.map pair ↔ x ∈ m.calls := by
    intro x
    have hentry : x ∈ entries.map pair ↔ (⟨x.1, x.2⟩ : Σ _ : ℤ, ToolCall) ∈ calls.entries := by
      constructor
      · intro hx
        obtain ⟨e, he, rfl⟩ := List.mem_map.1 hx
        exact List.mem_mergeSort.1 he
      · intro hx
        exact List.mem_map.2 ⟨⟨x.1, x.2⟩, List.mem_mergeSort.2 hx, rfl⟩
    rw [hentry, ← AList.mem_lookup_iff]
    exact h.lookup_eq hcalls
  have hirrefl : Std.Irrefl fun x y : ℤ × ToolCall => x.1 < y.1 := ⟨fun x => lt_irrefl x.1⟩
  have hentries : entries.map pair = m.calls := hlt.eq_of_mem_iff m.sorted fun x => hmem x
  rw [← hentries, List.map_map]
  rfl

end Cuts

theorem complete_eq_ok {out : Completion} : complete a = .ok out ↔
    finished a.finish = true ∧ (∀ call ∈ sortedCalls a.calls, call.id ≠ "" ∧ call.name ≠ "") ∧
    out = {
      content := if String.join a.content = "" then none else some (String.join a.content)
      toolCalls := if sortedCalls a.calls = [] then none else some (sortedCalls a.calls) } := by
  simp only [complete, bind_eq_ok, ensure_eq_ok, List.all_eq_true, Bool.and_eq_true,
    decide_eq_true_eq]
  constructor
  · rintro ⟨-, hfin, -, hall, hr⟩
    cases hr
    exact ⟨hfin, hall, rfl⟩
  · rintro ⟨hfin, hall, rfl⟩
    exact ⟨(), hfin, (), hall, rfl⟩

variable {cancelled : ℕ → Bool} {late : Bool} {stream : Stream} {r : Completion × List String}

theorem streamedCompletion_eq_ok : streamedCompletion cancelled late stream = .ok r ↔
    ∃ a, readChunks cancelled stream.failure 0 stream.chunks {} = .ok a ∧
      complete a = .ok r.1 ∧ r.2 = a.content := by
  have hmap : ∀ {x : Except Error (Completion × List String)} {g : Error → Error},
      x.mapError g = .ok r ↔ x = .ok r := by
    intro x g
    cases x with
    | error e => constructor <;> nofun
    | ok y => exact Iff.rfl
  rw [streamedCompletion, hmap]
  simp only [bind_eq_ok]
  constructor
  · rintro ⟨a, ha, completion, hc, hr⟩
    cases hr
    exact ⟨a, ha, hc, rfl⟩
  · rintro ⟨a, ha, hc, htexts⟩
    exact ⟨a, ha, r.1, hc, by rw [← htexts]; rfl⟩

/-- What is returned ends properly and has complete calls. -/
theorem streamedCompletion_ends (h : streamedCompletion cancelled late stream = .ok r) :
    finished (lastReason stream.chunks.flatten) = true ∧
    ∀ k, fragmentsAt k (fragments stream.chunks.flatten) ≠ [] →
      (gather (fragmentsAt k (fragments stream.chunks.flatten))).id ≠ "" ∧
      (gather (fragmentsAt k (fragments stream.chunks.flatten))).name ≠ "" := by
  obtain ⟨a, ha, hc, -⟩ := streamedCompletion_eq_ok.1 h
  obtain ⟨hfin, hcalls, -⟩ := complete_eq_ok.1 hc
  have hasm := Assembled.start.run ha
  rw [List.nil_append] at hasm
  refine ⟨hasm.finish ▸ hfin, fun k hk => hcalls _ ?_⟩
  have hlook := hasm.calls k
  rw [if_neg hk] at hlook
  exact List.mem_map.2 ⟨⟨k, _⟩, List.mem_mergeSort.2 (AList.mem_lookup_iff.1 hlook), rfl⟩

theorem join_eq_empty {l : List String} (h : ∀ s ∈ l, s = "") : String.join l = "" := by
  induction l with
  | nil => rfl
  | cons s l ih =>
    rw [String.join_cons, h s List.mem_cons_self, ih fun s hs => h s (List.mem_cons_of_mem _ hs)]
    rfl

theorem exists_error (h : ∀ r, streamedCompletion cancelled late stream ≠ .ok r) :
    ∃ e, streamedCompletion cancelled late stream = .error e := by
  cases hr : streamedCompletion cancelled late stream with
  | error e => exact ⟨e, rfl⟩
  | ok r => exact absurd hr (h r)

/-- **A message is assembled the same way however it is cut.**  For every way of cutting a message
into the deltas of a stream that ends with `stop` or `tool_calls` and stays within the limit,
`streamed_completion` returns the message, and the texts that it has emitted make up the content.
It raises if the stream does not end in this way, or if a call has no id or no name. -/
theorem streamedCompletion_spec (stream : Stream) (cancelled : ℕ → Bool) (late : Bool) :
    (∀ m : Message, Cuts m stream.chunks.flatten →
      finished (lastReason stream.chunks.flatten) = true →
      outputSize stream.chunks.flatten ≤ outputLimit → stream.failure = none →
      (∀ i, cancelled i = false) →
      ∃ texts, streamedCompletion cancelled late stream = .ok (m.completion, texts) ∧
        String.join texts = m.content) ∧
    (finished (lastReason stream.chunks.flatten) = false →
      ∃ e, streamedCompletion cancelled late stream = .error e) ∧
    ∀ k, fragmentsAt k (fragments stream.chunks.flatten) ≠ [] →
      ((∀ f ∈ fragmentsAt k (fragments stream.chunks.flatten), f.sent = "") ∨
        ∀ f ∈ fragmentsAt k (fragments stream.chunks.flatten), f.name = "") →
      ∃ e, streamedCompletion cancelled late stream = .error e := by
  refine ⟨fun m hcut hfin hsize hfail hlive => ?_, fun hfin => ?_, fun k hk hlacks => ?_⟩
  · obtain ⟨a, ha⟩ := Assembled.start.run_succeeds (i := 0) hlive
      (by rw [List.nil_append]; exact hcut.agree) (by rwa [List.nil_append])
    have hasm := Assembled.start.run ha
    rw [List.nil_append] at hasm
    have hcontent : String.join a.content = m.content := hasm.content.trans hcut.content
    have hcalls := hcut.sortedCalls_eq hasm.calls
    refine ⟨a.content, streamedCompletion_eq_ok.2 ⟨a, hfail ▸ ha, ?_, rfl⟩, hcontent⟩
    rw [complete_eq_ok]
    rw [hasm.finish, hcalls, hcontent]
    refine ⟨hfin, fun call hcall => ?_, rfl⟩
    obtain ⟨x, hx, rfl⟩ := List.mem_map.1 hcall
    exact m.named x hx
  · refine exists_error fun r hr => ?_
    rw [(streamedCompletion_ends hr).1] at hfin
    cases hfin
  · refine exists_error fun r hr => ?_
    obtain ⟨hid, hname⟩ := (streamedCompletion_ends hr).2 k hk
    rcases hlacks with hnone | hnone
    · rcases gather_id (fragmentsAt k (fragments stream.chunks.flatten)) with h | ⟨f, hf, hne, -⟩
      · exact hid h.1
      · exact hne (hnone f hf)
    · refine hname ?_
      refine join_eq_empty fun s hs => ?_
      obtain ⟨f, hf, rfl⟩ := List.mem_map.1 hs
      exact hnone f hf

namespace Sample

/-- Two calls whose fragments come in turns, with another choice between them. -/
def turns : Stream where
  chunks := [
    [{ content := some "He" }],
    [{ toolCalls := [{ index := 1, id := some "b", function := some { name := some "ls" } },
        { index := 0, id := some "a", function := some { name := some "re" } }] }],
    [{ index := 1, content := some "no", finishReason := some "length" }, { content := some "y" }],
    [{ toolCalls := [{ index := 0, function := some { name := some "ad", arguments := some "1" } },
        { index := 1, id := some "b", function := some { arguments := some "2" } },
        { index := 0, id := some "", function := some { arguments := some "3" } }] }],
    [{ finishReason := some "tool_calls" }]]

/-- The message that was cut. -/
def message : Message where
  content := "Hey"
  calls := [(0, ⟨"a", "read", "13"⟩), (1, ⟨"b", "ls", "2"⟩)]
  sorted := by decide
  named := by decide

theorem message_cuts : Cuts message turns.chunks.flatten where
  content := by decide
  index := by decide
  id := by decide
  sent := by decide
  name := by decide
  arguments := by decide

end Sample

/-- The two calls come out complete, in the order of their indices. -/
theorem streamedCompletion_turns : ∃ texts,
    streamedCompletion (fun _ => false) false Sample.turns = .ok (⟨some "Hey",
      some [⟨"a", "read", "13"⟩, ⟨"b", "ls", "2"⟩]⟩, texts) ∧ String.join texts = "Hey" :=
  (streamedCompletion_spec Sample.turns (fun _ => false) false).1 Sample.message
    Sample.message_cuts (by decide) (by decide) rfl fun _ => rfl

end Streaming

end PythonAI
