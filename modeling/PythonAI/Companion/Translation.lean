import PythonAI.Companion.Pieces
import PythonAI.Errors
import PythonAI.Library.Txn

/-!
# `attachment_translation.run`

A job has the pieces of a document and the translations of the first of them.  A turn of the loop
translates the next piece, or cuts it in two when it does not fit; after it the state is saved, and
an exception leaves the state that was saved last.  When all pieces are translated the output is
written.  A later call goes on from the saved state.

What the loop finds is a list of turns: whether something raises, and what the model answers.  A
list that ends is an interruption at that place.
-/

namespace PythonAI

open Library

namespace Companion

/-- What a message says of an uploaded text: `read_reference` finds the text with it, and refuses
another one. -/
structure Reference where
  /-- the name under which the user has uploaded it -/
  name : String
  /-- where its copy is, in the workspace -/
  path : String
  /-- the managed directory of the copy -/
  directoryId : String
  /-- the digest of the copy -/
  sha256 : String
  /-- the size of the copy -/
  bytes : ℕ
  /-- the length of the text -/
  characters : ℕ
  deriving DecidableEq, Repr

/-- `read_reference`, where it does not raise: the digest determines the text. -/
structure Env where
  /-- the text of a reference -/
  source : Reference → Text

/-- A response of the model, and its message after the hook. -/
structure Response where
  finishReason : String
  /-- `message.content` -/
  content : Option Text
  /-- `message.tool_calls` is not empty -/
  toolCalls : Bool := false
  deriving DecidableEq, Repr

/-- What a request ends with. -/
inductive Reply
  /-- `ContextTooLarge` -/
  | contextTooLarge
  /-- another exception, of the client or of a hook -/
  | fails (e : Error)
  /-- a response -/
  | response (r : Response)

/-- What a turn finds. -/
structure Turn where
  /-- what raises before the model is asked, or before the output is written -/
  halts : Option Error := none
  /-- the answer of the model to a text -/
  reply : Text → Reply
  /-- what raises before the state is saved -/
  loses : Option Error := none

/-- An item of `state['jobs']`. -/
structure Job where
  path : String
  spans : List Span
  parts : List Text := []
  written : Bool := false
  /-- `output_sha256`: what it is the digest of -/
  output : Option Text := none
  deriving DecidableEq, Repr

/-- `state` -/
structure State where
  files : List Reference
  jobs : List Job
  deriving DecidableEq, Repr

/-- A request to the model. -/
structure Sent where
  /-- the number of the file -/
  file : ℕ
  /-- the spans of the parts that are recorded then -/
  recorded : List Span
  /-- the span that it is about -/
  span : Span
  /-- the content of the user's message -/
  text : Text
  deriving DecidableEq, Repr

/-- A call of `write_file`. -/
structure Write where
  /-- the source -/
  file : Reference
  /-- the spans of the job -/
  spans : List Span
  /-- its parts -/
  parts : List Text
  /-- the path -/
  path : String
  /-- the content -/
  content : Text
  deriving DecidableEq, Repr

/-- The spans of the parts. -/
def Job.recorded (job : Job) : List Span := job.spans.take job.parts.length

/-- What an exception leaves. -/
def raised : Option Error → Except Error Unit
  | none => .ok ()
  | some e => .error e

/-! ### A turn -/

/-- A piece that does not fit is cut in two; a single character cannot be. -/
def Job.refused (source : Text) (job : Job) (s : Span) (loses : Option Error) (e : Error) :
    Except Error Job := do
  ensure (!(s.2 - s.1 ≤ 1)) e
  raised loses
  pure { job with
    spans := job.spans.take job.parts.length ++ splitRange source s.1 s.2 ++
      job.spans.drop (job.parts.length + 1) }

/-- The translation of a piece is appended. -/
def Job.record (job : Job) (translated : Text) (loses : Option Error) : Except Error Job := do
  raised loses
  pure { job with parts := job.parts ++ [translated] }

/-- A turn of the loop: the job after it is saved. -/
def turn (source : Text) (job : Job) (s : Span) (t : Turn) : Except Error Job := do
  raised t.halts
  let text := s.slice source
  if strip text = [] then job.record text t.loses
  else
    match t.reply (strip text) with
    | .fails e => .error e
    | .contextTooLarge =>
      job.refused source s t.loses (.value "模型上下文設定不足以容納必要指示與附件參照；附件全文仍保留，未截斷內容。")
    | .response r =>
      if r.finishReason = "length" then
        job.refused source s t.loses (.value "模型輸出額度不足，未產生截斷的翻譯檔案。")
      else do
        ensure (r.finishReason = "stop" && !r.toolCalls && strip (r.content.getD []) ≠ [])
          (.value "模型未回傳完整段落，未將部分內容當成完整翻譯。")
        job.record (leading text ++ strip (r.content.getD []) ++ trailing text) t.loses

/-- The request of a turn. -/
def asked (k : ℕ) (source : Text) (job : Job) (s : Span) (t : Turn) : List Sent :=
  if t.halts.isSome || strip (s.slice source) = [] then []
  else [⟨k, job.recorded, s, strip (s.slice source)⟩]

/-! ### The loops -/

/-- How a loop ends. -/
inductive Outcome
  /-- it is over, and these turns are left -/
  | finished (turns : List Turn)
  /-- an exception -/
  | raised (e : Error)
  /-- an interruption -/
  | waiting

/-- What a loop has done. -/
structure Ran (α : Type) where
  /-- what is saved -/
  value : α
  /-- the requests -/
  sent : List Sent := []
  /-- the outputs that were written -/
  writes : List Write := []
  /-- how it ends -/
  outcome : Outcome

/-- `while len(job['parts']) < len(ranges)`, of the file `k`. -/
def translate (k : ℕ) (source : Text) : List Turn → Job → Ran Job
  | turns, job =>
    match job.spans[job.parts.length]?, turns with
    | none, turns => { value := job, outcome := .finished turns }
    | some _, [] => { value := job, outcome := .waiting }
    | some s, t :: turns =>
      match turn source job s t with
      | .error e => { value := job, sent := asked k source job s t, outcome := .raised e }
      | .ok next =>
        let ran := translate k source turns next
        { ran with sent := asked k source job s t ++ ran.sent }

/-- `if not job['written']` -/
def write (file : Reference) (job : Job) : List Turn → Ran Job
  | turns =>
    if job.written then { value := job, outcome := .finished turns }
    else
      match turns with
      | [] => { value := job, outcome := .waiting }
      | t :: turns =>
        let content := newlines job.parts.flatten
        match t.halts, t.loses with
        | some e, _ => { value := job, outcome := .raised e }
        | none, some e =>
          { value := job, writes := [⟨file, job.spans, job.parts, job.path, content⟩]
            outcome := .raised e }
        | none, none =>
          { value := { job with written := true, output := some content }
            writes := [⟨file, job.spans, job.parts, job.path, content⟩]
            outcome := .finished turns }

/-- The check of the ranges. -/
def incomplete (source : Text) (ranges : List Span) : Bool :=
  match ranges with
  | [] => source ≠ []
  | r :: rs => r.1 ≠ 0 || (r :: rs).getLast?.map (·.2) ≠ some source.length ||
      ((r :: rs).zip rs).any fun (a, b) => a.2 ≠ b.1

/-- The loop over the files, from the file `k` on. -/
def process (env : Env) : ℕ → List Reference → List Job → List Turn → Ran (List Job)
  | k, file :: files, job :: jobs, turns =>
    if incomplete (env.source file) job.spans then
      { value := job :: jobs
        outcome := .raised (.value "Incomplete source coverage in translation checkpoint") }
    else
      let first := translate k (env.source file) turns job
      match first.outcome with
      | .finished turns =>
        let second := write file first.value turns
        match second.outcome with
        | .finished turns =>
          let rest := process env (k + 1) files jobs turns
          { value := second.value :: rest.value
            sent := first.sent ++ rest.sent
            writes := second.writes ++ rest.writes
            outcome := rest.outcome }
        | outcome =>
          { value := second.value :: jobs, sent := first.sent, writes := second.writes
            outcome := outcome }
      | outcome => { value := first.value :: jobs, sent := first.sent, outcome := outcome }
  | _, _, jobs, turns => { value := jobs, outcome := .finished turns }

/-! ### A call -/

/-- A call of `run`. -/
structure Call where
  /-- what raises before the state is made: the permission, the sources, the name of an output, or
  the first checkpoint -/
  refused : Option Error := none
  /-- the references of the messages -/
  files : List Reference
  /-- `chunk_limit` -/
  limit : ℕ
  /-- the names of the outputs -/
  path : ℕ → String
  /-- the requests that the budget has left, if there is one: negative where it was overdrawn -/
  remaining : Option ℤ := none
  /-- there is an evaluator -/
  evaluator : Bool := false
  /-- what the turns find -/
  turns : List Turn
  /-- the content of a file at the end, if it exists -/
  reads : String → Option Text

/-- The state of a first call. -/
def fresh (env : Env) (c : Call) : State where
  files := c.files
  jobs := c.files.mapIdx fun k file => { path := c.path k, spans := spans (env.source file) c.limit }

/-- `pending` -/
def pending (state : State) : ℕ :=
  (state.jobs.map fun job => job.spans.length - job.parts.length).sum

/-- The budget has too few requests left. -/
def exhausted (c : Call) (state : State) : Bool :=
  c.remaining.any fun n => n < ((pending state + if c.evaluator then 1 else 0 : ℕ) : ℤ)

/-- What is saved, and what the calls have done. -/
structure World where
  /-- the checkpoint -/
  saved : Option State := none
  /-- the requests -/
  sent : List Sent := []
  /-- the outputs -/
  writes : List Write := []

/-- `run` -/
def run (env : Env) (c : Call) (w : World) : World × Outcome :=
  match c.refused with
  | some e => (w, .raised e)
  | none =>
    let state := w.saved.getD (fresh env c)
    if state.files ≠ c.files ∨ state.jobs.length ≠ c.files.length then
      (w, .raised (.value "Translation checkpoint does not match the uploaded sources"))
    else if exhausted c state then
      ({ w with saved := some state }, .raised (.exhausted (s!"附件已完整上傳，翻譯尚需至少 {pending state} " ++
        "次分段請求，超過本次剩餘額度。請提高 AGENT_TASK_MAX_REQUESTS 後建立新任務，或將文件分成較小附件；未將部分內容當成完整翻譯。")))
    else
      let ran := process env 0 c.files state.jobs c.turns
      let outcome :=
        match ran.outcome with
        | .finished turns =>
          if ran.value.any fun job => (c.reads job.path).isNone || c.reads job.path ≠ job.output then
            .raised (.value "翻譯輸出已被變更或刪除，未將缺失的檔案當成完成結果。")
          else .finished turns
        | outcome => outcome
      ({ saved := some { state with jobs := ran.value }
         sent := w.sent ++ ran.sent
         writes := w.writes ++ ran.writes }, outcome)

/-- The world after calls. -/
def after (env : Env) (calls : List Call) : World := calls.foldl (fun w c => (run env c w).1) {}

end Companion

end PythonAI
