import PythonAI.Tasks.Continuation
import PythonAI.Tasks.Lease

/-!
# `durable_invoke`

Any number of calls of `durable_invoke` for one task run concurrently or one after the other.
Each call is a process: `Pc` is where it stands, and `Act` is its next step, at the granularity
of one transaction or one piece of work outside the database (the skill function, the
verification, a tool).  A process may stop anywhere (`Act.crash`), raise anywhere inside the
`try` block (`Act.fail`), and a human may act on the task between any two steps.

A skill function is an opaque effect: `Sys.skillRuns` counts how often one was entered.  An agent
runner saves its progress as it likes (`Act.save`), and starts a tool only by saving
`tool_started` for a call that its own messages leave unanswered (`Act.tool`).
-/

namespace PythonAI

open Library

namespace Durable

/-- The arguments of a call of `durable_invoke`. -/
structure Args where
  resume : Bool := false
  /-- `skill`: the function is a directly invoked skill -/
  skill : Bool := false
  /-- `skill_arguments` -/
  arguments : String := ""
  /-- `verify_skill` is given -/
  verifies : Bool := false
  /-- the goal: the text of the last user message -/
  goal : String
  messages : List Message
  deriving DecidableEq

/-- A call that holds a token: what it works with. -/
structure Worker where
  /-- the arguments of the call -/
  args : Args
  /-- the token of the claim -/
  token : Token
  /-- `saved`: the checkpoint and the phase it continues from -/
  saved : Option (Checkpoint × Phase)
  /-- `messages`, in memory -/
  messages : List Message
  deriving DecidableEq

/-- Where a call stands inside the `try` block or its handlers. -/
inductive Stage
  /-- a skill, before `skill_started` is saved -/
  | entered
  /-- `skill_started` is saved, the function has not been entered -/
  | started
  /-- the result of the skill is not saved -/
  | executed (result : SkillResult)
  /-- `skill_executed` is saved -/
  | recorded (result : SkillResult)
  /-- the skill is verified, `skill_done` is not saved -/
  | verified (result : SkillResult)
  /-- the agent runner is between two steps -/
  | agent
  /-- `tool_started` is saved: the tool runs -/
  | tool (call : String)
  /-- the reply is known -/
  | replying (result : Option SkillResult) (reply : String)
  /-- about to finish in `state`; `inTry` before the handlers -/
  | finishing (inTry : Bool) (state : TaskState) (reply : Option String)
  /-- the handler of `TaskYield` -/
  | yielding (kind : Kind)
  /-- the handler of `TaskSuspendedException`, before it reads the metadata -/
  | suspending (messages : List Message) (call question : String)
  /-- the same, with the checkpoint to save -/
  | waiting (data : Checkpoint) (question : String)
  /-- the handler of any other exception -/
  | raised (error : Error)
  deriving DecidableEq

/-- Where a call of `durable_invoke` stands. -/
inductive Pc
  /-- not called yet -/
  | idle
  /-- about to call `store.answer` with the last message -/
  | answering (args : Args) (text : String)
  /-- about to read the answered task -/
  | answered (args : Args)
  /-- `previous` is read; about to claim -/
  | read (args : Args) (previous : Option TaskRow)
  /-- the claim returned `None`; about to read the result -/
  | returning (args : Args)
  /-- the claim returned a token; `existing` says whether `previous` is there, and `found` is
  the row that the claim took over -/
  | claimed (args : Args) (token : Token) (existing : Bool) (found : Option TaskRow)
  /-- inside the `try` block -/
  | working (worker : Worker) (stage : Stage)
  /-- returned, raised or crashed -/
  | done
  deriving DecidableEq

/-- A step of a call. -/
inductive Act
  /-- the first `store.get` -/
  | get (args : Args)
  /-- `store.answer` -/
  | answer (env : Access)
  /-- `store.get` after the answer -/
  | reread
  /-- `store.claim` -/
  | claim (env : Access) (episode : Option ℕ) (criteria : Criteria) (t₁ t₂ : Time)
  /-- `store.get` after a claim that returned `None` -/
  | fetch
  /-- `store.get` after the claim, if `previous` is there, and the entry of the `try` block -/
  | load
  /-- saves `skill_started` -/
  | start (env : Access) (t : Time)
  /-- the skill function: its result, or what it raises -/
  | invoke (result : Except Error SkillResult)
  /-- saves `skill_executed` -/
  | record (env : Access) (t : Time)
  /-- `verify_skill`: its result, or what it raises -/
  | verify (result : Except Error SkillResult)
  /-- saves `skill_done` -/
  | certify (env : Access) (t : Time)
  /-- the agent edits its messages without touching the last assistant turn -/
  | revise (messages : List Message)
  /-- the agent saves `tool_started` -/
  | tool (env : Access) (data : Checkpoint) (step : StepRecord) (t : Time)
  /-- the agent saves any other progress -/
  | save (env : Access) (phase : Phase) (data : Checkpoint) (step : Option StepRecord) (t : Time)
  /-- the agent raises `TaskYield` -/
  | yield (kind : Kind)
  /-- the agent raises `TaskSuspendedException` -/
  | suspend (messages : List Message) (call question : String)
  /-- the agent returns -/
  | conclude (reply : String)
  /-- `store.get` before the end of the `try` block; `lost` if the call was cancelled -/
  | decide (lost : Bool)
  /-- `store.finish` -/
  | finish (env : Access) (t : Time)
  /-- a handler reads the task -/
  | handle
  /-- the handler of a suspension saves `waiting_user` -/
  | park (env : Access) (t : Time)
  /-- an exception inside the `try` block -/
  | fail (error : Error)
  /-- the heartbeat renews the lease -/
  | beat (t₁ t₂ : Time)
  /-- the process dies -/
  | crash

/-- The step record of a directly invoked skill. -/
def skillStep (args : Args) (state : StepState) (result : Option String) : StepRecord :=
  ⟨"skill", { name := "run_skill", input := args.arguments, state := state, result := result }⟩

/-- The state of the skill step for a result. -/
def resultState (r : SkillResult) : StepState := if r.success then .completed else .failed

/-- The replies that count as failures. -/
def failedReply (reply : String) : Bool :=
  reply.startsWith "Error:" || (reply.splitOn "已轉交人工審核").length > 1
    || (reply.splitOn "遠端 LLM 服務發生錯誤").length > 1

/-- The state a call ends its task in. -/
def finalState (lost : Bool) (result : Option SkillResult) (reply : String) : TaskState :=
  if lost then .cancelled
  else if result.any (!·.success) || failedReply reply then .failed
  else .completed

/-- The state the handler of an exception leaves the task in. -/
def failedState (row : TaskRow) (error : Error) : TaskState :=
  if row.phase.started then .uncertain
  else match error with
    | .exhausted _ => .failed
    | _ => .pending

/-- The text of an exception. -/
def errorText : Error → String
  | .value m | .missing m | .permission m | .interrupted m | .runtime m | .capacity m | .busy m
  | .recovery m | .uncertain m | .exhausted m | .integrity m | .type m
  | .overflow m => m

/-- Where a call stands once `previous` is known. -/
def afterGet (a : Args) (previous : Option TaskRow) : Pc :=
  match previous with
  | none => .read a none
  | some row =>
    if a.resume && row.state = .suspended then
      match a.messages.getLast? with
      | none => .done
      | some last =>
        if last.role = "tool" ∧ last.toolCallId = row.checkpoint.suspendedToolCallId then
          .answering a last.content
        else .done
    else if !a.resume && row.goal ≠ a.goal then .done
    else .read a (some row)

/-- The first stage inside the `try` block. -/
def entry (a : Args) (saved : Option (Checkpoint × Phase)) : Stage :=
  match saved with
  | some (data, phase) =>
    if data.kind = some "skill" ∧ phase = .skillDone then
      match data.skillResult with
      | some r => .replying (some r) r.output
      | none => .raised (.missing "skill_result")
    else if data.kind = some "skill" ∧ phase = .skillExecuted then
      match data.skillResult with
      | some r => .executed r
      | none => .raised (.missing "skill_result")
    else if a.skill then .entered else .agent
  | none => if a.skill then .entered else .agent

/-- The stages inside the `try` block. -/
def Stage.inTry : Stage → Bool
  | entered | started | executed _ | recorded _ | verified _ | agent | tool _ | replying _ _ => true
  | finishing inTry _ _ => inTry
  | _ => false

/-- What the agent's saved progress never is: the phases of a skill, and `tool_started`. -/
def agentPhase : Phase → Bool
  | .skillStarted | .skillExecuted | .skillDone | .toolStarted => false
  | _ => true

/-- The stage after a checkpoint: `next`, or the handler of what it raised. -/
def checkpointed {α : Type} (w : Worker) (next : Pc) : Except Error α → Pc
  | .ok _ => next
  | .error e => .working w (.raised e)

/-- The `TaskStore` operation that the step performs, if any. -/
def Act.call (k : TaskKey) : Pc → Act → Option Call
  | .answering _ text, answer env => some (.answer env k.1 k.2 text)
  | .read a previous, claim env episode criteria t₁ t₂ =>
    some (.claim env k.1 k.2 a.goal a.messages episode
      (if previous.isNone then some criteria else none) t₁ t₂)
  | .working w .entered, start env t =>
    some (.checkpoint env k.1 k.2 w.token .skillStarted
      { messages := w.messages, kind := some "skill" } (some (skillStep w.args .running none)) t)
  | .working w (.executed r), record env t =>
    some (.checkpoint env k.1 k.2 w.token .skillExecuted
      { messages := w.messages, kind := some "skill", skillResult := some r }
      (some (skillStep w.args (resultState r) (some r.output))) t)
  | .working w (.verified r), certify env t =>
    some (.checkpoint env k.1 k.2 w.token .skillDone
      { messages := w.messages, kind := some "skill", skillResult := some r }
      (some (skillStep w.args (resultState r) (some r.output))) t)
  | .working w .agent, tool env data step t =>
    some (.checkpoint env k.1 k.2 w.token .toolStarted data (some step) t)
  | .working w .agent, save env phase data step t
  | .working w (.tool _), save env phase data step t =>
    some (.checkpoint env k.1 k.2 w.token phase data step t)
  | .working w (.waiting data _), park env t =>
    some (.checkpoint env k.1 k.2 w.token .waitingUser data none t)
  | .working w (.finishing _ state reply), finish env t =>
    some (.finish env k.1 k.2 w.token state reply t)
  | .working w _, beat t₁ t₂ => some (.renew k.1 k.2 w.token t₁ t₂)
  | _, _ => none

/-- Where the call stands after the step; `none` where the step is not possible.  A claim hands
out `u`. -/
def Act.next (k : TaskKey) (u : Token) (db : TaskDb) : Pc → Act → Option Pc
  | .idle, get a => some (afterGet a (db.tasks k))
  | .answering a text, answer env =>
    match TaskStore.answer env k.1 k.2 text db with
    | .ok _ => some (.answered a)
    | .error _ => some .done
  | .answered a, reread =>
    match db.tasks k with
    | some row => some (.read a (some row))
    | none => some .done
  | .read a previous, claim env episode criteria t₁ t₂ =>
    match TaskStore.claim env k.1 k.2 a.goal a.messages episode
        (if previous.isNone then some criteria else none) u t₁ t₂ db with
    | .ok (_, .token token) => some (.claimed a token previous.isSome (db.tasks k))
    | .ok (_, .finished) => some (.returning a)
    | .ok (_, .refused _) => some .done
    | .error _ => some .done
  | .returning _, fetch => some .done
  | .claimed a token true _, load =>
    match db.tasks k with
    | some row =>
      let saved := some (row.checkpoint, row.phase)
      some (.working ⟨a, token, saved, row.checkpoint.messages⟩ (entry a saved))
    | none => some .done
  | .claimed a token false _, load =>
    some (.working ⟨a, token, none, a.messages⟩ (entry a none))
  | .working w .entered, start env t =>
    some (checkpointed w (.working w .started)
      (TaskStore.checkpoint env k.1 k.2 w.token .skillStarted
        { messages := w.messages, kind := some "skill" }
        (some (skillStep w.args .running none)) t db))
  | .working w .started, invoke (.ok r) => some (.working w (.executed r))
  | .working w .started, invoke (.error e) => some (.working w (.raised e))
  | .working w (.executed r), record env t =>
    some (checkpointed w (.working w (.recorded r))
      (TaskStore.checkpoint env k.1 k.2 w.token .skillExecuted
        { messages := w.messages, kind := some "skill", skillResult := some r }
        (some (skillStep w.args (resultState r) (some r.output))) t db))
  | .working w (.recorded r), verify result =>
    if w.args.verifies then
      match result with
      | .ok r' => some (.working w (.verified r'))
      | .error e => some (.working w (.raised e))
    else some (.working w (.verified r))
  | .working w (.verified r), certify env t =>
    some (checkpointed w (.working w (.replying (some r) r.output))
      (TaskStore.checkpoint env k.1 k.2 w.token .skillDone
        { messages := w.messages, kind := some "skill", skillResult := some r }
        (some (skillStep w.args (resultState r) (some r.output))) t db))
  | .working w .agent, revise messages =>
    if assistantFrontier messages = assistantFrontier w.messages then
      some (.working { w with messages := messages } .agent)
    else none
  | .working w .agent, tool env data step t =>
    -- Only a call of the last assistant turn that has no result is started.
    if step.id ∈ pendingCalls w.messages ∧ step.row.state = .running ∧
        data.messages = w.messages ∧ data.kind = none then
      some (checkpointed w (.working w (.tool step.id))
        (TaskStore.checkpoint env k.1 k.2 w.token .toolStarted data (some step) t db))
    else none
  | .working w .agent, save env phase data step t
  | .working w (.tool _), save env phase data step t =>
    if agentPhase phase ∧ data.kind = none then
      some (checkpointed w (.working { w with messages := data.messages } .agent)
        (TaskStore.checkpoint env k.1 k.2 w.token phase data step t db))
    else none
  | .working w .agent, yield kind => some (.working w (.yielding kind))
  | .working w .agent, suspend messages call question =>
    some (.working w (.suspending messages call question))
  | .working w .agent, conclude reply | .working w (.tool _), conclude reply =>
    some (.working w (.replying none reply))
  | .working w (.replying result reply), decide lost =>
    match db.tasks k with
    | none => some (.working w (.raised (.missing k.2)))
    | some row =>
      if row.state ≠ .cancelled then
        some (.working w (.finishing true (finalState lost result reply) (some reply)))
      else some .done
  | .working w (.finishing inTry state reply), finish env t =>
    match TaskStore.finish env k.1 k.2 w.token state reply t db with
    | .ok _ => some .done
    | .error e => if inTry then some (.working w (.raised e)) else some .done
  | .working w (.yielding kind), handle =>
    match db.tasks k with
    | none => some .done
    | some row =>
      if row.phase ≠ .stepReady ∨ row.checkpoint.nextKind ≠ some kind then
        some (.working w
          (.finishing false .uncertain (some "Unverified continuation boundary")))
      else some (.working w (.finishing false .pending none))
  | .working w (.suspending messages call question), handle =>
    match db.tasks k with
    | none => some .done
    | some row =>
      some (.working w (.waiting
        { row.checkpoint with messages := messages, suspendedToolCallId := some call } question))
  | .working w (.waiting data question), park env t =>
    match TaskStore.checkpoint env k.1 k.2 w.token .waitingUser data none t db with
    | .ok _ => some (.working w (.finishing false .suspended (some question)))
    | .error _ => some .done
  | .working w (.raised e), handle =>
    match db.tasks k with
    | none => some .done
    | some row =>
      if row.state ≠ .cancelled then
        some (.working w (.finishing false (failedState row e) (some (errorText e))))
      else some .done
  | .working w stage, fail e => if stage.inTry then some (.working w (.raised e)) else none
  | .working w stage, beat _ _ => some (.working w stage)
  | _, crash => some .done
  | _, _ => none

/-- How often the step enters a directly invoked skill function. -/
def Act.runs : Pc → Act → ℕ
  | .working _ .started, invoke _ => 1
  | _, _ => 0

/-- The calls of `durable_invoke` for one task, over its database. -/
structure Sys where
  /-- the database, the clock and the supply of tokens -/
  base : TaskSys
  /-- where each call stands -/
  pcs : ℕ → Pc
  /-- how often a directly invoked skill function was entered -/
  skillRuns : ℕ

/-- A step of the system: a step of the `i`-th call, or an operation of a human or of the
monitor that gives up expired leases. -/
inductive Label
  | act (i : ℕ) (a : Act)
  | outside (c : Call)

/-- The operations performed outside `durable_invoke`. -/
def outsider (c : Call) : Bool :=
  c.human || match c with
    | .markUncertain .. => true
    | _ => false

/-- The calls of `durable_invoke` for the task `k`. -/
def lts (k : TaskKey) : Lts Sys Label where
  step s l s' := match l with
    | .act i a => (∃ pc, a.next k s.base.uuids s.base.db (s.pcs i) = some pc ∧
          s'.pcs = Function.update s.pcs i pc) ∧
        s'.skillRuns = s.skillRuns + a.runs (s.pcs i) ∧
        (match a.call k (s.pcs i) with
          | some c => TaskSys.lts.step s.base c s'.base
          | none => s'.base = s.base)
    | .outside c => outsider c = true ∧ TaskSys.lts.step s.base c s'.base ∧
        s'.pcs = s.pcs ∧ s'.skillRuns = s.skillRuns

/-- A new database, and no call. -/
def Initial (s : Sys) : Prop := s.base.Initial ∧ s.pcs = (fun _ => .idle) ∧ s.skillRuns = 0

end Durable

end PythonAI
