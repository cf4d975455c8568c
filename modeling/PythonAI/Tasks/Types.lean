import Mathlib.Order.Nat
import PythonAI.Errors
import PythonAI.Library.Table

/-!
# Tasks: the rows of the task database

The tables `tasks`, `task_steps`, `task_workspaces` and `conversation_resets` of `TaskStore`.
JSON columns are records of the fields the modelled functions read or write; the columns that
no modelled function reads (`updated`, the row ids) are left out.

Times are ticks of the clock.  A token is a `uuid4`: the system hands out each number once.
-/

namespace PythonAI

open Library

/-- An instant of `time.time()`. -/
abbrev Time := ℕ

/-- A value of `uuid.uuid4().hex`. -/
abbrev Token := ℕ

/-- `task_owner(context)`: the scope a task belongs to. -/
abbrev Owner := String

/-- The caller's task ID, unique in the owner's scope. -/
abbrev TaskId := String

/-- The primary key of `tasks`. -/
abbrev TaskKey := Owner × TaskId

/-- `tasks.state`. -/
inductive TaskState
  | pending | running | suspended | uncertain | completed | failed | cancelled
  deriving DecidableEq, Repr

/-- The states in `{'completed','failed','cancelled'}`. -/
def TaskState.terminal : TaskState → Bool
  | completed | failed | cancelled => true
  | _ => false

/-- `tasks.phase`: the last checkpoint. -/
inductive Phase
  | modelPending | modelReceived | toolStarted | toolDone
  | evaluationPending | evaluationDone | waitingUser | waitingApproval
  | stepReady | stepPreparing | temporalPending | temporalErasing
  | skillStarted | skillExecuted | skillDone
  /-- a phase of the attachment translation -/
  | translation (stage : String)
  deriving DecidableEq, Repr

/-- The phases in `{'tool_started','skill_started'}`: an effect may have begun. -/
def Phase.started : Phase → Bool
  | toolStarted | skillStarted => true
  | _ => false

/-- A chat message. -/
structure Message where
  role : String
  content : String
  /-- `tool_call_id`, of a message with role `tool` -/
  toolCallId : Option String := none
  /-- the ids of `tool_calls`, of a message with role `assistant` -/
  toolCalls : List String := []
  deriving DecidableEq, Repr

/-- The message that answers a tool call. -/
def Message.tool (callId content : String) : Message :=
  { role := "tool", content := content, toolCallId := some callId }

/-- An evaluation: what `TaskStore.finish` reads of it. -/
structure Evaluation where
  /-- `verified is True` -/
  verified : Bool
  evidence : List String
  /-- `criteria_met['source_evidence:public_web'] is True` -/
  sourceEvidence : Bool := false
  deriving DecidableEq, Repr

/-- The result of a skill. -/
structure SkillResult where
  success : Bool
  /-- `verification`, if the skill was verified -/
  verification : Option Evaluation := none
  /-- the rest of the result -/
  output : String := ""
  deriving DecidableEq, Repr

/-- The kinds of continuation steps. -/
inductive Kind
  | model | tool | evaluation | finalize | human
  deriving DecidableEq, Repr

/-- `tasks.checkpoint`: the saved progress of a task.  `none` is an absent key. -/
structure Checkpoint where
  messages : List Message
  /-- `kind`: `skill` for a directly invoked skill -/
  kind : Option String := none
  skillResult : Option SkillResult := none
  /-- `evaluation`; an empty evaluation counts as absent -/
  evaluation : Option Evaluation := none
  suspendedToolCallId : Option String := none
  /-- `human_resolution`: the call id and the observed result -/
  humanResolution : Option (String × String) := none
  nextKind : Option Kind := none
  iteration : Option ℕ := none
  modelAttempt : Option ℕ := none
  evalRetries : Option ℕ := none
  deriving DecidableEq, Repr

/-- `tasks.criteria`: the acceptance contract. -/
structure Criteria where
  goal : Option String := none
  checks : List String := []
  deriving DecidableEq, Repr

/-- `tasks.verification`. -/
inductive Verification
  | unverified | verifiedCompleted
  deriving DecidableEq, Repr

/-- A row of `tasks`. -/
structure TaskRow where
  goal : String
  criteria : Criteria
  state : TaskState
  phase : Phase
  checkpoint : Checkpoint
  episode : Option ℕ := none
  reply : Option String := none
  leaseOwner : Option Token := none
  leaseUntil : Option Time := none
  attempts : ℕ := 0
  recoveries : ℕ := 0
  verification : Verification := .unverified
  deriving DecidableEq, Repr

/-- `task_steps.state`. -/
inductive StepState
  | running | completed | failed | resolvedByHuman
  deriving DecidableEq, Repr

/-- A row of `task_steps`. -/
structure StepRow where
  name : String
  /-- `input`: the arguments of the call -/
  input : String
  dependencies : List String := []
  state : StepState
  result : Option String := none
  deriving DecidableEq, Repr

/-- The `step` argument of a checkpoint: the step's id and its row. -/
structure StepRecord where
  id : String
  /-- `name`, `arguments`, `dependencies`, `state` and `result` -/
  row : StepRow
  deriving DecidableEq, Repr

/-- A row of `task_workspaces`. -/
structure WorkspaceRow where
  repository : String
  storage : String
  deriving DecidableEq, Repr

/-- The task database. -/
structure TaskDb where
  tasks : Table TaskKey TaskRow
  /-- `task_steps`, keyed by the task and the step id -/
  steps : Table (TaskKey × String) StepRow
  /-- `task_workspaces` -/
  workspaces : Table TaskKey WorkspaceRow
  /-- `conversation_resets`: when each owner's session was last cleared -/
  resets : Table Owner Time

/-- The database `TaskStore` creates. -/
def TaskDb.empty : TaskDb := ⟨.empty, .empty, .empty, .empty⟩

/-- `lease_until > t`; a missing lease is not unexpired. -/
def TaskRow.leased (row : TaskRow) (t : Time) : Bool := row.leaseUntil.any (t < ·)

/-- `lease_owner = token AND lease_until > t`: the lease a worker proves it holds. -/
def TaskRow.heldBy (row : TaskRow) (token : Token) (t : Time) : Bool :=
  row.leaseOwner = some token && row.leased t

/-- The row without a lease. -/
def TaskRow.release (row : TaskRow) : TaskRow := { row with leaseOwner := none, leaseUntil := none }

theorem TaskRow.heldBy_iff {row : TaskRow} {token : Token} {t : Time} :
    row.heldBy token t = true ↔ row.leaseOwner = some token ∧ row.leased t = true := by
  simp [heldBy]

theorem TaskRow.leased_iff {row : TaskRow} {t : Time} :
    row.leased t = true ↔ ∃ u, row.leaseUntil = some u ∧ t < u := by
  simp [leased, Option.any_eq_true]

/-- A lease that has expired stays expired. -/
theorem TaskRow.leased_anti {row : TaskRow} {t t' : Time} (h : t ≤ t') (hl : row.leased t' = true) :
    row.leased t = true := by
  obtain ⟨u, hu, ht⟩ := leased_iff.1 hl
  exact leased_iff.2 ⟨u, hu, lt_of_le_of_lt h ht⟩

end PythonAI
