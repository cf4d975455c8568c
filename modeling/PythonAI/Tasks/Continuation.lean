import PythonAI.Library.Txn
import PythonAI.Tasks.Types

/-!
# Continuation control of a saved turn

Which step a saved conversation continues with: the tool calls of the last assistant message
that have no result yet, or the next kind of step.
-/

namespace PythonAI

open Library

/-- The calls of the last assistant message, and the call ids answered after it. -/
def assistantFrontier (messages : List Message) : List String × List String :=
  let last := messages.reverse.dropWhile (·.role ≠ "assistant")
  let after := messages.reverse.takeWhile (·.role ≠ "assistant")
  match last with
  | [] => ([], [])
  | message :: _ =>
    (message.toolCalls, (after.filter (·.role = "tool")).filterMap (·.toolCallId))

/-- The calls of the last assistant message that are not answered. -/
def pendingCalls (messages : List Message) : List String :=
  (assistantFrontier messages).1.filter (· ∉ (assistantFrontier messages).2)

/-- The kinds in `KINDS`: the steps that perform I/O. -/
def Kind.io : Kind → Bool
  | model | tool | evaluation => true
  | _ => false

/-- `next_kind`: the step after a completed boundary. -/
def nextKind (phase : Phase) (saved : Checkpoint) : Except Error Kind :=
  match phase with
  | .stepReady => require (saved.nextKind.filter (·.io)) (.value "Invalid next continuation kind")
  | .evaluationDone => .ok .evaluation
  | .modelReceived =>
    .ok (if pendingCalls saved.messages = [] then .evaluation else .tool)
  | .toolDone => .ok (if pendingCalls saved.messages = [] then .model else .tool)
  | _ => .error (.value "Not a completed step boundary")

end PythonAI
