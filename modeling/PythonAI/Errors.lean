import Mathlib.Tactic.Common

/-!
# The exceptions of the modelled operations

Every exception is one constructor, with the text the source raises it with.
-/

namespace PythonAI

/-- An exception: its class, and its message. -/
inductive Error
  /-- `ValueError` -/
  | value (message : String)
  /-- `KeyError` -/
  | missing (key : String)
  /-- `PermissionError` -/
  | permission (message : String)
  /-- `InterruptedError` -/
  | interrupted (message : String)
  /-- `RuntimeError` -/
  | runtime (message : String)
  /-- `CapacityError` -/
  | capacity (message : String)
  /-- `TaskBusy` -/
  | busy (message : String)
  /-- `RecoveryRequired` -/
  | recovery (message : String)
  /-- `OperationUncertain` -/
  | uncertain (message : String)
  /-- `BudgetExhausted` -/
  | exhausted (message : String)
  /-- `sqlite3.IntegrityError` -/
  | integrity (constraint : String)
  /-- `TypeError` -/
  | type (message : String)
  /-- `OverflowError` -/
  | overflow (message : String)
  deriving DecidableEq, Repr

end PythonAI
