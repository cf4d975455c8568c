import Mathlib.Algebra.Order.Ring.Unbundled.Rat
import PythonAI.Library.Records
import PythonAI.Tasks.Types

/-!
# Task budgets: the rows of the budget tables

The tables `task_budgets`, `budget_calls` and `budget_rates`, and the `TaskBudget` of a process.
The limits of a budget are written once, when its row is inserted; a `TaskBudget` reads them back.
Costs are rational numbers; tokens are what `Integer64` says of an integer column.
-/

namespace PythonAI

open Library

namespace Budgets

/-- What `float` makes of a text or of a JSON value. -/
inductive Numeral
  /-- a finite number -/
  | finite (q : ℚ)
  /-- `inf` or `nan` -/
  | infinite
  /-- `float` raises -/
  | invalid
  deriving DecidableEq, Repr

/-- The value of `AGENT_MODEL_RATES`, if it is an object: for each model, `input` and `output` of
its entry (`-1` if it has none), if the entry is an object. -/
abbrev Rates := List (String × Option (Numeral × Numeral))

/-- The environment of a process. -/
structure Environ where
  /-- the numbers of the variables that are set -/
  get : String → Option Numeral := fun _ => none
  /-- `json.loads` of the rates: it may raise, and it may be no object -/
  rates : Except Error (Option Rates) := .ok (some [])

/-- `task_budgets.limits`. -/
structure Limits where
  tokens : ℕ
  requests : ℕ
  children : ℕ
  depth : ℕ
  /-- `cost`; `0` is no limit -/
  cost : ℚ
  output : ℕ
  /-- `rates`, if it is an object -/
  rates : Option Rates
  deriving DecidableEq, Repr

/-- A row of `task_budgets`. -/
structure Budget where
  deadline : Time
  limits : Limits
  requests : ℕ := 0
  tokens : ℤ := 0
  cost : ℚ := 0
  children : ℕ := 0
  deriving DecidableEq, Repr

/-- `budget_calls.status`. -/
inductive Status
  | reserved | reported
  deriving DecidableEq, Repr

/-- A row of `budget_calls`. -/
structure ModelCall where
  id : Token
  /-- `owner` and `task_id` -/
  budget : TaskKey
  tokens : ℤ
  cost : ℚ
  status : Status
  deriving DecidableEq, Repr

/-- The budget tables. -/
structure Db where
  /-- `task_budgets` -/
  budgets : Table TaskKey Budget
  /-- `budget_calls` -/
  calls : List ModelCall
  /-- `budget_rates`: the rates a call was reserved with -/
  rates : Table Token (ℚ × ℚ)

/-- New tables. -/
def Db.empty : Db := ⟨.empty, [], .empty⟩

/-- The calls of a budget. -/
def Db.callsOf (db : Db) (k : TaskKey) : List ModelCall := db.calls.filter (·.budget = k)

/-- A `TaskBudget`: the limits it has read. -/
structure TaskBudget where
  /-- `owner` and `key` -/
  key : TaskKey
  /-- the limits of the row -/
  limits : Limits
  rates : Rates
  deriving DecidableEq, Repr

/-- An attribute of a usage object. -/
inductive Attr
  | missing
  | int (n : ℤ)
  | bool (b : Bool)
  | other
  deriving DecidableEq, Repr

/-- The value of an attribute that is an `int`; a `bool` is one. -/
def Attr.asInt : Attr → Option ℤ
  | int n => some n
  | bool b => some b.toNat
  | _ => none

/-- `getattr(usage, name, getattr(usage, other, None))`. -/
def Attr.orElse (x y : Attr) : Attr := if x = .missing then y else x

/-- The usage that a provider reports. -/
structure Usage where
  /-- `total_tokens` -/
  total : Attr := .missing
  /-- `prompt_tokens` -/
  prompt : Attr := .missing
  /-- `input_tokens` -/
  input : Attr := .missing
  /-- `completion_tokens` -/
  completion : Attr := .missing
  deriving DecidableEq, Repr

end Budgets

end PythonAI
