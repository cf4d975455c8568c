import PythonAI.Library.Integer64
import PythonAI.Library.Txn
import PythonAI.Budgets.Types

/-!
# `TaskBudget`: the operations on budgets

Model calls reserve their tokens and their cost before they are made, and reconcile them with the
usage that the provider reports; children are counted when they are admitted.  Each operation is
one transaction.
-/

namespace PythonAI

open Library

namespace Budgets

/-- `numeric`. -/
def numeric (env : Environ) (name : String) (default : ℚ) (allowZero : Bool) : Except Error ℚ :=
  match (env.get name).getD (.finite default) with
  | .finite q => do
    ensure (!(q < 0 || (q = 0 && !allowZero))) (.value (name ++ " must be finite and positive"))
    pure q
  | .infinite => .error (.value (name ++ " must be finite and positive"))
  | .invalid => .error (.value "could not convert string to float")

/-- `int(numeric(…))`. -/
def count (env : Environ) (name : String) (default : ℚ) (allowZero : Bool) : Except Error ℕ := do
  let q ← numeric env name default allowZero
  pure q.floor.toNat

/-- The limits that a process would write. -/
def limitsOf (env : Environ) : Except Error Limits := do
  let tokens ← count env "AGENT_TASK_MAX_TOKENS" 256000 false
  let requests ← count env "AGENT_TASK_MAX_REQUESTS" 24 false
  let children ← count env "AGENT_TASK_MAX_CHILDREN" 4 true
  let depth ← count env "AGENT_TASK_MAX_DEPTH" 2 true
  let cost ← numeric env "AGENT_TASK_MAX_COST_USD" 0 true
  let output ← count env "AGENT_MODEL_MAX_OUTPUT_TOKENS" 1024 false
  let _ ← count env "AGENT_MODEL_CONCURRENCY" 4 false
  let rates ← env.rates
  pure ⟨tokens, requests, children, depth, cost, output, rates⟩

namespace TaskBudget

/-- The transaction of `__init__`, at time `t`: `stored` is the number of budgets. -/
def create (env : Environ) (k : TaskKey) (stored : ℕ) (t : Time) (db : Db) :
    Except Error (Db × Unit) := do
  let limits ← limitsOf env
  let room : Except Error Unit := if (db.budgets k).isNone then do
      let limit ← count env "AGENT_TASK_LIMIT" 10000 false
      ensure (stored < limit) (.exhausted "Task budget storage limit reached")
    else .ok ()
  room
  let seconds ← count env "AGENT_TASK_DEADLINE_SECONDS" 600 false
  match db.budgets k with
  | some _ => pure (db, ())
  | none => pure ({ db with budgets := db.budgets.set k ⟨t + seconds, limits, 0, 0, 0, 0⟩ }, ())

/-- The last lines of `__init__`: the limits are those of the row. -/
def load (k : TaskKey) (db : Db) : Except Error TaskBudget := do
  let row ← require (db.budgets k) (.type "'NoneType' object is not iterable")
  let rates ← require row.limits.rates (.value "AGENT_MODEL_RATES must be an object")
  pure ⟨k, row.limits, rates⟩

/-- The cost is above the limit. -/
def overCost (b : TaskBudget) (cost : ℚ) : Bool := b.limits.cost ≠ 0 && b.limits.cost < cost

/-- `check`, at time `t`; `active` is the outcome of `assert_owner_active`. -/
def check (b : TaskBudget) (active : Bool) (t : Time) (db : Db) : Except Error Unit := do
  ensure active (.permission "Conversation is deleting or deleted; execution refused")
  let row ← require (db.budgets b.key) (.type "'NoneType' object is not iterable")
  ensure (t < row.deadline) (.exhausted "Task deadline exhausted")
  ensure (!(b.limits.tokens < row.tokens || b.overCost row.cost))
    (.exhausted "Task token/cost budget exceeded")

/-- A child at `depth` may be added to the row. -/
def admits (b : TaskBudget) (row : Budget) (tooDeep : Bool) (t : Time) : Except Error Unit :=
  ensure (!(row.deadline ≤ t || b.limits.children ≤ row.children || tooDeep))
    (.exhausted "Task child count/depth/deadline budget exhausted")

/-- The row with one more child. -/
def addChild (k : TaskKey) (db : Db) : Db :=
  { db with
    budgets := db.budgets.update k (fun _ => true) fun row =>
      { row with children := row.children + 1 } }

/-- `reserve_child`. -/
def reserveChild (b : TaskBudget) (depth : ℕ) (t : Time) (db : Db) : Except Error (Db × Unit) := do
  let row ← require (db.budgets b.key) (.type "'NoneType' object is not subscriptable")
  b.admits row (b.limits.depth ≤ depth) t
  pure (addChild b.key db, ())

/-- The rates of a model, which a cost limit requires. -/
def rateOf (b : TaskBudget) (model : String) : Except Error (ℚ × ℚ) :=
  match (b.rates.lookup model).join with
  | none => .error (.exhausted "Cost cap requires configured rates for this model")
  | some (.finite i, .finite o) => do
    ensure (0 ≤ i && 0 ≤ o)
      (.value "Model rates must be finite nonnegative USD per million tokens")
    pure (i, o)
  | some (.invalid, _) | some (_, .invalid) => .error (.value "could not convert string to float")
  | some _ => .error (.value "Model rates must be finite nonnegative USD per million tokens")

/-- The cost of a call. -/
def price (rates : ℚ × ℚ) (prompt output : ℤ) : ℚ :=
  (prompt * rates.1 + output * rates.2) / 1000000

/-- The rates that a call is reserved with, if there is a cost limit. -/
def rated (b : TaskBudget) (model : String) : Except Error (Option (ℚ × ℚ)) :=
  if b.limits.cost = 0 then .ok none else do
    let rates ← b.rateOf model
    pure (some rates)

/-- The cost that is reserved. -/
def reservedCost (rates : Option (ℚ × ℚ)) (prompt output : ℤ) : ℚ :=
  (rates.map fun r => price r prompt output).getD 0

/-- `sqlite3` cannot bind the parameter. -/
def unbindable : Error := .overflow "Python int too large to convert to SQLite INTEGER"

/-- `reserve`, at time `t`, with the id `key` of the call. -/
def reserve (b : TaskBudget) (model : String) (prompt output : ℤ) (key : Token) (t : Time)
    (db : Db) : Except Error (Db × Token) := do
  let rates ← b.rated model
  let cost := reservedCost rates prompt output
  let row ← require (db.budgets b.key) (.type "'NoneType' object is not subscriptable")
  ensure (t < row.deadline && row.requests < b.limits.requests &&
      Integer64.sum row.tokens (prompt + output) ≤ b.limits.tokens && !b.overCost (row.cost + cost))
    (.exhausted "Task budget exhausted")
  ensure (Integer64.Fits (prompt + output)) unbindable
  ensure (!db.calls.any (·.id = key)) (.integrity "budget_calls.id")
  pure ({ budgets := db.budgets.update b.key (fun _ => true) fun row =>
            { row with
              requests := row.requests + 1
              tokens := Integer64.add row.tokens (prompt + output)
              cost := row.cost + cost }
          calls := db.calls ++ [⟨key, b.key, prompt + output, cost, .reserved⟩]
          rates := (rates.map (db.rates.set key)).getD db.rates }, key)

/-- The cost that a usage reports, if it reports its prompt. -/
def reportedCost (rates : Option (ℚ × ℚ)) (usage : Usage) (total : ℤ) : Option ℚ :=
  match rates, (usage.prompt.orElse usage.input).asInt with
  | some rates, some prompt =>
    if 0 ≤ prompt then
      let output := match usage.completion.asInt with
        | some n => if 0 ≤ n then n else max 0 (total - prompt)
        | none => max 0 (total - prompt)
      some (price rates prompt output)
    else none
  | _, _ => none

/-- The tokens that a report charges: a partial one cannot refund. -/
def charged (settle : Bool) (total tokens : ℤ) : ℤ := if settle then total else max total tokens

/-- The cost that a report charges. -/
def chargedCost (b : TaskBudget) (reported : Option ℚ) (cost : ℚ) : ℚ :=
  if b.limits.cost = 0 then cost else (reported.map (max cost)).getD cost

/-- The row of a call after a report. -/
def settled (settle : Bool) (tokens : ℤ) (cost : ℚ) (c : ModelCall) : ModelCall :=
  { c with
    status := if settle then .reported else .reserved
    tokens := tokens
    cost := cost }

/-- The call that `reconcile` finds. -/
def openCall (b : TaskBudget) (key : Token) (db : Db) : Option ModelCall :=
  db.calls.find? fun c => c.id = key && c.budget = b.key && c.status = .reserved

/-- The database after a report for the call `c`. -/
def report (b : TaskBudget) (c : ModelCall) (usage : Usage) (total : ℤ) (settle : Bool) (db : Db) :
    Db :=
  let tokens := charged settle total c.tokens
  let cost := b.chargedCost (reportedCost (db.rates c.id) usage total) c.cost
  { db with
    budgets := db.budgets.update b.key (fun _ => true) fun row =>
      { row with
        tokens := Integer64.add row.tokens (tokens - c.tokens)
        cost := row.cost + (cost - c.cost) }
    calls := db.calls.map fun x => if x.id = c.id then settled settle tokens cost x else x }

/-- The report can be written: the tokens and the difference to those of the call can be bound. -/
def Bindable (settle : Bool) (total : ℤ) (c : ModelCall) : Prop :=
  Integer64.Fits (charged settle total c.tokens - c.tokens) ∧
    Integer64.Fits (charged settle total c.tokens)

instance (settle : Bool) (total : ℤ) (c : ModelCall) : Decidable (Bindable settle total c) :=
  inferInstanceAs (Decidable (_ ∧ _))

/-- The budget is exceeded. -/
def exceeded (b : TaskBudget) (db : Db) : Bool :=
  (db.budgets b.key).any fun row => (b.limits.tokens : ℤ) < row.tokens || b.overCost row.cost

/-- `reconcile`: the report is committed before an exceeded budget raises. -/
def reconcile (b : TaskBudget) (key : Token) (usage : Option Usage) (settle : Bool) (db : Db) :
    Db × Except Error Unit :=
  match usage with
  | none => (db, .ok ())
  | some usage =>
    match usage.total with
    | .int total =>
      if total < 0 then (db, .ok ())
      else match b.openCall key db with
        | none => (db, .ok ())
        | some c =>
          if Bindable settle total c then
            let db := b.report c usage total settle db
            (db, ensure (!b.exceeded db) (.exhausted
              "Provider usage exceeded reserved token budget; refusing further tools"))
          else (db, .error unbindable)
    | _ => (db, .ok ())

end TaskBudget

end Budgets

end PythonAI
