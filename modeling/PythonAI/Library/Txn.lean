import Mathlib.Tactic.Common

/-!
# Transactions

A transaction is a function that reads the database and returns either an error or the new
database with a value.  An error rolls back: `settle` is the database afterwards.  A transaction
that `Replays` a value writes nothing.
-/

namespace Library

universe u

variable {ε α β σ : Type u}

/-- Raises `e` unless `c` holds. -/
def ensure (c : Bool) (e : ε) : Except ε Unit := if c then .ok () else .error e

@[simp] theorem ensure_eq_ok {c : Bool} {e : ε} {u : Unit} : ensure c e = .ok u ↔ c = true := by
  cases c <;> simp [ensure]

theorem ensure_eq_error {c : Bool} {e e' : ε} : ensure c e = .error e' ↔ c = false ∧ e = e' := by
  cases c <;> simp [ensure]

@[simp] theorem ensure_true {e : ε} : ensure true e = .ok () := rfl

@[simp] theorem ensure_false {e : ε} : ensure false e = .error e := rfl

/-- A sequence succeeds iff its parts do. -/
@[simp] theorem bind_eq_ok {x : Except ε α} {f : α → Except ε β} {b : β} :
    (x >>= f) = .ok b ↔ ∃ a, x = .ok a ∧ f a = .ok b := by
  cases x with
  | error e => simp [bind, Except.bind]
  | ok a => simp [bind, Except.bind]

/-- A sequence fails iff one of its parts does. -/
theorem bind_eq_error {x : Except ε α} {f : α → Except ε β} {e : ε} :
    (x >>= f) = .error e ↔ x = .error e ∨ ∃ a, x = .ok a ∧ f a = .error e := by
  cases x with
  | error e' => simp [bind, Except.bind]
  | ok a => simp [bind, Except.bind]

@[simp] theorem pure_eq_ok {a b : α} : (pure a : Except ε α) = .ok b ↔ a = b := by
  simp [pure, Except.pure]

/-- The value an optional lookup must find. -/
def require (x : Option α) (e : ε) : Except ε α :=
  match x with
  | some a => .ok a
  | none => .error e

@[simp] theorem require_eq_ok {x : Option α} {e : ε} {a : α} :
    require x e = .ok a ↔ x = some a := by
  cases x <;> simp [require]

theorem require_eq_error {x : Option α} {e e' : ε} :
    require x e = .error e' ↔ x = none ∧ e = e' := by
  cases x <;> simp [require]

/-- The database after a transaction: its result, or the old one when it raised. -/
def settle (db : σ) : Except ε (σ × α) → σ
  | .ok (db', _) => db'
  | .error _ => db

@[simp] theorem settle_error (db : σ) (e : ε) : settle db (.error e : Except ε (σ × α)) = db := rfl

@[simp] theorem settle_ok (db db' : σ) (a : α) :
    settle db (.ok (db', a) : Except ε (σ × α)) = db' := rfl

/-- The new database of a transaction, without the value it returns. -/
def outcome : Except ε (σ × α) → Except ε σ
  | .ok (db', _) => .ok db'
  | .error e => .error e

@[simp] theorem outcome_eq_ok {r : Except ε (σ × α)} {db' : σ} :
    outcome r = .ok db' ↔ ∃ a, r = .ok (db', a) := by
  rcases r with e | ⟨db, a⟩ <;> simp [outcome]

theorem outcome_eq_error {r : Except ε (σ × α)} {e : ε} :
    outcome r = .error e ↔ r = .error e := by
  rcases r with e' | ⟨db, a⟩ <;> simp [outcome]

/-- The database after a transaction that gives `r`. -/
def commit (db : σ) : Except ε σ → σ
  | .ok db' => db'
  | .error _ => db

@[simp] theorem commit_ok (db db' : σ) : commit db (.ok db' : Except ε σ) = db' := rfl

@[simp] theorem commit_error (db : σ) (e : ε) : commit db (.error e) = db := rfl

/-- What holds of the old database and of every committed one holds after the transaction. -/
theorem commit_of {P : σ → Prop} {db : σ} {r : Except ε σ} (h : P db)
    (hr : ∀ db', r = .ok db' → P db') : P (commit db r) := by
  cases r with
  | error e => exact h
  | ok db' => exact hr db' rfl

/-- What holds of the old database and of every successful result holds after the transaction. -/
theorem settle_of {P : σ → Prop} {db : σ} {r : Except ε (σ × α)} (h : P db)
    (hr : ∀ db' a, r = .ok (db', a) → P db') : P (settle db r) := by
  cases r with
  | error e => exact h
  | ok x => exact hr x.1 x.2 rfl

/-- The transaction returns `x` and writes nothing where `p` holds, and raises elsewhere. -/
def Replays (p : Prop) (db : σ) (r : Except ε (σ × α)) (x : α) : Prop :=
  (p → r = .ok (db, x)) ∧ (¬ p → ∃ e, r = .error e)

/-- A transaction whose success needs `p`. -/
theorem Replays.of_ok {p : Prop} {db : σ} {r : Except ε (σ × α)} {x : α}
    (h : p → r = .ok (db, x)) (hneed : ∀ y, r = .ok y → p) : Replays p db r x := by
  refine ⟨h, fun hp => ?_⟩
  cases r with
  | error e => exact ⟨e, rfl⟩
  | ok y => exact absurd (hneed y rfl) hp

/-! ### The exceptions of a transaction -/

section

variable {ε α β : Type}

/-- Every exception of `x` satisfies `p`. -/
def Raises (p : ε → Prop) (x : Except ε α) : Prop := ∀ e, x = .error e → p e

namespace Raises

variable {p : ε → Prop}

theorem ok (a : α) : Raises p (.ok a) := fun _ h => by cases h

theorem error {e : ε} (h : p e) : Raises p (.error e : Except ε α) := fun _ h' => by
  cases h'; exact h

theorem ensure {c : Bool} {e : ε} (h : p e) : Raises p (ensure c e) := by
  cases c
  · exact error h
  · exact ok _

theorem require {x : Option α} {e : ε} (h : p e) : Raises p (require x e) := by
  cases x
  · exact error h
  · exact ok _

/-- A sequence raises what its parts raise; the second part may use the value of the first. -/
theorem bind {x : Except ε α} {f : α → Except ε β} (hx : Raises p x)
    (hf : ∀ a, x = .ok a → Raises p (f a)) : Raises p (x >>= f) := by
  cases x with
  | error e => exact error (hx e rfl)
  | ok a => exact hf a rfl

theorem ite {c : Prop} [Decidable c] {x y : Except ε α} (hx : c → Raises p x)
    (hy : ¬ c → Raises p y) : Raises p (if c then x else y) := by
  split_ifs with h
  · exact hx h
  · exact hy h

end Raises

end

end Library
