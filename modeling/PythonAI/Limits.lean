import Mathlib.Data.Int.Notation
import PythonAI.Errors
import PythonAI.Library.Txn

/-!
# Limits read from the environment

`positive_limit` reads a limit from a variable of the environment each time it is needed.
-/

namespace PythonAI

open Library

/-- `os.environ`: the value of a variable as an integer, if it is one. -/
abbrev Environment := String → Option (Option ℤ)

/-- `positive_limit`. -/
def positiveLimit (env : Environment) (name : String) (default : ℕ) : Except Error ℕ := do
  let value ← require ((env name).getD (some default)) (.value "invalid literal for int()")
  ensure (0 < value) (.value (name ++ " must be positive"))
  pure value.toNat

/-- The characters of a hexadecimal digest. -/
def hexDigit (c : Char) : Bool := c ∈ "0123456789abcdef".toList

/-- A text of `n` hexadecimal digits. -/
def isHex (n : ℕ) (s : String) : Bool := s.length = n && s.toList.all hexDigit

end PythonAI
