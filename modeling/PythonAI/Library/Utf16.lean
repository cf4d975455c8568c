import Mathlib.Data.List.Basic

/-!
# UTF-16

A character beyond the basic plane is encoded by a pair of surrogates, every other one by its own
number.  Code units are numbers below `0x10000`.
-/

namespace Library

namespace Utf16

/-- The code units of a character. -/
def units (c : Char) : List ℕ :=
  if c.toNat < 0x10000 then [c.toNat]
  else [0xD800 + (c.toNat - 0x10000) / 0x400, 0xDC00 + (c.toNat - 0x10000) % 0x400]

/-- The code units of a text. -/
def encode (text : List Char) : List ℕ := text.flatMap units

/-- The text of code units; a surrogate that is alone has none. -/
def decode : List ℕ → Option (List Char)
  | [] => some []
  | u :: us =>
    if 0xD800 ≤ u ∧ u < 0xDC00 then
      match us with
      | [] => none
      | w :: ws =>
        if 0xDC00 ≤ w ∧ w < 0xE000 then
          (decode ws).map (Char.ofNat (0x10000 + (u - 0xD800) * 0x400 + (w - 0xDC00)) :: ·)
        else none
    else if 0xDC00 ≤ u ∧ u < 0xE000 then none
    else (decode us).map (Char.ofNat u :: ·)

variable {c : Char} {text : List Char} {us : List ℕ}

theorem length_units_pos : 0 < (units c).length := by
  unfold units
  split_ifs
  · exact Nat.zero_lt_succ _
  · exact Nat.zero_lt_succ _

theorem encode_cons : encode (c :: text) = units c ++ encode text := rfl

theorem length_encode_cons : (encode (c :: text)).length = (units c).length + (encode text).length := by
  rw [encode_cons, List.length_append]

theorem decode_units : decode (units c ++ us) = (decode us).map (c :: ·) := by
  have hvalid : c.toNat < 0xD800 ∨ 0xDFFF < c.toNat ∧ c.toNat < 0x110000 := c.valid
  unfold units
  by_cases hc : c.toNat < 0x10000
  · rw [if_pos hc, List.singleton_append, decode.eq_def]
    dsimp only
    rw [if_neg (by omega), if_neg (by omega), Char.ofNat_toNat]
  · have hnat : 0x10000 + (0xD800 + (c.toNat - 0x10000) / 0x400 - 0xD800) * 0x400 +
        (0xDC00 + (c.toNat - 0x10000) % 0x400 - 0xDC00) = c.toNat := by
      omega
    rw [if_neg hc, List.cons_append, List.singleton_append, decode, if_pos (by omega),
      if_pos (by omega), hnat, Char.ofNat_toNat]

/-- Decoding gives the text back. -/
theorem decode_encode (text : List Char) : decode (encode text) = some text := by
  induction text with
  | nil => rfl
  | cons c text ih =>
    rw [encode_cons, decode_units, ih]
    rfl

/-- The code units of a beginning of a text are the beginning of its code units. -/
theorem take_encode (text : List Char) (k : ℕ) :
    (encode text).take (encode (text.take k)).length = encode (text.take k) := by
  have hsplit : encode text = encode (text.take k) ++ encode (text.drop k) := by
    rw [encode, encode, encode, ← List.flatMap_append, List.take_append_drop]
  rw [hsplit, List.take_left]

theorem length_encode_take_le (text : List Char) (k : ℕ) :
    (encode (text.take k)).length ≤ (encode text).length := by
  rw [← take_encode, List.length_take]
  exact Nat.min_le_right ..

end Utf16

end Library
