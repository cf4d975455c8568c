import Mathlib.Data.List.DropRight
import Mathlib.Data.List.TakeDrop
import Mathlib.Tactic.Common

/-!
# Texts that carry several values

The words of a text, and two ways to put values into one text, with the condition under which they
come back.

* `isSpace` : the white space of Unicode, which `strip` takes from the ends of a text and which
  separates its `words`;
* `splitFirst` : the parts of a text around the first occurrence of a character;
* `Json` : a writer and a reader of flat objects, where the reader undoes the writer;
* `Json.plain` : the format with quoted texts, a backslash before a quote or a backslash, and
  `null`.
-/

namespace Library

/-! ### White space -/

/-- The character separates words: it is in the category `Zs`, or of one of the bidirectional types
`WS`, `B` and `S`. -/
def isSpace (c : Char) : Bool :=
  c ∈ ['\t', '\n', '\x0b', '\x0c', '\r', '\x1c', '\x1d', '\x1e', '\x1f', ' ', '\x85', '\xa0',
    '\u1680', '\u2000', '\u2001', '\u2002', '\u2003', '\u2004', '\u2005', '\u2006', '\u2007',
    '\u2008', '\u2009', '\u200a', '\u2028', '\u2029', '\u202f', '\u205f', '\u3000']

/-- The text without the white space at its ends. -/
def strip (s : String) : String :=
  String.ofList ((s.toList.dropWhile isSpace).rdropWhile isSpace)

/-- The parts of the text between white space. -/
def words (s : String) : List String :=
  ((s.toList.splitOnP isSpace).filter (· ≠ [])).map String.ofList

/-! ### Cutting -/

/-- The texts before and after the first `c`. -/
def splitFirst (c : Char) (s : String) : Option (String × String) :=
  if c ∈ s.toList then
    some (String.ofList (s.toList.takeWhile (· ≠ c)),
      String.ofList (s.toList.dropWhile (· ≠ c)).tail)
  else none

section

variable {c : Char} {s a b : String}

theorem splitFirst_append {l r : List Char} (h : c ∉ l) (hs : s.toList = l ++ c :: r) :
    splitFirst c s = some (String.ofList l, String.ofList r) := by
  have hall : ∀ x ∈ l, decide (x ≠ c) = true := fun x hx => decide_eq_true fun he => h (he ▸ hx)
  have hmem : c ∈ s.toList := by simp [hs]
  unfold splitFirst
  rw [if_pos hmem, hs, List.takeWhile_append_of_pos hall, List.dropWhile_append_of_pos hall]
  simp

/-- **A cut is the only way to write a text around a first `c`.** -/
theorem splitFirst_eq_some :
    splitFirst c s = some (a, b) ↔ s = a ++ String.singleton c ++ b ∧ c ∉ a.toList := by
  constructor
  · intro h
    have hmem : c ∈ s.toList := by
      by_contra hno
      rw [splitFirst, if_neg hno] at h
      cases h
    obtain ⟨l, r, hs, hl⟩ := List.eq_append_cons_of_mem hmem
    rw [splitFirst_append hl hs] at h
    cases h
    refine ⟨?_, by rwa [String.toList_ofList]⟩
    rw [← String.toList_inj, hs]
    simp
  · rintro ⟨rfl, ha⟩
    have hs : (a ++ String.singleton c ++ b).toList = a.toList ++ c :: b.toList := by simp
    rw [splitFirst_append ha hs, String.ofList_toList, String.ofList_toList]

end

/-! ### Flat objects -/

/-- A flat object: its keys, each with a text, or with a value that is no text. -/
abbrev Fields := List (String × Option String)

/-- A writer and a reader of flat objects. -/
structure Json where
  /-- the text of an object -/
  dumps : Fields → String
  /-- the object of a text, if it is one -/
  loads : String → Option Fields
  /-- the text of a list -/
  array : List (Option String) → String
  /-- the reader undoes the writer -/
  loads_dumps : ∀ o, loads (dumps o) = some o

namespace Json

/-! ### The plain format -/

/-- A text in quotes. -/
def quoted (s : List Char) : List Char :=
  '\x22' :: (s.flatMap fun c => if c = '\x22' ∨ c = '\\' then ['\\', c] else [c]) ++ ['\x22']

/-- The value of a key. -/
def value : Option String → List Char
  | none => "null".toList
  | some s => quoted s.toList

/-- The values, separated. -/
def items : List (List Char) → List Char
  | [] => []
  | [x] => x
  | x :: y :: xs => x ++ ',' :: ' ' :: items (y :: xs)

/-- A key with its value. -/
def field (f : String × Option String) : List Char :=
  quoted f.1.toList ++ ':' :: ' ' :: value f.2

/-- The text of an object. -/
def write (o : Fields) : List Char := '\x7b' :: items (o.map field) ++ ['\x7d']

/-- What is left of a text in quotes, after the first quote. -/
def readText : List Char → Option (List Char × List Char)
  | '\x22' :: r => some ([], r)
  | '\\' :: c :: r => (readText r).map fun x => (c :: x.1, x.2)
  | c :: r => (readText r).map fun x => (c :: x.1, x.2)
  | [] => none

/-- The value at the start of a text. -/
def readValue : List Char → Option (Option String × List Char)
  | 'n' :: 'u' :: 'l' :: 'l' :: r => some (none, r)
  | '\x22' :: r => (readText r).map fun x => (some (String.ofList x.1), x.2)
  | _ => none

/-- The key and the value at the start of a text. -/
def readField : List Char → Option ((String × Option String) × List Char)
  | '\x22' :: r =>
    match readText r with
    | some (k, ':' :: ' ' :: r) => (readValue r).map fun x => ((String.ofList k, x.1), x.2)
    | _ => none
  | _ => none

/-- The fields of a text; the fuel bounds their number. -/
def readFields : ℕ → List Char → Option Fields
  | 0, _ => none
  | n + 1, text =>
    match readField text with
    | some (f, [ '\x7d' ]) => some [f]
    | some (f, ',' :: ' ' :: r) => (readFields n r).map (f :: ·)
    | _ => none

/-- The object of a text. -/
def read : List Char → Option Fields
  | ['\x7b', '\x7d'] => some []
  | '\x7b' :: r => readFields r.length r
  | _ => none

theorem readText_quoted (s r : List Char) :
    readText ((s.flatMap fun c => if c = '\x22' ∨ c = '\\' then ['\\', c] else [c]) ++ '\x22' :: r) =
      some (s, r) := by
  induction s with
  | nil => rfl
  | cons c s ih =>
    rw [List.flatMap_cons, List.append_assoc]
    by_cases hc : c = '\x22' ∨ c = '\\'
    · rw [if_pos hc]
      simp only [List.cons_append, List.nil_append, readText, ih, Option.map_some]
    · rw [if_neg hc]
      obtain ⟨hquote, hslash⟩ := not_or.1 hc
      rw [List.cons_append, List.nil_append, readText, ih, Option.map_some]
      · exact hquote
      · exact fun c' r' hc' => absurd hc' hslash

theorem readValue_value (v : Option String) (r : List Char) :
    readValue (value v ++ r) = some (v, r) := by
  cases v with
  | none => rfl
  | some s =>
    have htext := readText_quoted s.toList r
    simp only [value, quoted, List.cons_append, List.append_assoc, List.nil_append, readValue, htext,
      Option.map_some, String.ofList_toList]

theorem readField_field (f : String × Option String) (r : List Char) :
    readField (field f ++ r) = some (f, r) := by
  obtain ⟨k, v⟩ := f
  have hkey := readText_quoted k.toList (':' :: ' ' :: (value v ++ r))
  simp only [field, quoted, List.cons_append, List.append_assoc, List.nil_append, readField, hkey,
    readValue_value, Option.map_some, String.ofList_toList]

/-- The fields come back, by induction on them. -/
theorem readFields_items {o : Fields} (ho : o ≠ []) {n : ℕ} (hn : o.length ≤ n) :
    readFields n (items (o.map field) ++ ['\x7d']) = some o := by
  induction o generalizing n with
  | nil => exact absurd rfl ho
  | cons f o ih =>
    obtain ⟨n, rfl⟩ := Nat.exists_eq_succ_of_ne_zero (Nat.ne_of_gt (Nat.lt_of_lt_of_le
      (Nat.succ_pos o.length) hn))
    cases o with
    | nil => simp only [List.map_cons, List.map_nil, items, readFields, readField_field]
    | cons g o =>
      have hrest := ih (by simp) (Nat.le_of_succ_le_succ hn)
      simp only [List.map_cons] at hrest
      simp only [List.map_cons, items, List.append_assoc, List.cons_append, readFields,
        readField_field, hrest, Option.map_some]

theorem length_le_items (o : Fields) : o.length ≤ (items (o.map field)).length := by
  induction o with
  | nil => exact Nat.le_refl 0
  | cons f o ih =>
    cases o with
    | nil => simp [items, field, quoted]
    | cons g o =>
      simp only [List.map_cons, items, List.length_append, List.length_cons] at ih ⊢
      omega

theorem read_write (o : Fields) : read (write o) = some o := by
  by_cases ho : o = []
  · subst ho
    rfl
  · have hlength := length_le_items o
    have hread := readFields_items ho (n := (items (o.map field) ++ ['\x7d']).length)
      (by rw [List.length_append]; omega)
    have hne : ¬ items (o.map field) ++ ['\x7d'] = ['\x7d'] := fun he => by
      have hpos := List.length_pos_iff.2 ho
      have hlen := congrArg List.length he
      simp only [List.length_append, List.length_cons, List.length_nil] at hlen
      omega
    show read ('\x7b' :: (items (o.map field) ++ ['\x7d'])) = _
    unfold read
    split
    · next heq => exact absurd (List.cons.inj heq).2 hne
    · next heq =>
      rw [← (List.cons.inj heq).2]
      exact hread
    · next hno => exact absurd rfl (hno _)

/-- The plain format. -/
def plain : Json where
  dumps o := String.ofList (write o)
  loads s := read s.toList
  array l := String.ofList ('[' :: items (l.map value) ++ [']'])
  loads_dumps o := by rw [String.toList_ofList, read_write]

end Json

end Library
