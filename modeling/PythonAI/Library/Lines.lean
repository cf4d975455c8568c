import Mathlib.Algebra.GroupWithZero.Nat
import Mathlib.Data.List.Basic

/-!
# The lines of a text

A convention says which characters end a line; a carriage return and the line feed after it end one
line together.  `Convention.locate` is the line and the column of an offset.  Two conventions number
the characters of a text differently as soon as one of them ends a line at a character and the
other does not (`Convention.locate_eq_iff`).
-/

namespace Library

/-- The characters that end a line. -/
structure Convention where
  /-- the character ends a line -/
  ends : Char → Bool
  /-- a line feed does in every convention -/
  newline : ends '\n' = true

/-- A line of a text. -/
structure Line where
  /-- its characters -/
  text : List Char
  /-- what ends it: nothing, one character, or a carriage return with a line feed -/
  ending : List Char
  deriving DecidableEq, Repr

namespace Line

/-- The number of characters with those that end the line. -/
def size (l : Line) : ℕ := l.text.length + l.ending.length

/-- The line with a character in front of it. -/
def cons (c : Char) (l : Line) : Line := ⟨c :: l.text, l.ending⟩

/-- The empty line with a character in front of its end. -/
def lead (c : Char) (l : Line) : Line := ⟨l.text, c :: l.ending⟩

end Line

namespace Convention

/-- `str.splitlines` of Python. -/
def python : Convention where
  ends c := c ∈ ['\n', '\r', '\x0b', '\x0c', '\x1c', '\x1d', '\x1e', '\x85', '\u2028', '\u2029']
  newline := rfl

/-- The Language Server Protocol. -/
def lsp : Convention where
  ends c := c = '\n' || c = '\r'
  newline := rfl

/-- Only a line feed ends a line. -/
def feed : Convention where
  ends c := c = '\n'
  newline := rfl

variable (v : Convention)

/-- A line ends with the character `c` before `rest`; a carriage return before a line feed leaves
that to the line feed. -/
def stops (c : Char) (rest : List Char) : Bool :=
  v.ends c && !(c = '\r' && rest.head? = some '\n')

/-- The first of the lines is changed. -/
def onFirst (f : Line → Line) : List Line → List Line
  | [] => []
  | l :: ls => f l :: ls

/-- The lines of a text; the last one has no end. -/
def lines : List Char → List Line
  | [] => [⟨[], []⟩]
  | c :: rest =>
    if v.stops c rest then ⟨[], [c]⟩ :: lines rest
    else onFirst (if v.ends c then Line.lead c else Line.cons c) (lines rest)

/-- The line and the column of an offset, both from zero. -/
def locate : List Char → ℕ → ℕ × ℕ
  | [], p => (0, p)
  | _, 0 => (0, 0)
  | c :: rest, p + 1 =>
    match locate rest p with
    | (r, k) => if v.stops c rest then (r + 1, k) else if r = 0 then (0, k + 1) else (r, k)

/-- The offset `p` is the column `k` of the line `l` of the text, the line `r` of it. -/
def At (text : List Char) (r : ℕ) (l : Line) (k p : ℕ) : Prop :=
  ∃ before after, v.lines text = before ++ l :: after ∧ before.length = r ∧ k ≤ l.text.length ∧
    p = (before.map Line.size).sum + k

/-- Every line that ends before the offset `p` ends with a line feed. -/
def Plain : List Char → ℕ → Prop
  | [], _ => True
  | _, 0 => True
  | c :: rest, p + 1 => (v.stops c rest = true → c = '\n') ∧ Plain rest p

instance : ∀ text p, Decidable (v.Plain text p)
  | [], _ => isTrue trivial
  | _ :: _, 0 => isTrue trivial
  | c :: rest, p + 1 =>
    haveI := instDecidablePlain rest p
    inferInstanceAs (Decidable ((v.stops c rest = true → c = '\n') ∧ v.Plain rest p))

variable {v : Convention} {text rest : List Char} {c : Char} {r k p : ℕ} {l : Line}

theorem stops_newline : v.stops '\n' rest = true := by
  unfold stops
  rw [v.newline]
  rfl

theorem ends_of_stops (h : v.stops c rest = true) : v.ends c = true := (Bool.and_eq_true_iff.1 h).1

theorem feed_stops : feed.stops c rest = true ↔ c = '\n' := by
  constructor
  · exact fun h => of_decide_eq_true (ends_of_stops h)
  · rintro rfl
    exact stops_newline

/-- A carriage return that leaves the end to the line feed after it. -/
theorem head_of_not_stops (hs : ¬ v.stops c rest = true) (he : v.ends c = true) :
    c = '\r' ∧ rest.head? = some '\n' := by
  unfold stops at hs
  rw [he, Bool.true_and, Bool.not_eq_true', Bool.not_eq_false, Bool.and_eq_true] at hs
  exact ⟨of_decide_eq_true hs.1, of_decide_eq_true hs.2⟩

theorem lines_of_stops (h : v.stops c rest = true) :
    v.lines (c :: rest) = ⟨[], [c]⟩ :: v.lines rest := by
  rw [lines, if_pos h]

theorem lines_cons (v : Convention) (text : List Char) : ∃ l ls, v.lines text = l :: ls := by
  induction text with
  | nil => exact ⟨_, _, rfl⟩
  | cons c rest ih =>
    obtain ⟨l, ls, hl⟩ := ih
    rw [lines, hl]
    split
    · exact ⟨_, _, rfl⟩
    · exact ⟨_, _, rfl⟩

/-- The first line before a line feed is empty. -/
theorem lines_of_head (h : rest.head? = some '\n') : ∃ ls, v.lines rest = ⟨[], ['\n']⟩ :: ls := by
  cases rest with
  | nil => cases h
  | cons c rest =>
    cases h
    exact ⟨_, lines_of_stops stops_newline⟩

theorem sum_size : ((v.lines text).map Line.size).sum = text.length := by
  induction text with
  | nil => rfl
  | cons c rest ih =>
    rw [lines]
    split
    · rw [List.map_cons, List.sum_cons, ih, List.length_cons, Nat.add_comm]
      rfl
    · obtain ⟨l, ls, hl⟩ := lines_cons v rest
      rw [hl, List.map_cons, List.sum_cons] at ih
      rw [hl, onFirst, List.map_cons, List.sum_cons, List.length_cons, ← ih]
      split <;> simp [Line.size, Line.lead, Line.cons] <;> omega

/-! ### Offsets -/

/-- Every column of a line has its offset. -/
theorem at_of_getElem? (hl : (v.lines text)[r]? = some l) (hk : k ≤ l.text.length) :
    ∃ p, v.At text r l k p := by
  obtain ⟨hr, rfl⟩ := List.getElem?_eq_some_iff.1 hl
  refine ⟨_, (v.lines text).take r, (v.lines text).drop (r + 1), ?_, ?_, hk, rfl⟩
  · rw [← List.drop_eq_getElem_cons hr, List.take_append_drop]
  · rw [List.length_take]
    omega

theorem At.getElem? (h : v.At text r l k p) : (v.lines text)[r]? = some l := by
  obtain ⟨before, after, hlines, rfl, -, -⟩ := h
  rw [hlines]
  simp

theorem At.le_length (h : v.At text r l k p) : p ≤ text.length := by
  obtain ⟨before, after, hlines, -, hk, rfl⟩ := h
  rw [← sum_size (v := v), hlines, List.map_append, List.sum_append, List.map_cons, List.sum_cons,
    Line.size]
  omega

/-- A place in a text after its first character. -/
theorem At.of_stops (h : v.At (c :: rest) r l k p) (hs : v.stops c rest = true) :
    (r = 0 ∧ k = 0 ∧ p = 0) ∨ ∃ r' p', r = r' + 1 ∧ p = p' + 1 ∧ v.At rest r' l k p' := by
  obtain ⟨before, after, hlines, rfl, hk, rfl⟩ := h
  rw [lines_of_stops hs] at hlines
  rcases List.cons_eq_append_iff.1 hlines with ⟨rfl, hl⟩ | ⟨before, rfl, hrest⟩
  · obtain ⟨rfl, -⟩ := List.cons.inj hl
    have hk0 := Nat.le_zero.1 hk
    exact .inl ⟨rfl, hk0, by simpa using hk0⟩
  · refine .inr ⟨_, _, rfl, ?_, before, after, hrest, rfl, hk, rfl⟩
    rw [List.map_cons, List.sum_cons, Line.size, List.length_nil, List.length_singleton]
    omega

/-- The column that a place in `rest` has behind the character `c`, which does not end a line. -/
theorem At.of_not_stops (h : v.At (c :: rest) r l k p) (hs : ¬ v.stops c rest = true) :
    (r = 0 ∧ k = 0 ∧ p = 0) ∨ ∃ l' k' p', p = p' + 1 ∧ v.At rest r l' k' p' ∧
      k = if r = 0 then k' + 1 else k' := by
  obtain ⟨before, after, hlines, rfl, hk, rfl⟩ := h
  rw [lines, if_neg hs] at hlines
  obtain ⟨l₀, ls, hl₀⟩ := lines_cons v rest
  rw [hl₀, onFirst] at hlines
  rcases List.cons_eq_append_iff.1 hlines with ⟨rfl, hl⟩ | ⟨before, rfl, hrest⟩
  · obtain ⟨rfl, rfl⟩ := List.cons.inj hl
    cases k with
    | zero => exact .inl ⟨rfl, rfl, rfl⟩
    | succ k =>
      by_cases he : v.ends c = true
      · obtain ⟨ls', hls'⟩ := lines_of_head (v := v) (head_of_not_stops hs he).2
        obtain ⟨rfl, -⟩ := List.cons.inj (hl₀.symm.trans hls')
        rw [if_pos he] at hk
        exact absurd hk (Nat.not_succ_le_zero k)
      · rw [if_neg he] at hk
        exact .inr ⟨l₀, k, k, by simp, ⟨[], _, hl₀, rfl, Nat.le_of_succ_le_succ hk, by simp⟩, rfl⟩
  · refine .inr ⟨l, k, l₀.size + (before.map Line.size).sum + k, ?_,
      ⟨l₀ :: before, after, ?_, rfl, hk, ?_⟩, rfl⟩
    · have hsize : ((if v.ends c then Line.lead c else Line.cons c) l₀).size = l₀.size + 1 := by
        split <;> simp [Line.size, Line.lead, Line.cons] <;> omega
      rw [List.map_cons, List.sum_cons, hsize]
      omega
    · rw [hl₀, hrest]
      rfl
    · rw [List.map_cons, List.sum_cons]

/-- The line and the column of an offset are those that `locate` counts. -/
theorem At.locate (h : v.At text r l k p) : v.locate text p = (r, k) := by
  induction text generalizing r l k p with
  | nil =>
    have hp := h.le_length
    obtain ⟨before, after, hlines, rfl, hk, rfl⟩ := h
    cases before with
    | nil =>
      obtain ⟨rfl, -⟩ := List.cons.inj hlines
      rw [Nat.le_zero.1 hk]
      rfl
    | cons l₀ before => cases before <;> cases hlines
  | cons c rest ih =>
    by_cases hs : v.stops c rest = true
    · obtain ⟨rfl, rfl, rfl⟩ | ⟨r', p', rfl, rfl, hrest⟩ := h.of_stops hs
      · rfl
      · rw [Convention.locate, ih hrest]
        exact if_pos hs
    · obtain ⟨rfl, rfl, rfl⟩ | ⟨l', k', p', rfl, hrest, rfl⟩ := h.of_not_stops hs
      · rfl
      · rw [Convention.locate, ih hrest]
        dsimp only
        rw [if_neg hs]
        split_ifs with hr
        · rw [hr]
        · rfl

/-! ### Two conventions -/

theorem locate_succ : v.locate (c :: rest) (p + 1) =
    if v.stops c rest then ((v.locate rest p).1 + 1, (v.locate rest p).2)
    else if (v.locate rest p).1 = 0 then (0, (v.locate rest p).2 + 1) else v.locate rest p := rfl

/-- Where only line feeds end lines, all conventions count the same. -/
theorem Plain.locate (h : v.Plain text p) : v.locate text p = feed.locate text p := by
  induction text generalizing p with
  | nil => rfl
  | cons c rest ih =>
    cases p with
    | zero => rfl
    | succ p =>
      have hiff : v.stops c rest = feed.stops c rest := by
        refine Bool.eq_iff_iff.2 (Iff.trans ⟨h.1, ?_⟩ feed_stops.symm)
        rintro rfl
        exact stops_newline
      rw [locate_succ, locate_succ, ih h.2, hiff]

/-- A convention has all lines that line feeds end, and more where another character ends one. -/
theorem locate_feed_le : (feed.locate text p).1 ≤ (v.locate text p).1 ∧
    ((feed.locate text p).1 = (v.locate text p).1 → v.Plain text p) := by
  induction text generalizing p with
  | nil => exact ⟨Nat.le_refl _, fun _ => trivial⟩
  | cons c rest ih =>
    cases p with
    | zero => exact ⟨Nat.le_refl _, fun _ => trivial⟩
    | succ p =>
      obtain ⟨hle, hplain⟩ := ih (p := p)
      rw [locate_succ, locate_succ]
      by_cases hc : c = '\n'
      · rw [if_pos (feed_stops.2 hc), if_pos (hc ▸ stops_newline)]
        exact ⟨by omega, fun heq => ⟨fun _ => hc, hplain (by omega)⟩⟩
      · rw [if_neg fun h => hc (feed_stops.1 h)]
        have hrow : (if (feed.locate rest p).1 = 0 then (0, (feed.locate rest p).2 + 1)
            else feed.locate rest p).1 = (feed.locate rest p).1 := by
          split_ifs with h0
          · exact h0.symm
          · rfl
        have hrow' : (if (v.locate rest p).1 = 0 then (0, (v.locate rest p).2 + 1)
            else v.locate rest p).1 = (v.locate rest p).1 := by
          split_ifs with h0
          · exact h0.symm
          · rfl
        rw [hrow]
        by_cases hs : v.stops c rest = true
        · rw [if_pos hs]
          exact ⟨by dsimp only; omega, fun heq => by dsimp only at heq; omega⟩
        · rw [if_neg hs, hrow']
          exact ⟨hle, fun heq => ⟨fun h => absurd h hs, hplain heq⟩⟩

/-- **Two conventions agree on an offset exactly where every line before it ends with a line
feed.** -/
theorem locate_eq_iff : v.locate text p = feed.locate text p ↔ v.Plain text p :=
  ⟨fun h => locate_feed_le.2 (congrArg Prod.fst h).symm, Plain.locate⟩

theorem Plain.mono {q : ℕ} (h : v.Plain text q) (hp : p ≤ q) : v.Plain text p := by
  induction text generalizing p q with
  | nil => trivial
  | cons c rest ih =>
    cases p with
    | zero => trivial
    | succ p =>
      cases q with
      | zero => exact absurd hp (Nat.not_succ_le_zero p)
      | succ q => exact ⟨h.1, ih h.2 (Nat.le_of_succ_le_succ hp)⟩

/-- In a plain text only line feeds, and carriage returns before them, end lines. -/
theorem Plain.eq_of_ends (h : v.Plain text text.length) (hc : c ∈ text) (he : v.ends c = true) :
    c = '\n' ∨ c = '\r' := by
  induction text with
  | nil => cases hc
  | cons d rest ih =>
    rcases List.mem_cons.1 hc with rfl | hc
    · by_cases hs : v.stops c rest = true
      · exact .inl (h.1 hs)
      · exact .inr (head_of_not_stops hs he).1
    · exact ih h.2 hc

section

variable {w : Convention}

theorem stops_congr (h : v.ends c = w.ends c) : v.stops c rest = w.stops c rest := by
  unfold stops
  rw [h]

/-- Conventions with the same ends in a text have the same lines. -/
theorem lines_congr (h : ∀ c ∈ text, v.ends c = w.ends c) : v.lines text = w.lines text := by
  induction text with
  | nil => rfl
  | cons c rest ih =>
    have hc := h c List.mem_cons_self
    rw [lines, lines, stops_congr hc, hc, ih fun d hd => h d (List.mem_cons_of_mem _ hd)]

theorem plain_congr (h : ∀ c ∈ text, v.ends c = w.ends c) : v.Plain text p ↔ w.Plain text p := by
  induction text generalizing p with
  | nil => exact Iff.rfl
  | cons c rest ih =>
    cases p with
    | zero => exact Iff.rfl
    | succ p =>
      rw [Plain, Plain, stops_congr (h c List.mem_cons_self),
        ih fun d hd => h d (List.mem_cons_of_mem _ hd)]

end

/-! ### The end of a text -/

/-- The last line has no end. -/
theorem ending_of_getLast (h : (v.lines text).getLast? = some l) : l.ending = [] := by
  induction text generalizing l with
  | nil =>
    cases h
    rfl
  | cons c rest ih =>
    obtain ⟨l₀, ls, hl⟩ := lines_cons v rest
    by_cases hs : v.stops c rest = true
    · rw [lines_of_stops hs, hl, List.getLast?_cons_cons, ← hl] at h
      exact ih h
    · rw [lines, if_neg hs, hl, onFirst] at h
      cases ls with
      | cons l₁ ls =>
        rw [List.getLast?_cons_cons] at h
        exact ih (by rw [hl, List.getLast?_cons_cons, h])
      | nil =>
        cases h
        by_cases he : v.ends c = true
        · -- the line feed ends a line before the last one
          cases rest with
          | nil => cases (head_of_not_stops hs he).2
          | cons d rest =>
            cases (head_of_not_stops hs he).2
            obtain ⟨l₁, ls, hl'⟩ := lines_cons v rest
            rw [lines_of_stops stops_newline, hl'] at hl
            cases hl
        · rw [if_neg he]
          exact ih (l := l₀) (by rw [hl]; rfl)

/-- The end of a text is the end of its last line. -/
theorem at_end (h : (v.lines text).getLast? = some l) :
    v.At text ((v.lines text).length - 1) l l.text.length text.length := by
  obtain ⟨before, hlines⟩ := List.getLast?_eq_some_iff.1 h
  refine ⟨before, [], hlines, ?_, Nat.le_refl _, ?_⟩
  · rw [hlines, List.length_append]
    rfl
  · rw [← sum_size (v := v), hlines, List.map_append, List.sum_append]
    simp [Line.size, ending_of_getLast h]

end Convention

end Library
