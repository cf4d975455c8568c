import Mathlib.Data.List.DropRight
import PythonAI.Library.Cover
import PythonAI.Library.Lines
import PythonAI.Library.Text

/-!
# Pieces of a document

`spans` cuts a text into pieces of a number of bytes, where possible at the end of a paragraph or of
a word, and `split_range` cuts a piece in two.  A piece goes to the model without the white space at
its ends, which is put around the answer.

* `spans_cover` : the pieces cover the text;
* `splitRange_cover` : **the halves cover the piece, and both are smaller**;
* `frame_strip` : the stripped piece with the white space around it is the piece;
* `newlines_eq` : the two replacements end every line with a line feed.
-/

namespace PythonAI

open Library

namespace Companion

/-- A text, by its characters. -/
abbrev Text := List Char

/-! ### Cutting -/

/-- `text.rfind(c, i, j)` -/
def rfind (text : Text) (c : Char) (i j : ℕ) : Option ℕ :=
  ((List.range text.length).filter fun k => i ≤ k && k < j && text[k]? = some c).getLast?

/-- The last line feed from `i` on and before `j`, or else the last blank. -/
def boundary (text : Text) (i j : ℕ) : Option ℕ := (rfind text '\n' i j).or (rfind text ' ' i j)

/-- The inner loop of `spans`: the number of characters whose bytes are within the limit. -/
def extent (limit : ℕ) : ℕ → Text → ℕ
  | _, [] => 0
  | used, c :: rest =>
    if used + c.utf8Size ≤ limit then extent limit (used + c.utf8Size) rest + 1 else 0

/-- The end of the piece that begins at `start`. -/
def pieceEnd (text : Text) (limit start : ℕ) : ℕ :=
  let reach := start + extent limit 0 (text.drop start)
  let stop := if reach = start then reach + 1 else reach
  if stop < text.length then
    match boundary text (start + (stop - start) / 2) stop with
    | some b => b + 1
    | none => stop
  else stop

/-- The loop of `spans`, with a bound of its turns. -/
def spansFrom (text : Text) (limit : ℕ) : ℕ → ℕ → List Span
  | 0, _ => []
  | fuel + 1, start =>
    if start < text.length then
      (start, pieceEnd text limit start) :: spansFrom text limit fuel (pieceEnd text limit start)
    else []

/-- `spans`: every turn takes a character. -/
def spans (text : Text) (limit : ℕ) : List Span := spansFrom text limit text.length 0

/-- `split_range` -/
def splitRange (source : Text) (start stop : ℕ) : List Span :=
  let half := start + (stop - start) / 2
  let middle := ((boundary source (start + 1) half).map (· + 1)).getD half
  [(start, middle), (middle, stop)]

variable {text source : Text} {c : Char} {i j k limit start stop : ℕ}

theorem rfind_bounds (h : rfind text c i j = some k) : i ≤ k ∧ k < j := by
  have hmem := List.mem_of_getLast? h
  rw [List.mem_filter, Bool.and_eq_true, Bool.and_eq_true, decide_eq_true_iff,
    decide_eq_true_iff] at hmem
  exact hmem.2.1

theorem boundary_bounds (h : boundary text i j = some k) : i ≤ k ∧ k < j := by
  rw [boundary, Option.or_eq_some_iff] at h
  rcases h with h | ⟨-, h⟩
  · exact rfind_bounds h
  · exact rfind_bounds h

theorem extent_le (limit used : ℕ) (text : Text) : extent limit used text ≤ text.length := by
  induction text generalizing used with
  | nil => exact Nat.le_refl _
  | cons c rest ih =>
    rw [extent]
    split
    · exact Nat.succ_le_succ (ih _)
    · exact Nat.zero_le _

theorem pieceEnd_bounds (h : start < text.length) :
    start < pieceEnd text limit start ∧ pieceEnd text limit start ≤ text.length := by
  have hextent := extent_le limit 0 (text.drop start)
  rw [List.length_drop] at hextent
  unfold pieceEnd
  dsimp only
  generalize hstop : (if start + extent limit 0 (text.drop start) = start then
    start + extent limit 0 (text.drop start) + 1 else
    start + extent limit 0 (text.drop start)) = stop
  have hbounds : start < stop ∧ stop ≤ text.length := by
    split at hstop <;> omega
  by_cases hlt : stop < text.length
  · rw [if_pos hlt]
    cases hb : boundary text (start + (stop - start) / 2) stop with
    | none => exact hbounds
    | some b =>
      obtain ⟨h₁, h₂⟩ := boundary_bounds hb
      dsimp only
      omega
  · rw [if_neg hlt]
    exact hbounds

theorem spansFrom_cover (fuel : ℕ) (hstart : start ≤ text.length)
    (hfuel : text.length ≤ start + fuel) :
    Cover start (spansFrom text limit fuel start) text.length := by
  induction fuel generalizing start with
  | zero => exact Nat.le_antisymm hstart hfuel
  | succ fuel ih =>
    rw [spansFrom]
    by_cases h : start < text.length
    · rw [if_pos h]
      obtain ⟨hlt, hle⟩ : start < pieceEnd text limit start ∧
          pieceEnd text limit start ≤ text.length := pieceEnd_bounds h
      exact ⟨rfl, hlt, ih hle (by omega)⟩
    · rw [if_neg h]
      exact Nat.le_antisymm hstart (Nat.le_of_not_lt h)

/-- The pieces cover the text. -/
theorem spans_cover (text : Text) (limit : ℕ) : Cover 0 (spans text limit) text.length :=
  spansFrom_cover text.length (Nat.zero_le _) (Nat.zero_add _).ge

/-- A piece of two characters or more is cut inside. -/
theorem exists_middle (source : Text) (h : 1 < stop - start) : ∃ middle, start < middle ∧
    middle < stop ∧ splitRange source start stop = [(start, middle), (middle, stop)] := by
  refine ⟨((boundary source (start + 1) (start + (stop - start) / 2)).map (· + 1)).getD
    (start + (stop - start) / 2), ?_⟩
  cases hb : boundary source (start + 1) (start + (stop - start) / 2) with
  | none =>
    rw [splitRange, hb]
    simp only [Option.map_none, Option.getD_none]
    exact ⟨by omega, by omega, trivial⟩
  | some b =>
    obtain ⟨h₁, h₂⟩ := boundary_bounds hb
    rw [splitRange, hb]
    simp only [Option.map_some, Option.getD_some]
    exact ⟨by omega, by omega, trivial⟩

/-- **The halves of a piece cover it, and both are smaller.** -/
theorem splitRange_cover (source : Text) (h : 1 < stop - start) :
    Cover start (splitRange source start stop) stop ∧
      ∀ s ∈ splitRange source start stop, s.2 - s.1 < stop - start := by
  obtain ⟨middle, hstart, hstop, hsplit⟩ := exists_middle source h
  rw [hsplit]
  refine ⟨⟨rfl, hstart, rfl, hstop, rfl⟩, ?_⟩
  intro s hs
  simp only [List.mem_cons, List.not_mem_nil, or_false] at hs
  rcases hs with rfl | rfl
  · dsimp only
    omega
  · dsimp only
    omega

/-! ### White space -/

/-- `text.lstrip()` -/
def lstrip (text : Text) : Text := text.dropWhile isSpace

/-- `text.rstrip()` -/
def rstrip (text : Text) : Text := text.rdropWhile isSpace

/-- `text.strip()` -/
def strip (text : Text) : Text := rstrip (lstrip text)

/-- `leading` -/
def leading (text : Text) : Text := text.take (text.length - (lstrip text).length)

/-- `trailing` -/
def trailing (text : Text) : Text := text.drop (rstrip text).length

theorem rstrip_append {a b : Text} (h : rstrip b ≠ []) : rstrip (a ++ b) = a ++ rstrip b := by
  rw [rstrip, List.rdropWhile, Ne, List.reverse_eq_nil_iff] at h
  rw [rstrip, rstrip, List.rdropWhile, List.rdropWhile, List.reverse_append, List.dropWhile_append,
    if_neg (by rwa [List.isEmpty_iff]), List.reverse_append, List.reverse_reverse]

/-- The stripped text with the white space around it is the text. -/
theorem frame_strip (h : strip text ≠ []) : leading text ++ strip text ++ trailing text = text := by
  have hsplit : text.takeWhile isSpace ++ lstrip text = text := List.takeWhile_append_dropWhile
  have hlength := congrArg List.length hsplit
  rw [List.length_append] at hlength
  have hleading : leading text = text.takeWhile isSpace := by
    rw [leading, ← hlength, Nat.add_sub_cancel]
    exact (List.prefix_iff_eq_take.1 (List.takeWhile_prefix _)).symm
  have hrstrip : rstrip text = text.takeWhile isSpace ++ strip text := by
    conv_lhs => rw [← hsplit]
    exact rstrip_append h
  have hprefix : leading text ++ strip text <+: text := by
    rw [hleading, ← hrstrip]
    exact List.rdropWhile_prefix _ _
  have htrailing : trailing text = text.drop (leading text ++ strip text).length := by
    rw [trailing, hrstrip, hleading]
  rw [htrailing]
  exact (List.prefix_iff_eq_append.1 hprefix)

theorem strip_strip (text : Text) : strip (strip text) = strip text := by
  have hl : lstrip (strip text) = strip text := by
    rw [lstrip, List.dropWhile_eq_self_iff]
    intro hlength
    have hpre : strip text <+: lstrip text := List.rdropWhile_prefix _ _
    obtain ⟨rest, hrest⟩ := hpre
    have hpos : 0 < (lstrip text).length := by
      rw [← hrest, List.length_append]
      omega
    have hhead : (strip text)[0] = (lstrip text)[0] := by
      simp only [← hrest, List.getElem_append_left hlength]
    rw [hhead]
    exact List.dropWhile_get_zero_not isSpace text hpos
  rw [strip, hl]
  exact List.rdropWhile_idempotent _ _

/-! ### Newlines -/

/-- `text.replace('\r\n', '\n')` -/
def replaceCrLf : Text → Text
  | '\r' :: '\n' :: rest => '\n' :: replaceCrLf rest
  | c :: rest => c :: replaceCrLf rest
  | [] => []

/-- `text.replace('\r\n', '\n').replace('\r', '\n')` -/
def newlines (text : Text) : Text := (replaceCrLf text).map fun c => if c = '\r' then '\n' else c

/-- The lines of a text, with line feeds between them. -/
def unified (text : Text) : Text :=
  List.intercalate ['\n'] ((Convention.lsp.lines text).map Line.text)

variable {rest : Text}

theorem unified_of_stops (h : Convention.lsp.stops c rest = true) :
    unified (c :: rest) = '\n' :: unified rest := by
  obtain ⟨l, ls, hl⟩ := Convention.lsp.lines_cons rest
  rw [unified, Convention.lines_of_stops h, unified, hl]
  rfl

theorem unified_of_not_stops (h : ¬ Convention.lsp.stops c rest = true) :
    unified (c :: rest) =
      if Convention.lsp.ends c = true then unified rest else c :: unified rest := by
  obtain ⟨l, ls, hl⟩ := Convention.lsp.lines_cons rest
  rw [unified, Convention.lines, if_neg h, unified, hl]
  by_cases he : Convention.lsp.ends c = true
  · rw [if_pos he, if_pos he]
    rfl
  · rw [if_neg he, if_neg he]
    cases ls with
    | nil => simp [Convention.onFirst, Line.cons]
    | cons l' ls => simp [Convention.onFirst, Line.cons, List.intercalate_cons_cons]

/-- The two replacements end every line with a line feed. -/
theorem newlines_eq (text : Text) : newlines text = unified text := by
  induction text using replaceCrLf.induct with
  | case1 rest ih =>
    have hcr : ¬ Convention.lsp.stops '\r' ('\n' :: rest) = true := by simp [Convention.stops]
    rw [unified_of_not_stops hcr, if_pos (by rfl), unified_of_stops Convention.stops_newline, ← ih]
    rfl
  | case2 c rest hcrlf ih =>
    have hcons : newlines (c :: rest) = (if c = '\r' then '\n' else c) :: newlines rest := by
      rw [newlines, replaceCrLf, List.map_cons]
      · rfl
      · exact hcrlf
    rw [hcons, ih]
    by_cases hs : Convention.lsp.stops c rest = true
    · -- the character ends a line: it is one of the two
      rw [unified_of_stops hs]
      have hends := Convention.ends_of_stops hs
      simp only [Convention.lsp, Bool.or_eq_true, decide_eq_true_eq] at hends
      rcases hends with rfl | rfl
      · rfl
      · rfl
    · -- a carriage return would be followed by a line feed
      have hends : ¬ Convention.lsp.ends c = true := by
        intro he
        obtain ⟨rfl, hhead⟩ := Convention.head_of_not_stops hs he
        obtain ⟨tail, rfl⟩ : ∃ tail, rest = '\n' :: tail := List.head?_eq_some_iff.1 hhead
        exact hcrlf tail rfl rfl
      have hc : c ≠ '\r' := by
        rintro rfl
        exact hends rfl
      rw [unified_of_not_stops hs, if_neg hends, if_neg hc]
  | case3 => rfl

end Companion

end PythonAI
