import PythonAI.CodeIndex.Search
import PythonAI.Library.Txn
import PythonAI.Library.Utf16

/-!
# Positions of the Language Server Protocol

`lsp` takes a position of the index, finds its line by `splitlines`, and sends the row and the code
units before the column; `add` does the reverse with the locations of the answer.  The protocol
itself ends lines at `LF`, `CR LF` and `CR` only, and has an empty last line behind the last end,
which `splitlines` has not.

* `sends_of_plain`, `returns_of_plain` : where every line ends with a line feed, positions go out
  exactly, and every range that starts in a line comes back exactly;
* `exact_iff` : **all positions are exact if and only if moreover the last line is not empty**.
-/

namespace PythonAI

open Library

namespace CodeIndex

/-- A request to the server. -/
inductive Method
  | definition | references | documentSymbol
  deriving DecidableEq, Repr

/-- The position that `lsp` sends: a row from zero, and code units. -/
def sent (text : String) (line column : ℤ) : Except Error (ℕ × ℕ) :=
  let lines := splitlines text
  if 1 ≤ line ∧ line ≤ lines.length ∧ 0 ≤ column ∧
      column ≤ (lines.getD (line - 1).toNat []).length then
    .ok ((line - 1).toNat,
      (Utf16.encode ((lines.getD (line - 1).toNat []).take column.toNat)).length)
  else .error (.value "Invalid source position")

/-- `params`: the position, and `includeDeclaration`. -/
def params (method : Method) (text : String) (line column : ℤ) :
    Except Error (Option (ℕ × ℕ) × Bool) :=
  match method with
  | .documentSymbol => .ok (none, false)
  | .definition => (sent text line column).map fun position => (some position, false)
  | .references => (sent text line column).map fun position => (some position, true)

/-- A point of an answer; a number that is not an `int` is none. -/
structure Point where
  line : Option ℤ
  character : Option ℤ
  deriving DecidableEq, Repr

/-- The numbers of a point, if they are valid. -/
def Point.read (point : Point) : Option (ℕ × ℕ) :=
  match point.line, point.character with
  | some line, some character =>
    if 0 ≤ line ∧ 0 ≤ character then some (line.toNat, character.toNat) else none
  | _, _ => none

/-- A range of an answer. -/
structure Range where
  start : Point
  /-- `end` -/
  stop : Point
  deriving DecidableEq, Repr

/-- An item of `records`. -/
structure Found where
  filePath : String
  line : ℕ
  column : ℕ
  name : Option String
  /-- `range_utf16` -/
  range : Range
  deriving DecidableEq, Repr

/-- `end < start`, as pairs. -/
def precedes (a b : ℕ × ℕ) : Bool := a.1 < b.1 || a.1 = b.1 && a.2 < b.2

/-- `add`, in a file of the index. -/
def record (path text : String) (range : Range) (name : Option String) : Except Error Found := do
  let lines := splitlines text
  let start ← require range.start.read (.value "Invalid LSP range")
  let stop ← require range.stop.read (.value "Invalid LSP range")
  ensure (start.1 < lines.length) (.value "LSP location outside indexed source")
  ensure (!(lines.length < stop.1 || stop.1 = lines.length && stop.2 ≠ 0 || precedes stop start))
    (.value "Invalid LSP end range")
  ensure (!(stop.1 < lines.length && (Utf16.encode (lines.getD stop.1 [])).length < stop.2))
    (.value "LSP end outside source")
  let raw := Utf16.encode (lines.getD start.1 [])
  ensure (start.2 ≤ raw.length) (.value "LSP character outside source")
  let before ← require (Utf16.decode (raw.take start.2)) (.value "truncated data")
  pure ⟨path, start.1 + 1, before.length, name, range⟩

/-- What `add` finds of a location: the path of its URI in the root, and the text of the index. -/
structure Sources where
  /-- the path, of a file in the root -/
  path : String → Option String
  /-- `SELECT text FROM ci_files` -/
  text : String → Option String

/-- `add` -/
def add (sources : Sources) (records : List Found) (uri : String) (range : Range)
    (name : Option String) : Except Error (List Found) :=
  match sources.path uri with
  | none => .ok records
  | some path =>
    match sources.text path with
    | none => .ok records
    | some text => (record path text range name).map fun r => records ++ [r]

/-- The records of the locations of an answer. -/
def answer (sources : Sources) (locations : List (String × Range × Option String)) :
    Except Error (List Found) := do
  let records ← locations.foldlM (fun records (uri, range, name) => add sources records uri range name)
    []
  ensure (records.length ≤ 1000) (.value "LSP locations exceed 1000")
  pure records

/-! ### Positions of the protocol -/

/-- The position denotes the offset `p` of the text. -/
def Denotes (text : String) (row units p : ℕ) : Prop :=
  ∃ l k, Convention.lsp.At text.toList row l k p ∧ (Utf16.encode (l.text.take k)).length = units

/-- The line and the column of an offset, as `extract` numbers them. -/
def numbered (text : String) (p : ℕ) : Option (ℕ × ℕ) :=
  point text.toUTF8 (String.ofList (text.toList.take p)).toUTF8.size

/-- A point of the protocol. -/
def Point.of (row units : ℕ) : Point := ⟨some row, some units⟩

/-- Every position that is sent denotes the character with this line and column. -/
def SendsExactly (text : String) : Prop :=
  ∀ (line column : ℤ) (row units : ℕ), sent text line column = .ok (row, units) →
    ∃ p, Denotes text row units p ∧ numbered text p = some (line.toNat, column.toNat)

/-- The range that starts at a denoted position comes back with its line and column. -/
def ReturnsExactly (text : String) (row units p row' units' : ℕ) : Prop :=
  ∀ (sources : Sources) (records : List Found) (uri path : String) (name : Option String),
    sources.path uri = some path → sources.text path = some text →
    ∃ r, add sources records uri ⟨.of row units, .of row' units'⟩ name = .ok (records ++ [r]) ∧
      r.filePath = path ∧ numbered text p = some (r.line, r.column)

/-- A valid range: two positions of the text, the first one not behind the second. -/
def ValidRange (text : String) (row units p row' units' : ℕ) : Prop :=
  Denotes text row units p ∧ (∃ q, Denotes text row' units' q) ∧
    precedes (row', units') (row, units) = false

variable {text : String} {row units p row' units' : ℕ}

theorem numbered_eq (hp : p ≤ text.toList.length) : numbered text p =
    some ((Convention.feed.locate text.toList p).1 + 1, (Convention.feed.locate text.toList p).2) := by
  have h := point_take hp
  rw [String.utf8Encode_toList] at h
  rw [numbered, String.toUTF8_eq_toByteArray, String.toUTF8_eq_toByteArray,
    String.toByteArray_ofList, h]

/-! ### The lines of `splitlines` -/

/-- `splitlines` has all lines, or all but an empty last one. -/
theorem splitlines_spec (text : String) :
    splitlines text <+: (Convention.python.lines text.toList).map (·.text) ∧
      ((splitlines text).length = (Convention.python.lines text.toList).length ∧
        (∃ l, (Convention.python.lines text.toList).getLast? = some l ∧ l.text ≠ []) ∨
      (splitlines text).length + 1 = (Convention.python.lines text.toList).length ∧
        ∃ l, (Convention.python.lines text.toList).getLast? = some l ∧ l.text = []) := by
  obtain ⟨l₀, ls, hlines⟩ := Convention.python.lines_cons text.toList
  have hne : Convention.python.lines text.toList ≠ [] := by
    rw [hlines]
    exact List.cons_ne_nil _ _
  have hlast := List.getLast?_eq_some_getLast hne
  unfold splitlines
  dsimp only
  rw [List.getLast?_map, hlast]
  split
  case isTrue h =>
    refine ⟨List.dropLast_prefix _, .inr ⟨?_, _, rfl, Option.some.inj h⟩⟩
    have hpos := List.length_pos_iff.2 hne
    rw [List.length_dropLast, List.length_map]
    omega
  case isFalse h =>
    refine ⟨List.prefix_rfl, .inl ⟨List.length_map _, _, rfl, fun hnil => h ?_⟩⟩
    exact congrArg some hnil

theorem getD_splitlines {l : Line} (hrow : row < (splitlines text).length)
    (hl : (Convention.python.lines text.toList)[row]? = some l) :
    (splitlines text).getD row [] = l.text := by
  rw [List.getD_eq_getElem _ _ hrow, (splitlines_spec text).1.getElem hrow, List.getElem_map]
  exact congrArg Line.text ((List.getElem?_eq_some_iff.1 hl).2)

theorem exists_line (hrow : row < (splitlines text).length) :
    ∃ l, (Convention.python.lines text.toList)[row]? = some l := by
  have hlt := hrow.trans_le (splitlines_spec text).1.length_le
  rw [List.length_map] at hlt
  exact ⟨_, List.getElem?_eq_getElem hlt⟩

theorem python_ends_of_lsp {c : Char} (h : Convention.lsp.ends c = true) :
    Convention.python.ends c = true := by
  rcases Bool.or_eq_true_iff.1 h with hc | hc
  · rw [of_decide_eq_true hc]
    rfl
  · rw [of_decide_eq_true hc]
    rfl

/-- In a plain text `splitlines` and the protocol have the same lines. -/
theorem ends_of_plain (h : Convention.python.Plain text.toList text.toList.length) :
    ∀ c ∈ text.toList, Convention.python.ends c = Convention.lsp.ends c := by
  intro c hc
  refine Bool.eq_iff_iff.2 ⟨fun he => ?_, python_ends_of_lsp⟩
  rcases h.eq_of_ends hc he with rfl | rfl
  · rfl
  · rfl

/-! ### Positions in plain texts -/

theorem read_of : (Point.of row units).read = some (row, units) := by
  rw [Point.of, Point.read]
  exact if_pos ⟨Int.natCast_nonneg _, Int.natCast_nonneg _⟩

/-- Where every line ends with a line feed, positions go out exactly. -/
theorem sends_of_plain (h : Convention.python.Plain text.toList text.toList.length) :
    SendsExactly text := by
  intro line column row units hsent
  unfold sent at hsent
  dsimp only at hsent
  split at hsent
  case isFalse => cases hsent
  case isTrue hvalid =>
    obtain ⟨hline, hlen, hcolumn, hle⟩ := hvalid
    obtain ⟨rfl, rfl⟩ := Prod.mk.inj (Except.ok.inj hsent)
    have hrow : (line - 1).toNat < (splitlines text).length := by omega
    obtain ⟨l, hl⟩ := exists_line hrow
    rw [getD_splitlines hrow hl] at hle ⊢
    obtain ⟨p, hat⟩ := Convention.at_of_getElem? hl (show column.toNat ≤ l.text.length by omega)
    refine ⟨p, ⟨l, column.toNat, ?_, rfl⟩, ?_⟩
    · unfold Convention.At at hat ⊢
      rwa [← Convention.lines_congr (ends_of_plain h)]
    · rw [numbered_eq hat.le_length, ← (h.mono hat.le_length).locate, hat.locate]
      refine congrArg some (Prod.ext ?_ rfl)
      dsimp only
      omega

variable {path : String} {name : Option String} {r : Found}

/-- What `add` asks of a range. -/
theorem record_eq_ok : record path text ⟨.of row units, .of row' units'⟩ name = .ok r ↔
    row < (splitlines text).length ∧
    ((splitlines text).length < row' || row' = (splitlines text).length && units' ≠ 0 ||
      precedes (row', units') (row, units)) = false ∧
    (row' < (splitlines text).length &&
      (Utf16.encode ((splitlines text).getD row' [])).length < units') = false ∧
    units ≤ (Utf16.encode ((splitlines text).getD row [])).length ∧
    ∃ before, Utf16.decode ((Utf16.encode ((splitlines text).getD row [])).take units) =
      some before ∧ ⟨path, row + 1, before.length, name, ⟨.of row units, .of row' units'⟩⟩ = r := by
  unfold record
  simp only [read_of, bind_eq_ok, require_eq_ok, ensure_eq_ok, pure_eq_ok, Option.some.injEq,
    exists_eq_left', decide_eq_true_eq, Bool.not_eq_true']
  constructor
  · rintro ⟨-, hrow, -, hstop, -, hend, -, hunits, before, hbefore, hr⟩
    exact ⟨hrow, hstop, hend, hunits, before, hbefore, hr⟩
  · rintro ⟨hrow, hstop, hend, hunits, before, hbefore, hr⟩
    exact ⟨⟨⟩, hrow, ⟨⟩, hstop, ⟨⟩, hend, ⟨⟩, hunits, before, hbefore, hr⟩

/-- Where every line ends with a line feed, a range that starts in a line comes back exactly. -/
theorem returns_of_plain (h : Convention.python.Plain text.toList text.toList.length)
    (hvalid : ValidRange text row units p row' units') (hrow : row < (splitlines text).length) :
    ReturnsExactly text row units p row' units' := by
  intro sources records uri path name hpath htext
  obtain ⟨⟨l, k, hat, rfl⟩, ⟨q, l', k', hat', rfl⟩, horder⟩ := hvalid
  have hlines := Convention.lines_congr (ends_of_plain h)
  have hpython : Convention.python.At text.toList row l k p := by
    unfold Convention.At at hat ⊢
    rwa [hlines]
  have hl := hpython.getElem?
  have hl' : (Convention.python.lines text.toList)[row']? = some l' := by
    rw [hlines]
    exact hat'.getElem?
  have hrecord : record path text ⟨.of row (Utf16.encode (l.text.take k)).length,
      .of row' (Utf16.encode (l'.text.take k')).length⟩ name =
        .ok ⟨path, row + 1, (l.text.take k).length, name,
          ⟨.of row (Utf16.encode (l.text.take k)).length,
            .of row' (Utf16.encode (l'.text.take k')).length⟩⟩ := by
    refine record_eq_ok.2 ⟨hrow, ?_, ?_, ?_, l.text.take k, ?_, rfl⟩
    · rw [horder, Bool.or_false, Bool.or_eq_false_iff]
      have hlt := (List.getElem?_eq_some_iff.1 hl').1
      rcases (splitlines_spec text).2 with ⟨hlen, -⟩ | ⟨hlen, last, hlast, hempty⟩
      · exact ⟨decide_eq_false (by omega), by rw [decide_eq_false (by omega)]; rfl⟩
      · refine ⟨decide_eq_false (by omega), ?_⟩
        by_cases hrow' : row' = (splitlines text).length
        · -- the position is on the empty last line
          have hlast' : l' = last := by
            rw [List.getLast?_eq_getElem?, ← hlen, Nat.add_sub_cancel, ← hrow', hl'] at hlast
            exact Option.some.inj hlast
          rw [hlast', hempty]
          simp [Utf16.encode]
        · rw [decide_eq_false hrow']
          rfl
    · by_cases hrow' : row' < (splitlines text).length
      · rw [getD_splitlines hrow' hl']
        have hle := Utf16.length_encode_take_le l'.text k'
        simp only [Bool.and_eq_false_iff, decide_eq_false_iff_not]
        omega
      · rw [decide_eq_false hrow']
        rfl
    · rw [getD_splitlines hrow hl]
      exact Utf16.length_encode_take_le ..
    · rw [getD_splitlines hrow hl, Utf16.take_encode, Utf16.decode_encode]
  refine ⟨⟨path, row + 1, (l.text.take k).length, name,
    ⟨.of row (Utf16.encode (l.text.take k)).length,
      .of row' (Utf16.encode (l'.text.take k')).length⟩⟩, ?_, rfl, ?_⟩
  · rw [add, hpath]
    dsimp only
    rw [htext]
    dsimp only
    rw [hrecord]
    rfl
  · obtain ⟨before, after, -, -, hk, -⟩ := hat
    rw [numbered_eq hpython.le_length, ← (h.mono hpython.le_length).locate, hpython.locate,
      List.length_take, Nat.min_eq_left hk]

/-! ### Texts with other ends of lines -/

/-- No number of the first list is greater than the one at its place in the second. -/
def Below : List ℕ → List ℕ → Prop
  | [], _ => True
  | _ :: _, [] => False
  | x :: xs, y :: ys => x ≤ y ∧ Below xs ys

theorem below_of_getElem? {xs ys : List ℕ}
    (h : ∀ (i x : ℕ), xs[i]? = some x → ∃ y, ys[i]? = some y ∧ x ≤ y) : Below xs ys := by
  induction xs generalizing ys with
  | nil => trivial
  | cons x xs ih =>
    obtain ⟨y, hy, hle⟩ := h 0 x rfl
    cases ys with
    | nil => cases hy
    | cons y' ys =>
      cases hy
      exact ⟨hle, ih fun i x hx => h (i + 1) x hx⟩

/-- The code units of the lines. -/
def weights (ls : List Line) : List ℕ := ls.map fun l => (Utf16.encode l.text).length

/-- Where no line of `splitlines` is shorter than that of the protocol, no other character ends
one. -/
theorem ends_of_below {chars : List Char}
    (h : Below (weights (Convention.lsp.lines chars)) (weights (Convention.python.lines chars))) :
    ∀ c ∈ chars, Convention.python.ends c = Convention.lsp.ends c := by
  induction chars with
  | nil => nofun
  | cons c rest ih =>
    obtain ⟨l, ls, hl⟩ := Convention.lsp.lines_cons rest
    obtain ⟨l', ls', hl'⟩ := Convention.python.lines_cons rest
    rw [hl, hl'] at ih
    have hc : Convention.python.ends c = Convention.lsp.ends c := by
      refine Bool.eq_iff_iff.2 ⟨fun he => ?_, python_ends_of_lsp⟩
      by_contra hne
      have hstop : Convention.python.stops c rest = true := by
        by_contra hs
        rw [(Convention.head_of_not_stops hs he).1] at hne
        exact hne rfl
      rw [Convention.lines_of_stops hstop, Convention.lines,
        if_neg fun hs => hne (Convention.ends_of_stops hs), if_neg hne, hl] at h
      have hle : (Utf16.encode (c :: l.text)).length ≤ 0 := h.1
      have hpos := Utf16.length_units_pos (c := c)
      rw [Utf16.length_encode_cons] at hle
      omega
    have hrest : Below (weights (l :: ls)) (weights (l' :: ls')) := by
      rw [Convention.lines, Convention.lines, Convention.stops_congr hc, hc, hl, hl'] at h
      split at h
      · exact h.2
      · split at h
        · exact h
        · have hle : (Utf16.encode (c :: l.text)).length ≤ (Utf16.encode (c :: l'.text)).length := h.1
          rw [Utf16.length_encode_cons, Utf16.length_encode_cons] at hle
          exact ⟨Nat.le_of_add_le_add_left hle, h.2⟩
    intro d hd
    rcases List.mem_cons.1 hd with rfl | hd
    · exact hc
    · exact ih hrest d hd

/-- A position that comes back has its row, and the code units of its line. -/
theorem of_returns (h : ReturnsExactly text row units p row units) :
    row < (splitlines text).length ∧
      units ≤ (Utf16.encode ((splitlines text).getD row [])).length ∧
      ∃ column, numbered text p = some (row + 1, column) := by
  obtain ⟨r, hadd, -, hnumbered⟩ := h ⟨fun _ => some "", fun _ => some text⟩ [] "" "" none rfl rfl
  obtain ⟨r', hrecord, hr⟩ : ∃ r', record "" text ⟨.of row units, .of row units⟩ none = .ok r' ∧
      [r'] = [r] := by
    unfold add at hadd
    dsimp only at hadd
    cases hrec : record "" text ⟨.of row units, .of row units⟩ none with
    | error e =>
      rw [hrec] at hadd
      cases hadd
    | ok r' =>
      rw [hrec] at hadd
      exact ⟨r', rfl, Except.ok.inj hadd⟩
  cases hr
  obtain ⟨hrow, -, -, hunits, before, -, rfl⟩ := record_eq_ok.1 hrecord
  exact ⟨hrow, hunits, _, hnumbered⟩

/-- **All positions of a text are exact if and only if every line ends with a line feed and the last
line is not empty.** -/
theorem exact_iff (text : String) :
    (SendsExactly text ∧ ∀ row units p row' units', ValidRange text row units p row' units' →
      ReturnsExactly text row units p row' units') ↔
    Convention.python.Plain text.toList text.toList.length ∧
      ∃ l, (Convention.python.lines text.toList).getLast? = some l ∧ l.text ≠ [] := by
  constructor
  · rintro ⟨-, hreturns⟩
    have hpoint : ∀ {row units p}, Denotes text row units p → row < (splitlines text).length ∧
        units ≤ (Utf16.encode ((splitlines text).getD row [])).length ∧
        ∃ column, numbered text p = some (row + 1, column) := by
      intro row units p hden
      refine of_returns (hreturns _ _ _ _ _ ⟨hden, ⟨p, hden⟩, ?_⟩)
      simp [precedes]
    have hends : ∀ c ∈ text.toList, Convention.python.ends c = Convention.lsp.ends c := by
      refine ends_of_below (below_of_getElem? fun row n hn => ?_)
      rw [weights, List.getElem?_map] at hn
      obtain ⟨l, hl, rfl⟩ := Option.map_eq_some_iff.1 hn
      obtain ⟨p, hat⟩ := Convention.at_of_getElem? hl (Nat.le_refl l.text.length)
      obtain ⟨hrow, hunits, -⟩ := hpoint ⟨l, l.text.length, hat, rfl⟩
      obtain ⟨l', hl'⟩ := exists_line hrow
      refine ⟨(Utf16.encode l'.text).length, ?_, ?_⟩
      · rw [weights, List.getElem?_map, hl']
        rfl
      · rwa [getD_splitlines hrow hl', List.take_length] at hunits
    have hlines := Convention.lines_congr hends
    obtain ⟨l₀, ls, hcons⟩ := Convention.lsp.lines_cons text.toList
    obtain ⟨l, hlast⟩ : ∃ l, (Convention.lsp.lines text.toList).getLast? = some l := by
      rw [hcons]
      exact ⟨_, List.getLast?_eq_some_getLast (List.cons_ne_nil _ _)⟩
    have hat := Convention.at_end hlast
    obtain ⟨hrow, -, column, hnumbered⟩ := hpoint ⟨l, l.text.length, hat, rfl⟩
    rw [numbered_eq (Nat.le_refl _)] at hnumbered
    constructor
    · refine (Convention.plain_congr hends).2 (Convention.locate_feed_le.2 ?_)
      rw [hat.locate]
      exact Nat.add_right_cancel (congrArg Prod.fst (Option.some.inj hnumbered))
    · rcases (splitlines_spec text).2 with ⟨-, hne⟩ | ⟨hlen, -⟩
      · exact hne
      · rw [hlines] at hlen
        omega
  · rintro ⟨hplain, l, hlast, hne⟩
    refine ⟨sends_of_plain hplain, fun row units p row' units' hvalid => ?_⟩
    refine returns_of_plain hplain hvalid ?_
    obtain ⟨⟨l', k, hat, -⟩, -, -⟩ := hvalid
    have hlt := (List.getElem?_eq_some_iff.1 hat.getElem?).1
    rcases (splitlines_spec text).2 with ⟨hlen, -⟩ | ⟨-, last, hlast', hempty⟩
    · rw [hlen, Convention.lines_congr (ends_of_plain hplain)]
      exact hlt
    · rw [hlast] at hlast'
      cases hlast'
      exact absurd hempty hne

/-- Behind a form feed, a position of the index is sent as one that the text has not, and the range
of an identifier is refused. -/
theorem formFeed_inexact : ¬ SendsExactly Sample.source ∧
    ¬ ∀ row units p row' units', ValidRange Sample.source row units p row' units' →
      ReturnsExactly Sample.source row units p row' units' := by
  constructor
  · intro h
    obtain ⟨p, ⟨l, k, hat, hunits⟩, -⟩ := h 3 1 2 1 (by decide)
    have hl : (Convention.lsp.lines Sample.source.toList)[2]? = some ⟨[], []⟩ := by decide
    rw [hat.getElem?] at hl
    cases hl
    rw [List.take_nil] at hunits
    cases hunits
  · intro h
    have hb : Denotes Sample.source 1 1 3 :=
      ⟨⟨['\x0c', 'b'], ['\n']⟩, 1,
        ⟨[⟨['a'], ['\n']⟩], [⟨[], []⟩], by decide, rfl, by decide, rfl⟩, rfl⟩
    obtain ⟨r, hadd, -⟩ := h 1 1 3 1 1 ⟨hb, ⟨3, hb⟩, by decide⟩
      ⟨fun _ => some "m.py", fun _ => some Sample.source⟩ [] "" "m.py" none rfl rfl
    have hrefused : (add ⟨fun _ => some "m.py", fun _ => some Sample.source⟩ [] ""
        ⟨.of 1 1, .of 1 1⟩ none).toOption = none := by
      decide
    rw [hadd] at hrefused
    cases hrefused

end CodeIndex

end PythonAI
