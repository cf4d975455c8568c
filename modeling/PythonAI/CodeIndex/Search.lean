import Mathlib.Data.List.MinMax
import Mathlib.Data.List.Sort
import PythonAI.CodeIndex.Positions
import PythonAI.CodeIndex.Store
import PythonAI.Errors

/-!
# Search results as positions

A text search numbers lines as `splitlines` does, and the references are numbered by line feeds.
The two agree on an occurrence exactly where every line before it ends with a line feed
(`hit_iff`); where they agree, `navigate` selects the identifier that the search has found
(`navigate_hit`).

`navigate` takes the last reference of the line that starts at the given column or before.  It is
the one meant, because two tokens of a source do not start at one byte (`Tokens`, `token_of_mem`).
-/

namespace PythonAI

open Library

namespace CodeIndex

variable {V : Type}

/-! ### `CodeIndex.search`, in the mode `text` -/

/-- A result. -/
structure Hit where
  filePath : String
  line : ℕ
  column : ℕ
  text : String
  deriving DecidableEq, Repr

/-- `str.splitlines` -/
def splitlines (text : String) : List (List Char) :=
  let lines := (Convention.python.lines text.toList).map (·.text)
  if lines.getLast? = some [] then lines.dropLast else lines

/-- `line.index(query)`, if `query in line`. -/
def index (query : List Char) : List Char → Option ℕ
  | [] => if query = [] then some 0 else none
  | c :: rest =>
    if query.isPrefixOf (c :: rest) then some 0 else (index query rest).map (· + 1)

/-- The lines of a file with the query. -/
def textHits (query : String) (f : FileRow) : List Hit :=
  ((splitlines f.text).zipIdx 1).filterMap fun (line, n) =>
    (index query.toList line).map fun column => ⟨f.path, n, column, String.ofList (line.take 1000)⟩

/-- `search`, in the mode `text`. -/
def textSearch (query : String) (limit : ℕ) (db : Db V) : Except Error (List Hit) :=
  if query = "" ∨ 2000 < query.length ∨ limit = 0 ∨ 100 < limit then
    .error (.value "Invalid code search arguments")
  else
    .ok (((db.files.insertionSort fun a b => a.path ≤ b.path).flatMap (textHits query)).take limit)

/-! ### `CodeIndex.navigate` -/

/-- The identifier at a position: the last one of the line that starts there or before, if the
position is not behind it. -/
def token (db : Db V) (path : String) (line column : ℕ) : Option RefRow :=
  ((db.refs.filter fun r => r.path = path && r.line = line && r.col ≤ column).argmax
    (·.col)).filter fun r => column ≤ r.col + r.name.length

/-- The languages that share their names. -/
def family : Option Language → List (Option Language)
  | some .javascript | some .typescript | some .tsx =>
    [some .javascript, some .typescript, some .tsx]
  | language => [language]

/-- A place that `navigate` answers with. -/
structure Place where
  filePath : String
  line : ℕ
  column : ℕ
  /-- `declaration`, of a reference -/
  declaration : Option Bool := none
  /-- `qualified`, of a symbol -/
  qualified : Option String := none
  /-- `kind`, of a symbol -/
  kind : Option String := none
  deriving DecidableEq, Repr

/-- The places in the order of the answer. -/
def Place.before (a b : Place) : Bool :=
  a.filePath < b.filePath || a.filePath = b.filePath && (a.line < b.line ||
    a.line = b.line && a.column ≤ b.column)

/-- `navigate`, after its refresh: the name and the places. -/
def navigate (db : Db V) (path : String) (line column : ℕ) (references : Bool) :
    Except Error (String × List Place) := do
  if line = 0 then .error (.value "Invalid source position")
  let file ← match db.files.find? (·.path = path) with
    | some file => pure file
    | none => .error (.value "File is excluded or not indexed")
  let found ← match token db path line column with
    | some found => pure found
    | none => .error (.value "Position is not an indexed identifier")
  let related := (db.files.filter (·.language ∈ family file.language)).map (·.path)
  let places := if references then
      (db.refs.filter fun r => r.name = found.name && r.path ∈ related).map
        fun r => ⟨r.path, r.line, r.col, some r.declaration, none, none⟩
    else
      (db.symbols.filter fun s => s.name = found.name && s.path ∈ related).map
        fun s => ⟨s.path, s.line, s.col, none, some s.qualified, some s.kind⟩
  pure (found.name, (places.insertionSort fun a b => a.before b).take 1000)

/-! ### Identifiers and their rows -/

variable {content : ByteArray} {scope : List String} {symbols : List Declaration}
  {occurrences : List Occurrence} {o : Occurrence}

theorem occurrenceOf_point {t : Tree} (h : occurrenceOf content scope t = some occurrences)
    (ho : o ∈ occurrences) : point content o.byte = some (o.line, o.column) := by
  unfold occurrenceOf at h
  split at h
  · simp only [Option.bind_eq_bind, Option.bind_eq_some_iff, Option.pure_def, Option.some.injEq] at h
    obtain ⟨⟨line, column⟩, hpoint, name, -, rfl⟩ := h
    rw [List.mem_singleton.1 ho]
    exact hpoint
  · cases h
    cases ho

mutual

theorem walk_point : ∀ (t : Tree) {scope : List String} {symbols : List Declaration}
    {occurrences : List Occurrence}, t.walk content scope = some (symbols, occurrences) →
    ∀ o ∈ occurrences, point content o.byte = some (o.line, o.column)
  | .node kind start stop field named children, scope, symbols, occurrences, h, o, ho => by
    simp only [Tree.walk, Option.bind_eq_bind, Option.bind_eq_some_iff, Option.pure_def,
      Option.some.injEq, Prod.mk.injEq] at h
    obtain ⟨⟨_, inner⟩, -, own, hown, ⟨_, below⟩, hbelow, -, rfl⟩ := h
    rcases List.mem_append.1 ho with ho | ho
    · exact occurrenceOf_point hown ho
    · exact walkAll_point children hbelow o ho

theorem walkAll_point : ∀ (ts : List Tree) {scope : List String} {symbols : List Declaration}
    {occurrences : List Occurrence}, walkAll content scope ts = some (symbols, occurrences) →
    ∀ o ∈ occurrences, point content o.byte = some (o.line, o.column)
  | [], _, _, _, h, o, ho => by
    simp only [walkAll, Option.some.injEq, Prod.mk.injEq] at h
    rw [← h.2] at ho
    cases ho
  | t :: ts, scope, symbols, occurrences, h, o, ho => by
    simp only [walkAll, Option.bind_eq_bind, Option.bind_eq_some_iff, Option.pure_def,
      Option.some.injEq, Prod.mk.injEq] at h
    obtain ⟨⟨_, own⟩, hown, ⟨_, below⟩, hbelow, -, rfl⟩ := h
    rcases List.mem_append.1 ho with ho | ho
    · split at hown
      · exact walk_point t hown o ho
      · cases hown
        cases ho
    · exact walkAll_point ts hbelow o ho

end

variable {parse : Language → ByteArray → Parsed} {path : String}

/-- The stored line and column of an identifier are the point of its first byte. -/
theorem extract_point (h : extract parse path content = some (symbols, occurrences))
    (ho : o ∈ occurrences) : point content o.byte = some (o.line, o.column) := by
  unfold extract at h
  split at h
  · cases h
    cases ho
  · dsimp only at h
    split at h
    · cases h
    · simp only [Option.bind_eq_bind, Option.bind_eq_some_iff] at h
      obtain ⟨⟨_, found⟩, hwalk, h⟩ := h
      split at h
      · cases h
      · cases h
        obtain ⟨o', ho', rfl⟩ := List.mem_map.1 ho
        exact walk_point _ hwalk o' ho'

/-! ### The two numberings -/

theorem getElem?_splitlines {text : String} {r : ℕ} {l : Line}
    (hl : (Convention.python.lines text.toList)[r]? = some l) (hne : l.text ≠ []) :
    (splitlines text)[r]? = some l.text := by
  have hmap : ((Convention.python.lines text.toList).map (·.text))[r]? = some l.text := by
    rw [List.getElem?_map, hl]
    rfl
  unfold splitlines
  dsimp only
  split
  case isTrue hlast =>
    rw [List.getElem?_dropLast, if_pos, hmap]
    have hr := (List.getElem?_eq_some_iff.1 hmap).1
    by_contra hlt
    rw [List.getLast?_eq_getElem?, show _ - 1 = r by omega, hmap] at hlast
    exact hne (Option.some.inj hlast)
  case isFalse => exact hmap

/-- The search reports a line at the first occurrence of the query on it. -/
theorem exists_hit {query : String} {f : FileRow} {r k p : ℕ} {l : Line} (hquery : query ≠ "")
    (hat : Convention.python.At f.text.toList r l k p) (hfirst : index query.toList l.text = some k) :
    ∃ h ∈ textHits query f, h.filePath = f.path ∧ h.line = r + 1 ∧ h.column = k := by
  have hne : l.text ≠ [] := by
    intro hnil
    rw [hnil, index, if_neg fun hq => hquery (String.toList_eq_nil_iff.1 hq)] at hfirst
    cases hfirst
  have hline := getElem?_splitlines hat.getElem? hne
  refine ⟨⟨f.path, r + 1, k, String.ofList (l.text.take 1000)⟩, ?_, rfl, rfl, rfl⟩
  refine List.mem_filterMap.2 ⟨(l.text, r + 1), ?_, by simp [hfirst]⟩
  rw [List.mk_mem_zipIdx_iff_le_and_getElem?_sub, Nat.add_sub_cancel]
  exact ⟨Nat.le_add_left .., hline⟩

/-- The identifiers of a parsed source are tokens: they lie in it and start at different bytes. -/
structure Tokens (content : ByteArray) (occurrences : List Occurrence) : Prop where
  /-- they start in the source -/
  inside : ∀ o ∈ occurrences, o.byte ≤ content.size
  /-- no two of them start at one byte -/
  distinct : (occurrences.map (·.byte)).Nodup

/-- The index has the file with what `extract` finds in it. -/
structure Indexed (parse : Language → ByteArray → Parsed) (db : Db V) (f : FileRow)
    (occurrences : List Occurrence) : Prop where
  /-- its row -/
  file : f ∈ db.files
  /-- what `extract` finds -/
  extracted : ∃ symbols, extract parse f.path f.text.toUTF8 = some (symbols, occurrences)
  /-- its references -/
  refs : db.refs.filter (·.path = f.path) = occurrences.map (refRow f.path)

variable {db : Db V} {f : FileRow}

/-- At its stored line and column, `navigate` selects the identifier. -/
theorem token_of_mem (hindexed : Indexed parse db f occurrences)
    (htokens : Tokens f.text.toUTF8 occurrences) (ho : o ∈ occurrences) :
    token db f.path o.line o.column = some (refRow f.path o) := by
  obtain ⟨symbols, hextract⟩ := hindexed.extracted
  have hrows : ∀ x ∈ db.refs, x.path = f.path → ∃ o' ∈ occurrences, refRow f.path o' = x := by
    intro x hx hpath
    have hmem : x ∈ db.refs.filter (·.path = f.path) := List.mem_filter.2 ⟨hx, decide_eq_true hpath⟩
    rw [hindexed.refs] at hmem
    exact List.mem_map.1 hmem
  have hown : refRow f.path o ∈ db.refs.filter fun x => x.path = f.path && x.line = o.line &&
      x.col ≤ o.column := by
    have hmem : refRow f.path o ∈ db.refs.filter (·.path = f.path) := by
      rw [hindexed.refs]
      exact List.mem_map_of_mem ho
    refine List.mem_filter.2 ⟨(List.mem_filter.1 hmem).1, ?_⟩
    simp [refRow]
  have hmax : (db.refs.filter fun x => x.path = f.path && x.line = o.line &&
      x.col ≤ o.column).argmax (·.col) = some (refRow f.path o) := by
    cases hm : (db.refs.filter fun x => x.path = f.path && x.line = o.line &&
        x.col ≤ o.column).argmax (·.col) with
    | none =>
      rw [List.argmax_eq_none.1 hm] at hown
      cases hown
    | some x =>
      obtain ⟨hx, hcond⟩ := List.mem_filter.1 (List.argmax_mem hm)
      simp only [Bool.and_eq_true, decide_eq_true_eq] at hcond
      obtain ⟨⟨hpath, hline⟩, hcol⟩ := hcond
      obtain ⟨o', ho', rfl⟩ := hrows x hx hpath
      have hge : (refRow f.path o).col ≤ (refRow f.path o').col := List.le_of_mem_argmax hown hm
      have hpoint := extract_point hextract ho'
      have hcolumn : o'.column = o.column := Nat.le_antisymm hcol hge
      rw [show o'.line = o.line from hline, hcolumn] at hpoint
      have hbyte := point_inj (htokens.inside o' ho') (htokens.inside o ho) hpoint
        (extract_point hextract ho)
      rw [List.inj_on_of_nodup_map htokens.distinct ho' ho hbyte]
  rw [token, hmax, Option.filter_some, if_pos]
  simp [refRow]

/-- The position in the lines of `splitlines` is the stored one exactly where every line before it
ends with a line feed. -/
theorem stored_iff {r k p : ℕ} {l : Line} (hindexed : Indexed parse db f occurrences)
    (ho : o ∈ occurrences) (hbyte : o.byte = (f.text.toList.take p).utf8Encode.size)
    (hat : Convention.python.At f.text.toList r l k p) :
    (r + 1, k) = (o.line, o.column) ↔ Convention.python.Plain f.text.toList p := by
  obtain ⟨symbols, hextract⟩ := hindexed.extracted
  have hpoint := extract_point hextract ho
  rw [String.toUTF8_eq_toByteArray, ← String.utf8Encode_toList, hbyte, point_take hat.le_length]
    at hpoint
  obtain ⟨hrow, hcol⟩ := Prod.mk.inj (Option.some.inj hpoint)
  rw [← Convention.locate_eq_iff, hat.locate, ← hrow, ← hcol]
  constructor
  · intro heq
    obtain ⟨h₁, h₂⟩ := Prod.mk.inj heq
    exact Prod.ext (Nat.add_right_cancel h₁) h₂
  · intro heq
    rw [← heq]

/-- **A hit of a text search is at the stored position of the identifier exactly where every line
before it ends with a line feed**, and `navigate` selects the identifier there. -/
theorem hit_iff {r k p : ℕ} {l : Line} (hindexed : Indexed parse db f occurrences)
    (htokens : Tokens f.text.toUTF8 occurrences) (ho : o ∈ occurrences) (hname : o.name ≠ "")
    (hbyte : o.byte = (f.text.toList.take p).utf8Encode.size)
    (hat : Convention.python.At f.text.toList r l k p)
    (hfirst : index o.name.toList l.text = some k) :
    ∃ h ∈ textHits o.name f, h.filePath = f.path ∧ h.line = r + 1 ∧ h.column = k ∧
      ((h.line, h.column) = (o.line, o.column) ∧
        token db f.path h.line h.column = some (refRow f.path o) ↔
          Convention.python.Plain f.text.toList p) := by
  obtain ⟨h, hh, hpath, hline, hcolumn⟩ := exists_hit hname hat hfirst
  refine ⟨h, hh, hpath, hline, hcolumn, ?_⟩
  rw [hline, hcolumn, ← stored_iff hindexed ho hbyte hat, and_iff_left_iff_imp]
  intro heq
  obtain ⟨h₁, h₂⟩ := Prod.mk.inj heq
  rw [h₁, h₂]
  exact token_of_mem hindexed htokens ho

/-! ### From a search to an identifier -/

variable {query : String} {limit : ℕ} {hits : List Hit}

/-- The results of a search that its limit does not cut. -/
theorem mem_textSearch (hok : textSearch query limit db = .ok hits) (hroom : hits.length < limit)
    {h : Hit} : h ∈ hits ↔ ∃ f ∈ db.files, h ∈ textHits query f := by
  unfold textSearch at hok
  split at hok
  · cases hok
  · cases hok
    rw [List.length_take] at hroom
    rw [List.take_of_length_le (by omega), List.mem_flatMap]
    simp only [List.mem_insertionSort]

theorem query_ne_empty (hok : textSearch query limit db = .ok hits) : query ≠ "" := by
  rintro rfl
  rw [textSearch, if_pos (.inl rfl)] at hok
  cases hok

/-- `navigate` answers with the name of the identifier. -/
theorem navigate_of_token {line column : ℕ} {r : RefRow} (hf : f ∈ db.files) (hline : line ≠ 0)
    (htoken : token db f.path line column = some r) (references : Bool) :
    ∃ places, navigate db f.path line column references = .ok (r.name, places) := by
  obtain ⟨file, hfile⟩ : ∃ file, db.files.find? (·.path = f.path) = some file :=
    Option.isSome_iff_exists.1 (List.find?_isSome.2 ⟨f, hf, decide_eq_true rfl⟩)
  rw [navigate, if_neg hline, hfile, htoken]
  exact ⟨_, rfl⟩

/-- **A result of a search leads `navigate` to the identifier**, where every line before it ends
with a line feed. -/
theorem navigate_hit {r k p : ℕ} {l : Line} (hindexed : Indexed parse db f occurrences)
    (htokens : Tokens f.text.toUTF8 occurrences) (ho : o ∈ occurrences)
    (hbyte : o.byte = (f.text.toList.take p).utf8Encode.size)
    (hat : Convention.python.At f.text.toList r l k p)
    (hfirst : index o.name.toList l.text = some k) (hplain : Convention.python.Plain f.text.toList p)
    (hok : textSearch o.name limit db = .ok hits) (hroom : hits.length < limit)
    (references : Bool) :
    ∃ h ∈ hits, h.filePath = f.path ∧ h.line = r + 1 ∧ h.column = k ∧
      ∃ places, navigate db h.filePath h.line h.column references = .ok (o.name, places) := by
  obtain ⟨h, hh, hpath, hline, hcolumn⟩ := exists_hit (query_ne_empty hok) hat hfirst
  refine ⟨h, (mem_textSearch hok hroom).2 ⟨f, hindexed.file, hh⟩, hpath, hline, hcolumn, ?_⟩
  obtain ⟨h₁, h₂⟩ := Prod.mk.inj ((stored_iff hindexed ho hbyte hat).2 hplain)
  rw [hpath, hline, hcolumn, h₁, h₂]
  exact navigate_of_token hindexed.file (h₁ ▸ Nat.succ_ne_zero r)
    (token_of_mem hindexed htokens ho) references

/-! ### A form feed -/

namespace Sample

/-- Two expressions, with a form feed before the second one. -/
def source : String := "a\n\x0cb\n"

/-- The tree of the source. -/
def tree : Tree :=
  .node "module" 0 5 none true
    [.node "expression_statement" 0 1 none true [.node "identifier" 0 1 none true []],
      .node "expression_statement" 3 4 none true [.node "identifier" 3 4 none true []]]

/-- The identifiers of the source. -/
def found : List Occurrence := [⟨"a", 1, 0, 0, "", false⟩, ⟨"b", 2, 1, 3, "", false⟩]

/-- The row of the source. -/
def file : FileRow := ⟨"m.py", source, source, some .python, .indexed⟩

/-- The index of the source. -/
def index : Db Unit := { files := [file], refs := found.map (refRow "m.py") }

/-- The parser, at the source. -/
def grammar (_ : Language) (_ : ByteArray) : Parsed := ⟨tree, false⟩

theorem indexed : Indexed grammar index file found :=
  ⟨List.mem_singleton_self _, ⟨[], by decide +kernel⟩, by decide⟩

theorem tokens : Tokens source.toUTF8 found := ⟨by decide, by decide⟩

/-- The last identifier is on the third line of `splitlines`. -/
theorem at_b : Convention.python.At source.toList 2 ⟨['b'], ['\n']⟩ 0 3 :=
  ⟨[⟨['a'], ['\n']⟩, ⟨[], ['\x0c']⟩], [⟨[], []⟩], by decide, rfl, Nat.zero_le _, rfl⟩

end Sample

/-- The condition at the identifier behind the form feed. -/
theorem hit_iff_formFeed : ∃ h ∈ textHits "b" Sample.file, h.filePath = "m.py" ∧ h.line = 3 ∧
    h.column = 0 ∧ ((h.line, h.column) = (2, 1) ∧
      token Sample.index "m.py" h.line h.column = some (refRow "m.py" ⟨"b", 2, 1, 3, "", false⟩) ↔
        Convention.python.Plain Sample.source.toList 3) :=
  hit_iff Sample.indexed Sample.tokens (o := ⟨"b", 2, 1, 3, "", false⟩) (by decide) (by decide)
    (by decide) Sample.at_b (by decide)

/-- A form feed moves the identifiers behind it: the search reports line 3, and the references have
line 2. -/
theorem hit_moved : ¬ ∀ (parse : Language → ByteArray → Parsed) (db : Db Unit) (f : FileRow)
    (occurrences : List Occurrence) (o : Occurrence) (r k p : ℕ) (l : Line),
    Indexed parse db f occurrences → Tokens f.text.toUTF8 occurrences → o ∈ occurrences →
    o.byte = (f.text.toList.take p).utf8Encode.size →
    Convention.python.At f.text.toList r l k p → index o.name.toList l.text = some k →
    ∀ h ∈ textHits o.name f, h.line = r + 1 → (h.line, h.column) = (o.line, o.column) := by
  intro h
  have hsame := h Sample.grammar Sample.index Sample.file Sample.found ⟨"b", 2, 1, 3, "", false⟩ 2 0 3
    ⟨['b'], ['\n']⟩ Sample.indexed Sample.tokens (by decide) (by decide) Sample.at_b
    (by decide) ⟨"m.py", 3, 0, "b"⟩ (by decide) rfl
  exact absurd hsame (by decide)

end CodeIndex

end PythonAI
