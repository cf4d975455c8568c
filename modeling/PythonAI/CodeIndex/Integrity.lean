import PythonAI.CodeIndex.Refresh

/-!
# The rows of the index belong together

In a sound index the rows of every file are what `extract` finds in its text, nothing refers to a
missing row, and a symbol has the hashes of its vector.  Every statement of a refresh keeps this, and
at its end the files are those of the inventory.

* `refresh_spec` : **a refresh that returns leaves a sound index of its inventory**;
* `Sound.same` : sound indexes of the same files have the same rows.
-/

namespace PythonAI

open Library

namespace CodeIndex

variable {V : Type}

/-- A symbol without its id and its vector. -/
def SymbolRow.content (s : SymbolRow V) : SymbolRow V := { s with id := 0, vector := none }

namespace Db

/-- The symbols of a file. -/
def symbolsAt (db : Db V) (path : String) : List (SymbolRow V) :=
  db.symbols.filter fun s => s.path = path

/-- The references of a file. -/
def refsAt (db : Db V) (path : String) : List RefRow := db.refs.filter fun r => r.path = path

end Db

/-- The rows of an index belong together. -/
structure Sound (env : Env V) (db : Db V) : Prop where
  /-- a path has one file -/
  paths : (db.files.map (·.path)).Nodup
  /-- the row of a file is that of its text -/
  file : ∀ f ∈ db.files, f = fileRow env (f.path, f.text)
  /-- its symbols are those that `extract` finds -/
  symbols : ∀ f ∈ db.files, (db.symbolsAt f.path).map SymbolRow.content =
    (symbolsOf env (f.path, f.text)).map (symbolRow f.path 0)
  /-- and so are its references -/
  refs : ∀ f ∈ db.files, db.refsAt f.path = (refsOf env (f.path, f.text)).map (refRow f.path)
  /-- a symbol has its file -/
  symbolFile : ∀ s ∈ db.symbols, ∃ f ∈ db.files, f.path = s.path
  /-- a reference has its file -/
  refFile : ∀ r ∈ db.refs, ∃ f ∈ db.files, f.path = r.path
  /-- an id has one symbol -/
  ids : (db.symbols.map (·.id)).Nodup
  /-- a symbol has the hashes of its vector, and none without one -/
  hashes : ∀ s ∈ db.symbols, (db.buckets.filter fun b => b.symbol = s.id) =
    (s.vector.map (bucketRows env s.id)).getD []
  /-- a hash has its symbol -/
  hashSymbol : ∀ b ∈ db.buckets, ∃ s ∈ db.symbols, s.id = b.symbol

variable {env : Env V} {db db' : Db V} {f : Source} {p : String → Bool} {path : String}

/-! ### Deletions -/

theorem any_removed (h : ∃ f ∈ db.files, f.path = path) :
    ((db.files.filter fun f => p f.path).any fun f => f.path = path) = p path := by
  obtain ⟨f, hf, rfl⟩ := h
  refine Bool.eq_iff_iff.2 ⟨fun hany => ?_, fun hp => ?_⟩
  · obtain ⟨g, hg, hpath⟩ := List.any_eq_true.1 hany
    rw [← of_decide_eq_true hpath]
    exact (List.mem_filter.1 hg).2
  · exact List.any_eq_true.2 ⟨f, List.mem_filter.2 ⟨hf, hp⟩, decide_eq_true rfl⟩

theorem Sound.symbols_remove (h : Sound env db) :
    (db.remove p).symbols = db.symbols.filter fun s => !p s.path :=
  List.filter_congr fun s hs => by rw [any_removed (h.symbolFile s hs)]

theorem Sound.refs_remove (h : Sound env db) :
    (db.remove p).refs = db.refs.filter fun r => !p r.path :=
  List.filter_congr fun r hr => by rw [any_removed (h.refFile r hr)]

theorem symbolsAt_remove (h : Sound env db) (hp : p path = false) :
    (db.remove p).symbolsAt path = db.symbolsAt path := by
  rw [Db.symbolsAt, h.symbols_remove, List.filter_filter]
  refine List.filter_congr fun s _ => ?_
  by_cases hs : s.path = path
  · simp [hs, hp]
  · simp [hs]

theorem refsAt_remove (h : Sound env db) (hp : p path = false) :
    (db.remove p).refsAt path = db.refsAt path := by
  rw [Db.refsAt, h.refs_remove, List.filter_filter]
  refine List.filter_congr fun r _ => ?_
  by_cases hr : r.path = path
  · simp [hr, hp]
  · simp [hr]

/-- A hash goes with its symbol. -/
theorem any_removedSymbol (h : Sound env db) {s : SymbolRow V} (hs : s ∈ db.symbols) :
    ((db.symbols.filter fun s => (db.files.filter fun f => p f.path).any (·.path = s.path)).any
      fun t => t.id = s.id) = p s.path := by
  refine Bool.eq_iff_iff.2 ⟨fun hany => ?_, fun hp => ?_⟩
  · obtain ⟨t, ht, hid⟩ := List.any_eq_true.1 hany
    obtain ⟨ht, hremoved⟩ := List.mem_filter.1 ht
    rw [any_removed (h.symbolFile t ht)] at hremoved
    rwa [← List.inj_on_of_nodup_map h.ids ht hs (of_decide_eq_true hid)]
  · refine List.any_eq_true.2 ⟨s, List.mem_filter.2 ⟨hs, ?_⟩, decide_eq_true rfl⟩
    rw [any_removed (h.symbolFile s hs)]
    exact hp

theorem Sound.remove (h : Sound env db) : Sound env (db.remove p) := by
  have hfile : ∀ {g : FileRow}, g ∈ (db.remove p).files ↔ g ∈ db.files ∧ p g.path = false := by
    intro g
    rw [Db.remove, List.mem_filter, Bool.not_eq_true']
  have hsymbol : ∀ {s : SymbolRow V},
      s ∈ (db.remove p).symbols ↔ s ∈ db.symbols ∧ p s.path = false := by
    intro s
    rw [h.symbols_remove, List.mem_filter, Bool.not_eq_true']
  have hhash : ∀ {b : BucketRow} {s : SymbolRow V}, s ∈ db.symbols → b.symbol = s.id →
      (b ∈ (db.remove p).buckets ↔ b ∈ db.buckets ∧ p s.path = false) := by
    intro b s hs hb
    rw [Db.remove, List.mem_filter, hb, any_removedSymbol h hs, Bool.not_eq_true']
  refine ⟨h.paths.sublist (List.filter_sublist.map _), fun g hg => h.file g (hfile.1 hg).1,
    fun g hg => ?_, fun g hg => ?_, fun s hs => ?_, fun r hr => ?_, ?_, fun s hs => ?_,
    fun b hb => ?_⟩
  · rw [symbolsAt_remove h (hfile.1 hg).2]
    exact h.symbols g (hfile.1 hg).1
  · rw [refsAt_remove h (hfile.1 hg).2]
    exact h.refs g (hfile.1 hg).1
  · obtain ⟨hs, hp⟩ := hsymbol.1 hs
    obtain ⟨g, hg, hpath⟩ := h.symbolFile s hs
    exact ⟨g, hfile.2 ⟨hg, hpath ▸ hp⟩, hpath⟩
  · rw [h.refs_remove, List.mem_filter, Bool.not_eq_true'] at hr
    obtain ⟨g, hg, hpath⟩ := h.refFile r hr.1
    exact ⟨g, hfile.2 ⟨hg, hpath ▸ hr.2⟩, hpath⟩
  · exact h.ids.sublist (List.filter_sublist.map _)
  · obtain ⟨hs, hp⟩ := hsymbol.1 hs
    rw [← h.hashes s hs, Db.remove, List.filter_filter]
    refine List.filter_congr fun b _ => ?_
    by_cases hb : b.symbol = s.id
    · rw [hb, any_removedSymbol h hs, hp]
      simp
    · simp [hb]
  · have hb' : b ∈ db.buckets := (List.mem_filter.1 hb).1
    obtain ⟨s, hs, hid⟩ := h.hashSymbol b hb'
    exact ⟨s, hsymbol.2 ⟨hs, ((hhash hs hid.symm).1 hb).2⟩, hid⟩

/-! ### Insertions -/

theorem lt_next {ids : List ℕ} {id : ℕ} (h : id ∈ ids) : id < ids.foldr max 0 + 1 := by
  induction ids with
  | nil => cases h
  | cons n ids ih =>
    rw [List.foldr_cons]
    rcases List.mem_cons.1 h with rfl | h
    · omega
    · have hlt := ih h
      omega

/-- The symbols that are inserted for a file, with new ids. -/
theorem addSymbols_spec (path : String) (ds : List Declaration) (db : Db V)
    (hn : (db.symbols.map (·.id)).Nodup) :
    ∃ new : List (SymbolRow V), ds.foldl (Db.addSymbol path) db =
        { db with symbols := db.symbols ++ new } ∧
      new.map SymbolRow.content = ds.map (symbolRow path 0) ∧
      (∀ s ∈ new, s.path = path ∧ s.vector = none ∧ ∀ t ∈ db.symbols, t.id < s.id) ∧
      ((db.symbols ++ new).map (·.id)).Nodup := by
  induction ds generalizing db with
  | nil => exact ⟨[], by rw [List.append_nil]; rfl, rfl, nofun, by rwa [List.append_nil]⟩
  | cons d ds ih =>
    have hfresh : ∀ t ∈ db.symbols, t.id < (db.symbols.map (·.id)).foldr max 0 + 1 :=
      fun t ht => lt_next (List.mem_map_of_mem ht)
    have hn' : ((db.addSymbol path d).symbols.map (·.id)).Nodup := by
      rw [Db.addSymbol, List.map_append, List.nodup_append]
      refine ⟨hn, List.nodup_singleton _, ?_⟩
      rintro _ ha _ hb rfl
      obtain ⟨t, ht, hid⟩ := List.mem_map.1 ha
      rw [List.map_singleton, List.mem_singleton] at hb
      exact absurd (hfresh t ht) (by rw [hid, hb]; exact lt_irrefl _)
    obtain ⟨new, hfold, hcontent, hnew, hids⟩ := ih (db.addSymbol path d) hn'
    refine ⟨symbolRow path ((db.symbols.map (·.id)).foldr max 0 + 1) d :: new, ?_, ?_, ?_, ?_⟩
    · rw [List.foldl_cons, hfold, Db.addSymbol, List.append_assoc]
      rfl
    · rw [List.map_cons, hcontent, List.map_cons]
      rfl
    · intro s hs
      rcases List.mem_cons.1 hs with rfl | hs
      · exact ⟨rfl, rfl, hfresh⟩
      · obtain ⟨hpath, hvector, hid⟩ := hnew s hs
        exact ⟨hpath, hvector, fun t ht => hid t (List.mem_append_left _ ht)⟩
    · rw [Db.addSymbol, List.append_assoc] at hids
      exact hids

theorem symbolsAt_eq_nil (h : Sound env db) (hpath : ∀ g ∈ db.files, g.path ≠ path) :
    db.symbolsAt path = [] := by
  refine List.filter_eq_nil_iff.2 fun s hs hsp => ?_
  obtain ⟨g, hg, hgs⟩ := h.symbolFile s hs
  exact hpath g hg (hgs.trans (of_decide_eq_true hsp))

theorem refsAt_eq_nil (h : Sound env db) (hpath : ∀ g ∈ db.files, g.path ≠ path) :
    db.refsAt path = [] := by
  refine List.filter_eq_nil_iff.2 fun r hr hrp => ?_
  obtain ⟨g, hg, hgr⟩ := h.refFile r hr
  exact hpath g hg (hgr.trans (of_decide_eq_true hrp))

/-- The rows after the insertion of a file: `new` are its symbols. -/
theorem addFile_spec (h : Sound env db) : ∃ new : List (SymbolRow V),
    db.addFile env f = { db with
      files := db.files ++ [fileRow env f]
      symbols := db.symbols ++ new
      refs := db.refs ++ (refsOf env f).map (refRow f.1) } ∧
    new.map SymbolRow.content = (symbolsOf env f).map (symbolRow f.1 0) ∧
    (∀ s ∈ new, s.path = f.1 ∧ s.vector = none ∧ ∀ t ∈ db.symbols, t.id < s.id) ∧
    ((db.symbols ++ new).map (·.id)).Nodup := by
  obtain ⟨new, hfold, hcontent, hnew, hids⟩ := addSymbols_spec f.1 (symbolsOf env f)
    { db with files := db.files ++ [fileRow env f] } h.ids
  exact ⟨new, by rw [Db.addFile, hfold], hcontent, hnew, hids⟩

/-- The insertion of a file that the index does not have leaves the rows of the others alone. -/
theorem symbolsAt_addFile (h : Sound env db) (hpath : path ≠ f.1) :
    (db.addFile env f).symbolsAt path = db.symbolsAt path := by
  obtain ⟨new, heq, -, hnew, -⟩ := addFile_spec (f := f) h
  rw [heq, Db.symbolsAt, List.filter_append, (List.filter_eq_nil_iff (l := new)).2, List.append_nil]
  · rfl
  · intro s hs hsp
    exact hpath ((of_decide_eq_true hsp).symm.trans (hnew s hs).1)

theorem refsAt_addFile (h : Sound env db) (hpath : path ≠ f.1) :
    (db.addFile env f).refsAt path = db.refsAt path := by
  obtain ⟨new, heq, -⟩ := addFile_spec (f := f) h
  rw [heq, Db.refsAt, List.filter_append,
    (List.filter_eq_nil_iff (l := (refsOf env f).map (refRow f.1))).2, List.append_nil]
  · rfl
  · intro r hr hrp
    obtain ⟨o, -, rfl⟩ := List.mem_map.1 hr
    exact hpath (of_decide_eq_true hrp).symm

/-- The rows of the inserted file. -/
theorem addFile_own (h : Sound env db) (hpath : ∀ g ∈ db.files, g.path ≠ f.1) :
    ((db.addFile env f).symbolsAt f.1).map SymbolRow.content =
        (symbolsOf env f).map (symbolRow f.1 0) ∧
      (db.addFile env f).refsAt f.1 = (refsOf env f).map (refRow f.1) := by
  obtain ⟨new, heq, hcontent, hnew, -⟩ := addFile_spec (f := f) h
  have hsymbols := symbolsAt_eq_nil h hpath
  have hrefs := refsAt_eq_nil h hpath
  rw [Db.symbolsAt] at hsymbols
  rw [Db.refsAt] at hrefs
  rw [heq, Db.symbolsAt, Db.refsAt, List.filter_append, List.filter_append, hsymbols, hrefs,
    List.nil_append, List.nil_append, List.filter_eq_self.2, List.filter_eq_self.2]
  · exact ⟨hcontent, rfl⟩
  · intro r hr
    obtain ⟨o, -, rfl⟩ := List.mem_map.1 hr
    exact decide_eq_true rfl
  · exact fun s hs => decide_eq_true (hnew s hs).1

theorem Sound.addFile (h : Sound env db) (hpath : ∀ g ∈ db.files, g.path ≠ f.1) :
    Sound env (db.addFile env f) := by
  obtain ⟨new, heq, -, hnew, hids⟩ := addFile_spec (f := f) h
  obtain ⟨hsymbols, hrefs⟩ := addFile_own h hpath
  have hfile : ∀ {g : FileRow}, g ∈ (db.addFile env f).files → g ∈ db.files ∨ g = fileRow env f := by
    intro g hg
    rw [heq] at hg
    exact (List.mem_append.1 hg).imp_right List.mem_singleton.1
  have hold : ∀ {g : FileRow}, g ∈ db.files → g ∈ (db.addFile env f).files := by
    intro g hg
    rw [heq]
    exact List.mem_append_left _ hg
  have hown : fileRow env f ∈ (db.addFile env f).files := by
    rw [heq]
    exact List.mem_append_right _ (List.mem_singleton_self _)
  have hsymbol : ∀ {s : SymbolRow V},
      s ∈ (db.addFile env f).symbols ↔ s ∈ db.symbols ∨ s ∈ new := by
    intro s
    rw [heq]
    exact List.mem_append
  have hbuckets : (db.addFile env f).buckets = db.buckets := by rw [heq]
  refine ⟨?_, fun g hg => ?_, fun g hg => ?_, fun g hg => ?_, fun s hs => ?_, fun r hr => ?_, ?_,
    fun s hs => ?_, fun b hb => ?_⟩
  · rw [heq]
    exact Records.nodup_append h.paths hpath
  · rcases hfile hg with hg | rfl
    · exact h.file g hg
    · rfl
  · rcases hfile hg with hg | rfl
    · rw [symbolsAt_addFile h (hpath g hg)]
      exact h.symbols g hg
    · exact hsymbols
  · rcases hfile hg with hg | rfl
    · rw [refsAt_addFile h (hpath g hg)]
      exact h.refs g hg
    · exact hrefs
  · rcases hsymbol.1 hs with hs | hs
    · obtain ⟨g, hg, hgs⟩ := h.symbolFile s hs
      exact ⟨g, hold hg, hgs⟩
    · exact ⟨_, hown, (hnew s hs).1.symm⟩
  · rw [heq] at hr
    rcases List.mem_append.1 hr with hr | hr
    · obtain ⟨g, hg, hgr⟩ := h.refFile r hr
      exact ⟨g, hold hg, hgr⟩
    · obtain ⟨o, -, rfl⟩ := List.mem_map.1 hr
      exact ⟨_, hown, rfl⟩
  · rw [heq]
    exact hids
  · rw [hbuckets]
    rcases hsymbol.1 hs with hs | hs
    · exact h.hashes s hs
    · -- no hash refers to a new id
      obtain ⟨-, hvector, hid⟩ := hnew s hs
      rw [hvector]
      refine List.filter_eq_nil_iff.2 fun b hb hbs => ?_
      obtain ⟨t, ht, htb⟩ := h.hashSymbol b hb
      exact (hid t ht).ne (htb.trans (of_decide_eq_true hbs))
  · rw [hbuckets] at hb
    obtain ⟨s, hs, hid⟩ := h.hashSymbol b hb
    exact ⟨s, hsymbol.2 (.inl hs), hid⟩

/-! ### Vectors -/

/-- Only ids, vectors and hashes differ. -/
structure Kept (db db' : Db V) : Prop where
  /-- the files are the same -/
  files : db'.files = db.files
  /-- and so are the symbols, -/
  symbols : db'.symbols.map SymbolRow.content = db.symbols.map SymbolRow.content
  /-- the references -/
  refs : db'.refs = db.refs
  /-- and the version -/
  version : db'.version = db.version

theorem Kept.refl : Kept db db := ⟨rfl, rfl, rfl, rfl⟩

theorem Kept.trans {db'' : Db V} (h : Kept db db') (h' : Kept db' db'') : Kept db db'' :=
  ⟨h'.files.trans h.files, h'.symbols.trans h.symbols, h'.refs.trans h.refs,
    h'.version.trans h.version⟩

theorem content_symbolsAt : (db.symbolsAt path).map SymbolRow.content =
    (db.symbols.map SymbolRow.content).filter fun s => s.path = path := by
  rw [List.filter_map]
  rfl

theorem Kept.symbolsAt (h : Kept db db') : (db'.symbolsAt path).map SymbolRow.content =
    (db.symbolsAt path).map SymbolRow.content := by
  rw [content_symbolsAt, content_symbolsAt, h.symbols]

theorem kept_setVector {id : ℕ} {v : V} : Kept db (db.setVector env id v) := by
  refine ⟨rfl, ?_, rfl, rfl⟩
  rw [Db.setVector, List.map_map]
  refine List.map_congr_left fun s _ => ?_
  rw [Function.comp_apply]
  split_ifs
  · rfl
  · rfl

theorem mem_bucketRows {id : ℕ} {v : V} {b : BucketRow} (hb : b ∈ bucketRows env id v) :
    b.symbol = id := by
  obtain ⟨tab, -, rfl⟩ := List.mem_map.1 hb
  rfl

theorem Sound.setVector {s : SymbolRow V} {v : V} (h : Sound env db) (hs : s ∈ db.symbols)
    (hv : s.vector = none) : Sound env (db.setVector env s.id v) := by
  have hkept : Kept db (db.setVector env s.id v) := kept_setVector
  have hsymbol : ∀ {t : SymbolRow V}, t ∈ (db.setVector env s.id v).symbols → ∃ t₀ ∈ db.symbols,
      (if t₀.id = s.id then { t₀ with vector := some v } else t₀) = t :=
    fun ht => List.mem_map.1 ht
  have hmap : (db.setVector env s.id v).symbols.map (·.id) = db.symbols.map (·.id) := by
    refine Records.map_key fun t _ => ?_
    split_ifs
    · rfl
    · rfl
  refine ⟨h.paths, h.file, fun g hg => ?_, h.refs, fun t ht => ?_, h.refFile, ?_, fun t ht => ?_,
    fun b hb => ?_⟩
  · rw [hkept.symbolsAt]
    exact h.symbols g hg
  · obtain ⟨t₀, ht₀, rfl⟩ := hsymbol ht
    obtain ⟨g, hg, hpath⟩ := h.symbolFile t₀ ht₀
    refine ⟨g, hg, hpath.trans ?_⟩
    split_ifs
    · rfl
    · rfl
  · rw [hmap]
    exact h.ids
  · obtain ⟨t₀, ht₀, rfl⟩ := hsymbol ht
    rw [Db.setVector, List.filter_append]
    by_cases hid : t₀.id = s.id
    · have hown : (db.buckets.filter fun b => b.symbol = s.id) = [] := by
        rw [h.hashes s hs, hv]
        rfl
      rw [if_pos hid]
      dsimp only
      rw [hid, hown, List.nil_append, List.filter_eq_self.2 fun b hb =>
        decide_eq_true (mem_bucketRows hb)]
      rfl
    · rw [if_neg hid, (List.filter_eq_nil_iff (l := bucketRows env s.id v)).2, List.append_nil]
      · exact h.hashes t₀ ht₀
      · intro b hb hbt
        exact hid ((of_decide_eq_true hbt).symm.trans (mem_bucketRows hb))
  · have hmem : ∀ {id : ℕ}, (∃ t ∈ db.symbols, t.id = id) →
        ∃ t ∈ (db.setVector env s.id v).symbols, t.id = id := by
      rintro id ⟨t, ht, rfl⟩
      exact List.mem_map.1 (hmap ▸ List.mem_map_of_mem ht)
    rcases List.mem_append.1 hb with hb | hb
    · exact hmem (h.hashSymbol b hb)
    · exact hmem ⟨s, hs, (mem_bucketRows hb).symm⟩

/-- The rows have no vector in the index. -/
def Pending (db : Db V) (rows : List (SymbolRow V)) : Prop :=
  (rows.map (·.id)).Nodup ∧ ∀ s ∈ rows, ∃ t ∈ db.symbols, t.id = s.id ∧ t.vector = none

variable {c : Course}

theorem pending_spec (h : Sound env db) : Pending db (pending c db) := by
  have hsub : ∀ s ∈ pending c db, s ∈ db.symbols ∧ s.vector = none := by
    intro s hs
    have hs := List.mem_of_mem_take hs
    rw [List.mem_insertionSort, List.mem_filter] at hs
    exact ⟨hs.1, Option.isNone_iff_eq_none.1 hs.2⟩
  refine ⟨?_, fun s hs => ⟨s, (hsub s hs).1, rfl, (hsub s hs).2⟩⟩
  have hperm := (List.perm_insertionSort (fun a b : SymbolRow V => a.id ≤ b.id)
    (db.symbols.filter fun s => s.vector.isNone)).map (·.id)
  exact (hperm.nodup_iff.2 (h.ids.sublist (List.filter_sublist.map _))).sublist
    ((List.take_sublist _ _).map _)

/-- The loop over the vectors. -/
theorem embedRows_spec {rows : List (SymbolRow V)} {n n' : Requests} (h : Sound env db)
    (hrows : Pending db rows) (hok : embedRows env c rows n db = .ok (db', n')) :
    Sound env db' ∧ Kept db db' := by
  induction rows generalizing n db with
  | nil =>
    cases hok
    exact ⟨h, .refl⟩
  | cons s rows ih =>
    obtain ⟨hnodup, hpending⟩ := hrows
    rw [List.map_cons, List.nodup_cons] at hnodup
    rw [embedRows, bind_eq_ok] at hok
    obtain ⟨-, -, hok⟩ := hok
    cases hembed : env.embed s.chunk with
    | none =>
      rw [hembed] at hok
      dsimp only at hok
      split at hok
      · cases hok
        exact ⟨h, .refl⟩
      · exact ih h ⟨hnodup.2, fun t ht => hpending t (List.mem_cons_of_mem _ ht)⟩ hok
    | some v =>
      rw [hembed] at hok
      dsimp only at hok
      rw [bind_eq_ok] at hok
      obtain ⟨-, -, hok⟩ := hok
      obtain ⟨t, ht, hid, hv⟩ := hpending s List.mem_cons_self
      rw [← hid] at hok
      have hrest : Pending (db.setVector env t.id v) rows := by
        refine ⟨hnodup.2, fun r hr => ?_⟩
        obtain ⟨r₀, hr₀, hrid, hrv⟩ := hpending r (List.mem_cons_of_mem _ hr)
        refine ⟨r₀, List.mem_map.2 ⟨r₀, hr₀, if_neg fun heq => hnodup.1 ?_⟩, hrid, hrv⟩
        rw [← hid, ← heq, hrid]
        exact List.mem_map_of_mem hr
      obtain ⟨hsound, hkept⟩ := ih (h.setVector ht hv) hrest hok
      exact ⟨hsound, kept_setVector.trans hkept⟩

/-! ### The loop over the inventory -/

theorem hash_eq_some (hn : (db.files.map (·.path)).Nodup) {x : String} :
    db.hash path = some x ↔ ∃ g ∈ db.files, g.path = path ∧ g.hash = x := by
  rw [Db.hash, Option.map_eq_some_iff]
  constructor
  · rintro ⟨g, hg, rfl⟩
    exact ⟨g, Records.mem_of_find hg, Records.key_of_find hg, rfl⟩
  · rintro ⟨g, hg, rfl, rfl⟩
    exact ⟨g, Records.find_of_mem hn hg, rfl⟩

/-- A file with the hash of its text has the row of it. -/
theorem Sound.eq_fileRow (h : Sound env db) (hsha : env.Collisionless) {g : FileRow}
    (hg : g ∈ db.files) (hpath : g.path = f.1) (hhash : g.hash = env.sha256 f.2) :
    g = fileRow env f := by
  have hrow := h.file g hg
  have htext : g.text = f.2 := by
    rw [hrow] at hhash
    exact hsha hhash
  rw [hrow, hpath, htext]

/-- The file has its row, and the others are as they were. -/
structure Replaced (env : Env V) (f : Source) (db db' : Db V) : Prop where
  /-- the rows belong together -/
  sound : Sound env db'
  /-- the version stays -/
  version : db'.version = db.version
  /-- the files -/
  files : ∀ g, g ∈ db'.files ↔ g ∈ db.files ∧ g.path ≠ f.1 ∨ g = fileRow env f
  /-- the symbols of the other files -/
  symbols : ∀ path, path ≠ f.1 → db'.symbolsAt path = db.symbolsAt path
  /-- their references -/
  refs : ∀ path, path ≠ f.1 → db'.refsAt path = db.refsAt path

variable {old : String → Option String}

theorem replaced_of_hash (h : Sound env db) (hsha : env.Collisionless)
    (hhash : db.hash f.1 = some (env.sha256 f.2)) : Replaced env f db db := by
  obtain ⟨g, hg, hpath, hghash⟩ := (hash_eq_some h.paths).1 hhash
  have hrow := h.eq_fileRow hsha hg hpath hghash
  refine ⟨h, rfl, fun g' => ⟨fun hg' => ?_, ?_⟩, fun _ _ => rfl, fun _ _ => rfl⟩
  · by_cases hg'p : g'.path = f.1
    · refine .inr ?_
      rw [← hrow]
      exact List.inj_on_of_nodup_map h.paths hg' hg (hg'p.trans hpath.symm)
    · exact .inl ⟨hg', hg'p⟩
  · rintro (⟨hg', -⟩ | rfl)
    · exact hg'
    · rwa [hrow] at hg

theorem replaced_of_changed (h : Sound env db) :
    Replaced env f db ((db.remove (· = f.1)).addFile env f) := by
  have hremove : Sound env (db.remove (· = f.1)) := h.remove
  have hmem : ∀ {g : FileRow}, g ∈ (db.remove (· = f.1)).files ↔ g ∈ db.files ∧ g.path ≠ f.1 := by
    intro g
    rw [Db.remove, List.mem_filter, Bool.not_eq_true', decide_eq_false_iff_not]
  have hpath : ∀ g ∈ (db.remove (· = f.1)).files, g.path ≠ f.1 := fun g hg => (hmem.1 hg).2
  obtain ⟨new, heq, -⟩ := addFile_spec (f := f) hremove
  refine ⟨hremove.addFile hpath, by rw [heq]; rfl, fun g => ?_, fun path hne => ?_, fun path hne => ?_⟩
  · rw [heq, List.mem_append, hmem, List.mem_singleton]
  · rw [symbolsAt_addFile hremove hne, symbolsAt_remove h (decide_eq_false hne)]
  · rw [refsAt_addFile hremove hne, refsAt_remove h (decide_eq_false hne)]

/-- One turn of the loop. -/
theorem indexFile_spec (h : Sound env db) (hsha : env.Collisionless) (hold : old f.1 = db.hash f.1)
    (hok : indexFile env c old f db = .ok db') : Replaced env f db db' := by
  rw [indexFile, bind_eq_ok] at hok
  obtain ⟨-, -, hok⟩ := hok
  split at hok
  case isTrue hhash =>
    cases hok
    exact replaced_of_hash h hsha (hold ▸ hhash)
  case isFalse =>
    simp only [bind_eq_ok, pure_eq_ok] at hok
    obtain ⟨-, -, -, -, -, -, rfl⟩ := hok
    exact replaced_of_changed h

/-- The other files keep their hashes. -/
theorem Replaced.hash (h : Replaced env f db db') (hs : Sound env db) (hne : path ≠ f.1) :
    db'.hash path = db.hash path := by
  refine Option.ext fun x => ?_
  rw [hash_eq_some h.sound.paths, hash_eq_some hs.paths]
  constructor
  · rintro ⟨g, hg, rfl, rfl⟩
    rcases (h.files g).1 hg with hg | rfl
    · exact ⟨g, hg.1, rfl, rfl⟩
    · exact absurd rfl hne
  · rintro ⟨g, hg, rfl, rfl⟩
    exact ⟨g, (h.files g).2 (.inl ⟨hg, hne⟩), rfl, rfl⟩

/-- **The loop over the inventory leaves the rows of its files.** -/
theorem indexFiles_spec {files : List Source} (h : Sound env db) (hsha : env.Collisionless)
    (hn : (files.map (·.1)).Nodup) (hold : ∀ f ∈ files, old f.1 = db.hash f.1) (hok : indexFiles env c old files db = .ok db') :
    Sound env db' ∧ db'.version = db.version ∧ ∀ g, g ∈ db'.files ↔
      g ∈ db.files ∧ g.path ∉ files.map (·.1) ∨ ∃ f ∈ files, g = fileRow env f := by
  induction files generalizing db with
  | nil =>
    cases hok
    refine ⟨h, rfl, fun g => ⟨fun hg => .inl ⟨hg, List.not_mem_nil⟩, ?_⟩⟩
    rintro (⟨hg, -⟩ | ⟨f, hf, -⟩)
    · exact hg
    · cases hf
  | cons f files ih =>
    rw [List.map_cons, List.nodup_cons] at hn
    rw [indexFiles, bind_eq_ok] at hok
    obtain ⟨db₁, hfile, hok⟩ := hok
    have hstep := indexFile_spec h hsha (hold f List.mem_cons_self) hfile
    obtain ⟨hsound, hversion, hfiles⟩ := ih hstep.sound hn.2 (fun g hg => by
      rw [hold g (List.mem_cons_of_mem _ hg), hstep.hash h]
      rintro heq
      exact hn.1 (heq ▸ List.mem_map_of_mem hg)) hok
    refine ⟨hsound, hversion.trans hstep.version, fun g => ?_⟩
    rw [hfiles, hstep.files, List.map_cons, List.mem_cons, not_or]
    constructor
    · rintro (⟨⟨hg, hne⟩ | rfl, hrest⟩ | ⟨f', hf', rfl⟩)
      · exact .inl ⟨hg, hne, hrest⟩
      · exact .inr ⟨f, List.mem_cons_self, rfl⟩
      · exact .inr ⟨f', List.mem_cons_of_mem _ hf', rfl⟩
    · rintro (⟨hg, hne, hrest⟩ | ⟨f', hf', rfl⟩)
      · exact .inl ⟨.inl ⟨hg, hne⟩, hrest⟩
      · rcases List.mem_cons.1 hf' with rfl | hf'
        · exact .inl ⟨.inr rfl, hn.1⟩
        · exact .inr ⟨f', hf', rfl⟩

/-! ### A refresh -/

/-- The index is empty, or sound for its version. -/
def Stored (envs : String → Env V) (db : Db V) : Prop :=
  db = {} ∨ ∃ version, db.version = some version ∧ Sound (envs version) db

/-- Without files there are no rows. -/
theorem Sound.eq_nil (h : Sound env db) (hfiles : db.files = []) :
    db.symbols = [] ∧ db.refs = [] ∧ db.buckets = [] := by
  have hno : ∀ {path : String}, ¬ ∃ g ∈ db.files, g.path = path := by
    rintro path ⟨g, hg, -⟩
    rw [hfiles] at hg
    cases hg
  have hsymbols : db.symbols = [] := List.eq_nil_iff_forall_not_mem.2 fun s hs =>
    hno (h.symbolFile s hs)
  refine ⟨hsymbols, List.eq_nil_iff_forall_not_mem.2 fun r hr => hno (h.refFile r hr),
    List.eq_nil_iff_forall_not_mem.2 fun b hb => ?_⟩
  obtain ⟨s, hs, -⟩ := h.hashSymbol b hb
  rw [hsymbols] at hs
  cases hs

/-- The empty index is sound for every version. -/
theorem sound_of_nil (hfiles : db.files = []) (hsymbols : db.symbols = []) (hrefs : db.refs = [])
    (hbuckets : db.buckets = []) : Sound env db := by
  cases db
  subst hfiles hsymbols hrefs hbuckets
  exact ⟨List.nodup_nil, nofun, nofun, nofun, nofun, nofun, List.nodup_nil, nofun, nofun⟩

variable {envs : String → Env V} {version : String}

/-- Under another version the index is emptied. -/
theorem versioned_spec (version : String) (h : Stored envs db) : Sound (envs version) (versioned version db) ∧
    (versioned version db).version = some version := by
  rw [versioned]
  by_cases hv : db.version = some version
  · rw [if_pos hv]
    refine ⟨?_, hv⟩
    rcases h with rfl | ⟨w, hw, hsound⟩
    · cases hv
    · rw [hv] at hw
      cases hw
      exact hsound
  · rw [if_neg hv]
    have hfiles : (db.remove fun _ => true).files = [] := List.filter_eq_nil_iff.2 fun _ _ => nofun
    have hnil : (db.remove fun _ => true).symbols = [] ∧ (db.remove fun _ => true).refs = [] ∧
        (db.remove fun _ => true).buckets = [] := by
      rcases h with rfl | ⟨w, -, hsound⟩
      · exact ⟨rfl, rfl, rfl⟩
      · exact hsound.remove.eq_nil hfiles
    exact ⟨sound_of_nil hfiles hnil.1 hnil.2.1 hnil.2.2, rfl⟩

variable {files : List Source} {embed : Bool} {stats : Stats}

theorem mem_pruned {g : FileRow} :
    g ∈ (pruned files db).files ↔ g ∈ db.files ∧ g.path ∈ files.map (·.1) := by
  rw [pruned, Db.remove, List.mem_filter, Bool.not_eq_true', decide_eq_false_iff_not, not_not]

theorem Sound.pruned (h : Sound env db) : Sound env (pruned files db) := h.remove

theorem pruned_hash (h : Sound env db) (hf : f ∈ files) :
    db.hash f.1 = (pruned files db).hash f.1 := by
  refine Option.ext fun x => ?_
  rw [hash_eq_some h.paths, hash_eq_some h.pruned.paths]
  constructor
  · rintro ⟨g, hg, hpath, hhash⟩
    exact ⟨g, mem_pruned.2 ⟨hg, hpath ▸ List.mem_map_of_mem hf⟩, hpath, hhash⟩
  · rintro ⟨g, hg, hpath, hhash⟩
    exact ⟨g, (mem_pruned.1 hg).1, hpath, hhash⟩

/-- The files of the index are those of the inventory. -/
def Current (env : Env V) (files : List Source) (db : Db V) : Prop :=
  ∀ g, g ∈ db.files ↔ ∃ f ∈ files, g = fileRow env f

theorem pruned_indexFiles (h : Sound env db) (hsha : env.Collisionless) (hn : (files.map (·.1)).Nodup)
    (hok : indexFiles env c db.hash files (pruned files db) = .ok db') :
    Sound env db' ∧ db'.version = db.version ∧ Current env files db' := by
  obtain ⟨hsound, hversion, hfiles⟩ :=
    indexFiles_spec h.pruned hsha hn (fun f hf => pruned_hash h hf) hok
  refine ⟨hsound, hversion, fun g => ?_⟩
  rw [hfiles]
  refine ⟨?_, .inr⟩
  rintro (⟨hg, hpath⟩ | hg)
  · exact absurd (mem_pruned.1 hg).2 hpath
  · exact hg

/-- What a refresh that returns has done. -/
theorem refresh_ok (hok : refresh env version c files embed db = .ok (db', stats)) :
    ∃ db₁, indexFiles env c (versioned version db).hash files (pruned files (versioned version db)) =
        .ok db₁ ∧
      (db' = db₁ ∨ ∃ n, embedRows env c (pending c db₁) {} db₁ = .ok (db', n)) ∧
      db'.symbols.length ≤ 20000 ∧ db'.refs.length ≤ 200000 := by
  unfold refresh at hok
  simp only [bind_eq_ok, pure_eq_ok, ensure_eq_ok, Prod.mk.injEq, Prod.exists] at hok
  obtain ⟨db₁, hfiles, db₂, n, hvectors, -, hlimits, -, -, -, -, rfl, -⟩ := hok
  rw [Bool.and_eq_true, decide_eq_true_iff, decide_eq_true_iff] at hlimits
  refine ⟨db₁, hfiles, ?_, hlimits⟩
  split at hvectors
  · exact .inr ⟨n, hvectors⟩
  · cases hvectors
    exact .inl rfl

/-- **A refresh leaves a sound index of its inventory.** -/
theorem refresh_spec (h : Stored envs db) (hsha : (envs version).Collisionless) (hn : (files.map (·.1)).Nodup)
    (hok : refresh (envs version) version c files embed db = .ok (db', stats)) :
    Sound (envs version) db' ∧ db'.version = some version ∧ Current (envs version) files db' := by
  obtain ⟨hstart, hversion⟩ := versioned_spec version h
  obtain ⟨db₁, hfiles, hvectors, -⟩ := refresh_ok hok
  obtain ⟨hsound, hversion₁, hcurrent⟩ := pruned_indexFiles hstart hsha hn hfiles
  rcases hvectors with rfl | ⟨n, hvectors⟩
  · exact ⟨hsound, hversion₁.trans hversion, hcurrent⟩
  · obtain ⟨hsound', hkept⟩ := embedRows_spec hsound (pending_spec hsound) hvectors
    refine ⟨hsound', (hkept.version.trans hversion₁).trans hversion, fun g => ?_⟩
    rw [hkept.files]
    exact hcurrent g

/-! ### The same rows -/

/-- The tables have the same rows, up to the ids and the vectors of symbols. -/
structure Same (db db' : Db V) : Prop where
  /-- the files are the same -/
  files : db.files.Perm db'.files
  /-- and so are the symbols -/
  symbols : (db.symbols.map SymbolRow.content).Perm (db'.symbols.map SymbolRow.content)
  /-- and the references -/
  refs : db.refs.Perm db'.refs

/-- Rows that agree at every key are the same. -/
theorem perm_of_filter {R : Type} (key : R → String) {rows rows' : List R}
    (h : ∀ k, (rows.filter fun r => key r = k) = rows'.filter fun r => key r = k) :
    rows.Perm rows' := by
  classical
  refine List.perm_iff_count.2 fun r => ?_
  have hcount : ∀ l : List R, (l.filter fun x => key x = key r).count r = l.count r :=
    fun l => List.count_filter (decide_eq_true rfl)
  rw [← hcount rows, h, hcount]

variable {db₁ db₂ : Db V}

theorem Sound.symbolsAt_congr (h₁ : Sound env db₁) (h₂ : Sound env db₂)
    (hfiles : ∀ g, g ∈ db₁.files ↔ g ∈ db₂.files) :
    (db₁.symbolsAt path).map SymbolRow.content = (db₂.symbolsAt path).map SymbolRow.content := by
  by_cases hpath : ∃ g ∈ db₁.files, g.path = path
  · obtain ⟨g, hg, rfl⟩ := hpath
    rw [h₁.symbols g hg, h₂.symbols g ((hfiles g).1 hg)]
  · have hno : ∀ g ∈ db₁.files, g.path ≠ path := fun g hg heq => hpath ⟨g, hg, heq⟩
    rw [symbolsAt_eq_nil h₁ hno, symbolsAt_eq_nil h₂ fun g hg => hno g ((hfiles g).2 hg)]

theorem Sound.refsAt_congr (h₁ : Sound env db₁) (h₂ : Sound env db₂)
    (hfiles : ∀ g, g ∈ db₁.files ↔ g ∈ db₂.files) : db₁.refsAt path = db₂.refsAt path := by
  by_cases hpath : ∃ g ∈ db₁.files, g.path = path
  · obtain ⟨g, hg, rfl⟩ := hpath
    rw [h₁.refs g hg, h₂.refs g ((hfiles g).1 hg)]
  · have hno : ∀ g ∈ db₁.files, g.path ≠ path := fun g hg heq => hpath ⟨g, hg, heq⟩
    rw [refsAt_eq_nil h₁ hno, refsAt_eq_nil h₂ fun g hg => hno g ((hfiles g).2 hg)]

/-- Sound indexes of the same files have the same rows. -/
theorem Sound.same (h₁ : Sound env db₁) (h₂ : Sound env db₂)
    (hfiles : ∀ g, g ∈ db₁.files ↔ g ∈ db₂.files) : Same db₁ db₂ where
  files := (List.perm_ext_iff_of_nodup (List.Nodup.of_map _ h₁.paths)
    (List.Nodup.of_map _ h₂.paths)).2 hfiles
  symbols := perm_of_filter SymbolRow.path fun path => by
    rw [← content_symbolsAt, ← content_symbolsAt]
    exact h₁.symbolsAt_congr h₂ hfiles
  refs := perm_of_filter RefRow.path fun path => h₁.refsAt_congr h₂ hfiles

end CodeIndex

end PythonAI
