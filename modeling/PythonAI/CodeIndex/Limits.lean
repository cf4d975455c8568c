import PythonAI.CodeIndex.Integrity

/-!
# When a refresh returns

The loop over the inventory counts the rows of the tables before it inserts those of a file, and at
that moment the files behind it have their old rows.  `Room` says that the limits admit these mixed
tables at every changed file; without an interruption, and while the database has its pages, the loop
returns exactly then.

* `refresh_isOk_iff` : **a refresh that nothing disturbs returns iff there is room, and the limits
  admit the rows of the inventory**.
-/

namespace PythonAI

open Library

namespace CodeIndex

variable {V : Type}

/-- The rows of a table while the loop is between two files: those before it have their new rows,
and those behind it their old ones. -/
def load (size : Source → ℕ) (held : String → ℕ) (before behind : List Source) : ℕ :=
  (before.map size).sum + (behind.map fun g => held g.1).sum

/-- The limits admit the rows of a file. -/
def Fits (env : Env V) (start : Db V) (before : List Source) (f : Source) (behind : List Source) :
    Prop :=
  (symbolsOf env f ≠ [] → (symbolsOf env f).length + load (fun g => (symbolsOf env g).length)
    (fun path => (start.symbolsAt path).length) before behind ≤ 20000) ∧
  (refsOf env f ≠ [] → (refsOf env f).length + load (fun g => (refsOf env g).length)
    (fun path => (start.refsAt path).length) before behind ≤ 200000)

/-- The limits admit every changed file, in the order of the inventory. -/
def Room (env : Env V) (start : Db V) (files : List Source) : Prop :=
  ∀ before f behind, files = before ++ f :: behind → start.hash f.1 ≠ some (env.sha256 f.2) →
    Fits env start before f behind

/-- Nothing disturbs the refresh, and its pages are within the limit. -/
structure Calm (c : Course) : Prop where
  /-- it is not interrupted at a file, -/
  stops : ∀ path, c.stops path = false
  /-- nor at a symbol -/
  halts : ∀ id, c.halts id = false
  /-- the pages are within the limit after a file -/
  fits : ∀ path, c.fits path = true
  /-- and after a symbol -/
  fitsRow : ∀ id, c.fitsRow id = true

theorem calm_default : Calm {} := ⟨fun _ => rfl, fun _ => rfl, fun _ => rfl, fun _ => rfl⟩

variable {env : Env V} {start db db' : Db V} {f : Source} {before behind files : List Source}
  {c : Course} {size : Source → ℕ} {held : String → ℕ}

/-! ### The rows in the tables -/

/-- The rows of a table, by the files of the inventory. -/
theorem length_eq_load {R : Type} (key : R → String) {rows : List R}
    (hn : ((before ++ behind).map (·.1)).Nodup)
    (hkey : ∀ r ∈ rows, key r ∈ (before ++ behind).map (·.1))
    (hbefore : ∀ g ∈ before, (rows.filter fun r => key r = g.1).length = size g)
    (hbehind : ∀ g ∈ behind, (rows.filter fun r => key r = g.1).length = held g.1) :
    rows.length = load size held before behind := by
  rw [Records.length_eq_sum hn hkey, List.map_map, List.map_append, List.sum_append, load]
  exact congrArg₂ (· + ·) (congrArg List.sum (List.map_congr_left hbefore))
    (congrArg List.sum (List.map_congr_left hbehind))

/-- The index between two files of the loop. -/
structure Between (env : Env V) (start : Db V) (before behind : List Source) (db : Db V) : Prop where
  /-- the rows belong together -/
  sound : Sound env db
  /-- the files are files of the inventory -/
  paths : ∀ g ∈ db.files, g.path ∈ (before ++ behind).map (·.1)
  /-- those before have their new row -/
  before : ∀ f ∈ before, fileRow env f ∈ db.files
  /-- those behind have their old symbols, -/
  symbols : ∀ f ∈ behind, db.symbolsAt f.1 = start.symbolsAt f.1
  /-- their old references -/
  refs : ∀ f ∈ behind, db.refsAt f.1 = start.refsAt f.1
  /-- and their old hash -/
  hash : ∀ f ∈ behind, start.hash f.1 = db.hash f.1

theorem Sound.length_symbolsAt (h : Sound env db) (hf : fileRow env f ∈ db.files) :
    (db.symbolsAt f.1).length = (symbolsOf env f).length := by
  have hrows := congrArg List.length (h.symbols _ hf)
  rwa [List.length_map, List.length_map] at hrows

theorem Sound.length_refsAt (h : Sound env db) (hf : fileRow env f ∈ db.files) :
    (db.refsAt f.1).length = (refsOf env f).length := by
  rw [show db.refsAt f.1 = (refsOf env f).map (refRow f.1) from h.refs _ hf, List.length_map]

theorem Between.length_symbols (h : Between env start before behind db)
    (hn : ((before ++ behind).map (·.1)).Nodup) : db.symbols.length =
      load (fun g => (symbolsOf env g).length) (fun path => (start.symbolsAt path).length)
        before behind := by
  refine length_eq_load SymbolRow.path hn (fun s hs => ?_)
    (fun g hg => h.sound.length_symbolsAt (h.before g hg))
    fun g hg => congrArg List.length (h.symbols g hg)
  obtain ⟨g, hg, hpath⟩ := h.sound.symbolFile s hs
  exact hpath ▸ h.paths g hg

theorem Between.length_refs (h : Between env start before behind db)
    (hn : ((before ++ behind).map (·.1)).Nodup) : db.refs.length =
      load (fun g => (refsOf env g).length) (fun path => (start.refsAt path).length)
        before behind := by
  refine length_eq_load RefRow.path hn (fun r hr => ?_)
    (fun g hg => h.sound.length_refsAt (h.before g hg))
    fun g hg => congrArg List.length (h.refs g hg)
  obtain ⟨g, hg, hpath⟩ := h.sound.refFile r hr
  exact hpath ▸ h.paths g hg

/-! ### The loop -/

theorem nodup_middle (hn : ((before ++ f :: behind).map (·.1)).Nodup) :
    ((before ++ behind).map (·.1)).Nodup ∧ ∀ g ∈ before ++ behind, g.1 ≠ f.1 := by
  rw [List.map_append, List.map_cons, List.nodup_middle, List.nodup_cons, ← List.map_append] at hn
  exact ⟨hn.2, fun g hg heq => hn.1 (heq ▸ List.mem_map_of_mem hg)⟩

/-- The old rows of the file at hand are deleted. -/
theorem Between.remove (h : Between env start before (f :: behind) db)
    (hn : ((before ++ f :: behind).map (·.1)).Nodup) :
    Between env start before behind (db.remove (· = f.1)) := by
  obtain ⟨-, hne⟩ := nodup_middle hn
  have hmem : ∀ {g : FileRow}, g ∈ (db.remove (· = f.1)).files ↔ g ∈ db.files ∧ g.path ≠ f.1 := by
    intro g
    rw [Db.remove, List.mem_filter, Bool.not_eq_true', decide_eq_false_iff_not]
  have hother : ∀ g ∈ behind, decide (g.1 = f.1) = false := fun g hg =>
    decide_eq_false (hne g (List.mem_append_right _ hg))
  refine ⟨h.sound.remove, fun g hg => ?_, fun g hg => ?_, fun g hg => ?_, fun g hg => ?_,
    fun g hg => ?_⟩
  · obtain ⟨hg, hgne⟩ := hmem.1 hg
    have hpath := h.paths g hg
    rw [List.map_append, List.map_cons, List.mem_append, List.mem_cons] at hpath
    rw [List.map_append, List.mem_append]
    exact hpath.imp_right (·.resolve_left hgne)
  · exact hmem.2 ⟨h.before g hg, hne g (List.mem_append_left _ hg)⟩
  · rw [symbolsAt_remove h.sound (hother g hg)]
    exact h.symbols g (List.mem_cons_of_mem _ hg)
  · rw [refsAt_remove h.sound (hother g hg)]
    exact h.refs g (List.mem_cons_of_mem _ hg)
  · rw [h.hash g (List.mem_cons_of_mem _ hg)]
    refine Option.ext fun x => ?_
    rw [hash_eq_some h.sound.paths, hash_eq_some h.sound.remove.paths]
    constructor
    · rintro ⟨r, hr, hpath, hhash⟩
      exact ⟨r, hmem.2 ⟨hr, hpath ▸ hne g (List.mem_append_right _ hg)⟩, hpath, hhash⟩
    · rintro ⟨r, hr, hpath, hhash⟩
      exact ⟨r, (hmem.1 hr).1, hpath, hhash⟩

/-- The file at hand has its new rows. -/
theorem Between.next (h : Between env start before (f :: behind) db)
    (hn : ((before ++ f :: behind).map (·.1)).Nodup) (hf : Replaced env f db db') :
    Between env start (before ++ [f]) behind db' := by
  obtain ⟨-, hne⟩ := nodup_middle hn
  have happend : before ++ [f] ++ behind = before ++ f :: behind := by
    rw [List.append_assoc, List.singleton_append]
  refine ⟨hf.sound, fun g hg => ?_, fun g hg => ?_, fun g hg => ?_, fun g hg => ?_, fun g hg => ?_⟩
  · rw [happend]
    rcases (hf.files g).1 hg with ⟨hg, -⟩ | rfl
    · exact h.paths g hg
    · exact List.mem_map_of_mem (List.mem_append_right _ List.mem_cons_self)
  · rcases List.mem_append.1 hg with hg | hg
    · exact (hf.files _).2 (.inl ⟨h.before g hg, hne g (List.mem_append_left _ hg)⟩)
    · rw [List.mem_singleton.1 hg]
      exact (hf.files _).2 (.inr rfl)
  · rw [hf.symbols _ (hne g (List.mem_append_right _ hg))]
    exact h.symbols g (List.mem_cons_of_mem _ hg)
  · rw [hf.refs _ (hne g (List.mem_append_right _ hg))]
    exact h.refs g (List.mem_cons_of_mem _ hg)
  · rw [hf.hash h.sound (hne g (List.mem_append_right _ hg))]
    exact h.hash g (List.mem_cons_of_mem _ hg)

/-- One turn of the loop: the file is unchanged, or the limits admit it. -/
theorem indexFile_isOk_iff (hc : Calm c) (h : Between env start before (f :: behind) db)
    (hn : ((before ++ f :: behind).map (·.1)).Nodup) :
    (∃ db', indexFile env c start.hash f db = .ok db') ↔
      (start.hash f.1 ≠ some (env.sha256 f.2) → Fits env start before f behind) := by
  obtain ⟨hn', -⟩ := nodup_middle hn
  have hremove := h.remove hn
  rw [Fits, ← hremove.length_symbols hn', ← hremove.length_refs hn']
  constructor
  · rintro ⟨db', hok⟩ hne
    rw [indexFile, bind_eq_ok] at hok
    obtain ⟨-, -, hok⟩ := hok
    rw [if_neg hne] at hok
    simp only [bind_eq_ok, ensure_eq_ok, Bool.or_eq_true, List.isEmpty_iff,
      decide_eq_true_iff] at hok
    obtain ⟨-, hsymbols, -, hrefs, -⟩ := hok
    exact ⟨hsymbols.resolve_left, hrefs.resolve_left⟩
  · intro hfits
    rw [indexFile, hc.stops, Bool.not_false, ensure_true]
    by_cases hhash : start.hash f.1 = some (env.sha256 f.2)
    · exact ⟨db, if_pos hhash⟩
    · obtain ⟨hsymbols, hrefs⟩ := hfits hhash
      refine ⟨(db.remove (· = f.1)).addFile env f, (if_neg hhash).trans ?_⟩
      simp only [bind_eq_ok, ensure_eq_ok, Bool.or_eq_true, List.isEmpty_iff, decide_eq_true_iff,
        hc.fits, pure_eq_ok]
      exact ⟨(), or_iff_not_imp_left.2 hsymbols, (), or_iff_not_imp_left.2 hrefs, (), trivial, trivial⟩

/-- **The loop returns iff there is room.** -/
theorem indexFiles_isOk_iff (hc : Calm c) (hsha : env.Collisionless) (h : Between env start before files db)
    (hn : ((before ++ files).map (·.1)).Nodup) :
    (∃ db', indexFiles env c start.hash files db = .ok db') ↔
      ∀ later f behind, files = later ++ f :: behind → start.hash f.1 ≠ some (env.sha256 f.2) →
        Fits env start (before ++ later) f behind := by
  induction files generalizing before db with
  | nil =>
    refine ⟨fun _ later f behind heq => ?_, fun _ => ⟨db, rfl⟩⟩
    exact absurd heq.symm (List.append_ne_nil_of_right_ne_nil _ (List.cons_ne_nil _ _))
  | cons f files ih =>
    have happend : before ++ [f] ++ files = before ++ f :: files := by
      rw [List.append_assoc, List.singleton_append]
    have hnext : ∀ {db₁}, indexFile env c start.hash f db = .ok db₁ →
        Between env start (before ++ [f]) files db₁ := fun hok =>
      h.next hn (indexFile_spec h.sound hsha (h.hash f List.mem_cons_self) hok)
    constructor
    · rintro ⟨db', hok⟩ later g behind heq hg
      rw [indexFiles, bind_eq_ok] at hok
      obtain ⟨db₁, hfile, hok⟩ := hok
      rcases List.cons_eq_append_iff.1 heq with ⟨rfl, heq⟩ | ⟨later', rfl, heq⟩
      · obtain ⟨rfl, rfl⟩ := List.cons.inj heq
        rw [List.append_nil]
        exact (indexFile_isOk_iff hc h hn).1 ⟨db₁, hfile⟩ hg
      · have hfits := (ih (hnext hfile) (happend ▸ hn)).1 ⟨db', hok⟩ later' g behind (List.cons.inj heq).2 hg
        rwa [List.append_assoc, List.singleton_append] at hfits
    · intro hroom
      obtain ⟨db₁, hfile⟩ := (indexFile_isOk_iff hc h hn).2 fun hf => by
        have hfits := hroom [] f files rfl hf
        rwa [List.append_nil] at hfits
      obtain ⟨db', hok⟩ := (ih (hnext hfile) (happend ▸ hn)).2 fun later g behind heq hg => by
        rw [List.append_assoc, List.singleton_append]
        exact hroom (f :: later) g behind (by rw [heq, List.cons_append]) hg
      exact ⟨db', by rw [indexFiles, hfile]; exact hok⟩

/-! ### A refresh -/

theorem embedRows_isOk (hc : Calm c) (env : Env V) (rows : List (SymbolRow V)) (n : Requests) (db : Db V) :
    ∃ out, embedRows env c rows n db = .ok out := by
  induction rows generalizing n db with
  | nil => exact ⟨_, rfl⟩
  | cons s rows ih =>
    rw [embedRows, hc.halts, Bool.not_false, ensure_true]
    cases hembed : env.embed s.chunk with
    | none =>
      dsimp only [bind, Except.bind]
      split
      · exact ⟨_, rfl⟩
      · exact ih _ _
    | some v =>
      rw [hc.fitsRow]
      exact ih _ _

/-- The rows of the inventory. -/
def symbolCount (env : Env V) (files : List Source) : ℕ :=
  (files.map fun g => (symbolsOf env g).length).sum

/-- Its references. -/
def refCount (env : Env V) (files : List Source) : ℕ :=
  (files.map fun g => (refsOf env g).length).sum

theorem between_of_current (h : Sound env db) (hcurrent : Current env files db) :
    Between env start files [] db where
  sound := h
  paths g hg := by
    obtain ⟨f, hf, rfl⟩ := (hcurrent g).1 hg
    rw [List.append_nil]
    exact List.mem_map_of_mem hf
  before f hf := (hcurrent _).2 ⟨f, hf, rfl⟩
  symbols := nofun
  refs := nofun
  hash := nofun

/-- The tables have the rows of the inventory. -/
theorem length_of_current (h : Sound env db) (hcurrent : Current env files db)
    (hn : (files.map (·.1)).Nodup) :
    db.symbols.length = symbolCount env files ∧ db.refs.length = refCount env files := by
  have hbetween : Between env db files [] db := between_of_current h hcurrent
  rw [← List.append_nil files] at hn
  exact ⟨hbetween.length_symbols hn, hbetween.length_refs hn⟩

theorem between_pruned (h : Sound env start) (files : List Source) :
    Between env start [] files (pruned files start) where
  sound := h.pruned
  paths g hg := (mem_pruned.1 hg).2
  before := nofun
  symbols f hf := symbolsAt_remove h (by simpa using ⟨_, hf⟩)
  refs f hf := refsAt_remove h (by simpa using ⟨_, hf⟩)
  hash _ hf := pruned_hash h hf

variable {envs : String → Env V} {version : String} {embed : Bool}

/-- **A refresh that nothing disturbs returns iff there is room, and the limits admit the rows of
the inventory.** -/
theorem refresh_isOk_iff (hc : Calm c) (hsha : (envs version).Collisionless) (h : Stored envs db)
    (hn : (files.map (·.1)).Nodup) :
    (∃ out, refresh (envs version) version c files embed db = .ok out) ↔
      Room (envs version) (versioned version db) files ∧
        symbolCount (envs version) files ≤ 20000 ∧ refCount (envs version) files ≤ 200000 ∧
        c.fitsEnd = true ∧ c.same = true := by
  obtain ⟨hstart, -⟩ := versioned_spec version h
  have hroom := indexFiles_isOk_iff hc hsha (between_pruned hstart files) hn
  constructor
  · rintro ⟨⟨db', stats⟩, hok⟩
    obtain ⟨db₁, hfiles, -, hsymbols, hrefs⟩ := refresh_ok hok
    obtain ⟨hsound, -, hcurrent⟩ := refresh_spec h hsha hn hok
    obtain ⟨hsymbolCount, hrefCount⟩ := length_of_current hsound hcurrent hn
    refine ⟨hroom.1 ⟨db₁, hfiles⟩, hsymbolCount ▸ hsymbols, hrefCount ▸ hrefs, ?_⟩
    unfold refresh at hok
    simp only [bind_eq_ok, ensure_eq_ok] at hok
    obtain ⟨-, -, -, -, -, -, -, hend, -, hsame, -⟩ := hok
    exact ⟨hend, hsame⟩
  · rintro ⟨hfits, hsymbols, hrefs, hend, hsame⟩
    obtain ⟨db₁, hfiles⟩ := hroom.2 hfits
    obtain ⟨hsound, -, hcurrent⟩ := pruned_indexFiles hstart hsha hn hfiles
    obtain ⟨db₂, n, hvectors, hkept⟩ : ∃ db₂ n, (if embed then embedRows (envs version) c
        (pending c db₁) {} db₁ else .ok (db₁, {})) = .ok (db₂, n) ∧ Kept db₁ db₂ := by
      cases embed with
      | true =>
        obtain ⟨⟨db₂, n⟩, hrows⟩ := embedRows_isOk hc (envs version) (pending c db₁) {} db₁
        exact ⟨db₂, n, hrows, (embedRows_spec hsound (pending_spec hsound) hrows).2⟩
      | false => exact ⟨db₁, {}, rfl, .refl⟩
    obtain ⟨hsymbolCount, hrefCount⟩ := length_of_current hsound hcurrent hn
    have hlength := congrArg List.length hkept.symbols
    rw [List.length_map, List.length_map, hsymbolCount] at hlength
    unfold refresh
    dsimp only
    rw [hfiles]
    dsimp only [bind, Except.bind]
    rw [hvectors]
    dsimp only
    rw [hlength, hkept.refs, hrefCount, decide_eq_true hsymbols, decide_eq_true hrefs, hend, hsame]
    exact ⟨_, rfl⟩

end CodeIndex

end PythonAI
