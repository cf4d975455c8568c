import PythonAI.CodeIndex.Limits

/-!
# A refresh and a rebuild

A run calls `refresh` on one index, under any versions, with any inventories, and with any
interruptions; a call that raises leaves the index as it was.

* `refresh_eq_rebuild` : **a refresh that returns leaves the rows of a rebuild**, and a rebuild
  returns as well;
* `refresh_iff_rebuild` : **where a rebuild returns, a refresh returns iff there is room for the new
  rows beside the old ones**.
-/

namespace PythonAI

open Library

namespace CodeIndex

/-- `inventory`: a dictionary of files. -/
structure Inventory where
  /-- the files, in their order -/
  files : List Source
  /-- a name is there once -/
  nodup : (files.map (·.1)).Nodup

/-- A call of `refresh`. -/
structure Call where
  /-- the version of the index in the process -/
  version : String
  /-- what the call finds -/
  course : Course := {}
  /-- the files of the workspace -/
  inventory : Inventory
  /-- the parameter -/
  embed : Bool := true

variable {V : Type}

/-- The call on an index. -/
def Call.run (envs : String → Env V) (db : Db V) (call : Call) : Except Error (Db V × Stats) :=
  refresh (envs call.version) call.version call.course call.inventory.files call.embed db

/-- The index after calls. -/
def after (envs : String → Env V) (calls : List Call) : Db V :=
  calls.foldl (fun db call => settle db (call.run envs db)) {}

/-- A rebuild: the inventory is indexed from nothing, and nothing disturbs it. -/
def rebuild (envs : String → Env V) (version : String) (files : Inventory) (embed : Bool) :
    Except Error (Db V × Stats) :=
  refresh (envs version) version {} files.files embed {}

variable {envs : String → Env V} {calls : List Call} {call : Call} {db db' : Db V} {stats : Stats}
  {version : String} {files : Inventory} {embed : Bool}

theorem stored_run (hsha : ∀ version, (envs version).Collisionless) (h : Stored envs db) (hok : call.run envs db = .ok (db', stats)) :
    Stored envs db' := by
  obtain ⟨hsound, hversion, -⟩ := refresh_spec h (hsha _) call.inventory.nodup hok
  exact .inr ⟨call.version, hversion, hsound⟩

theorem stored_after (hsha : ∀ version, (envs version).Collisionless) (calls : List Call) :
    Stored envs (after envs calls) := by
  suffices h : ∀ db, Stored envs db →
      Stored envs (calls.foldl (fun db call => settle db (call.run envs db)) db) from h {} (.inl rfl)
  intro db h
  induction calls generalizing db with
  | nil => exact h
  | cons call calls ih =>
    exact ih _ (settle_of (P := Stored envs) h fun db' stats hok => stored_run hsha h hok)

/-! ### The same rows -/

/-- In an empty index there is room for all that the limits admit. -/
theorem room_empty {env : Env V} {files : List Source} (hsymbols : symbolCount env files ≤ 20000)
    (hrefs : refCount env files ≤ 200000) : Room env (versioned version {}) files := by
  rintro before f behind rfl -
  have hheld : ∀ behind : List Source, (behind.map fun _ => 0).sum = 0 := fun behind =>
    List.sum_eq_zero fun n hn => by
      obtain ⟨-, -, rfl⟩ := List.mem_map.1 hn
      rfl
  have hload : ∀ size : Source → ℕ, size f + load size (fun _ => 0) before behind ≤
      ((before ++ f :: behind).map size).sum := by
    intro size
    rw [load, hheld, List.map_append, List.map_cons, List.sum_append, List.sum_cons]
    omega
  exact ⟨fun _ => (hload _).trans hsymbols, fun _ => (hload _).trans hrefs⟩

theorem rebuild_isOk_iff (hsha : (envs version).Collisionless) (embed : Bool) :
    (∃ out, rebuild envs version files embed = .ok out) ↔
    symbolCount (envs version) files.files ≤ 20000 ∧ refCount (envs version) files.files ≤ 200000 := by
  rw [rebuild, refresh_isOk_iff calm_default hsha (.inl rfl) files.nodup]
  constructor
  · rintro ⟨-, hsymbols, hrefs, -⟩
    exact ⟨hsymbols, hrefs⟩
  · rintro ⟨hsymbols, hrefs⟩
    exact ⟨room_empty hsymbols hrefs, hsymbols, hrefs, rfl, rfl⟩

/-- A first call that nothing disturbs rebuilds the index. -/
theorem after_rebuild (h : rebuild envs version files embed = .ok (db, stats)) :
    after envs [⟨version, {}, files, embed⟩] = db :=
  congrArg (settle ({} : Db V)) h

/-- **After any calls, a refresh that returns leaves sound tables with the rows of a rebuild.** -/
theorem refresh_eq_rebuild (hsha : ∀ version, (envs version).Collisionless)
    (hok : call.run envs (after envs calls) = .ok (db', stats)) :
    Sound (envs call.version) db' ∧ ∀ embed, ∃ db₀ stats₀,
      rebuild envs call.version call.inventory embed = .ok (db₀, stats₀) ∧ Same db' db₀ := by
  have hstored := stored_after hsha calls
  have hn := call.inventory.nodup
  obtain ⟨hsound, -, hcurrent⟩ := refresh_spec hstored (hsha _) hn hok
  refine ⟨hsound, fun embed => ?_⟩
  obtain ⟨hsymbolCount, hrefCount⟩ := length_of_current hsound hcurrent hn
  obtain ⟨-, -, -, hsymbols, hrefs⟩ := refresh_ok hok
  obtain ⟨⟨db₀, stats₀⟩, hrebuild⟩ :=
    (rebuild_isOk_iff (hsha _) embed).2 ⟨hsymbolCount ▸ hsymbols, hrefCount ▸ hrefs⟩
  obtain ⟨hsound₀, -, hcurrent₀⟩ := refresh_spec (.inl rfl) (hsha _) hn hrebuild
  exact ⟨db₀, stats₀, hrebuild, hsound.same hsound₀ fun g => (hcurrent g).trans (hcurrent₀ g).symm⟩

/-! ### Room beside the old rows -/

/-- No call is interrupted and no file changes; the pages of the database do not become fewer. -/
structure Undisturbed (c : Course) : Prop where
  /-- `check` returns at a file, -/
  stops : ∀ path, c.stops path = false
  /-- and at a symbol -/
  halts : ∀ id, c.halts id = false
  /-- the second inventory is the first one -/
  same : c.same = true
  /-- pages beyond the limit stay beyond it -/
  fits : ∀ path, c.fits path = false → c.fitsEnd = false
  /-- also after a symbol -/
  fitsRow : ∀ id, c.fitsRow id = false → c.fitsEnd = false

theorem Undisturbed.calm {c : Course} (h : Undisturbed c) (hend : c.fitsEnd = true) : Calm c where
  stops := h.stops
  halts := h.halts
  fits path := by
    by_contra hfits
    exact Bool.false_ne_true ((h.fits path (Bool.not_eq_true _ ▸ hfits)).symm.trans hend)
  fitsRow id := by
    by_contra hfits
    exact Bool.false_ne_true ((h.fitsRow id (Bool.not_eq_true _ ▸ hfits)).symm.trans hend)

/-- **Where a rebuild returns, a refresh of an index returns exactly where the database has its
pages and there is room for the new rows of every changed file beside the old rows behind it.** -/
theorem refresh_iff_rebuild {c : Course} (hsha : ∀ version, (envs version).Collisionless)
    (hc : Undisturbed c)
    (hrebuild : ∃ out, rebuild envs version files embed = .ok out) :
    (∃ out, (Call.mk version c files embed).run envs (after envs calls) = .ok out) ↔
      c.fitsEnd = true ∧ Room (envs version) (versioned version (after envs calls)) files.files := by
  have hstored := stored_after hsha calls
  obtain ⟨hsymbols, hrefs⟩ := (rebuild_isOk_iff (hsha _) embed).1 hrebuild
  by_cases hend : c.fitsEnd = true
  · rw [Call.run, refresh_isOk_iff (hc.calm hend) (hsha _) hstored files.nodup]
    constructor
    · rintro ⟨hroom, -⟩
      exact ⟨hend, hroom⟩
    · rintro ⟨-, hroom⟩
      exact ⟨hroom, hsymbols, hrefs, hend, hc.same⟩
  · refine iff_of_false ?_ fun h => hend h.1
    rintro ⟨⟨db', stats⟩, hok⟩
    rw [Call.run] at hok
    unfold refresh at hok
    simp only [bind_eq_ok, ensure_eq_ok] at hok
    obtain ⟨-, -, -, -, -, -, -, hfits, -⟩ := hok
    exact hend hfits

/-! ### A file that grows before others shrink -/

namespace Growth

/-- A source of functions. -/
def source : ℕ → String
  | 0 => ""
  | n + 1 => "def f():0\n" ++ source n

/-- The function on a line. -/
def declaration (i : ℕ) : Declaration :=
  ⟨"f", "f", "function_definition", i + 1, i + 1, i + 1, 4, 10 * i + 4, "def f():0"⟩

/-- Its name. -/
def occurrence (i : ℕ) : Occurrence := ⟨"f", i + 1, 4, 10 * i + 4, "f", true⟩

/-- The digests of the first sources. -/
def hex : ℕ → String
  | 0 => "e3b0c44298fc1c149afbf4c8996fb92427ae41e4649b934ca495991b7852b855"
  | 1 => "88586cbdc5dca18fc953361a6727ba9f6c008d6aacdb428334b9db851ef9be97"
  | _ => "4ce28a6c0fa407d5d7332517ab47688161939f98439f90f12ae6fef3810178d3"

/-- The digest; another text is marked. -/
def digest (text : String) : String :=
  if text = source 0 then hex 0 else if text = source 1 then hex 1
  else if text = source 2 then hex 2 else "?" ++ text

/-- The text of a digest. -/
def undigest (hash : String) : String :=
  if hash = hex 0 then source 0 else if hash = hex 1 then source 1
  else if hash = hex 2 then source 2 else String.ofList hash.toList.tail

/-- The digest, `extract` at such sources, and an embedding. -/
def env : Env Unit where
  sha256 := digest
  extract _ content :=
    let lines := List.range (content.size / 10)
    some (lines.map declaration, lines.map occurrence)
  embed _ := some ()
  sign _ _ _ := true

/-- Three files. -/
def inventory (a b c : ℕ) : Inventory where
  files := [("a.py", source a), ("b.py", source b), ("c.py", source c)]
  nodup := by simp

theorem mark_ne_hex (text : String) (n : ℕ) : "?" ++ text ≠ hex n := by
  intro heq
  have hhead := congrArg (fun hash => hash.toList.head?) heq
  simp only [String.toList_append] at hhead
  match n with
  | 0 | 1 | _ + 2 => exact absurd hhead (by simp [hex])

theorem undigest_digest (text : String) : undigest (digest text) = text := by
  unfold digest
  split_ifs with h₀ h₁ h₂
  · rw [h₀]; decide
  · rw [h₁]; decide
  · rw [h₂]; decide
  · rw [undigest, if_neg (mark_ne_hex text 0), if_neg (mark_ne_hex text 1),
      if_neg (mark_ne_hex text 2), String.toList_append]
    exact String.ofList_toList

theorem collisionless : env.Collisionless := Function.LeftInverse.injective undigest_digest

theorem size_source (n : ℕ) : (source n).toUTF8.size = 10 * n := by
  rw [String.toUTF8_eq_toByteArray, String.size_toByteArray]
  induction n with
  | zero => rfl
  | succ n ih =>
    rw [source, String.utf8ByteSize_append, ih, Nat.mul_succ, Nat.add_comm]
    rfl

theorem length_symbolsOf (path : String) (n : ℕ) : (symbolsOf env (path, source n)).length = n := by
  have hrows : symbolsOf env (path, source n) =
      (List.range ((source n).toUTF8.size / 10)).map declaration := rfl
  rw [hrows, List.length_map, List.length_range, size_source]
  omega

theorem length_refsOf (path : String) (n : ℕ) : (refsOf env (path, source n)).length = n := by
  have hrows : refsOf env (path, source n) =
      (List.range ((source n).toUTF8.size / 10)).map occurrence := rfl
  rw [hrows, List.length_map, List.length_range, size_source]
  omega

theorem rebuild_isOk {a b c : ℕ} (h : a + b + c ≤ 20000) (embed : Bool) :
    ∃ out, rebuild (fun _ => env) "1" (inventory a b c) embed = .ok out := by
  refine (rebuild_isOk_iff collisionless embed).2 ⟨?_, ?_⟩
  · simp only [symbolCount, inventory, List.map_cons, List.map_nil, List.sum_cons, List.sum_nil,
      length_symbolsOf]
    omega
  · simp only [refCount, inventory, List.map_cons, List.map_nil, List.sum_cons, List.sum_nil,
      length_refsOf]
    omega

end Growth

/-- The rows after a call that was interrupted, one without vectors, and a last one. -/
theorem refresh_eq_rebuild_grown : ∃ db' stats,
    (Call.mk "1" {} (Growth.inventory 2 0 1) true).run (fun _ => Growth.env)
      (after (fun _ => Growth.env) [⟨"1", { stops := (· = "b.py") }, Growth.inventory 1 1 0, true⟩,
        ⟨"1", {}, Growth.inventory 1 2 0, false⟩]) = .ok (db', stats) ∧
    Sound Growth.env db' ∧ ∀ embed, ∃ db₀ stats₀,
      rebuild (fun _ => Growth.env) "1" (Growth.inventory 2 0 1) embed = .ok (db₀, stats₀) ∧
        Same db' db₀ := by
  have hok : ((Call.mk "1" {} (Growth.inventory 2 0 1) true).run (fun _ => Growth.env)
      (after (fun _ => Growth.env) [⟨"1", { stops := (· = "b.py") }, Growth.inventory 1 1 0, true⟩,
        ⟨"1", {}, Growth.inventory 1 2 0, false⟩])).isOk = true := by decide
  cases hrun : (Call.mk "1" {} (Growth.inventory 2 0 1) true).run (fun _ => Growth.env)
      (after (fun _ => Growth.env) [⟨"1", { stops := (· = "b.py") }, Growth.inventory 1 1 0, true⟩,
        ⟨"1", {}, Growth.inventory 1 2 0, false⟩]) with
  | error e =>
    rw [hrun] at hok
    cases hok
  | ok out =>
    obtain ⟨db', stats⟩ := out
    exact ⟨db', stats, rfl, refresh_eq_rebuild (fun _ => Growth.collisionless) hrun⟩

/-- The condition at the first file of an index of the second one. -/
theorem refresh_iff_rebuild_grown :
    (∃ out, (Call.mk "1" {} (Growth.inventory 1 0 0) true).run (fun _ => Growth.env)
      (after (fun _ => Growth.env) [⟨"1", {}, Growth.inventory 0 1 0, true⟩]) = .ok out) ↔
    (Course.fitsEnd {}) = true ∧ Room Growth.env (versioned "1"
      (after (fun _ => Growth.env) [⟨"1", {}, Growth.inventory 0 1 0, true⟩]))
        (Growth.inventory 1 0 0).files :=
  refresh_iff_rebuild (fun _ => Growth.collisionless)
    ⟨fun _ => rfl, fun _ => rfl, rfl, fun _ => nofun, fun _ => nofun⟩
    (Growth.rebuild_isOk (by decide) true)

theorem Growth.source_injective {m n : ℕ} (h : source m = source n) : m = n := by
  have hsize := size_source m
  rw [h, size_source] at hsize
  omega

/-- The first file grows to 8000 functions while two others lose 8000 each: the index would have
8000 symbols, and the refresh counts 24000. -/
theorem refresh_blocked : ¬ ∀ (envs : String → Env Unit) (calls : List Call) (version : String)
    (files : Inventory) (embed : Bool), (∀ version, (envs version).Collisionless) → (∃ out, rebuild envs version files embed = .ok out) →
      ∃ out, (Call.mk version {} files embed).run envs (after envs calls) = .ok out := by
  intro h
  obtain ⟨⟨db, stats⟩, hfirst⟩ := Growth.rebuild_isOk (a := 0) (b := 8000) (c := 8000) (by decide) true
  have hafter := after_rebuild hfirst
  have hblocked := h (fun _ => Growth.env) [⟨"1", {}, Growth.inventory 0 8000 8000, true⟩] "1"
    (Growth.inventory 8000 0 0) true (fun _ => Growth.collisionless) (Growth.rebuild_isOk (by decide) true)
  rw [hafter] at hblocked
  obtain ⟨hsound, hversion, hcurrent⟩ := refresh_spec (.inl rfl : Stored (fun _ => Growth.env) {})
    Growth.collisionless (Growth.inventory 0 8000 8000).nodup hfirst
  have hstored : Stored (fun _ => Growth.env) db := .inr ⟨"1", hversion, hsound⟩
  obtain ⟨hroom, -⟩ := (refresh_isOk_iff calm_default Growth.collisionless hstored
    (Growth.inventory 8000 0 0).nodup).1 hblocked
  rw [versioned, if_pos hversion] at hroom
  have hchanged : db.hash "a.py" ≠ some (Growth.digest (Growth.source 8000)) := by
    intro hhash
    obtain ⟨g, hg, hpath, hsource⟩ := (hash_eq_some hsound.paths).1 hhash
    obtain ⟨f, hf, rfl⟩ := (hcurrent g).1 hg
    simp only [Growth.inventory, List.mem_cons, List.not_mem_nil, or_false] at hf
    rcases hf with rfl | rfl | rfl
    · have htext : Growth.source 0 = Growth.source 8000 := Growth.collisionless hsource
      exact absurd (Growth.source_injective htext) (by decide)
    · exact absurd hpath (by decide)
    · exact absurd hpath (by decide)
  have hfits := hroom [] ("a.py", Growth.source 8000)
    [("b.py", Growth.source 0), ("c.py", Growth.source 0)] rfl hchanged
  have hgrown := Growth.length_symbolsOf "a.py" 8000
  have hheld : ∀ path ∈ ["b.py", "c.py"], (db.symbolsAt path).length = 8000 := by
    intro path hpath
    rw [← Growth.length_symbolsOf path 8000]
    refine hsound.length_symbolsAt (f := (path, Growth.source 8000)) ((hcurrent _).2 ⟨_, ?_, rfl⟩)
    simp only [List.mem_cons, List.not_mem_nil, or_false] at hpath
    rcases hpath with rfl | rfl
    · exact List.mem_cons_of_mem _ List.mem_cons_self
    · exact List.mem_cons_of_mem _ (List.mem_cons_of_mem _ List.mem_cons_self)
  have htotal := hfits.1 (List.ne_nil_of_length_pos (by omega))
  simp only [load, List.map_nil, List.map_cons, List.sum_nil, List.sum_cons, hgrown,
    hheld "b.py" (by simp), hheld "c.py" (by simp)] at htotal
  omega

end CodeIndex

end PythonAI
