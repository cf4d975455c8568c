import PythonAI.Delivery.Worktrees

/-!
# What an archive gives back

`restore` puts the files of an archive over the files of the commit.  What the commit has and the
archive does not mention comes back, and nothing can be put where the commit has something of the
other kind.

* `snapshotEach_ok` : what a snapshot consists of;
* `Overlay.restoreEach_iff` : when the loop over the manifest goes through, and what it leaves;
* `restore_archive_iff` : **restoring an archive gives the worktree back exactly if the commit has no
  file but those in the worktree and those missing from it by name, and no path of another kind**.
-/

namespace PythonAI

open Library
open Files (Failure Path parts posix)
open Coordinator.Merge (Workspace refusal selectedFile)

namespace Worktrees

variable {sha256 : ByteArray → String} {t t' t₀ w : Workspace} {p q : Path} {ps done : List Path}
  {count total : ℕ} {data : ByteArray} {files : List (String × ByteArray)}

/-! ### Names -/

/-- What a file or a directory can be called. -/
def IsName (k : String) : Prop :=
  k ≠ "" ∧ k ≠ "." ∧ k ≠ ".." ∧ '/' ∉ k.toList ∧ '\x00' ∉ k.toList

instance (k : String) : Decidable (IsName k) := inferInstanceAs (Decidable (_ ∧ _))

/-- The parts of the path are names. -/
def Named (p : Path) : Prop := ∀ k ∈ p, IsName k

theorem toList_ne_of_ne {k : String} {l : List Char} (h : k ≠ String.ofList l) : k.toList ≠ l := by
  intro heq
  exact h (String.toList_injective (heq.trans String.toList_ofList.symm))

/-- A path of names is read back. -/
theorem parts_posix (h : Named p) : parts (posix p) = p := by
  by_cases hp : p = []
  · rw [hp]
    rfl
  have hsplit : (posix p).toList.splitOn '/' = p.map String.toList := by
    rw [posix, String.toList_intercalate]
    refine List.splitOn_intercalate '/' (fun l hl => ?_) (by simpa using hp)
    obtain ⟨k, hk, rfl⟩ := List.mem_map.1 hl
    exact (h k hk).2.2.2.1
  have hkept : (p.map String.toList).filter (fun part => part ≠ [] ∧ part ≠ ['.']) =
      p.map String.toList := by
    refine List.filter_eq_self.2 fun l hl => ?_
    obtain ⟨k, hk, rfl⟩ := List.mem_map.1 hl
    obtain ⟨hempty, hdot, -⟩ := h k hk
    exact decide_eq_true ⟨toList_ne_of_ne hempty, toList_ne_of_ne hdot⟩
  rw [parts, hsplit, hkept, List.map_map]
  refine (List.map_congr_left fun k _ => ?_).trans (List.map_id p)
  exact String.ofList_toList

theorem posix_injective (hp : Named p) (hq : Named q) (h : posix p = posix q) : p = q := by
  rw [← parts_posix hp, h, parts_posix hq]

/-- A path consists of slashes and the characters of its parts. -/
theorem mem_posix {c : Char} (h : c ∈ (posix p).toList) : c = '/' ∨ ∃ k ∈ p, c ∈ k.toList := by
  induction p with
  | nil => cases h
  | cons k p ih =>
    cases p with
    | nil =>
      rw [posix, String.intercalate_singleton] at h
      exact .inr ⟨k, List.mem_singleton_self k, h⟩
    | cons l p =>
      rw [posix, String.intercalate_cons_cons, String.toList_append, String.toList_append] at h
      obtain h | h := List.mem_append.1 h
      · obtain h | h := List.mem_append.1 h
        · exact .inr ⟨k, List.mem_cons_self, h⟩
        · exact .inl (List.mem_singleton.1 h)
      · obtain heq | ⟨k', hk', h⟩ := ih h
        · exact .inl heq
        · exact .inr ⟨k', List.mem_cons_of_mem k hk', h⟩

/-- The name of a path selects its file, unless it is a directory. -/
theorem selectedFile_posix (h : Named p) (hp : p ≠ []) (hgit : ".git" ∉ p) :
    (t.node p ≠ some .dir → selectedFile t (posix p) = .ok p) ∧
      ∀ q, selectedFile t (posix p) = .ok q → t.node p ≠ some .dir := by
  have hparts := parts_posix h
  have hempty : posix p ≠ "" := by
    intro heq
    rw [heq] at hparts
    exact hp hparts.symm
  have hnul : '\x00' ∉ (posix p).toList := by
    intro hmem
    obtain hslash | ⟨k, hk, hmem⟩ := mem_posix hmem
    · cases hslash
    · exact (h k hk).2.2.2.2 hmem
  have hselect : ∀ q, selectedFile t (posix p) = .ok q ↔ t.node p ≠ some .dir ∧ p = q := by
    intro q
    simp only [selectedFile, bind_eq_ok, ensure_eq_ok, decide_eq_true_eq, pure_eq_ok, hparts]
    constructor
    · rintro ⟨-, -, -, ⟨-, -, hdir⟩, heq⟩
      exact ⟨hdir, heq⟩
    · rintro ⟨hdir, heq⟩
      exact ⟨(), ⟨hempty, hnul⟩, (), ⟨hp, hgit, hdir⟩, heq⟩
  exact ⟨fun hdir => (hselect p).2 ⟨hdir, rfl⟩, fun q hq => ((hselect q).1 hq).1⟩

/-! ### What a snapshot consists of -/

/-- The path is not of Git. -/
def Outside (p : Path) : Prop := p.head? ≠ some ".git"

/-- The candidate gets an entry. -/
def recorded (t : Workspace) (p : Path) : Bool := ".git" ∉ p && t.node p ≠ some .dir

/-- The entry of a path. -/
def entry (sha256 : ByteArray → String) (t : Workspace) (p : Path) : Entry :=
  match t.file p with
  | some data => .file (posix p) (sha256 data) data.size
  | none => .missing (posix p)

/-- The saved file of a path. -/
def saved (t : Workspace) (p : Path) : Option (String × ByteArray) :=
  (t.file p).map fun data => (posix p, data)

/-- The bytes of the files at the paths. -/
def bytes (t : Workspace) (ps : List Path) : ℕ :=
  (ps.map fun p => ((t.file p).map ByteArray.size).getD 0).sum

theorem bytes_cons : bytes t (p :: ps) = ((t.file p).map ByteArray.size).getD 0 + bytes t ps := rfl

/-- The files at the paths are within the limits, after `total` bytes. -/
structure Fitting (t : Workspace) (ps : List Path) (total : ℕ) : Prop where
  /-- each of them -/
  each : ∀ p ∈ ps, ∀ data, t.file p = some data → data.size ≤ fileLimit
  /-- all of them -/
  all : total + bytes t ps ≤ totalLimit

/-- **What a snapshot consists of**: an entry for every candidate that is no directory, and the bytes
of the files. -/
theorem snapshotEach_ok {s : Snapshot} (htotal : total ≤ totalLimit)
    (h : snapshotEach sha256 t ps count total = .ok s) :
    s = ⟨(ps.filter (recorded t)).map (entry sha256 t), (ps.filter (recorded t)).filterMap (saved t)⟩ ∧
      (∀ p ∈ ps, ".git" ∈ p → p.head? = some ".git") ∧
      Fitting t (ps.filter (recorded t)) total := by
  induction ps generalizing count total s with
  | nil =>
    cases h
    exact ⟨rfl, (fun _ hp => by cases hp), (fun _ hp => by cases hp), htotal⟩
  | cons p ps ih =>
    rw [snapshotEach] at h
    by_cases hgit : ".git" ∈ p
    · rw [if_pos hgit] at h
      simp only [bind_eq_ok, ensure_eq_ok, decide_eq_true_eq] at h
      obtain ⟨_, hroot, h⟩ := h
      obtain ⟨hs, hout, hfit⟩ := ih htotal h
      have hskip : recorded t p = false := by simp [recorded, hgit]
      rw [List.filter_cons_of_neg (by simp [hskip])]
      exact ⟨hs, fun q hq => (List.mem_cons.1 hq).elim (fun heq _ => heq ▸ hroot) (hout q), hfit⟩
    rw [if_neg hgit] at h
    have hhead : (∀ q ∈ ps, ".git" ∈ q → q.head? = some ".git") →
        ∀ q ∈ p :: ps, ".git" ∈ q → q.head? = some ".git" := fun hout q hq hq' =>
      (List.mem_cons.1 hq).elim (fun heq => absurd (heq ▸ hq') hgit) fun hq => hout q hq hq'
    split at h
    · cases h
    split at h
    · rename_i hn
      simp only [bind_eq_ok, pure_eq_ok] at h
      obtain ⟨s, hs, rfl⟩ := h
      obtain ⟨rfl, hout, hfit⟩ := ih htotal hs
      have hfile : t.file p = none := Tree.file_eq_none.2 (.inl hn)
      have hkeep : recorded t p = true := by simp [recorded, hgit, hn]
      rw [List.filter_cons_of_pos hkeep]
      refine ⟨?_, hhead hout, fun q hq => ?_, ?_⟩
      · rw [List.map_cons, List.filterMap_cons, entry, saved, hfile]
        rfl
      · obtain rfl | hq := List.mem_cons.1 hq
        · rw [hfile]
          intro data h
          cases h
        · exact hfit.each q hq
      · rw [bytes_cons, hfile]
        exact (Nat.zero_add _).symm ▸ hfit.all
    · rename_i hn
      obtain ⟨hs, hout, hfit⟩ := ih htotal h
      have hskip : recorded t p = false := by simp [recorded, hn]
      rw [List.filter_cons_of_neg (by simp [hskip])]
      exact ⟨hs, hhead hout, hfit⟩
    · rename_i data hn
      simp only [bind_eq_ok, ensure_eq_ok, decide_eq_true_eq, pure_eq_ok] at h
      obtain ⟨_, ⟨hsize, hsum, -⟩, s, hs, rfl⟩ := h
      obtain ⟨rfl, hout, hfit⟩ := ih hsum hs
      have hfile : t.file p = some data := Tree.file_eq_some.2 hn
      have hkeep : recorded t p = true := by simp [recorded, hgit, hn]
      rw [List.filter_cons_of_pos hkeep]
      refine ⟨?_, hhead hout, fun q hq => ?_, ?_⟩
      · rw [List.map_cons, List.filterMap_cons, entry, saved, hfile]
        rfl
      · obtain rfl | hq := List.mem_cons.1 hq
        · rw [hfile]
          rintro _ ⟨⟩
          exact hsize
        · exact hfit.each q hq
      · rw [bytes_cons, hfile]
        have hall := hfit.all
        simp only [Option.map_some, Option.getD_some]
        omega

/-- The saved bytes of a path are found under its name. -/
theorem getinfo_saved (hnames : ∀ p ∈ ps, Named p) (hp : p ∈ ps) (hfile : t.file p = some data) :
    getinfo (ps.filterMap (saved t)) (posix p) = some data := by
  have hmem : (posix p, data) ∈ ps.filterMap (saved t) :=
    List.mem_filterMap.2 ⟨p, hp, by rw [saved, hfile]; rfl⟩
  cases hfind : (ps.filterMap (saved t)).reverse.find? fun f => f.1 = posix p with
  | none =>
    rw [List.find?_eq_none] at hfind
    exact absurd (decide_eq_true rfl) (hfind _ (List.mem_reverse.2 hmem))
  | some f =>
    have hname : f.1 = posix p := by simpa using List.find?_some hfind
    obtain ⟨q, hq, hsaved⟩ :=
      List.mem_filterMap.1 (List.mem_reverse.1 (List.mem_of_find?_eq_some hfind))
    obtain ⟨d, hd, rfl⟩ := Option.map_eq_some_iff.1 hsaved
    obtain rfl := posix_injective (hnames q hq) (hnames p hp) hname
    rw [hfile] at hd
    rw [getinfo, hfind]
    exact hd.symm

/-! ### Putting the files back -/

/-- Nothing of the commit is in the way of the path, as it is in the worktree. -/
structure Fits (t₀ w : Workspace) (p : Path) : Prop where
  /-- it is no directory -/
  path : t₀.node p ≠ some .dir
  /-- no file is above a file -/
  above : (w.file p).isSome → ∀ q, q <+: p → q ≠ p → t₀.file q = none

/-- The worktree `w` is put over the commit `t₀` at the paths `done`. -/
structure Overlay (t₀ w : Workspace) (done : List Path) (t : Workspace) : Prop where
  /-- the files -/
  file : ∀ q, t.file q = if q ∈ done then w.file q else t₀.file q
  /-- no directory goes away -/
  dir : ∀ q, t₀.node q = some .dir → t.node q = some .dir
  /-- new directories are those of the worktree -/
  dirs : ∀ q, t.node q = some .dir → t₀.node q = some .dir ∨ w.node q = some .dir
  /-- the paths are no directories of the worktree -/
  done : ∀ q ∈ done, w.node q ≠ some .dir

theorem Overlay.refl : Overlay t₀ w [] t₀ where
  file _ := (if_neg List.not_mem_nil).symm
  dir _ h := h
  dirs _ h := .inl h
  done _ hq := absurd hq List.not_mem_nil

theorem Overlay.node_dir (h : Overlay t₀ w done t) (hp : w.node p ≠ some .dir) :
    t.node p = some .dir ↔ t₀.node p = some .dir := by
  refine ⟨fun hdir => ?_, h.dir p⟩
  obtain hdir | hdir := h.dirs p hdir
  · exact hdir
  · exact absurd hdir hp

/-- Above a file of the worktree, there are the files of the commit. -/
theorem Overlay.clear_iff (h : Overlay t₀ w done t) (hp : p ≠ []) (hfile : w.file p = some data) :
    t.Clear p.dropLast ↔ ∀ q, q <+: p → q ≠ p → t₀.file q = none := by
  have habove : ∀ q, q <+: p → q ≠ p → t.file q = t₀.file q := by
    intro q hq hne
    have hdir : w.node q = some .dir :=
      w.above (by rw [Tree.file_eq_some.1 hfile]; nofun) hq hne
    rw [h.file, if_neg fun hdone => h.done q hdone hdir]
  have hstrict : ∀ q, q <+: p.dropLast ↔ q <+: p ∧ q ≠ p := by
    intro q
    have hlen : p.dropLast.length < p.length := by
      have hpos := List.length_pos_iff.2 hp
      rw [List.length_dropLast]
      omega
    constructor
    · intro hq
      refine ⟨hq.trans (List.dropLast_prefix p), fun heq => ?_⟩
      have hle := hq.length_le
      rw [heq] at hle
      omega
    · rintro ⟨⟨s, rfl⟩, hne⟩
      have hs : s ≠ [] := fun hs => hne (by rw [hs, List.append_nil])
      rw [List.dropLast_append_of_ne_nil hs]
      exact List.prefix_append q _
  rw [Tree.clear_iff]
  constructor
  · intro hclear q hq hne
    rw [← habove q hq hne]
    exact hclear q ((hstrict q).2 ⟨hq, hne⟩)
  · intro hnone q hq
    obtain ⟨hq, hne⟩ := (hstrict q).1 hq
    rw [habove q hq hne]
    exact hnone q hq hne

/-- Another path is put over the commit. -/
theorem Overlay.put {made : List Path} (h : Overlay t₀ w done t) (hp : w.node p ≠ some .dir)
    (hfile : t'.file = Function.update t.file p (w.file p))
    (hdirs : ∀ q, t'.node q = some .dir ↔ t.node q = some .dir ∨ q ∈ made)
    (hmade : ∀ q ∈ made, w.node q = some .dir) : Overlay t₀ w (p :: done) t' where
  file q := by
    rw [hfile]
    by_cases hq : q = p
    · rw [hq, Function.update_self, if_pos List.mem_cons_self]
    · rw [Function.update_of_ne hq, h.file]
      simp [hq]
  dir q hq := (hdirs q).2 (.inl (h.dir q hq))
  dirs q hq := by
    obtain hq | hq := (hdirs q).1 hq
    · exact h.dirs q hq
    · exact .inr (hmade q hq)
  done q hq := by
    obtain rfl | hq := List.mem_cons.1 hq
    · exact hp
    · exact h.done q hq

variable (sha256 files total) in
/-- A path that nothing is at is gone after its entry. -/
theorem Overlay.missing (h : Overlay t₀ w done t) (hname : Named p) (hp : p ≠ [])
    (hgit : ".git" ∉ p) (hnone : w.node p = none) :
    (t₀.node p ≠ some .dir → ∃ t', restoreEntry sha256 files t total (.missing (posix p)) =
        (t', .ok total) ∧ Overlay t₀ w (p :: done) t') ∧
      ((restoreEntry sha256 files t total (.missing (posix p))).2.isOk → t₀.node p ≠ some .dir) := by
  have hdir : w.node p ≠ some .dir := by rw [hnone]; nofun
  have hfile : w.file p = none := Tree.file_eq_none.2 (.inl hnone)
  obtain ⟨hselect, hselected⟩ := selectedFile_posix (t := t) hname hp hgit
  rw [ne_eq, h.node_dir hdir] at hselect
  constructor
  · intro hcommit
    rw [restoreEntry, hselect hcommit]
    dsimp only
    cases hn : t.node p with
    | none =>
      have hsame : ∀ q, t.node q = some .dir ↔ t.node q = some .dir ∨ q ∈ ([] : List Path) := by
        simp
      refine ⟨t, rfl, h.put hdir ?_ hsame nofun⟩
      rw [hfile, ← Tree.file_eq_none.2 (.inl hn), Function.update_eq_self]
    | some n =>
      cases n with
      | dir => exact absurd ((h.node_dir hdir).1 hn) hcommit
      | file a =>
        have heffect : Files.Effect t p none none (Files.unlink t p none) := Files.unlink_effect
        have hok : (Files.unlink t p none).2 = .ok () :=
          heffect.passes.2 ⟨rfl, by rw [Tree.file_eq_some.2 hn]; rfl⟩
        refine ⟨(Files.unlink t p none).1, by rw [hok]; rfl, ?_⟩
        refine h.put hdir ?_ heffect.dir nofun
        rw [heffect.file hok, hfile]
  · intro hok hcommit
    rw [restoreEntry] at hok
    cases hcall : selectedFile t (posix p) with
    | error e =>
      rw [hcall] at hok
      cases hok
    | ok q => exact hselected q hcall ((h.node_dir hdir).2 hcommit)

variable (sha256) in
/-- A file of the worktree is there after its entry. -/
theorem Overlay.write (h : Overlay t₀ w done t) (hname : Named p) (hp : p ≠ [])
    (hgit : ".git" ∉ p) (hfile : w.file p = some data) (hread : getinfo files (posix p) = some data)
    (hsize : data.size ≤ fileLimit ∧ total + data.size ≤ totalLimit) :
    (Fits t₀ w p → ∃ t', restoreEntry sha256 files t total
        (.file (posix p) (sha256 data) data.size) = (t', .ok (total + data.size)) ∧
        Overlay t₀ w (p :: done) t') ∧
      ((restoreEntry sha256 files t total (.file (posix p) (sha256 data) data.size)).2.isOk →
        Fits t₀ w p) := by
  have hdir : w.node p ≠ some .dir := by rw [Tree.file_eq_some.1 hfile]; intro h; cases h
  obtain ⟨hselect, hselected⟩ := selectedFile_posix (t := t) hname hp hgit
  rw [ne_eq, h.node_dir hdir] at hselect
  have heffect : Files.Effect t p (some data) none (Files.write t p data none) :=
    Files.write_effect
  have hpass : (Files.write t p data none).2 = .ok () ↔ Fits t₀ w p := by
    rw [heffect.passes]
    constructor
    · rintro ⟨-, -, hclear, hn⟩
      exact ⟨fun hcommit => hn ((h.node_dir hdir).2 hcommit), fun _ => (h.clear_iff hp hfile).1 hclear⟩
    · rintro ⟨hcommit, habove⟩
      exact ⟨rfl, hp, (h.clear_iff hp hfile).2 (habove (by rw [hfile]; rfl)),
        fun hn => hcommit ((h.node_dir hdir).1 hn)⟩
  have hentry : t₀.node p ≠ some .dir →
      readEntry sha256 t files (posix p) (sha256 data) total = .ok (p, data) := by
    intro hcommit
    rw [readEntry, hselect hcommit, hread]
    simp [hsize, bind, Except.bind, require, pure, Except.pure]
  constructor
  · intro hfits
    rw [restoreEntry, hentry hfits.path]
    dsimp only
    refine ⟨(Files.write t p data none).1, by rw [hpass.2 hfits]; rfl, ?_⟩
    refine h.put hdir ?_ heffect.dir fun q hq => ?_
    · rw [heffect.file (hpass.2 hfits), hfile]
    · -- the directories that are made are above a file of the worktree
      have hq := (Tree.mem_missing.1 hq).2.1
      refine w.above (by rw [Tree.file_eq_some.1 hfile]; intro h; cases h) (hq.trans (List.dropLast_prefix p)) ?_
      rintro rfl
      have hle := hq.length_le
      have hpos := List.length_pos_iff.2 hp
      rw [List.length_dropLast] at hle
      omega
  · intro hok
    rw [restoreEntry] at hok
    cases hcall : readEntry sha256 t files (posix p) (sha256 data) total with
    | error e =>
      rw [hcall] at hok
      cases hok
    | ok r =>
      have hcommit : t₀.node p ≠ some .dir := by
        intro hcommit
        simp only [readEntry, bind_eq_ok] at hcall
        obtain ⟨q, hq, -⟩ := hcall
        exact hselected q hq ((h.node_dir hdir).2 hcommit)
      rw [hentry hcommit] at hcall
      cases hcall
      rw [hentry hcommit] at hok
      refine hpass.1 ?_
      cases hwrite : (Files.write t p data none).2 with
      | ok _ => rfl
      | error e =>
        simp only [hwrite] at hok
        cases hok

/-- A path that can have an entry. -/
structure Entered (w : Workspace) (p : Path) : Prop where
  /-- its parts are names -/
  named : Named p
  /-- it is not the worktree -/
  ne : p ≠ []
  /-- it is not of Git -/
  git : ".git" ∉ p
  /-- it is no directory -/
  file : w.node p ≠ some .dir

variable (sha256) in
/-- What one entry does, whatever it is. -/
theorem Overlay.entry (h : Overlay t₀ w done t) (hp : Entered w p)
    (hread : ∀ data, w.file p = some data → getinfo files (posix p) = some data)
    (hfit : Fitting w (p :: ps) total) :
    (Fits t₀ w p → ∃ t' total', restoreEntry sha256 files t total (entry sha256 w p) =
        (t', .ok total') ∧ Fitting w ps total' ∧ Overlay t₀ w (p :: done) t') ∧
      ((restoreEntry sha256 files t total (entry sha256 w p)).2.isOk → Fits t₀ w p) := by
  have hall := hfit.all
  rw [bytes_cons] at hall
  have hrest : ∀ total', total' + bytes w ps ≤ totalLimit → Fitting w ps total' :=
    fun _ hsum => ⟨fun q hq => hfit.each q (List.mem_cons_of_mem p hq), hsum⟩
  unfold Worktrees.entry
  cases hfile : w.file p with
  | none =>
    rw [hfile] at hall
    have hnone : w.node p = none := by
      obtain hnone | hdir := Tree.file_eq_none.1 hfile
      · exact hnone
      · exact absurd hdir hp.file
    obtain ⟨hgo, hback⟩ := h.missing sha256 total files hp.named hp.ne hp.git hnone
    refine ⟨fun hfits => ?_, fun hok => ⟨hback hok, fun hsome => ?_⟩⟩
    · obtain ⟨t', ht', hoverlay⟩ := hgo hfits.path
      exact ⟨t', total, ht', hrest total (by simpa using hall), hoverlay⟩
    · rw [hfile] at hsome
      cases hsome
  | some data =>
    rw [hfile] at hall
    simp only [Option.map_some, Option.getD_some] at hall
    have hsize : data.size ≤ fileLimit ∧ total + data.size ≤ totalLimit :=
      ⟨hfit.each p List.mem_cons_self data hfile, by omega⟩
    obtain ⟨hgo, hback⟩ := h.write sha256 hp.named hp.ne hp.git hfile (hread data hfile) hsize
    refine ⟨fun hfits => ?_, hback⟩
    obtain ⟨t', ht', hoverlay⟩ := hgo hfits
    exact ⟨t', _, ht', hrest _ (by omega), hoverlay⟩

/-- **The loop over the manifest goes through exactly if nothing of the commit is in the way**, and
then the worktree is put over the commit at all paths. -/
theorem Overlay.restoreEach_iff (h : Overlay t₀ w done t) (hps : ∀ p ∈ ps, Entered w p)
    (hread : ∀ p ∈ ps, ∀ data, w.file p = some data → getinfo files (posix p) = some data)
    (hfit : Fitting w ps total) :
    ((restoreEach sha256 files (ps.map (Worktrees.entry sha256 w)) t total).2 = .ok () ↔
        ∀ p ∈ ps, Fits t₀ w p) ∧
      ((restoreEach sha256 files (ps.map (Worktrees.entry sha256 w)) t total).2 = .ok () →
        Overlay t₀ w (ps.reverse ++ done)
          (restoreEach sha256 files (ps.map (Worktrees.entry sha256 w)) t total).1) := by
  induction ps generalizing done t total with
  | nil => exact ⟨⟨fun _ => nofun, fun _ => rfl⟩, fun _ => h⟩
  | cons p ps ih =>
    obtain ⟨hgo, hback⟩ := h.entry sha256 (hps p List.mem_cons_self)
      (hread p List.mem_cons_self) hfit
    rw [List.map_cons, restoreEach]
    cases hcall : restoreEntry sha256 files t total (Worktrees.entry sha256 w p) with
    | mk t' result =>
    rw [hcall] at hback
    cases result with
    | error e =>
      refine ⟨⟨nofun, fun hall => ?_⟩, nofun⟩
      obtain ⟨t'', total', ht', -⟩ := hgo (hall p List.mem_cons_self)
      rw [hcall] at ht'
      cases ht'
    | ok total' =>
      have hfits := hback rfl
      obtain ⟨t'', total'', ht', hrest, hoverlay⟩ := hgo hfits
      rw [hcall] at ht'
      cases ht'
      obtain ⟨hiff, hdone⟩ := ih hoverlay (fun q hq => hps q (List.mem_cons_of_mem p hq))
        (fun q hq => hread q (List.mem_cons_of_mem p hq)) hrest
      refine ⟨?_, fun hok => ?_⟩
      · rw [hiff, List.forall_mem_cons]
        exact ⟨fun hall => ⟨hfits, hall⟩, fun hall => hall.2⟩
      · rw [List.reverse_cons, List.append_assoc]
        exact hdone hok

/-! ### Archive and restore -/

section

variable {x : Archiving} {key : Key} {name : String} {s s' later : Storage} {row : Row}
  {wt : Worktree} {git : Git} {a : Archive} {snapshot : Snapshot}

theorem row_update {f : Row → Row} (hf : ∀ r, (f r).key = r.key) :
    (s.update key f).row key = (s.row key).map f := by
  have hkey : ∀ r ∈ s.rows, Row.key (if r.key = key then f r else r) = r.key := by
    intro r _
    split
    · exact hf r
    · rfl
  refine (Records.find_map hkey).trans ?_
  show (s.row key).map _ = _
  cases hrow : s.row key with
  | none => rfl
  | some r => exact congrArg some (if_pos (Records.key_of_find hrow))

/-- What `archive` leaves for `restore`. -/
theorem archive_ok (hrow : s.row key = some row) (hready : row.state = .ready)
    (hw : s.worktrees key = some wt) (h : archive sha256 x key s = .ok (s', name)) :
    ∃ snapshot, snapshotFiles sha256 wt.tree x.rglob wt.index = .ok snapshot ∧
      s'.archives name =
        some ⟨⟨row.owner, row.task, row.repository, row.base, wt.head⟩, snapshot, wt.head⟩ ∧
      s'.row key = some { row with state := .archived, archive := some name } ∧
      s'.worktrees key = none := by
  have hkey : row.key = key := Records.key_of_find hrow
  simp only [archive, bind_eq_ok, require_eq_ok] at h
  obtain ⟨row', hrow', h⟩ := h
  obtain rfl : row = row' := Option.some.inj (hrow.symm.trans hrow')
  rw [if_neg (by rw [hready]; intro h; cases h)] at h
  simp only [bind_eq_ok, require_eq_ok, archiveReady, ensure_eq_ok, pure_eq_ok] at h
  obtain ⟨wt', hw', _, -, _, -, _, -, _, -, snapshot, hsnapshot, _, -, _, -, heq⟩ := h
  obtain rfl : wt = wt' := Option.some.inj (hw.symm.trans hw')
  obtain ⟨rfl, rfl⟩ := Prod.mk.inj heq
  refine ⟨snapshot, hsnapshot, Function.update_self .., ?_, ?_⟩
  · rw [hkey]
    refine (row_update ?_).trans (congrArg (Option.map _) hrow)
    exact fun _ => rfl
  · rw [← hkey]
    exact Function.update_self ..

/-- At a later time, nobody has touched the archive or its row, nothing is at the location, and there
is room for another worktree. -/
structure Later (key : Key) (name : String) (s later : Storage) : Prop where
  /-- the row -/
  row : later.row key = s.row key
  /-- the archive -/
  archive : later.archives name = s.archives name
  /-- the location -/
  place : later.worktrees key = none
  /-- the other worktrees -/
  room : later.active < 256

/-- `restore` gives the worktree back: its commit, and its files outside of `.git`. -/
def Returned (sha256 : ByteArray → String) (git : Git) (key : Key) (wt : Worktree) (s : Storage) :
    Prop :=
  (restore sha256 git key s).2 = .ok () ∧
    ∃ wt', (restore sha256 git key s).1.worktrees key = some wt' ∧ wt'.head = wt.head ∧
      ∀ p, Outside p → wt'.tree.file p = wt.tree.file p

/-- The commit `t₀` of a worktree is not in the way of its archive. -/
structure Restorable (t₀ : Workspace) (wt : Worktree) : Prop where
  /-- a file of the commit is in the worktree, or it is in the index and nothing is there -/
  committed : ∀ p, Outside p → (t₀.file p).isSome →
    (wt.tree.file p).isSome ∨ p ∈ wt.index ∧ wt.tree.node p = none
  /-- no file is a directory of the commit, or below one of its files -/
  kinds : ∀ p, Outside p → (wt.tree.file p).isSome → Fits t₀ wt.tree p
  /-- nothing that is missing from the index is a directory of the commit -/
  missing : ∀ p ∈ wt.index, Outside p → wt.tree.node p = none → t₀.node p ≠ some .dir

/-- What `restore` does with the archive. -/
theorem returned_iff (hrow : later.row key = some row) (hstate : row.state = .archived)
    (hname : row.archive = some name) (ha : later.archives name = some a)
    (howner : (a.metadata.owner, a.metadata.task, a.metadata.repository) = key)
    (hbase : a.metadata.base = row.base) (hhead : a.metadata.head = wt.head)
    (hbundle : a.bundle = wt.head) (hplace : later.worktrees key = none)
    (hroom : later.active < 256) :
    Returned sha256 git key wt later ↔
      (restoreFiles sha256 a (git.checkout wt.head)).2 = .ok () ∧
        ∀ p, Outside p →
          (restoreFiles sha256 a (git.checkout wt.head)).1.file p = wt.tree.file p := by
  have hfind : findArchive key later = .ok a := by
    simp only [findArchive, bind_eq_ok, require_eq_ok, ensure_eq_ok, pure_eq_ok, decide_eq_true_eq]
    exact ⟨row, hrow, (), hstate, name, hname, a, ha, (), ⟨howner, hbase⟩, (), by rw [hplace]; rfl,
      (), hroom, (), hbundle.trans hhead.symm, rfl⟩
  rw [Returned, restore, hfind]
  dsimp only
  rw [hbundle]
  generalize restoreFiles sha256 a (git.checkout wt.head) = r
  obtain ⟨t, result⟩ := r
  cases result with
  | error e => exact ⟨fun h => absurd h.1 (fun h => by cases h), fun h => absurd h.1 fun h => by cases h⟩
  | ok _ =>
    have hplaced : (later.place key (some ⟨t, git.index wt.head, wt.head⟩)).worktrees key =
        some ⟨t, git.index wt.head, wt.head⟩ := Function.update_self ..
    constructor
    · rintro ⟨-, wt', hwt, -, hfile⟩
      obtain rfl := Option.some.inj (hplaced.symm.trans hwt)
      exact ⟨rfl, hfile⟩
    · rintro ⟨-, hfile⟩
      exact ⟨rfl, _, hplaced, rfl, hfile⟩

theorem entered_recorded (hnames : ∀ p, wt.tree.node p ≠ none ∨ p ∈ wt.index → Named p)
    (hrglob : ∀ p, p ∈ x.rglob ↔ p ≠ [] ∧ wt.tree.node p ≠ none) :
    ∀ p ∈ (candidates wt.tree x.rglob wt.index).filter (recorded wt.tree), Entered wt.tree p := by
  intro p hp
  obtain ⟨hp, hrecorded⟩ := List.mem_filter.1 hp
  rw [recorded, Bool.and_eq_true, decide_eq_true_eq, decide_eq_true_eq] at hrecorded
  obtain hp | hp := List.mem_append.1 hp
  · obtain ⟨hne, hnode⟩ := (hrglob p).1 hp
    exact ⟨hnames p (.inl hnode), hne, hrecorded.1, hrecorded.2⟩
  · obtain ⟨hindex, hnone⟩ := List.mem_filter.1 hp
    refine ⟨hnames p (.inr hindex), ?_, hrecorded.1, hrecorded.2⟩
    rintro rfl
    rw [wt.tree.root] at hnone
    cases hnone

/-- Outside of `.git`, the files have entries, and what is missing from the index. -/
theorem mem_recorded (hrglob : ∀ p, p ∈ x.rglob ↔ p ≠ [] ∧ wt.tree.node p ≠ none)
    (hgit : ∀ p ∈ candidates wt.tree x.rglob wt.index, ".git" ∈ p → p.head? = some ".git")
    (hp : Outside p) :
    p ∈ (candidates wt.tree x.rglob wt.index).filter (recorded wt.tree) ↔
      (wt.tree.file p).isSome ∨ p ∈ wt.index ∧ wt.tree.node p = none := by
  rw [List.mem_filter, recorded, Bool.and_eq_true, decide_eq_true_eq, decide_eq_true_eq]
  have hcandidate : p ∈ candidates wt.tree x.rglob wt.index ↔
      (p ≠ [] ∧ wt.tree.node p ≠ none) ∨ p ∈ wt.index ∧ wt.tree.node p = none := by
    rw [candidates, List.mem_append, hrglob, List.mem_filter, Option.isNone_iff_eq_none]
  constructor
  · rintro ⟨hmem, -, hdir⟩
    obtain ⟨-, hnode⟩ | hmissing := hcandidate.1 hmem
    · refine .inl ?_
      cases hfile : wt.tree.file p with
      | some data => rfl
      | none => exact absurd (Tree.file_eq_none.1 hfile) (by rintro (h | h) <;> contradiction)
    · exact .inr hmissing
  · intro h
    have hmem : p ∈ candidates wt.tree x.rglob wt.index ∧ wt.tree.node p ≠ some .dir := by
      obtain hfile | hmissing := h
      · obtain ⟨data, hfile⟩ := Option.isSome_iff_exists.1 hfile
        rw [hcandidate, Tree.file_eq_some.1 hfile]
        refine ⟨.inl ⟨?_, nofun⟩, nofun⟩
        rintro rfl
        rw [Tree.file_eq_some, wt.tree.root] at hfile
        cases hfile
      · rw [hcandidate, hmissing.2]
        exact ⟨.inr ⟨hmissing.1, rfl⟩, nofun⟩
    exact ⟨hmem.1, fun hin => hp (hgit p hmem.1 hin), hmem.2⟩

theorem outside_of_not_mem (h : ".git" ∉ p) : Outside p := by
  intro hhead
  cases p with
  | nil => cases hhead
  | cons k p => exact h (Option.some.inj hhead ▸ List.mem_cons_self)

/-- The loop over the manifest gives the files back exactly if the commit is not in their way. -/
theorem restoreEach_returns (hps : ∀ p ∈ ps, Entered wt.tree p)
    (hmem : ∀ p, Outside p →
      (p ∈ ps ↔ (wt.tree.file p).isSome ∨ p ∈ wt.index ∧ wt.tree.node p = none))
    (hfit : Fitting wt.tree ps 0) :
    ((restoreEach sha256 (ps.filterMap (saved wt.tree)) (ps.map (entry sha256 wt.tree)) t₀ 0).2 =
        .ok () ∧ ∀ p, Outside p →
      (restoreEach sha256 (ps.filterMap (saved wt.tree)) (ps.map (entry sha256 wt.tree))
        t₀ 0).1.file p = wt.tree.file p) ↔ Restorable t₀ wt := by
  have hread : ∀ p ∈ ps, ∀ data, wt.tree.file p = some data →
      getinfo (ps.filterMap (saved wt.tree)) (posix p) = some data :=
    fun p hp data => getinfo_saved (fun p hp => (hps p hp).named) hp
  have hstart : Overlay t₀ wt.tree [] t₀ := .refl
  obtain ⟨hiff, hoverlay⟩ := hstart.restoreEach_iff hps hread hfit
  have hfile : ∀ p, p ∉ ps → Outside p → wt.tree.file p = none := by
    intro p hp hout
    cases hfile : wt.tree.file p with
    | none => rfl
    | some data => exact absurd ((hmem p hout).2 (.inl (by rw [hfile]; rfl))) hp
  constructor
  · rintro ⟨hok, hsame⟩
    have hfits := hiff.1 hok
    refine ⟨fun p hout hcommit => ?_, fun p hout hsome => hfits p ((hmem p hout).2 (.inl hsome)),
      fun p hindex hout hnone => (hfits p ((hmem p hout).2 (.inr ⟨hindex, hnone⟩))).path⟩
    by_contra hnot
    have hp : p ∉ ps := fun hp => hnot ((hmem p hout).1 hp)
    have hkept := (hoverlay hok).file p
    rw [if_neg (by simpa using hp), hsame p hout, hfile p hp hout] at hkept
    rw [← hkept] at hcommit
    cases hcommit
  · intro hrestorable
    have hok := hiff.2 fun p hp => by
      have hout := outside_of_not_mem (hps p hp).git
      obtain hsome | ⟨hindex, hnone⟩ := (hmem p hout).1 hp
      · exact hrestorable.kinds p hout hsome
      · refine ⟨hrestorable.missing p hindex hout hnone, fun hsome => ?_⟩
        rw [Tree.file_eq_none.2 (.inl hnone)] at hsome
        cases hsome
    refine ⟨hok, fun p hout => ?_⟩
    rw [(hoverlay hok).file p]
    by_cases hp : p ∈ ps
    · exact if_pos (by simpa using hp)
    · rw [if_neg (by simpa using hp), hfile p hp hout]
      cases hcommit : t₀.file p with
      | none => rfl
      | some data =>
        exact absurd ((hmem p hout).2 (hrestorable.committed p hout (by rw [hcommit]; rfl))) hp

/-- **Restoring an archive gives the worktree back exactly if the commit is not in its way**: the
commit has no file that the worktree and its index do not have, and nothing of the other kind. -/
theorem restore_archive_iff
    (hnames : ∀ p, wt.tree.node p ≠ none ∨ p ∈ wt.index → Named p)
    (hrglob : ∀ p, p ∈ x.rglob ↔ p ≠ [] ∧ wt.tree.node p ≠ none)
    (hrow : s.row key = some row) (hready : row.state = .ready)
    (hw : s.worktrees key = some wt) (harchive : archive sha256 x key s = .ok (s', name))
    (hlimit : ∀ a, s'.archives name = some a → a.snapshot.manifest.length ≤ entryLimit)
    (hlater : Later key name s' later) :
    Returned sha256 git key wt later ↔ Restorable (git.checkout wt.head) wt := by
  obtain ⟨snapshot, hsnapshot, ha, hrow', -⟩ := archive_ok hrow hready hw harchive
  have hkey : row.key = key := Records.key_of_find hrow
  rw [returned_iff (hlater.row.trans hrow') rfl rfl (hlater.archive.trans ha) hkey rfl rfl rfl
    hlater.place hlater.room]
  have hlength := hlimit _ ha
  rw [restoreFiles, if_neg (by omega)]
  obtain ⟨rfl, hgit, hfit⟩ := snapshotEach_ok (Nat.zero_le _) hsnapshot
  exact restoreEach_returns (entered_recorded hnames hrglob) (fun p => mem_recorded hrglob hgit) hfit

end

namespace Sample

/-- The bytes of the text `a`. -/
def letter : ByteArray := ⟨#[0x61]⟩

/-- `hashlib.sha256(data).hexdigest()`, of no bytes and of `a`. -/
def digest (data : ByteArray) : String :=
  if data.size = 0 then "e3b0c44298fc1c149afbf4c8996fb92427ae41e4649b934ca495991b7852b855"
  else "ca978112ca1bbdcafac231b39a23dc4da786eff8147c4f72b9807785afee48bb"

/-- The commit has one file. -/
def git : Git where
  checkout _ := Files.single "old.txt" .empty
  index _ := [["old.txt"]]

/-- The owner, the task and the repository. -/
def key : Key := ("owner", "task", "/repository")

/-- The row of a worktree. -/
def row : Row := ⟨"owner", "task", "/repository", "c0", .ready, none⟩

/-- One worktree is there. -/
def stored (wt : Worktree) : Storage :=
  ⟨[row], Function.update (fun _ => none) key (some wt), fun _ => none⟩

/-- A worktree with one file, which is in the index. -/
def worktree (name : String) : Worktree := ⟨Files.single name letter, [[name]], "c0"⟩

/-- The call of `archive`. -/
def archiving (name : String) : Archiving := { uuid := "a1", rglob := [[name]] }

/-- What it archives. -/
def archived (name : String) : Archive :=
  ⟨⟨"owner", "task", "/repository", "c0", "c0"⟩,
    ⟨[.file name (digest letter) 1], [(name, letter)]⟩, "c0"⟩

/-- The storage with the archive of the worktree. -/
def kept (name : String) : Storage :=
  ((⟨[row], (stored (worktree name)).worktrees, Function.update (fun _ => none) "a1"
    (some (archived name))⟩ : Storage).place key none).update key fun r =>
      { r with state := .archived, archive := some "a1" }

set_option maxRecDepth 4000 in
theorem archive_new : archive digest (archiving "new.txt") key (stored (worktree "new.txt")) =
    .ok (kept "new.txt", "a1") := by rfl

set_option maxRecDepth 4000 in
theorem archive_old : archive digest (archiving "old.txt") key (stored (worktree "old.txt")) =
    .ok (kept "old.txt", "a1") := by rfl

theorem later_kept (name : String) : Later key "a1" (kept name) (kept name) where
  row := rfl
  archive := rfl
  place := by rfl
  room := by
    have hactive : (kept name).active = 0 := by rfl
    omega

theorem archives_kept (name : String) : (kept name).archives "a1" = some (archived name) := by rfl

theorem node_single (name : String) (data : ByteArray) (p : Path) : (Files.single name data).node p =
    if p = [] then some .dir else if p = [name] then some (.file data) else none := rfl

theorem file_single (name : String) (data : ByteArray) (p : Path) :
    (Files.single name data).file p = if p = [name] then some data else none := by
  rw [Tree.file, node_single]
  by_cases hp : p = []
  · simp [hp]
  · by_cases hname : p = [name] <;> simp [hp, hname]

theorem named_single {name : String} (hname : IsName name) (p : Path)
    (h : (worktree name).tree.node p ≠ none ∨ p ∈ (worktree name).index) : Named p := by
  have hp : p = [] ∨ p = [name] := by
    by_contra hnot
    rw [not_or] at hnot
    obtain h | h := h
    · exact h ((if_neg hnot.1).trans (if_neg hnot.2))
    · exact hnot.2 (List.mem_singleton.1 h)
  intro k hk
  obtain rfl | rfl := hp
  · cases hk
  · rw [List.mem_singleton.1 hk]
    exact hname

theorem rglob_single (name : String) (p : Path) : p ∈ (archiving name).rglob ↔
    p ≠ [] ∧ (worktree name).tree.node p ≠ none := by
  rw [worktree, node_single, archiving, List.mem_singleton]
  by_cases hp : p = []
  · simp [hp]
  · by_cases hname : p = [name] <;> simp [hp, hname]

/-- A file that is modified is not in the way of its archive. -/
theorem restorable_old : Restorable (git.checkout "c0") (worktree "old.txt") where
  committed p _ hcommit := by
    rw [git, file_single] at hcommit
    rw [worktree, file_single]
    by_cases hp : p = ["old.txt"]
    · exact .inl (by rw [if_pos hp]; rfl)
    · rw [if_neg hp] at hcommit
      cases hcommit
  kinds p _ hsome := by
    rw [worktree, file_single] at hsome
    by_cases hp : p = ["old.txt"]
    · rw [hp]
      refine ⟨nofun, fun _ q hq hne => ?_⟩
      rw [git, file_single, if_neg hne]
    · rw [if_neg hp] at hsome
      cases hsome
  missing p hindex _ hnone := by
    rw [List.mem_singleton.1 hindex] at hnone
    cases hnone

end Sample

/-- A file that is renamed with `git mv` is there twice after `archive` and `restore`. -/
theorem restore_renamed :
    archive Sample.digest (Sample.archiving "new.txt") Sample.key
        (Sample.stored (Sample.worktree "new.txt")) = .ok (Sample.kept "new.txt", "a1") ∧
      (restore Sample.digest Sample.git Sample.key (Sample.kept "new.txt")).2 = .ok () ∧
      ¬ Returned Sample.digest Sample.git Sample.key (Sample.worktree "new.txt")
        (Sample.kept "new.txt") := by
  refine ⟨Sample.archive_new, ?_, ?_⟩
  · rfl
  · rintro ⟨-, wt', hwt, -, hfile⟩
    have hthere : ((restore Sample.digest Sample.git Sample.key
        (Sample.kept "new.txt")).1.worktrees Sample.key).bind (fun wt => wt.tree.file ["old.txt"]) =
        some .empty := by rfl
    rw [hwt, Option.bind_some, hfile ["old.txt"] (by rw [Outside]; decide), Sample.worktree,
      Sample.file_single] at hthere
    cases hthere

/-- A file that is modified is given back. -/
theorem restore_modified :
    Returned Sample.digest Sample.git Sample.key (Sample.worktree "old.txt")
      (Sample.kept "old.txt") := by
  refine (restore_archive_iff (Sample.named_single (by decide)) (Sample.rglob_single "old.txt")
    rfl rfl rfl Sample.archive_old (fun a ha => ?_) (Sample.later_kept "old.txt")).2
    Sample.restorable_old
  obtain rfl := Option.some.inj ((Sample.archives_kept "old.txt").symm.trans ha)
  decide

end Worktrees

end PythonAI
