import PythonAI.Errors
import PythonAI.Library.Journal
import PythonAI.Library.Tree

/-!
# Files of a workspace

A workspace is a tree of files and directories.  `replace` is how the program writes: a file that
is to go is unlinked; for any other one the directories above are made, its bytes are written to a
temporary file beside it, and the temporary file is moved over it.  A `Fault` is where the file
system refuses.
-/

namespace PythonAI

open Library

namespace Files

/-- How an operation on files fails. -/
inductive Failure
  /-- an exception of the program -/
  | raised (error : Error)
  /-- `OSError` -/
  | os
  /-- `UnicodeDecodeError` -/
  | decode
  deriving DecidableEq, Repr

/-- The parts of a path below the workspace. -/
abbrev Path := List String

/-- `Path(name).parts` of a relative name. -/
def parts (name : String) : Path :=
  ((name.toList.splitOn '/').filter fun part => part ≠ [] ∧ part ≠ ['.']).map String.ofList

/-- `path.as_posix()` -/
def posix (path : Path) : String := "/".intercalate path

/-- Where the file system refuses. -/
inductive Fault
  /-- a directory is not made, only the ones above it, down to the `made`th part -/
  | mkdir (made : ℕ)
  /-- the file is not written, not moved or not unlinked -/
  | write
  deriving DecidableEq, Repr

/-- Bytes are compared by the instance of core, whatever else is imported. -/
instance decidableEqBytes : DecidableEq ByteArray := ByteArray.instDecidableEq

variable {α : Type*} {t t' : Tree String α} {p q : Path} {a : α} {data : Option α}
  {fault : Option Fault} {r : Except Failure Unit}

/-- Writes the file `a` at `p`, in a directory that is made. -/
def write (t : Tree String α) (p : Path) (a : α) (fault : Option Fault) :
    Tree String α × Except Failure Unit :=
  match fault with
  | some (.mkdir made) => ((t.mkdirs (p.dropLast.take made)).getD t, .error .os)
  | some .write => ((t.mkdirs p.dropLast).getD t, .error .os)
  | none =>
    match t.mkdirs p.dropLast with
    | none => (t, .error .os)
    | some t₁ =>
      match t₁.put p a with
      | none => (t₁, .error .os)
      | some t₂ => (t₂, .ok ())

/-- `path.unlink()` -/
def unlink (t : Tree String α) (p : Path) (fault : Option Fault) :
    Tree String α × Except Failure Unit :=
  match fault, t.remove p with
  | none, some t' => (t', .ok ())
  | _, _ => (t, .error .os)

/-- The file at `p` becomes `data`. -/
def replace (t : Tree String α) (p : Path) (data : Option α) (fault : Option Fault) :
    Tree String α × Except Failure Unit :=
  match data with
  | none => unlink t p fault
  | some a => write t p a fault

/-- The directories that `replace` makes. -/
def made (t : Tree String α) (p : Path) (data : Option α) (fault : Option Fault) : List Path :=
  match data, fault with
  | none, _ => []
  | some _, some (.mkdir made) => t.missing (p.dropLast.take made)
  | some _, _ => t.missing p.dropLast

/-- `replace` goes through. -/
def Passes (t : Tree String α) (p : Path) (data : Option α) (fault : Option Fault) : Prop :=
  fault = none ∧
    match data with
    | none => (t.file p).isSome
    | some _ => p ≠ [] ∧ t.Clear p.dropLast ∧ t.node p ≠ some .dir

theorem not_mem_missing (hp : p ≠ []) : p ∉ t.missing p.dropLast := by
  intro hmem
  have hlen := (Tree.mem_missing.1 hmem).2.1.length_le
  have hpos := List.length_pos_iff.2 hp
  rw [List.length_dropLast] at hlen
  omega

/-! ### Making directories -/

theorem mkdirs_getD_file {d : Path} : ((t.mkdirs d).getD t).file = t.file := by
  cases h : t.mkdirs d with
  | none => rfl
  | some t' => exact Tree.mkdirs_file h

theorem mkdirs_getD_dir {d : Path} :
    ((t.mkdirs d).getD t).node q = some .dir ↔ t.node q = some .dir ∨ q ∈ t.missing d := by
  cases h : t.mkdirs d with
  | some t' => exact Tree.mkdirs_dir h
  | none =>
    have hq : q ∉ t.missing d := fun hmem => Tree.mkdirs_eq_none.1 h (Tree.mem_missing.1 hmem).1
    simp [hq]

/-- Once its directories are made, a file can be put unless it is the workspace or a directory. -/
theorem put_isSome {t₁ : Tree String α} (h : t.mkdirs p.dropLast = some t₁) :
    (t₁.put p a).isSome ↔ p ≠ [] ∧ t.node p ≠ some .dir := by
  have hparent : t₁.node p.dropLast = some .dir := by
    rw [(Tree.mkdirs_eq_some.1 h).2]
    exact if_pos List.prefix_rfl
  rw [Tree.put_isSome]
  constructor
  · rintro ⟨hp, -, hdir⟩
    exact ⟨hp, fun hn => hdir ((Tree.mkdirs_dir h).2 (.inl hn))⟩
  · rintro ⟨hp, hdir⟩
    refine ⟨hp, hparent, fun hn => ?_⟩
    rcases (Tree.mkdirs_dir h).1 hn with hn | hn
    · exact hdir hn
    · exact not_mem_missing hp hn

/-! ### Writing -/

/-- What replacing the file at `p` by `data` does: it changes no file but its own, and that one only
if it goes through; and it makes the directories it needs. -/
structure Effect (t : Tree String α) (p : Path) (data : Option α) (fault : Option Fault)
    (out : Tree String α × Except Failure Unit) : Prop where
  /-- when it goes through -/
  passes : out.2 = .ok () ↔ Passes t p data fault
  /-- the files, if it does -/
  file : out.2 = .ok () → out.1.file = Function.update t.file p data
  /-- the files, if it does not -/
  same : out.2 ≠ .ok () → out.1.file = t.file
  /-- the directories -/
  dir : ∀ q, out.1.node q = some .dir ↔ t.node q = some .dir ∨ q ∈ made t p data fault

/-- A write that stops after making the directories above `d`. -/
theorem effect_mkdirs {d : Path} (hd : made t p data fault = t.missing d)
    (hpass : ¬ Passes t p data fault) :
    Effect t p data fault ((t.mkdirs d).getD t, .error .os) where
  passes := ⟨nofun, fun h => absurd h hpass⟩
  file := nofun
  same _ := mkdirs_getD_file
  dir q := by rw [hd, mkdirs_getD_dir]

theorem write_effect : Effect t p (some a) fault (write t p a fault) := by
  unfold write
  split
  · exact effect_mkdirs rfl (by simp [Passes])
  · exact effect_mkdirs rfl (by simp [Passes])
  · split
    · rename_i h
      have hstop : Effect t p (some a) none ((t.mkdirs p.dropLast).getD t, .error .os) :=
        effect_mkdirs rfl fun hpass => Tree.mkdirs_eq_none.1 h hpass.2.2.1
      rw [h] at hstop
      exact hstop
    · rename_i t₁ h
      have hput := put_isSome (a := a) h
      split
      · rename_i h₂
        rw [h₂] at hput
        have hstop : Effect t p (some a) none ((t.mkdirs p.dropLast).getD t, .error .os) :=
          effect_mkdirs rfl fun hpass => nomatch hput.2 ⟨hpass.2.1, hpass.2.2.2⟩
        rw [h] at hstop
        exact hstop
      · rename_i t₂ h₂
        rw [h₂] at hput
        obtain ⟨hp, hdir⟩ := hput.1 rfl
        have hpass : Passes t p (some a) none := ⟨rfl, hp, (Tree.mkdirs_eq_some.1 h).1, hdir⟩
        refine ⟨⟨fun _ => hpass, fun _ => rfl⟩, fun _ => ?_, ?_, fun q => ?_⟩
        · rw [Tree.put_file h₂, Tree.mkdirs_file h]
        · exact fun hne => absurd rfl hne
        · rw [Tree.put_dir h₂, Tree.mkdirs_dir h]
          rfl

theorem unlink_effect : Effect t p none fault (unlink t p fault) := by
  unfold unlink
  split
  · rename_i t' h
    have hfile := (Tree.remove_eq_some.1 h).1
    refine ⟨⟨fun _ => ⟨rfl, hfile⟩, fun _ => rfl⟩, fun _ => Tree.remove_file h, ?_, fun q => ?_⟩
    · exact fun hne => absurd rfl hne
    · simp [Tree.remove_dir h, made]
  · rename_i h
    refine ⟨⟨nofun, ?_⟩, nofun, fun _ => rfl, fun q => by simp [made]⟩
    rintro ⟨rfl, hfile⟩
    obtain ⟨t', ht'⟩ := Option.isSome_iff_exists.1 (Tree.remove_isSome.2 hfile)
    exact absurd ht' (h t' rfl)

/-- **A replacement changes no file but its own, and no directory but those it makes.** -/
theorem replace_effect : Effect t p data fault (replace t p data fault) := by
  cases data with
  | none => exact unlink_effect
  | some a => exact write_effect

/-! ### Changing several files -/

/-- When the edits `es` of `t₀` are made, the files are those of `t₀` overlaid with them, and the
directories of `t₀` are there. -/
structure Made (t₀ : Tree String α) (es : List (Edit String α)) (t : Tree String α) : Prop where
  /-- the files -/
  file : t.file = Edit.overlay t₀.file es.reverse
  /-- the directories -/
  dir : ∀ q, t₀.node q = some .dir → t.node q = some .dir

/-- One of the paths is a directory. -/
def Harmed (paths : List Path) (t : Tree String α) : Prop := ∃ q ∈ paths, t.node q = some .dir

variable {t₀ : Tree String α} {es : List (Edit String α)} {e : Edit String α}

theorem Made.refl : Made t₀ [] t₀ := ⟨rfl, fun _ h => h⟩

/-- A replacement makes its edit, if it goes through; else it makes none. -/
theorem Made.replace {fault : Option Fault} {out : Tree String α × Except Failure Unit}
    (h : Made t₀ es t) (hout : Effect t e.path e.new fault out) :
    (out.2 = .ok () → Made t₀ (es ++ [e]) out.1) ∧ (out.2 ≠ .ok () → Made t₀ es out.1) := by
  have hdir : ∀ q, t₀.node q = some .dir → out.1.node q = some .dir :=
    fun q hq => (hout.dir q).2 (.inl (h.dir q hq))
  refine ⟨fun hok => ⟨?_, hdir⟩, fun hne => ⟨?_, hdir⟩⟩
  · rw [hout.file hok, h.file, List.reverse_append]
    rfl
  · rw [hout.same hne, h.file]

/-- A path is made a directory by a replacement that makes it one. -/
theorem harmed_replace (paths : List Path) {fault : Option Fault}
    {out : Tree String α × Except Failure Unit}
    (hout : Effect t p data fault out) :
    Harmed paths out.1 ↔ Harmed paths t ∨ ∃ q ∈ made t p data fault, q ∈ paths := by
  constructor
  · rintro ⟨q, hq, hn⟩
    rcases (hout.dir q).1 hn with hn | hn
    · exact .inl ⟨q, hq, hn⟩
    · exact .inr ⟨q, hn, hq⟩
  · rintro (⟨q, hq, hn⟩ | ⟨q, hn, hq⟩)
    · exact ⟨q, hq, (hout.dir q).2 (.inl hn)⟩
    · exact ⟨q, hq, (hout.dir q).2 (.inr hn)⟩

/-- The directory of a file that was there is there. -/
theorem Made.parent (h : Made t₀ es t) (hp : p ≠ []) (hfile : t₀.file p = some a) :
    t.node p.dropLast = some .dir := by
  refine h.dir _ (t₀.above ?_ (List.dropLast_prefix _) fun heq => ?_)
  · rw [Tree.file_eq_some.1 hfile]
    nofun
  · have hlen := congrArg List.length heq
    have hpos := List.length_pos_iff.2 hp
    rw [List.length_dropLast] at hlen
    omega

/-- A workspace with one file. -/
def single (name : String) (a : α) : Tree String α where
  node p := if p = [] then some .dir else if p = [name] then some (.file a) else none
  root := rfl
  parent p k h := by
    by_cases hp : p = []
    · rw [if_pos hp]
    · refine absurd ?_ h
      have hne : p ++ [k] ≠ [name] := fun heq => hp (by simpa using congrArg List.length heq)
      rw [if_neg (by simp), if_neg hne]

end Files

end PythonAI
