import PythonAI.Delivery.Patches

/-!
# When applying a patch is all or nothing

`preparePatch` records changes of different files, each with the mode the file has (`Sound`).  While
the patch is applied, the files are those of the workspace it found, overlaid with the changes it
has applied; taking these back one after the other leads to the files it found.  What is not taken
back is a directory that a step has made: where it is at a path of the patch, `bounded_path` refuses
the path, and the file that was there stays away.
-/

namespace PythonAI

open Library
open Files (Failure Path Fault Made Harmed)

namespace Patches

variable {env : Env} {t t' t₀ : Disk} {p : Path} {b : Option ByteArray}

/-! ### What is recorded -/

theorem readBytes_eq_ok : readBytes t p = .ok b ↔ t.node p ≠ some .dir ∧
    (t.file p).map File.bytes = b ∧ ∀ x, b = some x → x.size ≤ fileLimit ∧ x.validateUTF8 := by
  unfold readBytes Tree.file
  split
  · rename_i h
    constructor
    · rintro ⟨⟩
      exact ⟨by rw [h]; nofun, by rw [h]; rfl, nofun⟩
    · rintro ⟨-, hb, -⟩
      rw [h] at hb
      rw [← hb]
      rfl
  · rename_i h
    exact ⟨nofun, fun hne => absurd h hne.1⟩
  · rename_i f h
    rw [h]
    have hdir : some (Node.file f) ≠ some .dir := nofun
    dsimp only [Option.map_some]
    split_ifs with hsize hutf
    · refine ⟨nofun, fun ⟨_, hb, hfit⟩ => ?_⟩
      have := (hfit _ hb.symm).1
      omega
    · constructor
      · rintro ⟨⟩
        refine ⟨hdir, rfl, ?_⟩
        rintro x ⟨⟩
        exact ⟨by omega, hutf⟩
      · rintro ⟨-, rfl, -⟩
        rfl
    · exact ⟨nofun, fun ⟨_, hb, hfit⟩ => absurd (hfit _ hb.symm).2 hutf⟩

namespace Change

/-- The bytes after the change. -/
def new (c : Change) : Option ByteArray := c.after.map String.toUTF8

/-- The file after the change. -/
def proposed (c : Change) : Option File := c.new.map fun bytes => ⟨bytes, c.mode⟩

end Change

theorem regular_eq_ok {q : Path} :
    regular t p = .ok q ↔ (p ≠ [] ∧ t.node p ≠ some .dir) ∧ p = q := by
  unfold regular
  split_ifs with hnil hdir
  · exact ⟨nofun, fun h => absurd hnil h.1.1⟩
  · exact ⟨nofun, fun h => absurd hdir h.1.2⟩
  · simp [hnil, hdir]

/-- What is known of a change that is recorded for `t`. -/
structure Sound (env : Env) (t : Disk) (c : Change) : Prop where
  /-- it is not the workspace -/
  nonroot : c.path ≠ []
  /-- the bytes before can be read -/
  read : readBytes t c.path = .ok ((t.file c.path).map File.bytes)
  /-- and their digest is recorded -/
  digest : ((t.file c.path).map File.bytes).map env.digest = c.beforeSha256
  /-- so is the mode -/
  mode : ∀ f, t.file c.path = some f → f.mode = c.mode
  /-- a missing file is not deleted -/
  effect : (t.file c.path).isSome ∨ c.new.isSome
  /-- the new content is small -/
  small : size c.new ≤ fileLimit

theorem sound_of_record {request : Request} {seen : List Path} {total : ℕ} {c : Change}
    (h : record env t request seen total = .ok (c, b)) : Sound env t c ∧ c.path ∉ seen := by
  simp only [record, boundedPath, bind_eq_ok, ensure_eq_ok, decide_eq_true_eq, pure_eq_ok] at h
  obtain ⟨path, ⟨name, -, hreg⟩, -, hseen, old, hread, -, hdigest, -, heffect, -, -, -, hsize,
    hc⟩ := h
  cases hc
  obtain ⟨⟨hnil, -⟩, rfl⟩ := regular_eq_ok.1 hreg
  obtain ⟨-, hold, -⟩ := readBytes_eq_ok.1 hread
  subst hold
  refine ⟨⟨hnil, hread, hdigest.symm, ?_, ?_, hsize.1⟩, hseen⟩
  · intro f hf
    simp [hf]
  · simpa [Change.new] using heffect

/-- The recorded changes are sound, and of different files. -/
theorem sound_of_records {requests : List Request} {seen : List Path} {total : ℕ}
    {changes : List Change} {diff : String}
    (h : records env t requests seen total = .ok (changes, diff)) :
    (∀ c ∈ changes, Sound env t c ∧ c.path ∉ seen) ∧ (changes.map Change.path).Nodup := by
  induction requests generalizing seen total changes diff with
  | nil =>
    cases h
    exact ⟨nofun, List.nodup_nil⟩
  | cons request requests ih =>
    simp only [records, bind_eq_ok, pure_eq_ok] at h
    obtain ⟨⟨c, old⟩, hc, ⟨cs, diff'⟩, hcs, heq⟩ := h
    cases heq
    obtain ⟨hsound, hseen⟩ := sound_of_record hc
    obtain ⟨hall, hnodup⟩ := ih hcs
    refine ⟨fun c' hc' => ?_, List.nodup_cons.2 ⟨fun hmem => ?_, hnodup⟩⟩
    · rcases List.mem_cons.1 hc' with rfl | hc'
      · exact ⟨hsound, hseen⟩
      · obtain ⟨hs, hfresh⟩ := hall c' hc'
        exact ⟨hs, fun hmem => hfresh (List.mem_cons_of_mem _ hmem)⟩
    · obtain ⟨c', hc', hpath⟩ := List.mem_map.1 hmem
      exact (hall c' hc').2 (hpath ▸ List.mem_cons_self ..)

theorem sound_of_prepare {requests : List Request} {patch : Patch}
    (h : preparePatch env t requests = .ok patch) :
    (∀ c ∈ patch.changes, Sound env t c) ∧ (patch.changes.map Change.path).Nodup := by
  simp only [preparePatch, bind_eq_ok, pure_eq_ok] at h
  obtain ⟨-, -, ⟨changes, diff⟩, hrecords, -, -, heq⟩ := h
  cases heq
  obtain ⟨hall, hnodup⟩ := sound_of_records hrecords
  exact ⟨fun c hc => (hall c hc).1, hnodup⟩

/-! ### What a step does -/

namespace Change

/-- The change, checked in `t`. -/
def checked (c : Change) (t : Disk) : Prepared :=
  ⟨c, (t.file c.path).map File.bytes, c.new⟩

end Change

namespace Prepared

/-- The change as an entry of a journal. -/
def edit (p : Prepared) : Edit String File where
  path := p.change.path
  old := p.old.map fun bytes => ⟨bytes, p.change.mode⟩
  new := p.change.proposed

/-- The directories that the step of the change makes. -/
def made (p : Prepared) (t : Disk) : Option Stop → List Path
  | some (.guard _) => []
  | stop =>
    if t.node p.change.path = some .dir then []
    else Files.made t p.change.path p.change.proposed (stop.bind Stop.fault)

end Prepared

/-- What the step of a change does.  It goes through unless something stops it, its path is a
directory, or a file is in the way of a directory it needs; it does harm if it makes a directory at
one of the paths. -/
def rules (stops : Path → Option Stop) (paths : List Path) : Journal.Rules Disk Prepared where
  passes t p := stops p.change.path = none ∧ t.node p.change.path ≠ some .dir ∧
    (p.new.isSome → t.Clear p.change.path.dropLast)
  next t p := (replaceBytes t p.change.path p.new p.change.mode none).1
  harms t p := ∃ q ∈ p.made t (stops p.change.path), q ∈ paths

theorem prepared_eq_ok {c : Change} (h : Sound env t c) : prepared env t c = .ok (c.checked t) := by
  obtain ⟨hdir, -⟩ := readBytes_eq_ok.1 h.read
  have hreg : regular t c.path = .ok c.path := regular_eq_ok.2 ⟨⟨h.nonroot, hdir⟩, rfl⟩
  simp only [prepared, bind_eq_ok, ensure_eq_ok, pure_eq_ok]
  exact ⟨_, hreg, _, h.read, (), decide_eq_true h.digest, rfl⟩

theorem mapM_prepared {cs : List Change} (h : ∀ c ∈ cs, Sound env t c) :
    cs.mapM (prepared env t) = .ok (cs.map (Change.checked · t)) := by
  induction cs with
  | nil => rfl
  | cons c cs ih =>
    rw [List.mapM_cons, prepared_eq_ok (h c (List.mem_cons_self ..)),
      ih fun c' hc' => h c' (List.mem_cons_of_mem _ hc')]
    rfl

/-- The entry of a sound change has the file that is there, with its mode. -/
theorem edit_old {c : Change} (h : Sound env t c) : (c.checked t).edit.old = t.file c.path := by
  unfold Prepared.edit Change.checked
  cases hf : t.file c.path with
  | none => rfl
  | some f => rw [Option.map_some, Option.map_some, ← h.mode f hf]

/-- The file of a sound change reads as it did, unless there is a directory now. -/
theorem readBytes_of_file {c : Change} (h : Sound env t₀ c)
    (hfile : t.file c.path = t₀.file c.path) (hdir : t.node c.path ≠ some .dir) :
    readBytes t c.path = .ok ((t₀.file c.path).map File.bytes) := by
  obtain ⟨-, -, hfit⟩ := readBytes_eq_ok.1 h.read
  exact readBytes_eq_ok.2 ⟨hdir, by rw [hfile], hfit⟩

theorem unchanged_eq_ok {c : Change} (h : Sound env t₀ c)
    (hfile : t.file c.path = t₀.file c.path) :
    unchanged t (c.checked t₀) = .ok () ↔ t.node c.path ≠ some .dir := by
  simp only [unchanged, Change.checked, bind_eq_ok, ensure_eq_ok]
  constructor
  · rintro ⟨q, hreg, -⟩
    exact (regular_eq_ok.1 hreg).1.2
  · intro hdir
    exact ⟨_, regular_eq_ok.2 ⟨⟨h.nonroot, hdir⟩, rfl⟩, _, readBytes_of_file h hfile hdir,
      decide_eq_true rfl⟩

/-- The replacement of a sound change goes through when nothing is in the way. -/
theorem passes_iff (paths : List Path) {c : Change} {stops : Path → Option Stop}
    (h : Sound env t₀ c) (hfile : t.file c.path = t₀.file c.path)
    (hdir : t.node c.path ≠ some .dir) (hguard : ∀ e, stops c.path ≠ some (.guard e)) :
    Files.Passes t c.path c.proposed ((stops c.path).bind Stop.fault) ↔
      (rules stops paths).passes t (c.checked t₀) := by
  have hstop : (stops c.path).bind Stop.fault = none ↔ stops c.path = none := by
    cases hs : stops c.path with
    | none => simp
    | some stop =>
      cases stop with
      | guard e => exact absurd hs (hguard e)
      | file f => simp [Stop.fault]
  change _ ↔ stops c.path = none ∧ t.node c.path ≠ some .dir ∧
    (c.new.isSome → t.Clear c.path.dropLast)
  unfold Files.Passes
  rw [hstop]
  refine and_congr_right fun _ => ?_
  cases hnew : c.new with
  | none =>
    have hsome := h.effect.resolve_right (by rw [hnew]; nofun)
    simp [Change.proposed, hnew, hfile, hsome, hdir]
  | some x => simp [Change.proposed, hnew, h.nonroot, hdir]

/-- A step that is stopped before the replacement changes nothing. -/
theorem follows_stopped {stops : Path → Option Stop} {paths : List Path} {pre : List Prepared}
    {p : Prepared} {e : Failure} (hmade : Made t₀ (pre.map Prepared.edit) t)
    (hpass : ¬ (rules stops paths).passes t p) (hdirs : p.made t (stops p.change.path) = []) :
    Journal.Follows (rules stops paths) (fun pre => Made t₀ (pre.map Prepared.edit))
      (Harmed paths) pre t p (t, .error e) where
  passes := ⟨nofun, fun hp => absurd hp hpass⟩
  next := nofun
  made := nofun
  same _ := hmade
  keeps h := h
  harms hno := ⟨fun h => absurd h hno, fun ⟨q, hq, _⟩ => by
    rw [hdirs] at hq
    cases hq⟩

/-- A step that is not stopped before it reads the file. -/
theorem step_unguarded {p : Prepared} {stop : Option Stop}
    (hguard : ∀ e, stop ≠ some (.guard e)) :
    step t p stop = match unchanged t p with
      | .error error => (t, .error error)
      | .ok () => replaceBytes t p.change.path p.new p.change.mode (stop.bind Stop.fault) := by
  unfold step
  split
  · exact absurd rfl (hguard _)
  · rfl

/-- **A step writes its own file if nothing goes wrong**, and changes no other; and it makes the
directories it needs. -/
theorem step_follows {stops : Path → Option Stop} {paths : List Path} {c : Change}
    {pre : List Prepared} (h : Sound env t₀ c) (hfile : t.file c.path = t₀.file c.path)
    (hmade : Made t₀ (pre.map Prepared.edit) t) :
    Journal.Follows (rules stops paths) (fun pre => Made t₀ (pre.map Prepared.edit))
      (Harmed paths) pre t (c.checked t₀) (step t (c.checked t₀) (stops c.path)) := by
  by_cases hguard : ∃ e, stops c.path = some (.guard e)
  · obtain ⟨e, he⟩ := hguard
    have hpass : ¬ (rules stops paths).passes t (c.checked t₀) := fun hp => by
      cases hp.1.symm.trans he
    have hdirs : (c.checked t₀).made t (stops c.path) = [] := by
      rw [he]
      rfl
    have hstep : step t (c.checked t₀) (stops c.path) = (t, .error e) := by
      rw [he]
      rfl
    rw [hstep]
    exact follows_stopped hmade hpass hdirs
  · have hguard : ∀ e, stops c.path ≠ some (.guard e) := fun e he => hguard ⟨e, he⟩
    have hdirs : (c.checked t₀).made t (stops c.path) = if t.node c.path = some .dir then []
        else Files.made t c.path c.proposed ((stops c.path).bind Stop.fault) := by
      unfold Prepared.made
      split
      · rename_i he
        exact absurd he (hguard _)
      · rfl
    rw [step_unguarded hguard]
    by_cases hdir : t.node c.path = some .dir
    · have hun := mt (unchanged_eq_ok h hfile).1 (not_not_intro hdir)
      cases hu : unchanged t (c.checked t₀) with
      | ok u => exact absurd hu hun
      | error error =>
        exact follows_stopped hmade (fun hp => hp.2.1 hdir) (hdirs.trans (if_pos hdir))
    · have heffect : Files.Effect t c.path c.proposed ((stops c.path).bind Stop.fault)
        (Files.replace t c.path c.proposed ((stops c.path).bind Stop.fault)) := Files.replace_effect
      have hpass := heffect.passes.trans (passes_iff paths h hfile hdir hguard)
      obtain ⟨hdone, hsame⟩ := hmade.replace (e := (c.checked t₀).edit) heffect
      have hharm := Files.harmed_replace paths heffect
      rw [(unchanged_eq_ok h hfile).2 hdir]
      refine ⟨hpass, fun hok => ?_, fun hok => ?_, hsame, fun hh => hharm.2 (.inl hh), ?_⟩
      · have hnone : stops c.path = none := (hpass.1 hok).1
        rw [hnone]
        rfl
      · rw [List.map_append]
        exact hdone hok
      · intro hno
        change _ ↔ ∃ q ∈ (c.checked t₀).made t (stops c.path), q ∈ paths
        rw [hdirs, if_neg hdir]
        exact hharm.trans ⟨fun hh => hh.resolve_left hno, .inr⟩

/-- What the loop does to the changes checked in `t`. -/
theorem loop_spec (stops : Path → Option Stop) (paths : List Path) {cs : List Change}
    (hsound : ∀ c ∈ cs, Sound env t c) (hnodup : (cs.map Change.path).Nodup) :
    ∃ more, Journal.Ran (rules stops paths) (fun pre => Made t (pre.map Prepared.edit))
      (Harmed paths) [] (cs.map (Change.checked · t)) more t
      (Journal.run (fun t p => step t p (stops p.change.path)) t []
        (cs.map (Change.checked · t))) := by
  refine Journal.run_spec (fun pre p post heq t' hmade => ?_) .refl
  rw [List.nil_append] at heq
  have hmem : p ∈ cs.map (Change.checked · t) := by
    rw [heq]
    simp
  obtain ⟨c, hc, rfl⟩ := List.mem_map.1 hmem
  refine step_follows (hsound c hc) ?_ hmade
  have hpaths : ((pre.map Prepared.edit ++ (c.checked t).edit :: post.map Prepared.edit).map
      Edit.path).Nodup := by
    rw [← List.map_cons, ← List.map_append, ← heq, List.map_map, List.map_map]
    exact hnodup
  rw [hmade.file]
  exact Edit.overlay_before hpaths

/-! ### Taking back -/

/-- Taking a change back keeps every directory. -/
theorem undo_keeps {x : Prepared} (h : t.node p = some .dir) : (undo t x).node p = some .dir := by
  unfold undo
  split
  · split_ifs
    · exact (Files.replace_effect.dir p).2 (.inl h)
    · exact h
  · exact h

theorem rollback_keeps {xs : List Prepared} (h : t.node p = some .dir) :
    (xs.foldl undo t).node p = some .dir := by
  induction xs generalizing t with
  | nil => exact h
  | cons x xs ih => exact ih (undo_keeps h)

/-- The bytes of a recorded change can be read back. -/
theorem readBytes_of_proposed {c : Change} (h : Sound env t₀ c) (hfile : t.file c.path = c.proposed)
    (hdir : t.node c.path ≠ some .dir) : readBytes t c.path = .ok c.new := by
  refine readBytes_eq_ok.2 ⟨hdir, ?_, fun x hx => ⟨?_, ?_⟩⟩
  · rw [hfile, Change.proposed]
    cases c.new with
    | none => rfl
    | some x => rfl
  · have hsmall := h.small
    rw [hx] at hsmall
    exact hsmall
  · obtain ⟨text, -, rfl⟩ := Option.map_eq_some_iff.1 hx
    simpa using text.isValidUTF8

/-- **Taking a change back restores its file**, unless there is a directory. -/
theorem undo_spec {c : Change} {es : List (Edit String File)} (h : Sound env t₀ c)
    (hmade : Made t₀ es t) (hfile : t.file c.path = c.proposed)
    (hdir : t.node c.path ≠ some .dir) :
    (undo t (c.checked t₀)).file = Function.update t.file c.path (t₀.file c.path) ∧
    ∀ q, (undo t (c.checked t₀)).node q = some .dir ↔ t.node q = some .dir := by
  have hundo : undo t (c.checked t₀) = (Files.replace t c.path (t₀.file c.path) none).1 := by
    have hreg : regular t c.path = .ok c.path := regular_eq_ok.2 ⟨⟨h.nonroot, hdir⟩, rfl⟩
    unfold undo
    have hread : (regular t (c.checked t₀).change.path >>= readBytes t) = .ok c.new :=
      bind_eq_ok.2 ⟨_, hreg, readBytes_of_proposed h hfile hdir⟩
    rw [hread]
    dsimp only
    rw [if_pos (show c.new = (c.checked t₀).new from rfl), replaceBytes]
    exact congrArg (fun data => (Files.replace t c.path data none).1) (edit_old h)
  have heffect : Files.Effect t c.path (t₀.file c.path) none
    (Files.replace t c.path (t₀.file c.path) none) := Files.replace_effect
  rw [hundo]
  cases hf : t₀.file c.path with
  | none =>
    rw [hf] at heffect
    have hsome := h.effect.resolve_left (by rw [hf]; nofun)
    have hpass : Files.Passes t c.path none none := by
      refine ⟨rfl, ?_⟩
      simpa [hfile, Change.proposed] using hsome
    refine ⟨heffect.file (heffect.passes.2 hpass), fun q => ?_⟩
    simpa [Files.made] using heffect.dir q
  | some f =>
    rw [hf] at heffect
    have hparent := hmade.parent h.nonroot hf
    have hpass : Files.Passes t c.path (some f) none :=
      ⟨rfl, h.nonroot, Tree.clear_of_dir hparent, hdir⟩
    refine ⟨heffect.file (heffect.passes.2 hpass), fun q => ?_⟩
    simpa [Files.made, Tree.missing_of_dir hparent] using heffect.dir q

/-- **Taking the changes back, the last one first, leads to the files that were there.** -/
theorem rollback_spec {done : List Prepared}
    (hsound : ∀ p ∈ done, ∃ c, Sound env t₀ c ∧ p = c.checked t₀)
    (hnodup : (done.map fun p => p.change.path).Nodup)
    (hmade : Made t₀ (done.reverse.map Prepared.edit) t)
    (hdir : ∀ p ∈ done, t.node p.change.path ≠ some .dir) :
    (done.foldl undo t).file = t₀.file ∧
    ∀ q, (done.foldl undo t).node q = some .dir ↔ t.node q = some .dir := by
  induction done generalizing t with
  | nil => exact ⟨hmade.file, fun q => Iff.rfl⟩
  | cons p done ih =>
    obtain ⟨c, hc, rfl⟩ := hsound p (List.mem_cons_self ..)
    obtain ⟨hnew, hnodup⟩ := List.nodup_cons.1 hnodup
    have hfile : t.file = Edit.overlay t₀.file
        ((c.checked t₀).edit :: done.map Prepared.edit) := by
      rw [hmade.file, ← List.map_reverse, List.reverse_reverse, List.map_cons]
    have hnow : t.file c.path = c.proposed := by
      rw [hfile]
      exact Function.update_self ..
    obtain ⟨hfile', hdir'⟩ := undo_spec hc hmade hnow (hdir _ (List.mem_cons_self ..))
    have hfresh : ∀ e ∈ done.map Prepared.edit, e.path ≠ (c.checked t₀).edit.path := by
      intro e he heq
      obtain ⟨p, hp, rfl⟩ := List.mem_map.1 he
      refine hnew (List.mem_map.2 ⟨p, hp, ?_⟩)
      exact heq
    have hback : Made t₀ (done.reverse.map Prepared.edit) (undo t (c.checked t₀)) := by
      refine ⟨?_, fun q hq => (hdir' q).2 (hmade.dir q hq)⟩
      have hundo := Edit.overlay_undo (f := t₀.file) (e := (c.checked t₀).edit) hfresh
        (edit_old hc).symm
      rw [edit_old hc, ← hfile] at hundo
      rw [hfile', ← List.map_reverse, List.reverse_reverse]
      exact hundo
    obtain ⟨hres, hresd⟩ := ih (fun p hp => hsound p (List.mem_cons_of_mem _ hp)) hnodup hback
      (fun p hp hn => hdir p (List.mem_cons_of_mem _ hp) ((hdir' _).1 hn))
    exact ⟨hres, fun q => (hresd q).trans (hdir' q)⟩

/-! ### The whole call -/

section Loop

variable {stops : Path → Option Stop} {cs : List Change} {more : List Prepared}
  {out : Disk × List Prepared × Except Failure Unit}

/-- When the loop goes through, every file is as proposed. -/
theorem proposed_of_ran {paths : List Path}
    (h : Journal.Ran (rules stops paths) (fun pre => Made t (pre.map Prepared.edit))
      (Harmed paths) [] (cs.map (Change.checked · t)) more t out)
    (hnodup : (cs.map Change.path).Nodup) (hok : out.2.2 = .ok ()) {c : Change} (hc : c ∈ cs) :
    out.1.file c.path = c.proposed := by
  have hfile := h.made.file
  rw [h.all hok, List.nil_append] at hfile
  have hmem : (c.checked t).edit ∈ ((cs.map (Change.checked · t)).map Prepared.edit).reverse :=
    List.mem_reverse.2 (List.mem_map_of_mem (List.mem_map_of_mem hc))
  rw [hfile]
  refine Edit.overlay_of_mem (e := (c.checked t).edit) ?_ hmem
  rw [List.map_reverse, List.nodup_reverse, List.map_map, List.map_map]
  exact hnodup

/-- When the loop's changes are taken back, there is at every path what was there before, iff no
step made a directory at one. -/
theorem restored_iff
    (h : Journal.Ran (rules stops (cs.map Change.path))
      (fun pre => Made t (pre.map Prepared.edit)) (Harmed (cs.map Change.path)) []
      (cs.map (Change.checked · t)) more t out)
    (hsound : ∀ c ∈ cs, Sound env t c) (hnodup : (cs.map Change.path).Nodup) :
    (∀ c ∈ cs, (out.2.1.foldl undo out.1).node c.path = t.node c.path) ↔
      (rules stops (cs.map Change.path)).Spares t (cs.map (Change.checked · t)) := by
  have hdir : ∀ c ∈ cs, t.node c.path ≠ some .dir :=
    fun c hc => (readBytes_eq_ok.1 (hsound c hc).read).1
  have hno : ¬ Harmed (cs.map Change.path) t := by
    rintro ⟨q, hq, hn⟩
    obtain ⟨c, hc, rfl⟩ := List.mem_map.1 hq
    exact hdir c hc hn
  refine Iff.trans ⟨fun hback => ?_, fun hno' c hc => ?_⟩ (h.spares hno)
  · -- a directory stays when the changes are taken back
    rintro ⟨q, hq, hn⟩
    obtain ⟨c, hc, rfl⟩ := List.mem_map.1 hq
    refine hdir c hc ?_
    rw [← hback c hc]
    exact rollback_keeps hn
  · have hnow : ∀ d ∈ cs, out.1.node d.path ≠ some .dir :=
      fun d hd hn => hno' ⟨_, List.mem_map_of_mem hd, hn⟩
    have hmore : ∀ p ∈ more.reverse, ∃ d ∈ cs, p = d.checked t := by
      intro p hp
      obtain ⟨d, hd, rfl⟩ := List.mem_map.1 (h.first.subset (List.mem_reverse.1 hp))
      exact ⟨d, hd, rfl⟩
    have hnodup' : (more.reverse.map fun p => p.change.path).Nodup := by
      rw [List.map_reverse, List.nodup_reverse]
      refine ((h.first.map fun p => p.change.path).sublist).nodup ?_
      rw [List.map_map]
      exact hnodup
    have hmade := h.made
    have hlisted := h.listed
    rw [List.nil_append] at hmade hlisted
    rw [← List.reverse_reverse more] at hmade
    obtain ⟨hrest, hrestd⟩ := rollback_spec
      (fun p hp => by
        obtain ⟨d, hd, rfl⟩ := hmore p hp
        exact ⟨d, hsound d hd, rfl⟩) hnodup' hmade
      (fun p hp => by
        obtain ⟨d, hd, rfl⟩ := hmore p hp
        exact hnow d hd)
    rw [hlisted]
    refine Tree.node_congr (congrFun hrest _) ((hrestd _).trans ?_)
    exact ⟨fun hn => absurd hn (hnow c hc), fun hn => absurd hn (hdir c hc)⟩

end Loop

/-- All or nothing: when the call returns, every file is as proposed, and when it raises, there is
at every path what was there before. -/
def AllOrNothing (patch : Patch) (t : Disk) : World × Except Failure Reply → Prop
  | (w, .ok _) => ∀ c ∈ patch.changes, w.disk.file c.path = c.proposed
  | (w, .error _) => ∀ c ∈ patch.changes, w.disk.node c.path = t.node c.path

/-- The call does not begin, nothing goes wrong in it, or no step that is begun makes a directory at
a path of the patch. -/
def Harmless (patch : Patch) (stops : Stops) (t : Disk) : Prop :=
  let rules := rules stops.step (patch.changes.map Change.path)
  let ps := patch.changes.map (Change.checked · t)
  stops.get ≠ none ∨ stops.start ≠ none ∨ (rules.Smooth t ps ∧ stops.finish = none) ∨
    rules.Spares t ps

/-- How the loop's end decides the call: it returns if the loop went through and the last update
did; else the changes are taken back. -/
theorem conclude_cases (patch : Patch) (stops : Stops) (t : Disk) (applied : List Prepared)
    (r : Except Failure Unit) :
    (r = .ok () ∧ stops.finish = none ∧
      ∃ reply, conclude patch stops t applied r = (⟨t, .applied⟩, .ok reply)) ∨
    (¬ (r = .ok () ∧ stops.finish = none) ∧ ∃ state error,
      conclude patch stops t applied r = (⟨applied.foldl undo t, state⟩, .error error)) := by
  have hrecover : ∀ error, ∃ state error', conclude.recover stops t applied error =
      (⟨applied.foldl undo t, state⟩, .error error') := by
    intro error
    unfold conclude.recover
    cases stops.resolve with
    | none => exact ⟨_, _, rfl⟩
    | some e => exact ⟨_, _, rfl⟩
  cases r with
  | error e => exact .inr ⟨(fun h => nomatch h.1), hrecover e⟩
  | ok u =>
    unfold conclude
    cases stops.finish with
    | none => exact .inl ⟨rfl, rfl, _, rfl⟩
    | some e => exact .inr ⟨(fun h => nomatch h.2), hrecover e⟩

/-- **Applying a patch is all or nothing iff no step makes a directory at a path of the patch**,
once anything goes wrong: such a directory stays, and the file that was there is not restored. -/
theorem all_or_nothing_iff {requests : List Request} {patch : Patch} {stops : Stops}
    (h : preparePatch env t requests = .ok patch) :
    AllOrNothing patch t (applyPatch env patch stops ⟨t, .prepared⟩) ↔ Harmless patch stops t := by
  obtain ⟨hsound, hnodup⟩ := sound_of_prepare h
  unfold applyPatch Harmless
  cases hget : stops.get with
  | some e => exact ⟨fun _ => .inl nofun, fun _ _ _ => rfl⟩
  | none =>
    dsimp only
    rw [mapM_prepared hsound]
    dsimp only
    cases hstart : stops.start with
    | some e => exact ⟨fun _ => .inr (.inl nofun), fun _ _ _ => rfl⟩
    | none =>
      obtain ⟨more, hloop⟩ :=
        loop_spec stops.step (patch.changes.map Change.path) hsound hnodup
      generalize Journal.run _ t [] (patch.changes.map (Change.checked · t)) = out at hloop ⊢
      obtain ⟨t', applied, r⟩ := out
      simp only [ne_eq, not_true, false_or]
      rcases conclude_cases patch stops t' applied r with
        ⟨hok, hfinish, reply, hend⟩ | ⟨hfail, state, error, hend⟩
      · rw [hend]
        exact ⟨fun _ => .inl ⟨hloop.smooth.1 hok, hfinish⟩,
          fun _ c hc => proposed_of_ran hloop hnodup hok hc⟩
      · rw [hend]
        have hrough : ¬ ((rules stops.step (patch.changes.map Change.path)).Smooth t
            (patch.changes.map (Change.checked · t)) ∧ stops.finish = none) :=
          fun hs => hfail ⟨hloop.smooth.2 hs.1, hs.2⟩
        exact (restored_iff hloop hsound hnodup).trans ⟨.inr, fun hs => hs.resolve_left hrough⟩

/-! ### A file that becomes a directory -/

/-- A workspace with one file, `a`. -/
def oneFile : Disk := Files.single "a" ⟨"x".toUTF8, 0o644⟩

/-- What is computed for the patch below. -/
def oneFileEnv : Env where
  digest bytes :=
    if bytes = "x".toUTF8 then "2d711642b726b04401627ca9fbac32f5c8530fb1903cc4db02258717921a4881"
    else "92a65e0d5ede6153af91913bc80afa1ab76f57b94266063432e2ca4f7c9b01f4"
  unified before _ _ _ :=
    if before = "x" then "--- a/a\n+++ /dev/null\n@@ -1 +0,0 @@\n-x"
    else "--- /dev/null\n+++ b/a/b\n@@ -0,0 +1 @@\n+y"
  dumps _ := String.toUTF8 (
    "[\x7b\"after\": null, \"before\": \"x\", " ++
    "\"before_sha256\": \"2d711642b726b04401627ca9fbac32f5c8530fb1903cc4db02258717921a4881\", " ++
    "\"mode\": 420, \"path\": \"a\"\x7d, " ++
    "\x7b\"after\": \"y\", \"before\": null, \"before_sha256\": null, " ++
    "\"mode\": 420, \"path\": \"a/b\"\x7d]")

/-- The file `a` is deleted, and `a/b` is created. -/
def intoDirectory : List Request :=
  [⟨"a", some "2d711642b726b04401627ca9fbac32f5c8530fb1903cc4db02258717921a4881", none⟩,
    ⟨"a/b", none, some "y"⟩]

/-- The patch prepared for it. -/
def intoDirectoryPatch : Patch where
  changes := [
    ⟨["a"], some "x", none,
      some "2d711642b726b04401627ca9fbac32f5c8530fb1903cc4db02258717921a4881", 0o644⟩,
    ⟨["a", "b"], none, some "y", none, 0o644⟩]
  diff := "diff --git a/a b/a\ndeleted file\n--- a/a\n+++ /dev/null\n@@ -1 +0,0 @@\n-x" ++
    "diff --git a/a/b b/a/b\nnew file\n--- /dev/null\n+++ b/a/b\n@@ -0,0 +1 @@\n+y"
  digest := "92a65e0d5ede6153af91913bc80afa1ab76f57b94266063432e2ca4f7c9b01f4"

/-- The last update of the row fails. -/
def lostUpdate : Stops where
  finish := some (.raised (.runtime "Artifact state changed or lease lost"))

set_option maxRecDepth 8000 in
theorem prepare_intoDirectory :
    preparePatch oneFileEnv oneFile intoDirectory = .ok intoDirectoryPatch := by
  decide

/-- **A file that becomes a directory is lost** when the last update of the row fails: the call
raises, and at `a` there is an empty directory. -/
theorem file_lost : ¬ ∀ (env : Env) (t : Disk) (requests : List Request) (patch : Patch)
    (stops : Stops), preparePatch env t requests = .ok patch →
    AllOrNothing patch t (applyPatch env patch stops ⟨t, .prepared⟩) := by
  intro hall
  have hcall := hall oneFileEnv oneFile intoDirectory intoDirectoryPatch lostUpdate
    prepare_intoDirectory
  have hraise : (applyPatch oneFileEnv intoDirectoryPatch lostUpdate ⟨oneFile, .prepared⟩).2 =
      .error (.raised (.runtime "Artifact state changed or lease lost")) := by decide
  have hdir : (applyPatch oneFileEnv intoDirectoryPatch lostUpdate
      ⟨oneFile, .prepared⟩).1.disk.node ["a"] = some .dir := by decide
  rcases hrun : applyPatch oneFileEnv intoDirectoryPatch lostUpdate ⟨oneFile, .prepared⟩ with ⟨w, r⟩
  rw [hrun] at hcall hraise hdir
  dsimp only at hraise hdir
  rw [hraise] at hcall
  have hback := hcall _ (List.mem_cons_self ..)
  exact nomatch hdir.symm.trans hback

theorem all_or_nothing_intoDirectory :
    preparePatch oneFileEnv oneFile intoDirectory = .ok intoDirectoryPatch ∧
      (AllOrNothing intoDirectoryPatch oneFile
          (applyPatch oneFileEnv intoDirectoryPatch lostUpdate ⟨oneFile, .prepared⟩) ↔
        Harmless intoDirectoryPatch lostUpdate oneFile) :=
  ⟨prepare_intoDirectory, all_or_nothing_iff prepare_intoDirectory⟩

end Patches

end PythonAI
