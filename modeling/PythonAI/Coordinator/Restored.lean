import PythonAI.Coordinator.Restoring

/-!
# When a merge is all or nothing

While a merge writes its files, they are those of the workspace overlaid with the changes it has
made (`Made`), and taking these back one after the other leads to the files that were there.  Two
things stay: a directory that a step has made, which cannot be read as a file when it is at a path
of the merge, so that the recovery ends there and the node is not reported; and a temporary file
that was not moved.
-/

namespace PythonAI

open Library
open Files (Failure Path Fault Made Harmed parts)

namespace Coordinator

namespace Merge

variable {blobs : Blobs} {t t' t₀ : Workspace} {g : Ground} {c : Change} {p : Path}
  {b : Option ByteArray}

/-! ### What is selected -/

theorem read_eq_ok : read t p = .ok b ↔ t.node p ≠ some .dir ∧ t.file p = b := by
  unfold read Tree.file
  split
  · rename_i h
    simp [h]
  · rename_i h
    simp [h]
  · rename_i bytes h
    simp [h]

/-- What is known of a change that is selected. -/
structure Sound (t : Workspace) (c : Change) : Prop where
  /-- it is not the workspace -/
  nonroot : c.path ≠ []
  /-- it is no directory -/
  dir : t.node c.path ≠ some .dir
  /-- it has its old content -/
  old : t.file c.path = c.old
  /-- there is a content -/
  effect : c.old.isSome ∨ c.new.isSome

theorem blobUnless_isSome {absent : Bool} {blob : Except Failure ByteArray}
    (h : blobUnless absent blob = .ok b) : b.isSome = !absent := by
  unfold blobUnless at h
  cases absent with
  | true =>
    cases h
    rfl
  | false =>
    cases blob with
    | error e => cases h
    | ok x =>
      cases h
      rfl

theorem sound_of_change {status : Status} {name : String} {count total : ℕ}
    (h : change blobs t status name count total = .ok c) : Sound t c ∧ c.path = parts name := by
  simp only [change, selectedFile, bind_eq_ok, ensure_eq_ok, decide_eq_true_eq, pure_eq_ok] at h
  obtain ⟨-, -, path, ⟨-, -, -, ⟨hroot, -, hdir⟩, rfl⟩, old, hold, new, hnew, current, hread, -,
    rfl, -, -, rfl⟩ := h
  refine ⟨⟨hroot, hdir, (read_eq_ok.1 hread).2, ?_⟩, rfl⟩
  have ho := blobUnless_isSome hold
  have hn := blobUnless_isSome hnew
  cases status <;> simp_all

/-- The selected changes are sound, and each is that of its name. -/
theorem sound_of_select {records : List (Status × String)} {count total : ℕ}
    {changes : List Change} (h : select blobs t records count total = .ok changes) :
    (∀ c ∈ changes, Sound t c) ∧ changes.map Edit.path = records.map fun r => parts r.2 := by
  induction records generalizing count total changes with
  | nil =>
    cases h
    exact ⟨nofun, rfl⟩
  | cons r records ih =>
    obtain ⟨status, name⟩ := r
    simp only [select, bind_eq_ok, pure_eq_ok] at h
    obtain ⟨c, hc, cs, hcs, rfl⟩ := h
    obtain ⟨hsound, hpath⟩ := sound_of_change hc
    obtain ⟨hall, hpaths⟩ := ih hcs
    refine ⟨fun c' hc' => ?_, ?_⟩
    · rcases List.mem_cons.1 hc' with rfl | hc'
      · exact hsound
      · exact hall c' hc'
    · rw [List.map_cons, List.map_cons, hpath, hpaths]

/-! ### What a step does -/

/-- The directories that the step of a change makes. -/
def made (t : Workspace) (c : Change) : Option Stop → List Path
  | some (.guard _) => []
  | stop =>
    if t.node c.path = some .dir then []
    else Files.made t c.path c.new (stop.bind Stop.fault)

/-- What the step of a change does.  It goes through unless something stops it, its path is a
directory, or a file is in the way of a directory it needs; it does harm if it makes a directory at
one of the paths, or leaves its temporary file. -/
def rules (stops : Path → Option Stop) (paths : List Path) : Journal.Rules Ground Change where
  passes g c := stops c.path = none ∧ g.tree.node c.path ≠ some .dir ∧
    (c.new.isSome → g.tree.Clear c.path.dropLast)
  next g c := { g with tree := (Files.replace g.tree c.path c.new none).1 }
  harms g c := (∃ q ∈ made g.tree c (stops c.path), q ∈ paths) ∨
    (g.tree.node c.path ≠ some .dir ∧ leaves g.tree c (stops c.path) = true)

/-- One of the paths is a directory, or there is a temporary file. -/
def Spoilt (paths : List Path) (g : Ground) : Prop := Harmed paths g.tree ∨ g.temporaries ≠ []

variable {stops : Path → Option Stop} {paths : List Path} {pre : List Change}

/-- The replacement of a sound change goes through when nothing is in the way. -/
theorem passes_iff (paths : List Path) (h : Sound t₀ c) (hfile : g.tree.file c.path = c.old)
    (hdir : g.tree.node c.path ≠ some .dir) (hguard : ∀ e, stops c.path ≠ some (.guard e)) :
    Files.Passes g.tree c.path c.new ((stops c.path).bind Stop.fault) ↔
      (rules stops paths).passes g c := by
  have hstop : (stops c.path).bind Stop.fault = none ↔ stops c.path = none := by
    cases hs : stops c.path with
    | none => simp
    | some stop =>
      cases stop with
      | guard e => exact absurd hs (hguard e)
      | _ => simp [Stop.fault]
  change _ ↔ stops c.path = none ∧ g.tree.node c.path ≠ some .dir ∧
    (c.new.isSome → g.tree.Clear c.path.dropLast)
  unfold Files.Passes
  rw [hstop]
  refine and_congr_right fun _ => ?_
  cases hnew : c.new with
  | none =>
    have hsome := h.effect.resolve_right (by rw [hnew]; nofun)
    simp [hfile, hsome, hdir]
  | some x => simp [h.nonroot, hdir]

/-- A step that is stopped before the replacement changes nothing. -/
theorem follows_stopped {e : Failure} (hmade : Made t₀ pre g.tree)
    (hpass : ¬ (rules stops paths).passes g c) (hharm : ¬ (rules stops paths).harms g c) :
    Journal.Follows (rules stops paths) (fun pre g => Made t₀ pre g.tree) (Spoilt paths) pre g c
      (g, .error e) where
  passes := ⟨nofun, fun hp => absurd hp hpass⟩
  next := nofun
  made := nofun
  same _ := hmade
  keeps h := h
  harms hno := ⟨fun h => absurd h hno, fun h => absurd h hharm⟩

/-- A step that is not stopped before it reads the file. -/
theorem step_unguarded {stop : Option Stop} (hguard : ∀ e, stop ≠ some (.guard e)) :
    step g c stop = match read g.tree c.path with
      | .error error => (g, .error error)
      | .ok current =>
        if current ≠ c.old then (g, .error (refusal "Merge conflict during apply"))
        else
          match Files.replace g.tree c.path c.new (stop.bind Stop.fault) with
          | (tree, result) =>
            (⟨tree, if leaves g.tree c stop then c.path :: g.temporaries else g.temporaries⟩,
              result) := by
  unfold step
  split
  · exact absurd rfl (hguard _)
  · rfl

/-- **A step writes its own file if nothing goes wrong**, and changes no other; it makes the
directories it needs, and it may leave its temporary file. -/
theorem step_follows (h : Sound t₀ c) (hfile : g.tree.file c.path = c.old)
    (hmade : Made t₀ pre g.tree) :
    Journal.Follows (rules stops paths) (fun pre g => Made t₀ pre g.tree) (Spoilt paths) pre g c
      (step g c (stops c.path)) := by
  by_cases hguard : ∃ e, stops c.path = some (.guard e)
  · obtain ⟨e, he⟩ := hguard
    have hstep : step g c (stops c.path) = (g, .error e) := by
      rw [he]
      rfl
    rw [hstep]
    refine follows_stopped hmade (fun hp => by cases hp.1.symm.trans he) ?_
    rintro (⟨q, hq, -⟩ | ⟨-, hl⟩)
    · rw [he] at hq
      cases hq
    · rw [he] at hl
      cases hl
  · have hguard : ∀ e, stops c.path ≠ some (.guard e) := fun e he => hguard ⟨e, he⟩
    have hdirs : made g.tree c (stops c.path) = if g.tree.node c.path = some .dir then []
        else Files.made g.tree c.path c.new ((stops c.path).bind Stop.fault) := by
      unfold made
      split
      · rename_i he
        exact absurd he (hguard _)
      · rfl
    rw [step_unguarded hguard]
    by_cases hdir : g.tree.node c.path = some .dir
    · rw [read, hdir]
      refine follows_stopped hmade (fun hp => hp.2.1 hdir) ?_
      rintro (⟨q, hq, -⟩ | ⟨hne, -⟩)
      · rw [hdirs, if_pos hdir] at hq
        cases hq
      · exact hne hdir
    · rw [read_eq_ok.2 ⟨hdir, hfile⟩]
      dsimp only
      rw [if_neg (not_not_intro rfl)]
      have heffect : Files.Effect g.tree c.path c.new ((stops c.path).bind Stop.fault)
        (Files.replace g.tree c.path c.new ((stops c.path).bind Stop.fault)) := Files.replace_effect
      have hpass := heffect.passes.trans (passes_iff paths h hfile hdir hguard)
      obtain ⟨hdone, hsame⟩ := hmade.replace heffect
      have hharm := Files.harmed_replace paths heffect
      refine ⟨hpass, fun hok => ?_, hdone, hsame, ?_, fun hno => ?_⟩
      · have hnone : stops c.path = none := (hpass.1 hok).1
        rw [hnone]
        rfl
      · rintro (hh | hh)
        · exact .inl (hharm.2 (.inl hh))
        · refine .inr ?_
          dsimp only
          split_ifs
          · exact List.cons_ne_nil _ _
          · exact hh
      · have hnone : g.temporaries = [] := by
          by_contra hne
          exact hno (.inr hne)
        have hno' : ¬ Harmed paths g.tree := fun hh => hno (.inl hh)
        change _ ↔ (∃ q ∈ made g.tree c (stops c.path), q ∈ paths) ∨
          (g.tree.node c.path ≠ some .dir ∧ leaves g.tree c (stops c.path) = true)
        rw [hdirs, if_neg hdir]
        refine or_congr (hharm.trans ⟨fun hh => hh.resolve_left hno', .inr⟩) ?_
        dsimp only
        split_ifs with hl
        · exact ⟨fun _ => ⟨hdir, hl⟩, fun _ => List.cons_ne_nil _ _⟩
        · exact ⟨fun hne => absurd hnone hne, fun hh => absurd hh.2 hl⟩

/-- What the loop does to the changes selected in `t`. -/
theorem loop_spec (stops : Path → Option Stop) (paths : List Path) {cs : List Change}
    (hsound : ∀ c ∈ cs, Sound t c) (hnodup : (cs.map Edit.path).Nodup) :
    ∃ more, Journal.Ran (rules stops paths) (fun pre g => Made t pre g.tree) (Spoilt paths) [] cs
      more ⟨t, []⟩ (Journal.run (fun g c => step g c (stops c.path)) ⟨t, []⟩ [] cs) := by
  refine Journal.run_spec (fun pre c post heq g hmade => ?_) .refl
  rw [List.nil_append] at heq
  have hc : c ∈ cs := by
    rw [heq]
    simp
  refine step_follows (hsound c hc) ?_ hmade
  rw [hmade.file, ← (hsound c hc).old]
  exact Edit.overlay_before (heq ▸ hnodup)

/-! ### Taking back -/

/-- What a recovery leads to keeps every directory. -/
theorem undo_keeps (h : undo t c = .ok t') (hp : t.node p = some .dir) : t'.node p = some .dir := by
  simp only [undo, bind_eq_ok] at h
  obtain ⟨current, -, h⟩ := h
  by_cases hnew : current ≠ c.new
  · rw [if_pos hnew] at h
    cases h
    exact hp
  · rw [if_neg hnew] at h
    cases hold : c.old with
    | none =>
      rw [hold] at h
      exact (Tree.remove_dir (require_eq_ok.1 h)).2 hp
    | some bytes =>
      rw [hold] at h
      exact (Tree.put_dir (require_eq_ok.1 h)).2 hp

theorem rollback_keeps {cs : List Change} (h : t.node p = some .dir) :
    (rollback t cs).1.node p = some .dir := by
  induction cs generalizing t with
  | nil => exact h
  | cons c cs ih =>
    unfold rollback
    cases hu : undo t c with
    | error e => exact h
    | ok t' => exact ih (undo_keeps hu h)

/-- **Taking a change back restores its file**, unless there is a directory. -/
theorem undo_spec {es : List Change} (h : Sound t₀ c) (hmade : Made t₀ es t)
    (hfile : t.file c.path = c.new) (hdir : t.node c.path ≠ some .dir) :
    ∃ t', undo t c = .ok t' ∧ t'.file = Function.update t.file c.path c.old ∧
      ∀ q, t'.node q = some .dir ↔ t.node q = some .dir := by
  simp only [undo, bind_eq_ok]
  cases hold : c.old with
  | none =>
    have hsome : (t.remove c.path).isSome := by
      rw [Tree.remove_isSome, hfile]
      exact h.effect.resolve_left (by rw [hold]; intro h; cases h)
    obtain ⟨t', ht'⟩ := Option.isSome_iff_exists.1 hsome
    refine ⟨t', ⟨c.new, read_eq_ok.2 ⟨hdir, hfile⟩, ?_⟩, Tree.remove_file ht',
      fun q => Tree.remove_dir ht'⟩
    rw [if_neg (not_not_intro rfl)]
    exact require_eq_ok.2 ht'
  | some bytes =>
    have hparent := hmade.parent h.nonroot (h.old.trans hold)
    have hsome : (t.put c.path bytes).isSome := Tree.put_isSome.2 ⟨h.nonroot, hparent, hdir⟩
    obtain ⟨t', ht'⟩ := Option.isSome_iff_exists.1 hsome
    refine ⟨t', ⟨c.new, read_eq_ok.2 ⟨hdir, hfile⟩, ?_⟩, Tree.put_file ht',
      fun q => Tree.put_dir ht'⟩
    rw [if_neg (not_not_intro rfl)]
    exact require_eq_ok.2 ht'

/-- **Taking the changes back, the last one first, leads to the files that were there**, unless
there is a directory at one of them. -/
theorem rollback_spec {done : List Change} (hsound : ∀ c ∈ done, Sound t₀ c)
    (hnodup : (done.map Edit.path).Nodup) (hmade : Made t₀ done.reverse t)
    (hdir : ∀ c ∈ done, t.node c.path ≠ some .dir) :
    ∃ t', rollback t done = (t', .ok ()) ∧ t'.file = t₀.file ∧
      ∀ q, t'.node q = some .dir ↔ t.node q = some .dir := by
  induction done generalizing t with
  | nil => exact ⟨t, rfl, hmade.file, fun q => Iff.rfl⟩
  | cons c done ih =>
    have hc := hsound c (List.mem_cons_self ..)
    obtain ⟨hnew, hnodup⟩ := List.nodup_cons.1 hnodup
    have hfile : t.file = Edit.overlay t₀.file (c :: done) := by
      rw [hmade.file, List.reverse_reverse]
    have hnow : t.file c.path = c.new := by
      rw [hfile]
      exact Function.update_self ..
    obtain ⟨t₁, hundo, hfile₁, hdir₁⟩ :=
      undo_spec hc hmade hnow (hdir c (List.mem_cons_self ..))
    have hfresh : ∀ d ∈ done, d.path ≠ c.path :=
      fun d hd heq => hnew (heq ▸ List.mem_map_of_mem hd)
    have hback : Made t₀ done.reverse t₁ := by
      refine ⟨?_, fun q hq => (hdir₁ q).2 (hmade.dir q hq)⟩
      rw [hfile₁, hfile, List.reverse_reverse]
      exact Edit.overlay_undo hfresh hc.old
    obtain ⟨t₂, hrest, hfile₂, hdir₂⟩ := ih (fun d hd => hsound d (List.mem_cons_of_mem _ hd))
      hnodup hback (fun d hd hn => hdir d (List.mem_cons_of_mem _ hd) ((hdir₁ _).1 hn))
    refine ⟨t₂, ?_, hfile₂, fun q => (hdir₂ q).trans (hdir₁ q)⟩
    rw [rollback, hundo]
    exact hrest

/-! ### The whole merge -/

section Loop

variable {cs more : List Change} {out : Ground × List Change × Except Failure Unit}

/-- When the loop goes through, every file is that of the result. -/
theorem new_of_ran
    (h : Journal.Ran (rules stops paths) (fun pre g => Made t pre g.tree) (Spoilt paths) [] cs more
      ⟨t, []⟩ out)
    (hnodup : (cs.map Edit.path).Nodup) (hok : out.2.2 = .ok ()) (hc : c ∈ cs) :
    out.1.tree.file c.path = c.new := by
  have hfile := h.made.file
  rw [h.all hok, List.nil_append] at hfile
  rw [hfile]
  refine Edit.overlay_of_mem ?_ (List.mem_reverse.2 hc)
  rw [List.map_reverse, List.nodup_reverse]
  exact hnodup

theorem not_spoilt (hsound : ∀ c ∈ cs, Sound t c) : ¬ Spoilt (cs.map Edit.path) ⟨t, []⟩ := by
  rintro (⟨q, hq, hn⟩ | hne)
  · obtain ⟨c, hc, rfl⟩ := List.mem_map.1 hq
    exact (hsound c hc).dir hn
  · exact hne rfl

/-- The recovery of a loop that has done no harm restores what was there, and does not fail. -/
theorem rollback_of_ran
    (h : Journal.Ran (rules stops (cs.map Edit.path)) (fun pre g => Made t pre g.tree)
      (Spoilt (cs.map Edit.path)) [] cs more ⟨t, []⟩ out)
    (hsound : ∀ c ∈ cs, Sound t c) (hnodup : (cs.map Edit.path).Nodup)
    (hno : ¬ Spoilt (cs.map Edit.path) out.1) :
    ∃ t', rollback out.1.tree out.2.1 = (t', .ok ()) ∧
      ∀ c ∈ cs, t'.node c.path = t.node c.path := by
  have hnow : ∀ d ∈ cs, out.1.tree.node d.path ≠ some .dir :=
    fun d hd hn => hno (.inl ⟨_, List.mem_map_of_mem hd, hn⟩)
  have hmore : ∀ d ∈ more.reverse, d ∈ cs :=
    fun d hd => h.first.subset (List.mem_reverse.1 hd)
  have hnodup' : (more.reverse.map Edit.path).Nodup := by
    rw [List.map_reverse, List.nodup_reverse]
    exact (h.first.map Edit.path).sublist.nodup hnodup
  have hmade := h.made
  have hlisted := h.listed
  rw [List.nil_append] at hmade hlisted
  rw [← List.reverse_reverse more] at hmade
  obtain ⟨t', hback, hfile, hdir⟩ := rollback_spec (fun d hd => hsound d (hmore d hd)) hnodup' hmade
    fun d hd => hnow d (hmore d hd)
  refine ⟨t', by rw [hlisted, hback], fun d hd => ?_⟩
  refine Tree.node_congr (congrFun hfile _) ((hdir _).trans ?_)
  exact ⟨fun hn => absurd hn (hnow d hd), fun hn => absurd hn (hsound d hd).dir⟩

end Loop

variable {m : Started} {course : Course}

/-- All or nothing: when the merge returns, every file is that of the result; when it raises, there
is at every path what was there before, no temporary file is left, and the node is reported. -/
def AllOrNothing (m : Started) (t : Workspace) : World × Except Failure Evidence → Prop
  | (w, .ok _) => ∀ c ∈ m.changes, w.ground.tree.file c.path = c.new
  | (w, .error _) => (∀ c ∈ m.changes, w.ground.tree.node c.path = t.node c.path) ∧
      w.ground.temporaries = [] ∧
      (w.db.node m.node.id).map Node.state = some .needsResolution

/-- The row that the handler finds has the lease of the merge, or is reported already. -/
def Kept (m : Started) (db : Db) : Prop :=
  ∃ row, db.node m.node.id = some row ∧
    (row.lease = some m.token ∨ row.state = .needsResolution)

/-- Nothing goes wrong; or no step that is begun makes a directory at a path of the merge or leaves
a temporary file, and the handler finds its row. -/
def Harmless (m : Started) (course : Course) (t : Workspace) : Prop :=
  let rules := rules course.stop (m.changes.map Edit.path)
  (rules.Smooth ⟨t, []⟩ m.changes ∧ ∃ x, commit m course = .ok x) ∨
    (rules.Spares ⟨t, []⟩ m.changes ∧ Kept m course.left)

theorem abort_reports {db : Db} :
    ((abort m.node m.token db).node m.node.id).map Node.state = some .needsResolution ↔
      Kept m db := by
  have hid : ∀ row ∈ db.nodes, Node.id (if row.id = m.node.id && row.lease = some m.token then
      { row with state := .needsResolution } else row) = row.id := by
    intro row _
    split_ifs <;> rfl
  rw [abort, Db.updateNodes, Db.node, Records.find_map hid, Kept, Db.node]
  cases hrow : Records.find Node.id m.node.id db.nodes with
  | none => simp
  | some row =>
    have hkey : row.id = m.node.id := Records.key_of_find hrow
    by_cases hlease : row.lease = some m.token
    · simp [hkey, hlease]
    · simp [hkey, hlease]

/-- The handler raises, and its files and temporary files are those of the recovery. -/
theorem handle_eq (m : Started) (course : Course) (g : Ground) (applied : List Change)
    (error : Failure) : ∃ db error', handle m course g applied error =
      (⟨{ g with tree := (rollback g.tree applied).1 }, db⟩, .error error') ∧
      ((rollback g.tree applied).2 = .ok () → db = abort m.node m.token course.left) := by
  unfold handle
  generalize rollback g.tree applied = out
  obtain ⟨t', r⟩ := out
  cases r with
  | ok u => exact ⟨_, _, rfl, fun _ => rfl⟩
  | error e => exact ⟨_, _, rfl, nofun⟩

/-- When the merge raises, all is as it was iff no step did harm and the handler found its row. -/
theorem handle_iff (error : Failure) {more : List Change}
    {out : Ground × List Change × Except Failure Unit}
    (h : Journal.Ran (rules course.stop (m.changes.map Edit.path))
      (fun pre g => Made t pre g.tree) (Spoilt (m.changes.map Edit.path)) [] m.changes more
      ⟨t, []⟩ out)
    (hsound : ∀ c ∈ m.changes, Sound t c) (hnodup : (m.changes.map Edit.path).Nodup) :
    AllOrNothing m t (handle m course out.1 out.2.1 error) ↔
      (rules course.stop (m.changes.map Edit.path)).Spares ⟨t, []⟩ m.changes ∧
        Kept m course.left := by
  obtain ⟨db, error', hend, habort⟩ := handle_eq m course out.1 out.2.1 error
  have hspares := h.spares (not_spoilt hsound)
  rw [hend, ← hspares]
  constructor
  · rintro ⟨hback, htemp, hstate⟩
    have hno : ¬ Spoilt (m.changes.map Edit.path) out.1 := by
      rintro (⟨q, hq, hn⟩ | hne)
      · -- a directory stays when the changes are taken back
        obtain ⟨c, hc, rfl⟩ := List.mem_map.1 hq
        refine (hsound c hc).dir ?_
        rw [← hback c hc]
        exact rollback_keeps hn
      · exact hne htemp
    obtain ⟨t', hroll, -⟩ := rollback_of_ran h hsound hnodup hno
    have hdb := habort (by rw [hroll])
    subst hdb
    exact ⟨hno, abort_reports.1 hstate⟩
  · rintro ⟨hno, hkept⟩
    obtain ⟨t', hroll, hback⟩ := rollback_of_ran h hsound hnodup hno
    have hdb := habort (by rw [hroll])
    subst hdb
    refine ⟨fun c hc => ?_, ?_, abort_reports.2 hkept⟩
    · change (rollback out.1.tree out.2.1).1.node c.path = t.node c.path
      rw [hroll]
      exact hback c hc
    · by_contra hne
      exact hno (.inr hne)

/-- **A merge is all or nothing iff no step makes a directory at a path of the merge or leaves a
temporary file**, once anything goes wrong, and the handler finds its row. -/
theorem merge_all_or_nothing_iff {records : List (Status × String)}
    (hgit : (records.map fun r => parts r.2).Nodup)
    (h : select blobs t records 0 0 = .ok m.changes) :
    AllOrNothing m t (mergeNode m course t) ↔ Harmless m course t := by
  obtain ⟨hsound, hpaths⟩ := sound_of_select h
  have hnodup : (m.changes.map Edit.path).Nodup := hpaths ▸ hgit
  obtain ⟨more, hloop⟩ := loop_spec course.stop (m.changes.map Edit.path) hsound hnodup
  unfold mergeNode Harmless
  generalize Journal.run _ _ _ m.changes = out at hloop ⊢
  obtain ⟨g, applied, r⟩ := out
  have hhandle (error : Failure) := handle_iff error hloop hsound hnodup
  dsimp only at hhandle
  cases r with
  | error e =>
    have hrough : ¬ (rules course.stop (m.changes.map Edit.path)).Smooth ⟨t, []⟩ m.changes :=
      fun hs => nomatch hloop.smooth.2 hs
    exact (hhandle e).trans ⟨.inr, fun hs => hs.resolve_left fun hs => hrough hs.1⟩
  | ok u =>
    dsimp only
    cases hcommit : commit m course with
    | ok x =>
      exact ⟨fun _ => .inl ⟨hloop.smooth.1 rfl, x, rfl⟩,
        fun _ c hc => new_of_ran hloop hnodup rfl hc⟩
    | error e =>
      have hlost : ¬ ∃ x, Except.error (α := Db × Evidence) e = .ok x := nofun
      exact (hhandle e).trans ⟨.inr, fun hs => hs.resolve_left fun hs => hlost hs.2⟩

/-! ### A file that becomes a directory, and a file that is not moved -/

/-- A workspace with one file, `a`. -/
def oneFile : Workspace := Files.single "a" "x".toUTF8

/-- `a` is `x` at the base, and `a/b` is `y` in the result. -/
def intoDirectoryBlobs : Blobs where
  base _ := .ok "x".toUTF8
  commit _ := .ok "y".toUTF8

/-- The node of the merge. -/
def coder : Node where
  id := 9
  owner := "owner"
  root := "root"
  parent := none
  persona := .coder
  goal := "goal"
  dependencies := []
  payload := {
    source := "cli"
    identity := "local"
    project := "default"
    session := "local"
    role := "admin"
    repository := "/r"
    workspace := "/r"
    storage := "/s"
    snapshot := "s"
    depth := 1
    concurrency := 2
    budgetOwner := "owner"
    budgetRoot := "root" }
  state := .reviewed
  result := some { success := true, verified := true, base := "s", commit := "c" }
  reviewedBy := some 10
  deadline := 600
  updated := 5

/-- The file `a` is deleted, and `a/b` is added: the merge has started. -/
def intoDirectory : Started where
  env := {}
  site := ⟨none, true, true⟩
  node := coder
  token := 3
  archive := "/s/merges/4"
  changes := [⟨["a"], some "x".toUTF8, none⟩, ⟨["a", "b"], none, some "y".toUTF8⟩]

/-- Git's list of its changes. -/
def intoDirectoryRecords : List (Status × String) := [(.deleted, "a"), (.added, "a/b")]

theorem select_intoDirectory : select intoDirectoryBlobs oneFile intoDirectoryRecords 0 0 =
    .ok intoDirectory.changes := by
  decide

/-- The database after `recover` has taken the lease for expired. -/
def expired : Db :=
  { Db.empty with nodes := [{ taken 3 10 coder with state := .needsResolution }] }

/-- The lease is lost when the files are written. -/
def lostLease : Course where
  found := expired
  time := 200
  left := expired

/-- The file `a/b` is not moved. -/
def notMoved : Course where
  stop path := if path = ["a", "b"] then some .move else none
  found := expired
  time := 200
  left := expired

/-- A merge that raises is not all or nothing if `a` is gone, or a temporary file is left. -/
theorem merge_spoilt (error : Failure) (course : Course)
    (hraise : (mergeNode intoDirectory course oneFile).2 = .error error)
    (hspoilt : (mergeNode intoDirectory course oneFile).1.ground.tree.node ["a"] ≠
        some (.file "x".toUTF8) ∨
      (mergeNode intoDirectory course oneFile).1.ground.temporaries ≠ []) :
    ¬ AllOrNothing intoDirectory oneFile (mergeNode intoDirectory course oneFile) := by
  generalize mergeNode intoDirectory course oneFile = out at hraise hspoilt ⊢
  obtain ⟨w, r⟩ := out
  dsimp only at hraise
  subst hraise
  rintro ⟨hback, htemp, -⟩
  rcases hspoilt with hdir | hleft
  · exact hdir (hback _ (List.mem_cons_self ..))
  · exact hleft htemp

/-- **A file that becomes a directory is lost** when the lease is lost: at `a` there is an empty
directory then.  And a file that is not moved stays as a temporary file. -/
theorem merge_not_all_or_nothing :
    select intoDirectoryBlobs oneFile intoDirectoryRecords 0 0 = .ok intoDirectory.changes ∧
      ¬ AllOrNothing intoDirectory oneFile (mergeNode intoDirectory lostLease oneFile) ∧
      ¬ AllOrNothing intoDirectory oneFile (mergeNode intoDirectory notMoved oneFile) := by
  refine ⟨select_intoDirectory, merge_spoilt .os _ ?_ (.inl ?_), merge_spoilt .os _ ?_ (.inr ?_)⟩
  · decide
  · decide
  · decide
  · decide

theorem merge_all_or_nothing_intoDirectory :
    (intoDirectoryRecords.map fun r => parts r.2).Nodup ∧
      select intoDirectoryBlobs oneFile intoDirectoryRecords 0 0 = .ok intoDirectory.changes ∧
      (AllOrNothing intoDirectory oneFile (mergeNode intoDirectory lostLease oneFile) ↔
        Harmless intoDirectory lostLease oneFile) :=
  ⟨by decide, select_intoDirectory,
    merge_all_or_nothing_iff (by decide) select_intoDirectory⟩

end Merge

end Coordinator

end PythonAI
