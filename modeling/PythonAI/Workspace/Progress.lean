import PythonAI.Workspace.Stages

/-!
# A call of `resume` comes closer to its end

While one call of `resume` is running (`Busy`), it is at its item, the other items are done or at a
stage, and each of its steps brings it closer to its end (`Busy.advance`).
-/

namespace PythonAI

open Library

namespace Workspace

variable {id : ℕ} {w : Worker} {h h' : Host} {env : Env} {j : Job} {key : PlanId} {plan : Plan}
  {item item' : Item} {row row' : Row} {source dest dest' : Place} {todo : List Item} {pc pc' : Pc}
  {rows : Table DirId Row} {files : Table Place Tree}

/-! ### A step of the worker -/

/-- The steps that the items take at most. -/
def cost : List Item → ℕ
  | [] => 0
  | item :: items => 20 + item.manifest.entries.length + cost items

/-- The steps that an item takes at most from here. -/
def Pc.rank : Pc → ℕ
  | .releasing => 0
  | .failing _ => 1
  | .closing => 2
  | .complete => 3
  | .next => 4
  | .entered | .last _ => 5
  | .opened => 6
  | .purge _ order => 6 + order.length
  | .purging _ order => 7 + order.length
  | .condemned j => 8 + j.item.manifest.entries.length
  | .settled j => 9 + j.item.manifest.entries.length
  | .verified j => 10 + j.item.manifest.entries.length
  | .known j => 11 + j.item.manifest.entries.length
  | .moved j => 12 + j.item.manifest.entries.length
  | .sliding j => 13 + j.item.manifest.entries.length
  | .fenced j => 14 + j.item.manifest.entries.length
  | .pinned j => 15 + j.item.manifest.entries.length
  | .found j => 16 + j.item.manifest.entries.length
  | .placed j => 17 + j.item.manifest.entries.length
  | .ready item => 18 + item.manifest.entries.length

/-- The steps that a call takes at most from here. -/
def Worker.rank (w : Worker) : ℕ := w.pc.rank + cost w.todo

/-- The call has the lease, or can get it, and nothing was raised. -/
structure Live (h : Host) (key : PlanId) (w : Worker) : Prop where
  /-- the lease -/
  lease : if w.pc = .opened then ∀ l, h.leases key = some l → l.expires ≤ h.now
    else ∃ l, h.leases key = some l ∧ l.token = w.lease ∧ h.now < l.expires
  /-- nothing was raised -/
  sound : ∀ e, w.pc ≠ .failing e
  /-- the end is reached with the last transaction only -/
  done : w.pc = .releasing → h.operations key = some .completed

/-- What a step of the worker leads to. -/
inductive Next (h h' : Host) (key : PlanId) (plan : Plan) (id : ℕ) (w : Worker) : Prop
  /-- it goes on -/
  | goes (w' : Worker) (hb : Busy h' key plan id w') (hrank : w'.rank < w.rank)
      (hlive : Live h key w → Live h' key w')
  /-- the call has ended -/
  | ends (hi : Idle h' key plan) (hpc : w.pc = .releasing) (hops : h'.operations = h.operations)

/-- Neither the beginning nor the end of a call. -/
def Pc.inside : Pc → Bool
  | .opened | .failing _ | .releasing => false
  | _ => true

theorem Pc.inside_iff {pc : Pc} : pc.inside = true ↔
    pc ≠ .opened ∧ (∀ e, pc ≠ .failing e) ∧ pc ≠ .releasing := by
  cases pc <;> simp [Pc.inside]

/-- The worker goes on in a host that has its own rows, directories and pins. -/
theorem Busy.goes {x : Host} {w' : Worker} (hb : Busy h key plan id w)
    (hi : Inv (x.goto id w' pc)) (hw : w'.key = w.key ∧ w'.plan = w.plan ∧ w'.lease = w.lease)
    (hplans : x.plans = h.plans) (hops : x.operations = h.operations)
    (hleases : x.leases = h.leases) (hnow : x.now = h.now) (hworkers : x.workers = h.workers)
    (hpins : ∀ p pin, x.pins p = some pin → pin.owner = id ∧ pc.held plan.action = some p)
    (hdone : ∀ i ∈ plan.items, Done h.rows h.files plan i → Done x.rows x.files plan i)
    (hitems : ∀ i ∈ plan.items, pc.current ≠ some i → i.At x.rows x.files key plan)
    (hpc : pc.At x.rows x.files key plan w'.todo) (hrank : pc.rank + cost w'.todo < w.rank)
    (hin : w.pc.inside = true ∧ pc.inside = true) :
    Next h (x.goto id w' pc) key plan id w := by
  obtain ⟨hkey, hplan, hlease⟩ := hw
  obtain ⟨hopen, hfail, hrel⟩ := Pc.inside_iff.1 hin.2
  refine .goes { w' with pc := pc } ⟨⟨hi, ?_, hb.base.same, ?_, ?_⟩, Table.set_same .., ?_,
    hkey.trans hb.mine, hplan.trans hb.given, hpins, hitems, hpc⟩ hrank fun hl => ?_
  · exact (congrFun hplans key).trans hb.base.stored
  · intro l hl
    replace hl : x.leases key = some l := hl
    show l.expires ≤ x.now + 600
    rw [hleases] at hl
    rw [hnow]
    exact hb.base.lease l hl
  · obtain ⟨s, hs, hcompleted⟩ := hb.base.operation
    exact ⟨s, (congrFun hops key).trans hs, fun hc i hi => hdone i hi (hcompleted hc i hi)⟩
  · intro i hne
    exact (Table.set_of_ne _ _ _ hne).trans ((congrFun hworkers i).trans (hb.workers i hne))
  · obtain ⟨hopen', -, -⟩ := Pc.inside_iff.1 hin.1
    have hlease' := hl.lease
    rw [if_neg hopen'] at hlease'
    refine ⟨?_, hfail, fun hc => absurd hc hrel⟩
    rw [if_neg hopen]
    obtain ⟨l, hl, htoken, hlt⟩ := hlease'
    refine ⟨l, (congrFun hleases key).trans hl, htoken.trans hlease.symm, ?_⟩
    show x.now < l.expires
    rw [hnow]
    exact hlt

/-- The worker goes on, and only what it has pinned changes. -/
theorem Busy.stays {w' : Worker} {pins : Table Place Pin} (hb : Busy h key plan id w)
    (hi : Inv ({ h with pins := pins }.goto id w' pc))
    (hw : w'.key = w.key ∧ w'.plan = w.plan ∧ w'.lease = w.lease)
    (hpins : ∀ p pin, pins p = some pin → pin.owner = id ∧ pc.held plan.action = some p)
    (hcur : pc.current = w.pc.current ∨ w.pc.current = none)
    (hpc : pc.At h.rows h.files key plan w'.todo) (hrank : pc.rank + cost w'.todo < w.rank)
    (hin : w.pc.inside = true ∧ pc.inside = true) :
    Next h ({ h with pins := pins }.goto id w' pc) key plan id w := by
  refine hb.goes hi hw rfl rfl rfl rfl rfl hpins (fun _ _ hd => hd)
    (fun i hi hne => hb.items i hi ?_) hpc hrank hin
  rcases hcur with hcur | hcur
  · rwa [← hcur]
  · rw [hcur]
    exact fun hc => by cases hc

/-- What is pinned stays so. -/
theorem Busy.held (hb : Busy h key plan id w)
    (hheld : ∀ p, w.pc.held plan.action = some p → pc.held plan.action = some p) :
    ∀ p pin, h.pins p = some pin → pin.owner = id ∧ pc.held plan.action = some p := by
  intro p pin hpin
  obtain ⟨howner, hp⟩ := hb.pins p pin hpin
  exact ⟨howner, hheld p hp⟩

/-- The items that are done stay so, when the directory of another one is touched. -/
theorem Base.done_frame (hb : Base h key plan) (hitem : item ∈ plan.items)
    (hk : Known h.rows key plan item row dest) (hf : Frame h h' item.id row.source dest)
    (i : Item) (hi : i ∈ plan.items) (hd : Done h.rows h.files plan i) :
    Done h'.rows h'.files plan i := by
  refine hd.frame hb.inv hk hf fun hid => ?_
  rw [hb.same i hi item hitem hid] at hd
  exact hk.not_done hd

theorem Base.at_frame (hb : Base h key plan) (hitem : item ∈ plan.items)
    (hk : Known h.rows key plan item row dest) (hf : Frame h h' item.id row.source dest)
    {i : Item} (hi : i ∈ plan.items) (hne : i ≠ item) (ha : i.At h.rows h.files key plan) :
    i.At h'.rows h'.files key plan :=
  ha.frame hb.inv hk hf fun hid => hne (hb.same i hi item hitem hid)

/-- The items of a worker are those of the plan. -/
theorem Busy.remaining (hb : Busy h key plan id w) : ∀ i ∈ w.todo, i ∈ plan.items := by
  have hsound := (hb.base.inv.workers id w hb.worker).todo
  rwa [hb.given] at hsound

/-! ### The item of a worker -/

/-- A worker that is interrupted leaves a stage. -/
theorem Pc.leaves (hpc : pc.At rows files key plan todo) (hcur : pc.current = some item) :
    item.At rows files key plan := by
  cases pc with
  | opened | entered | next | ready | complete | closing | failing | releasing => cases hcur
  | placed j =>
    cases hcur
    obtain ⟨-, row, hc, hstate, hw | ha⟩ := hpc
    · exact .inr ⟨row, j.dest, hc.known, .waits (.inr hstate) hw⟩
    · exact .inr ⟨row, j.dest, hc.known, .arrived hstate ha⟩
  | found j | pinned j | fenced j | sliding j =>
    cases hcur
    obtain ⟨-, row, hc, hstate, hw⟩ := hpc
    exact .inr ⟨row, j.dest, hc.known, .waits (.inr hstate) hw⟩
  | moved j | known j | verified j =>
    cases hcur
    obtain ⟨-, row, hc, hstate, ha⟩ := hpc
    exact .inr ⟨row, j.dest, hc.known, .arrived hstate ha⟩
  | settled j =>
    cases hcur
    obtain ⟨-, row, hc, ⟨hstate, htarget, horigin⟩ | ⟨ha, hstate, hcovers⟩⟩ := hpc
    · exact .inr ⟨row, j.dest, hc.known, .settled hstate htarget horigin⟩
    · exact .inr ⟨row, j.dest, hc.known, .purging ha hstate hcovers⟩
  | condemned j =>
    cases hcur
    obtain ⟨-, row, hc, ha, -, t, ht, ⟨hstate, rfl⟩ | ⟨hstate, hcovers⟩⟩ := hpc
    · refine .inr ⟨row, j.dest, hc.known, .settled ?_ ?_ ?_⟩
      · rw [ha]
        exact hstate.imp id fun hs => ⟨rfl, hs⟩
      · rw [ha]
        exact ht
      · rw [ha]
        exact fun hc => by cases hc
    · refine .inr ⟨row, j.dest, hc.known, .purging ha hstate fun t' ht' => ?_⟩
      rw [ht] at ht'
      cases ht'
      exact hcovers
  | purging j order | purge j order =>
    cases hcur
    obtain ⟨-, row, hc, ha, hstate, t, ht, hcovers, -⟩ := hpc
    refine .inr ⟨row, j.dest, hc.known, .purging ha hstate fun t' ht' => ?_⟩
    rw [ht] at ht'
    cases ht'
    exact hcovers
  | last j =>
    cases hcur
    obtain ⟨-, row, hc, ⟨-, hstate, htarget, horigin⟩ | ⟨ha, hstate, hnone⟩⟩ := hpc
    · exact .inr ⟨row, j.dest, hc.known, .settled (.inl hstate) htarget horigin⟩
    · refine .inr ⟨row, j.dest, hc.known, .purging ha hstate fun t' ht' => ?_⟩
      rw [hnone] at ht'
      cases ht'

/-- All items are done, or at a stage. -/
theorem Busy.every (hb : Busy h key plan id w) :
    ∀ i ∈ plan.items, i.At h.rows h.files key plan := by
  intro i hi
  by_cases hcur : w.pc.current = some i
  · exact Pc.leaves hb.pc hcur
  · exact hb.items i hi hcur

/-- The call ends, and the registry and the directories stay. -/
theorem Busy.idle (hb : Busy h key plan id w) {x : Host} (hi : Inv x) (hrows : x.rows = h.rows)
    (hfiles : x.files = h.files) (hplans : x.plans = h.plans) (hops : x.operations = h.operations)
    (hlease : ∀ l, x.leases key = some l → l.expires ≤ x.now + 600)
    (hworkers : x.workers = h.workers.erase id) (hpins : ∀ p, x.pins p = none) :
    Idle x key plan := by
  refine ⟨⟨hi, hplans ▸ hb.base.stored, hb.base.same, hlease, ?_⟩, fun i => ?_, hpins, ?_⟩
  · rw [hops, hrows, hfiles]
    exact hb.base.operation
  · rw [hworkers]
    by_cases hid : i = id
    · rw [hid]
      exact Table.erase_same ..
    · exact (Table.erase_of_ne _ _ hid).trans (hb.workers i hid)
  · rw [hrows, hfiles]
    exact hb.every

/-- The places of the item that a worker is at. -/
theorem Current.origin (hc : Current rows key plan j row) (a : Action) :
    j.origin a = a.origin row.source j.dest := by
  rw [Job.origin, Action.origin, hc.source]

theorem Current.target (hc : Current rows key plan j row) (a : Action) :
    j.target a = a.target row.source j.dest := by
  rw [Job.target, Action.target, hc.source]

/-- The places are different. -/
theorem origin_ne_target (hi : Inv h) (hk : Known h.rows key plan item row dest) (a : Action) :
    a.origin row.source dest ≠ a.target row.source dest := by
  obtain ⟨root, principal, k, rfl⟩ := hk.home hi
  unfold Action.origin Action.target
  split_ifs <;> intro hs <;> cases hs

/-- A directory in this state is to be moved, or it is in the archive. -/
theorem Stage.moving {a : Action} {dest : Place} {s : DirState}
    (hst : Stage files a item source dest s) (hm : a.moving s = true) :
    Waits files a item source dest ∨ Arrived files a item source dest := by
  cases hst with
  | waits _ hw => exact .inl hw
  | arrived _ ha => exact .inr ha
  | settled hs htarget horigin =>
    by_cases ha : a = .restore
    · refine .inr ⟨?_, htarget⟩
      rw [Action.origin, if_pos ha]
      exact horigin ha
    · exfalso
      rcases hs with rfl | ⟨rfl, rfl⟩
      · cases a <;> first | exact ha rfl | cases hm
      · cases hm
  | purging ha hs _ =>
    subst ha hs
    cases hm

theorem Stage.not_moving {a : Action} {dest : Place} {s : DirState}
    (hst : Stage files a item source dest s) (hm : a.moving s = false) :
    (s = .archived ∨ s = .purgePending ∨ s = .purging) ∧
    (((s = a.moved ∨ a = .deleteSession ∧ s = .archived) ∧
        files (a.target source dest) = some item.manifest ∧ (a = .restore → files dest = none)) ∨
      a = .deleteSession ∧ s = .purging ∧
        ∀ t, files dest = some t → item.manifest.covers t = true) := by
  cases hst with
  | waits hs hw => rcases hs with rfl | rfl <;> cases a <;> cases hm
  | arrived hs ha =>
    subst hs
    cases a <;> cases hm
  | settled hs htarget horigin =>
    refine ⟨?_, .inl ⟨hs, htarget, horigin⟩⟩
    rcases hs with rfl | ⟨rfl, rfl⟩
    · cases a with
      | archive => exact .inl rfl
      | restore => cases hm
      | deleteSession => exact .inr (.inl rfl)
    · exact .inl rfl
  | purging ha hs hcovers => exact ⟨.inr (.inr hs), .inr ⟨ha, hs, hcovers⟩⟩

/-! ### The steps of the worker -/

theorem Busy.entered (hb : Busy h key plan id w) (hpc : w.pc = .entered)
    (hok : h.advance env id w = .ok h') (hi : Inv h') : Next h h' key plan id w := by
  have hat := hb.pc
  simp only [Host.advance, hpc, bind_eq_ok, pure_eq_ok] at hok hat
  obtain ⟨-, -, rfl⟩ := hok
  refine hb.stays hi ⟨rfl, rfl, rfl⟩ (hb.held ?_) ?_ ?_ ?_ ?_
  · rw [hpc]
    intro p hp
    cases hp
  · rw [hpc]
    exact .inl rfl
  · exact fun i hi => .inl (hat ▸ hi)
  · rw [Worker.rank, hpc]
    exact Nat.add_lt_add_right (by decide) _
  · rw [hpc]
    exact ⟨rfl, rfl⟩

theorem Busy.next (hb : Busy h key plan id w) (hpc : w.pc = .next)
    (hok : h.advance env id w = .ok h') (hi : Inv h') : Next h h' key plan id w := by
  have hat := hb.pc
  have hrank : w.rank = 4 + cost w.todo := by rw [Worker.rank, hpc]; rfl
  have hheld : ∀ {pc : Pc} p, w.pc.held plan.action = some p → pc.held plan.action = some p := by
    rw [hpc]
    intro pc p hp
    cases hp
  simp only [Host.advance, hpc] at hok hat
  split at hok
  · next item todo htodo =>
    simp only [bind_eq_ok, pure_eq_ok] at hok
    obtain ⟨-, -, rfl⟩ := hok
    refine hb.stays hi ⟨rfl, rfl, rfl⟩ (hb.held hheld) ?_ ?_ ?_ ?_
    · rw [hpc]
      exact .inl rfl
    · refine ⟨hb.remaining item (htodo ▸ List.mem_cons_self), fun i hi => ?_⟩
      rcases hat i hi with hmem | hd
      · rw [htodo] at hmem
        rcases List.mem_cons.1 hmem with rfl | hmem
        · exact .inr (.inl rfl)
        · exact .inl hmem
      · exact .inr (.inr hd)
    · rw [hrank, htodo, cost, Pc.rank]
      show _ + cost todo < _
      omega
    · rw [hpc]
      exact ⟨rfl, rfl⟩
  · next htodo =>
    simp only [pure_eq_ok] at hok
    subst hok
    refine hb.stays hi ⟨rfl, rfl, rfl⟩ (hb.held hheld) ?_ ?_ ?_ ?_
    · rw [hpc]
      exact .inl rfl
    · intro i hi
      rcases hat i hi with hmem | hd
      · rw [htodo] at hmem
        cases hmem
      · exact hd
    · rw [hrank]
      exact Nat.add_lt_add_right (by decide) _
    · rw [hpc]
      exact ⟨rfl, rfl⟩

/-- An item that is not done is at a stage. -/
theorem Item.At.known {rows : Table DirId Row} {files : Table Place Tree}
    (ha : item.At rows files key plan) (hrow : rows item.id = some row)
    (hgen : row.generation = item.generation) :
    ∃ dest, Known rows key plan item row dest ∧
      Stage files plan.action item row.source dest row.state := by
  rcases ha with ⟨row', hrow', -, -, hlt, -⟩ | ⟨row', dest, hk, hst⟩
  · rw [hrow] at hrow'
    cases hrow'
    omega
  · have hrow' := hk.found
    rw [hrow] at hrow'
    cases hrow'
    exact ⟨dest, hk, hst⟩

theorem Item.At.done {rows : Table DirId Row} {files : Table Place Tree}
    (ha : item.At rows files key plan) (hrow : rows item.id = some row)
    (hgen : item.generation < row.generation) : Done rows files plan item := by
  rcases ha with hd | ⟨row', dest, hk, -⟩
  · exact hd
  · have hrow' := hk.found
    rw [hrow] at hrow'
    cases hrow'
    exact absurd hk.generation hgen.ne'

/-- The intent of an item. -/
theorem Busy.intend (hb : Busy h key plan id w) (hpc : w.pc = .ready item)
    (hok : h.intend env id w item = .ok h') (hi : Inv h') : Next h h' key plan id w := by
  have hat := hb.pc
  simp only [hpc] at hat
  obtain ⟨hitem, hothers⟩ := hat
  have hrank : w.rank = 18 + item.manifest.entries.length + cost w.todo := by
    rw [Worker.rank, hpc]; rfl
  have hheld : ∀ {pc : Pc} p, w.pc.held plan.action = some p → pc.held plan.action = some p := by
    rw [hpc]
    intro pc p hp
    cases hp
  have hcur : w.pc.current = none := by rw [hpc]; rfl
  have hin : w.pc.inside = true := by rw [hpc]; rfl
  have ha : item.At h.rows h.files key plan := hb.items item hitem (by rw [hcur]; simp)
  simp only [Host.intend, hb.given, hb.mine, bind_eq_ok, Host.get, require_eq_ok,
    Option.filter_eq_some_iff] at hok
  obtain ⟨row, ⟨hrow, -⟩, hok⟩ := hok
  split at hok
  · next hfinal =>
    simp only [pure_eq_ok] at hok
    subst hok
    simp only [Bool.and_eq_true, decide_eq_true_eq] at hfinal
    refine hb.stays hi ⟨rfl, rfl, rfl⟩ (hb.held hheld) (.inr hcur) (fun i hi => ?_) ?_ ⟨hin, rfl⟩
    · rcases hothers i hi with hmem | rfl | hd
      · exact .inl hmem
      · exact .inr (ha.done hrow hfinal.2)
      · exact .inr hd
    · rw [hrank, Pc.rank]
      omega
  simp only [bind_eq_ok, ensure_eq_ok, Bool.and_eq_true, decide_eq_true_eq] at hok
  obtain ⟨-, ⟨-, hgen⟩, -, -, -, -, hok⟩ := hok
  obtain ⟨dest, hk, hst⟩ := ha.known hrow hgen
  rw [hk.dest] at hok
  split_ifs at hok with hmoving
  · simp only [pure_eq_ok] at hok
    subst hok
    -- The row gets an archive, and the other items are not reached.
    have hf : Frame h { h with rows := h.rows.set item.id { row with
        state := plan.action.begun, archive := some dest, manifest := some item.manifest } }
        item.id row.source dest := ⟨fun i hne => Table.set_of_ne _ _ _ hne, fun _ _ _ => rfl⟩
    refine hb.goes hi ⟨rfl, rfl, rfl⟩ rfl rfl rfl rfl rfl
      (hb.held hheld) (hb.base.done_frame hitem hk hf) (fun i hi hne => ?_) ?_ ?_ ⟨hin, rfl⟩
    · refine hb.base.at_frame hitem hk hf hi (fun he => hne (by rw [he]; rfl)) (hb.items i hi ?_)
      rw [hcur]
      exact fun hc => by cases hc
    · refine ⟨⟨hitem, fun i hi => ?_⟩, _, ⟨⟨Table.set_same .., hk.principal, hk.temporary,
        hk.identity, hk.generation, hk.original, rfl⟩, rfl, rfl, rfl⟩, rfl, hst.moving hmoving⟩
      exact (hothers i hi).imp_right (Or.imp_right (hb.base.done_frame hitem hk hf i hi))
    · rw [hrank, Pc.rank]
      show 17 + item.manifest.entries.length + _ < _
      omega
  · simp only [pure_eq_ok] at hok
    subst hok
    obtain ⟨hstates, hsettled⟩ := hst.not_moving (Bool.eq_false_iff.2 hmoving)
    have harchive : row.archive = some dest := by
      cases harchive : row.archive with
      | none =>
        rcases (hb.base.inv.rows _ row hrow).1.archive harchive with hs | hs <;>
          rcases hstates with hs' | hs' | hs' <;> rw [hs] at hs' <;> cases hs'
      | some p =>
        have hdest := hk.dest
        rw [harchive, Option.getD_some] at hdest
        rw [hdest]
    refine hb.stays hi ⟨rfl, rfl, rfl⟩ (hb.held hheld) (.inr hcur) ⟨⟨hitem, hothers⟩, row,
      ⟨hk, harchive, rfl, rfl⟩, hsettled⟩ ?_ ⟨hin, rfl⟩
    rw [hrank, Pc.rank]
    show 9 + item.manifest.entries.length + _ < _
    omega

theorem rank_lt (hpc : w.pc = pc) (hlt : pc'.rank < pc.rank) :
    pc'.rank + cost w.todo < w.rank := by
  rw [Worker.rank, hpc]
  omega

/-- The worker goes on with its item. -/
theorem Busy.along {pins : Table Place Pin} (hb : Busy h key plan id w) (hpc : w.pc = pc)
    (hi : Inv ({ h with pins := pins }.goto id w pc'))
    (hpins : ∀ p pin, pins p = some pin → pin.owner = id ∧ pc'.held plan.action = some p)
    (hcur : pc'.current = pc.current) (hat : pc'.At h.rows h.files key plan w.todo)
    (hlt : pc'.rank < pc.rank) (hin : pc.inside = true ∧ pc'.inside = true) :
    Next h ({ h with pins := pins }.goto id w pc') key plan id w := by
  subst hpc
  exact hb.stays hi ⟨rfl, rfl, rfl⟩ hpins (.inl hcur) hat (rank_lt rfl hlt) hin

/-- It goes on with what it has pinned. -/
theorem Busy.holding (hb : Busy h key plan id w) (hpc : w.pc = pc)
    (hheld : pc'.held plan.action = pc.held plan.action) :
    ∀ p pin, h.pins p = some pin → pin.owner = id ∧ pc'.held plan.action = some p := by
  subst hpc
  exact hb.held fun p hp => hheld.trans hp

/-- It pins something at its place. -/
theorem Busy.pinning (hb : Busy h key plan id w) (hpc : w.pc = pc) {p : Place}
    (hheld : ∀ q, pc.held plan.action = some q → q = p) (hheld' : pc'.held plan.action = some p)
    (held : List Entry) : ∀ q pin, (h.pins.set p ⟨id, held⟩) q = some pin →
      pin.owner = id ∧ pc'.held plan.action = some q := by
  intro q pin hq
  rw [Table.set_apply] at hq
  split_ifs at hq with hqp
  · cases hq
    exact ⟨rfl, hqp ▸ hheld'⟩
  · obtain ⟨-, hp⟩ := hb.pins q pin hq
    rw [hpc] at hp
    exact absurd (hheld q hp) hqp

/-- It releases the place. -/
theorem Busy.releasing (hb : Busy h key plan id w) (hpc : w.pc = pc) {p : Place}
    (hheld : pc.held plan.action = some p) :
    ∀ q pin, (h.pins.erase p) q = some pin → pin.owner = id ∧ pc'.held plan.action = some q := by
  intro q pin hq
  obtain ⟨hne, hq'⟩ := Table.erase_eq_some hq
  obtain ⟨-, hp⟩ := hb.pins q pin hq'
  rw [hpc, hheld] at hp
  cases hp
  exact absurd rfl hne

/-- Nothing is pinned there. -/
theorem Busy.unpinned (hb : Busy h key plan id w) (hpc : w.pc = pc)
    (hheld : pc.held plan.action = none) (p : Place) : h.pins p = none := by
  rw [Option.eq_none_iff_forall_ne_some]
  intro pin hpin
  obtain ⟨-, hp⟩ := hb.pins p pin hpin
  rw [hpc, hheld] at hp
  cases hp

theorem Busy.look (hb : Busy h key plan id w) (hpc : w.pc = .placed j)
    (hok : h.look id w j = .ok h') (hi : Inv h') : Next h h' key plan id w := by
  have hat := hb.pc
  rw [hpc] at hat
  obtain ⟨hothers, row, hc, hstate, hst⟩ := hat
  simp only [Host.look, hb.given, hc.origin, hc.target, bind_eq_ok] at hok
  obtain ⟨-, -, hok⟩ := hok
  split at hok
  · next tree htree =>
    simp only [bind_eq_ok, pure_eq_ok] at hok
    obtain ⟨-, -, rfl⟩ := hok
    refine hb.along hpc hi (hb.holding hpc rfl) rfl ⟨hothers, row, hc, hstate, ?_⟩ ?_ ⟨rfl, rfl⟩
    · rcases hst with hw | ha
      · exact hw
      · rw [ha.1] at htree
        cases htree
    · simp only [Pc.rank]
      omega
  · next hnone =>
    simp only [bind_eq_ok, pure_eq_ok] at hok
    obtain ⟨-, -, rfl⟩ := hok
    refine hb.along hpc hi (hb.holding hpc rfl) rfl ⟨hothers, row, hc, hstate, ?_⟩ ?_ ⟨rfl, rfl⟩
    · rcases hst with hw | ha
      · rw [hw.1] at hnone
        cases hnone
      · exact ha
    · simp only [Pc.rank]
      omega

theorem Busy.grasp (hb : Busy h key plan id w) (hpc : w.pc = .found j)
    (hok : h.grasp env id w j = .ok h') (hi : Inv h') : Next h h' key plan id w := by
  have hat := hb.pc
  rw [hpc] at hat
  simp only [Host.grasp, hb.given, bind_eq_ok, pure_eq_ok] at hok
  obtain ⟨tree, -, -, -, rfl⟩ := hok
  refine hb.along hpc hi (hb.pinning hpc (fun q hq => (by cases hq)) rfl _) rfl hat ?_ ⟨rfl, rfl⟩
  simp only [Pc.rank]
  omega

theorem Busy.pinned (hb : Busy h key plan id w) (hpc : w.pc = .pinned j)
    (hok : h.advance env id w = .ok h') (hi : Inv h') : Next h h' key plan id w := by
  have hat := hb.pc
  rw [hpc] at hat
  simp only [Host.advance, hpc, bind_eq_ok, pure_eq_ok] at hok
  obtain ⟨-, -, rfl⟩ := hok
  refine hb.along hpc hi (hb.holding hpc rfl) rfl hat ?_ ⟨rfl, rfl⟩
  simp only [Pc.rank]
  omega

theorem Busy.slide (hb : Busy h key plan id w) (hpc : w.pc = .fenced j)
    (hok : h.slide env id w j = .ok h') (hi : Inv h') : Next h h' key plan id w := by
  have hat := hb.pc
  rw [hpc] at hat
  simp only [Host.slide, hb.given, bind_eq_ok, pure_eq_ok] at hok
  obtain ⟨-, -, -, -, rfl⟩ := hok
  refine hb.along hpc hi (hb.pinning hpc (fun q hq => (by cases hq; rfl)) rfl _) rfl hat ?_
    ⟨rfl, rfl⟩
  simp only [Pc.rank]
  omega

/-- The rename touches the two places of the item. -/
theorem Busy.rename (hb : Busy h key plan id w) (hpc : w.pc = .sliding j)
    (hok : h.rename env id w j = .ok h') (hi : Inv h') : Next h h' key plan id w := by
  have hat := hb.pc
  rw [hpc] at hat
  obtain ⟨⟨hitem, hothers⟩, row, hc, hstate, horigin, htarget⟩ := hat
  have hheld : (Pc.sliding j).held plan.action = some (j.origin plan.action) := rfl
  have hne := origin_ne_target hb.base.inv hc.known plan.action
  rw [hc.origin] at hheld
  simp only [Host.rename, hb.given, hc.origin, hc.target, bind_eq_ok, ensure_eq_ok, require_eq_ok,
    pure_eq_ok] at hok
  obtain ⟨-, -, -, -, tree, htree, rfl⟩ := hok
  rw [horigin] at htree
  cases htree
  have hf : Frame h { h with
      files := (h.files.erase (plan.action.origin row.source j.dest)).set
        (plan.action.target row.source j.dest) j.item.manifest
      pins := h.pins.erase (plan.action.origin row.source j.dest) } j.item.id row.source j.dest := by
    refine ⟨fun _ _ => rfl, fun p hs hd => ?_⟩
    refine (Table.set_of_ne _ _ _ ?_).trans (Table.erase_of_ne _ _ ?_)
    · rcases plan.action.target_eq row.source j.dest with ht | ht <;> rw [ht] <;> assumption
    · rcases plan.action.origin_eq row.source j.dest with ht | ht <;> rw [ht] <;> assumption
  refine hb.goes hi ⟨rfl, rfl, rfl⟩ rfl rfl rfl rfl rfl (hb.releasing hpc hheld)
    (hb.base.done_frame hitem hc.known hf) (fun i hi hcur => ?_) ?_ (rank_lt hpc ?_) ?_
  · have hcur' : i ≠ j.item := fun he => hcur (by rw [he]; rfl)
    refine hb.base.at_frame hitem hc.known hf hi hcur' (hb.items i hi ?_)
    rw [hpc]
    exact hcur
  · refine ⟨⟨hitem, fun i hi => ?_⟩, row, hc, hstate, ?_, Table.set_same ..⟩
    · exact (hothers i hi).imp_right (Or.imp_right (hb.base.done_frame hitem hc.known hf i hi))
    · exact (Table.set_of_ne _ _ _ hne).trans (Table.erase_same ..)
  · simp only [Pc.rank]
    omega
  · rw [hpc]
    exact ⟨rfl, rfl⟩

theorem Busy.recognize (hb : Busy h key plan id w) (hpc : w.pc = .moved j)
    (hok : h.recognize id w j = .ok h') (hi : Inv h') : Next h h' key plan id w := by
  have hat := hb.pc
  rw [hpc] at hat
  simp only [Host.recognize, bind_eq_ok, pure_eq_ok] at hok
  obtain ⟨-, -, -, -, rfl⟩ := hok
  refine hb.along hpc hi (hb.holding hpc rfl) rfl hat ?_ ⟨rfl, rfl⟩
  simp only [Pc.rank]
  omega

theorem Busy.verify (hb : Busy h key plan id w) (hpc : w.pc = .known j)
    (hok : h.verify env id w j = .ok h') (hi : Inv h') : Next h h' key plan id w := by
  have hat := hb.pc
  rw [hpc] at hat
  simp only [Host.verify, bind_eq_ok, pure_eq_ok] at hok
  obtain ⟨-, -, -, -, rfl⟩ := hok
  refine hb.along hpc hi (hb.holding hpc rfl) rfl hat ?_ ⟨rfl, rfl⟩
  simp only [Pc.rank]
  omega

/-- Only the row of the item is written. -/
theorem frame_update (h : Host) (f : Row → Row) (k : DirId) (source dest : Place)
    (pins : Table Place Pin) :
    Frame h { h with rows := h.rows.update k (fun _ => true) f, pins := pins } k source dest :=
  ⟨fun _ hne => h.rows.update_of_ne k (fun _ => true) f hne, fun _ _ _ => rfl⟩

/-- The row of the item goes to another state. -/
theorem Current.write (hc : Current rows key plan j row) (s : DirState) :
    Current (rows.update j.item.id (fun _ => true) fun row => { row with state := s }) key plan j
      { row with state := s } := by
  have hfound : (rows.update j.item.id (fun _ => true) fun row => { row with state := s })
      j.item.id = some { row with state := s } :=
    rows.update_of_selects j.item.id (fun _ => true) _ hc.known.found rfl
  obtain ⟨hk, harchive, hsource, hident⟩ := hc
  refine ⟨⟨hfound, hk.principal, hk.temporary, hk.identity, hk.generation, hk.original, ?_⟩,
    harchive, hsource, hident⟩
  rw [harchive]
  rfl

/-- The worker writes the state of the row. -/
theorem Busy.write {pins : Table Place Pin} {s : DirState} (hb : Busy h key plan id w)
    (hpc : w.pc = pc)
    (hi : Inv ({ h with
      rows := h.rows.update j.item.id (fun _ => true) fun row => { row with state := s }
      pins := pins }.goto id w pc'))
    (hitem : j.item ∈ plan.items) (hc : Current h.rows key plan j row)
    (hpins : ∀ p pin, pins p = some pin → pin.owner = id ∧ pc'.held plan.action = some p)
    (hcur : pc'.current = some j.item ∧ pc.current = some j.item)
    (hat : pc'.At (h.rows.update j.item.id (fun _ => true) fun row => { row with state := s })
      h.files key plan w.todo)
    (hlt : pc'.rank < pc.rank) (hin : pc.inside = true ∧ pc'.inside = true) :
    Next h ({ h with
      rows := h.rows.update j.item.id (fun _ => true) fun row => { row with state := s }
      pins := pins }.goto id w pc') key plan id w := by
  have hf := frame_update h (fun row : Row => { row with state := s }) j.item.id row.source j.dest
    pins
  subst hpc
  refine hb.goes hi ⟨rfl, rfl, rfl⟩ rfl rfl rfl rfl rfl hpins
    (hb.base.done_frame hitem hc.known hf) (fun i hi hne => ?_) hat (rank_lt rfl hlt) hin
  have hne' : i ≠ j.item := fun he => hne (by rw [hcur.1, he])
  refine hb.base.at_frame hitem hc.known hf hi hne' (hb.items i hi ?_)
  rw [hcur.2]
  exact fun he => hne' (Option.some.inj he).symm

theorem Busy.settle (hb : Busy h key plan id w) (hpc : w.pc = .verified j)
    (hi : Inv (h.settle id w j)) : Next h (h.settle id w j) key plan id w := by
  have hat := hb.pc
  rw [hpc] at hat
  obtain ⟨⟨hitem, hothers⟩, row, hc, hstate, horigin, htarget⟩ := hat
  have hf := frame_update h (fun row : Row => { row with state := plan.action.moved }) j.item.id
    row.source j.dest h.pins
  rw [Host.settle, hb.given] at hi ⊢
  refine hb.write hpc hi hitem hc (hb.holding hpc rfl) ⟨rfl, rfl⟩ ⟨⟨hitem, fun i hi => ?_⟩, _,
    hc.write _, .inl ⟨.inl rfl, htarget, fun ha => ?_⟩⟩ ?_ ⟨rfl, rfl⟩
  · exact (hothers i hi).imp_right (Or.imp_right (hb.base.done_frame hitem hc.known hf i hi))
  · rw [Action.origin, if_pos ha] at horigin
    exact horigin
  · simp only [Pc.rank]
    omega

theorem Busy.condemn (hb : Busy h key plan id w) (hpc : w.pc = .settled j)
    (hok : h.condemn id w j = .ok h') (hi : Inv h') : Next h h' key plan id w := by
  have hat := hb.pc
  rw [hpc] at hat
  obtain ⟨hothers, row, hc, hst⟩ := hat
  simp only [Host.condemn, hb.given] at hok
  split_ifs at hok with ha
  · simp only [pure_eq_ok] at hok
    subst hok
    refine hb.along hpc hi (hb.holding hpc rfl) rfl ⟨hothers, row, hc, .inl ⟨ha, ?_⟩⟩ ?_ ⟨rfl, rfl⟩
    · rcases hst with ⟨hstate, hst⟩ | ⟨ha', -⟩
      · exact ⟨hstate.resolve_right fun hs => ha hs.1, hst⟩
      · exact absurd ha' ha
    · simp only [Pc.rank]
      omega
  rw [not_not] at ha
  simp only [Host.get, bind_eq_ok, require_eq_ok, Option.filter_eq_some_iff] at hok
  obtain ⟨row', ⟨hrow', -⟩, hok⟩ := hok
  rw [hc.known.found] at hrow'
  cases hrow'
  -- The row is read again.
  have hc' : Current h.rows key plan { j with row := row } row := ⟨hc.known, hc.archive, rfl, rfl⟩
  split at hok
  · next tree htree =>
    simp only [bind_eq_ok, pure_eq_ok] at hok
    obtain ⟨-, -, rfl⟩ := hok
    refine hb.along hpc hi (hb.holding hpc rfl) rfl ⟨hothers, row, hc', ha, rfl, tree, htree, ?_⟩ ?_
      ⟨rfl, rfl⟩
    · rcases hst with ⟨hstate, htarget, -⟩ | ⟨-, hstate, hcovers⟩
      · rw [ha] at hstate htarget
        refine .inl ⟨hstate.imp_right And.right, ?_⟩
        replace htarget : h.files j.dest = some j.item.manifest := htarget
        rw [htree] at htarget
        cases htarget
        rfl
      · exact .inr ⟨hstate, hcovers tree htree⟩
    · simp only [Pc.rank]
      omega
  · next hnone =>
    simp only [bind_eq_ok, ensure_eq_ok, decide_eq_true_eq, pure_eq_ok] at hok
    obtain ⟨-, hstate, rfl⟩ := hok
    refine hb.along hpc hi (hb.holding hpc rfl) rfl
      ⟨hothers, row, hc', .inr ⟨ha, hstate, hnone⟩⟩ ?_ ⟨rfl, rfl⟩
    simp only [Pc.rank]
    omega

theorem Busy.doom (hb : Busy h key plan id w) (hpc : w.pc = .condemned j)
    (hok : h.doom env id w j = .ok h') (hi : Inv h') : Next h h' key plan id w := by
  have hat := hb.pc
  rw [hpc] at hat
  obtain ⟨⟨hitem, hothers⟩, row, hc, ha, -⟩ := hat
  simp only [Host.doom, bind_eq_ok, ensure_eq_ok, pure_eq_ok] at hok
  obtain ⟨tree, hpin, -, -, -, hcovers, rfl⟩ := hok
  obtain ⟨hfile, -⟩ := pin_ok hpin
  have hf := frame_update h (fun row : Row => { row with state := .purging }) j.item.id row.source
    j.dest h.pins
  refine hb.write hpc hi hitem hc (hb.pinning hpc (fun q hq => (by cases hq)) rfl _) ⟨rfl, rfl⟩
    ⟨⟨hitem, fun i hi => ?_⟩, _, hc.write _, ha, rfl, tree, hfile, hcovers,
      purgeOrder_perm tree, purgeOrder_pairwise tree⟩ ?_ ⟨rfl, rfl⟩
  · exact (hothers i hi).imp_right (Or.imp_right (hb.base.done_frame hitem hc.known hf i hi))
  · have hlength := (purgeOrder_perm tree).length_eq
    have hle := covers_length hcovers
    simp only [Pc.rank]
    omega

theorem Busy.purging {order : List Entry} (hb : Busy h key plan id w)
    (hpc : w.pc = .purging j order) (hok : h.advance env id w = .ok h') (hi : Inv h') :
    Next h h' key plan id w := by
  have hat := hb.pc
  rw [hpc] at hat
  simp only [Host.advance, hpc, bind_eq_ok, pure_eq_ok] at hok
  obtain ⟨-, -, rfl⟩ := hok
  refine hb.along hpc hi (hb.holding hpc rfl) rfl hat ?_ ⟨rfl, rfl⟩
  simp only [Pc.rank]
  omega

/-- The deletion of one object touches the archive of the item. -/
theorem Busy.purgeOne {order : List Entry} (hb : Busy h key plan id w)
    (hpc : w.pc = .purge j order) (hok : h.purgeOne env id w j order = .ok h') (hi : Inv h') :
    Next h h' key plan id w := by
  have hat := hb.pc
  rw [hpc] at hat
  obtain ⟨⟨hitem, hothers⟩, row, hc, ha, hstate, tree, hfile, hcovers, hperm, hsorted⟩ := hat
  have hother : ∀ i, i ≠ j.item → w.pc.current ≠ some i := by
    rw [hpc]
    exact fun i hne he => hne (Option.some.inj he).symm
  simp only [Host.purgeOne, bind_eq_ok, require_eq_ok] at hok
  obtain ⟨-, -, tree', htree', hok⟩ := hok
  rw [hfile] at htree'
  cases htree'
  split at hok
  · next e order =>
    simp only [bind_eq_ok, pure_eq_ok] at hok
    obtain ⟨-, -, rfl⟩ := hok
    have hf : Frame h { h with
        files := h.files.set j.dest (tree.remove e)
        pins := h.pins.set j.dest ⟨id, order⟩ } j.item.id row.source j.dest :=
      ⟨fun _ _ => rfl, fun p _ hd => Table.set_of_ne _ _ _ hd⟩
    refine hb.goes hi ⟨rfl, rfl, rfl⟩ rfl rfl rfl rfl rfl
      (hb.pinning hpc (fun q hq => (by cases hq; rfl)) rfl _)
      (hb.base.done_frame hitem hc.known hf) (fun i hi hcur => ?_) ?_ (rank_lt hpc ?_) ?_
    · have hne : i ≠ j.item := fun he => hcur (by rw [he]; rfl)
      exact hb.base.at_frame hitem hc.known hf hi hne (hb.items i hi (hother i hne))
    · refine ⟨⟨hitem, fun i hi => ?_⟩, row, hc, ha, hstate, _, Table.set_same ..,
        covers_remove hcovers e, (List.cons_perm_iff_perm_erase.1 hperm).2,
        (List.pairwise_cons.1 hsorted).2⟩
      exact (hothers i hi).imp_right (Or.imp_right (hb.base.done_frame hitem hc.known hf i hi))
    · simp only [Pc.rank, List.length_cons]
      omega
    · rw [hpc]
      exact ⟨rfl, rfl⟩
  · simp only [bind_eq_ok, pure_eq_ok] at hok
    obtain ⟨-, -, rfl⟩ := hok
    have hf : Frame h { h with files := h.files.erase j.dest, pins := h.pins.erase j.dest }
        j.item.id row.source j.dest :=
      ⟨fun _ _ => rfl, fun p _ hd => Table.erase_of_ne _ _ hd⟩
    refine hb.goes hi ⟨rfl, rfl, rfl⟩ rfl rfl rfl rfl rfl (hb.releasing hpc rfl)
      (hb.base.done_frame hitem hc.known hf) (fun i hi hcur => ?_) ?_ (rank_lt hpc ?_) ?_
    · have hne : i ≠ j.item := fun he => hcur (by rw [he]; rfl)
      exact hb.base.at_frame hitem hc.known hf hi hne (hb.items i hi (hother i hne))
    · refine ⟨⟨hitem, fun i hi => ?_⟩, row, hc, .inr ⟨ha, hstate, Table.erase_same ..⟩⟩
      exact (hothers i hi).imp_right (Or.imp_right (hb.base.done_frame hitem hc.known hf i hi))
    · simp only [Pc.rank]
      omega
    · rw [hpc]
      exact ⟨rfl, rfl⟩

/-- **The last update of an item**: it is done. -/
theorem Busy.finish (hb : Busy h key plan id w) (hpc : w.pc = .last j)
    (hi : Inv (h.finish id w j)) : Next h (h.finish id w j) key plan id w := by
  have hat := hb.pc
  rw [hpc] at hat
  obtain ⟨⟨hitem, hothers⟩, row, hc, hst⟩ := hat
  have hf := frame_update h (Host.finalRow j.item.id plan.action) j.item.id row.source j.dest h.pins
  have hfound : (h.rows.update j.item.id (fun _ => true) (Host.finalRow j.item.id plan.action))
      j.item.id = some (Host.finalRow j.item.id plan.action row) :=
    h.rows.update_of_selects j.item.id (fun _ => true) _ hc.known.found rfl
  have hdone : Done (h.rows.update j.item.id (fun _ => true)
      (Host.finalRow j.item.id plan.action)) h.files plan j.item := by
    have hgen := hc.known.generation
    have hprincipal := hc.known.principal
    have horiginal := hc.known.original
    have harchive := hc.archive
    rw [Done, hfound]
    clear hf hfound hi
    cases ha : plan.action with
    | archive =>
      rw [ha] at hst
      obtain ⟨-, -, htarget, -⟩ := hst.resolve_right fun hs => (by cases hs.1)
      exact ⟨_, rfl, hprincipal, rfl, by simp only [Host.finalRow]; omega, j.dest, harchive,
        htarget⟩
    | restore =>
      rw [ha] at hst
      obtain ⟨-, -, htarget, -⟩ := hst.resolve_right fun hs => (by cases hs.1)
      exact ⟨_, rfl, hprincipal, rfl, by simp only [Host.finalRow]; omega, horiginal, htarget⟩
    | deleteSession =>
      rw [ha] at hst
      obtain ⟨-, -, hnone⟩ := hst.resolve_left fun hs => hs.1 rfl
      exact ⟨_, rfl, hprincipal, rfl, by simp only [Host.finalRow]; omega, j.dest, harchive, hnone⟩
  rw [Host.finish, hb.given] at hi ⊢
  refine hb.goes hi ⟨rfl, rfl, rfl⟩ rfl rfl rfl rfl rfl (hb.holding hpc rfl)
    (hb.base.done_frame hitem hc.known hf) (fun i hi _ => ?_) (fun i hi => ?_) (rank_lt hpc ?_) ?_
  · by_cases hne : i = j.item
    · rw [hne]
      exact .inl hdone
    · refine hb.base.at_frame hitem hc.known hf hi hne (hb.items i hi ?_)
      rw [hpc]
      exact fun he => hne (Option.some.inj he).symm
  · rcases hothers i hi with hmem | rfl | hd
    · exact .inl hmem
    · exact .inr hdone
    · exact .inr (hb.base.done_frame hitem hc.known hf i hi hd)
  · simp only [Pc.rank]
    omega
  · rw [hpc]
    exact ⟨rfl, rfl⟩

/-! ### The beginning and the end of a call -/

theorem Busy.complete (hb : Busy h key plan id w) (hpc : w.pc = .complete)
    (hok : h.advance env id w = .ok h') (hi : Inv h') : Next h h' key plan id w := by
  have hat := hb.pc
  rw [hpc] at hat
  simp only [Host.advance, hpc, bind_eq_ok, pure_eq_ok] at hok
  obtain ⟨-, -, rfl⟩ := hok
  refine hb.along hpc hi (hb.holding hpc rfl) rfl hat ?_ ⟨rfl, rfl⟩
  simp only [Pc.rank]
  omega

/-- A worker that is the only one goes to another point. -/
theorem Busy.alone (hb : Busy h key plan id w) {x : Host} {w' : Worker}
    (hworkers : x.workers = h.workers.set id w') :
    x.workers id = some w' ∧ ∀ i, i ≠ id → x.workers i = none := by
  rw [hworkers]
  exact ⟨Table.set_same .., fun i hne => (Table.set_of_ne _ _ _ hne).trans (hb.workers i hne)⟩

/-- An item that is done stays so when its row is only counted. -/
theorem Done.count (hd : Done rows files plan item) (q : DirId → Row → Bool) :
    Done (rows.updateWhere q fun row => { row with generation := row.generation + 1 }) files plan
      item := by
  obtain ⟨row, hrow, hprincipal, hstate, hgen, hfinal⟩ := hd
  rcases rows.updateWhere_cases (fun row => { row with generation := row.generation + 1 }) q
    item.id with hs | ⟨row', hrow', -, hs⟩
  · exact ⟨row, hs.trans hrow, hprincipal, hstate, hgen, hfinal⟩
  · rw [hrow] at hrow'
    cases hrow'
    refine ⟨_, hs, hprincipal, hstate, Nat.lt_succ_of_lt hgen, ?_⟩
    cases ha : plan.action <;> rw [ha] at hfinal <;> exact hfinal

/-- The last transaction: the operation is complete. -/
theorem Busy.close (hb : Busy h key plan id w) (hpc : w.pc = .closing)
    (hi : Inv (h.close id w)) : Next h (h.close id w) key plan id w := by
  have hat := hb.pc
  rw [hpc] at hat
  have hdone : ∀ i ∈ plan.items, Done (h.close id w).rows (h.close id w).files plan i := by
    intro i hi
    rw [Host.close]
    split_ifs
    · exact (hat i hi).count _
    · exact hat i hi
  have hops : (h.close id w).operations = h.operations.set key .completed := by
    rw [Host.close, hb.mine]
    split_ifs <;> rfl
  have hplans : (h.close id w).plans = h.plans := by
    rw [Host.close]
    split_ifs <;> rfl
  have hleases : (h.close id w).leases = h.leases ∧ (h.close id w).now = h.now := by
    rw [Host.close]
    split_ifs <;> exact ⟨rfl, rfl⟩
  have hpins : (h.close id w).pins = h.pins := by
    rw [Host.close]
    split_ifs <;> rfl
  have hworkers : (h.close id w).workers = h.workers.set id { w with pc := .releasing } := by
    rw [Host.close]
    split_ifs <;> rfl
  obtain ⟨hworker, hothers⟩ := hb.alone hworkers
  refine .goes { w with pc := .releasing } ⟨⟨hi, hplans ▸ hb.base.stored, hb.base.same, ?_,
    ⟨.completed, ?_, fun _ => hdone⟩⟩, hworker, hothers, hb.mine, hb.given, ?_,
    fun i hi _ => .inl (hdone i hi), trivial⟩ ?_ fun hl => ⟨?_, fun e hc => (by cases hc),
      fun _ => ?_⟩
  · rw [hleases.1, hleases.2]
    exact hb.base.lease
  · rw [hops]
    exact Table.set_same ..
  · rw [hpins]
    exact hb.holding hpc rfl
  · rw [Worker.rank, Worker.rank, hpc]
    exact Nat.add_lt_add_right (show 0 < 2 by decide) _
  · have hlease := hl.lease
    rw [hpc, if_neg (fun hc => (by cases hc))] at hlease
    rw [if_neg (fun hc => (by cases hc)), hleases.1, hleases.2]
    exact hlease
  · rw [hops]
    exact Table.set_same ..

/-- The error of the call is recorded. -/
theorem Busy.failing {e : Error} (hb : Busy h key plan id w) (hpc : w.pc = .failing e)
    (hok : h.advance env id w = .ok h') (hi : Inv h') : Next h h' key plan id w := by
  simp only [Host.advance, hpc, pure_eq_ok, hb.mine] at hok
  subst hok
  obtain ⟨hworker, hothers⟩ := hb.alone
    (x := ({ h with
      operations := h.operations.update key (fun _ => true) fun _ => .blocked e }.goto id w
        .releasing)) rfl
  obtain ⟨s, hs, -⟩ := hb.base.operation
  refine .goes { w with pc := .releasing } ⟨⟨hi, hb.base.stored, hb.base.same, hb.base.lease,
    ⟨.blocked e, h.operations.update_of_selects key (fun _ => true) _ hs rfl,
      fun hc => (by cases hc)⟩⟩, hworker, hothers, hb.mine, hb.given, hb.holding hpc rfl,
    fun i hi _ => hb.every i hi, trivial⟩ ?_ fun hl => absurd hpc (hl.sound e)
  rw [Worker.rank, Worker.rank, hpc]
  exact Nat.add_lt_add_right (show 0 < 1 by decide) _

/-- The call ends. -/
theorem Busy.release (hb : Busy h key plan id w) (hpc : w.pc = .releasing)
    (hi : Inv (h.release id w)) : Next h (h.release id w) key plan id w := by
  refine .ends (hb.idle hi rfl rfl rfl rfl (fun l hl => ?_) rfl fun p => ?_) hpc rfl
  · replace hl : (if (h.leases w.key).any (·.token = w.lease) then h.leases.erase w.key
      else h.leases) key = some l := hl
    split_ifs at hl
    · exact hb.base.lease l (Table.erase_eq_some hl).2
    · exact hb.base.lease l hl
  · exact hb.unpinned hpc rfl p

/-- The call gets the lease. -/
theorem Busy.acquire (hb : Busy h key plan id w) (hpc : w.pc = .opened)
    (hok : h.acquire id w = .ok h') (hi : Inv h') : Next h h' key plan id w := by
  have hat := hb.pc
  rw [hpc] at hat
  simp only [Host.acquire, bind_eq_ok, pure_eq_ok] at hok
  obtain ⟨-, -, rfl⟩ := hok
  have hset : (h.leases.set w.key ⟨h.uuids, h.now + 600⟩) key = some ⟨h.uuids, h.now + 600⟩ := by
    rw [hb.mine]
    exact Table.set_same ..
  obtain ⟨hworker, hothers⟩ := hb.alone
    (x := { h with
      leases := h.leases.set w.key ⟨h.uuids, h.now + 600⟩
      uuids := h.uuids + 1
      workers := h.workers.set id { w with lease := h.uuids, pc := .entered } }) rfl
  refine .goes { w with lease := h.uuids, pc := .entered } ⟨⟨hi, hb.base.stored, hb.base.same,
    fun l hl => ?_, hb.base.operation⟩, hworker, hothers, hb.mine, hb.given,
    hb.holding hpc rfl, fun i hi _ => hb.every i hi, hat⟩
    ?_ fun _ => ⟨?_, fun e hc => (by cases hc), fun hc => (by cases hc)⟩
  · replace hl := hset.symm.trans hl
    cases hl
    exact le_rfl
  · rw [Worker.rank, Worker.rank, hpc]
    exact Nat.add_lt_add_right (show 5 < 6 by decide) _
  · rw [if_neg (fun hc => (by cases hc))]
    exact ⟨_, hset, rfl, Nat.lt_add_of_pos_right (by decide)⟩

/-- **A step of the worker** that does not raise: the operation comes closer to its end. -/
theorem Busy.advance (hb : Busy h key plan id w) (hok : h.advance env id w = .ok h') :
    Next h h' key plan id w := by
  have hi : Inv h' := hb.base.inv.goes
    (Goes.advance hb.base.inv (hb.base.inv.workers id w hb.worker) hok).1
  have hok' := hok
  unfold Host.advance at hok'
  cases hpc : w.pc with
  | opened =>
    rw [hpc] at hok'
    exact hb.acquire hpc hok' hi
  | entered => exact hb.entered hpc hok hi
  | next => exact hb.next hpc hok hi
  | ready item =>
    rw [hpc] at hok'
    exact hb.intend hpc hok' hi
  | placed j =>
    rw [hpc] at hok'
    exact hb.look hpc hok' hi
  | found j =>
    rw [hpc] at hok'
    exact hb.grasp hpc hok' hi
  | pinned j => exact hb.pinned hpc hok hi
  | fenced j =>
    rw [hpc] at hok'
    exact hb.slide hpc hok' hi
  | sliding j =>
    rw [hpc] at hok'
    exact hb.rename hpc hok' hi
  | moved j =>
    rw [hpc] at hok'
    exact hb.recognize hpc hok' hi
  | known j =>
    rw [hpc] at hok'
    exact hb.verify hpc hok' hi
  | verified j =>
    rw [hpc] at hok'
    simp only [pure_eq_ok] at hok'
    subst hok'
    exact hb.settle hpc hi
  | settled j =>
    rw [hpc] at hok'
    exact hb.condemn hpc hok' hi
  | condemned j =>
    rw [hpc] at hok'
    exact hb.doom hpc hok' hi
  | purging j order => exact hb.purging hpc hok hi
  | purge j order =>
    rw [hpc] at hok'
    exact hb.purgeOne hpc hok' hi
  | last j =>
    rw [hpc] at hok'
    simp only [pure_eq_ok] at hok'
    subst hok'
    exact hb.finish hpc hi
  | complete => exact hb.complete hpc hok hi
  | closing =>
    rw [hpc] at hok'
    simp only [pure_eq_ok] at hok'
    subst hok'
    exact hb.close hpc hi
  | failing e => exact hb.failing hpc hok hi
  | releasing =>
    rw [hpc] at hok'
    simp only [pure_eq_ok] at hok'
    subst hok'
    exact hb.release hpc hi

end Workspace

end PythonAI
