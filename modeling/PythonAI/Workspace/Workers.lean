import Mathlib.Data.List.Nodup
import PythonAI.Workspace.Cleanup

/-!
# What a worker of a cleanup knows

A worker knows what it holds (`Worker.Sound`): what is pinned keeps its identity and its objects,
because nothing that another process does reaches it (`Spares`), and what the registry says of an
item only grows (`Later`).  A step of a worker keeps that, and touches nothing but the object of an
approved item (`Goes.advance`, `Touched`).
-/

namespace PythonAI

open Library

namespace Workspace

variable {id id' : ℕ} {w w' : Worker} {h h' : Host} {env : Env} {j : Job}

/-! ### What the registry keeps -/

/-- The row is, or was, at the place `relative` of the workspace. -/
def Row.at (row : Row) (relative : String) : Prop :=
  relative = row.relative ∨ row.original = some relative

/-- What holds of every row. -/
structure Row.Valid (id : DirId) (row : Row) : Prop where
  /-- a directory that has no archive was never moved -/
  archive : row.archive = none → row.state = .creating ∨ row.state = .active
  /-- a directory that was purged has no place in the workspace -/
  original : row.original.isSome → row.relative = "@purged/" ++ toString id
  /-- its place is remembered -/
  purged : row.state = .purged → row.original.isSome
  /-- an archive is used by one directory -/
  home : ∀ p, row.archive = some p → ∃ root principal key, p = .payload root principal id key

/-- What a step keeps of a row that is there. -/
structure Row.Kept (id : DirId) (row row' : Row) : Prop where
  /-- what holds of every row -/
  valid : row.Valid id → row'.Valid id
  /-- a directory that was not purged keeps its place -/
  source : row'.original = none → row.original = none ∧ row'.source = row.source

theorem Row.Kept.refl (id : DirId) (row : Row) : row.Kept id row :=
  ⟨fun h => h, fun h => ⟨h, rfl⟩⟩

/-- What a step keeps of a row. -/
structure Row.Later (row row' : Row) : Prop where
  /-- the object is registered once -/
  identity : row.state ≠ .creating → row'.identity = row.identity ∧ row'.state ≠ .creating
  root : row'.root = row.root
  /-- the archive is chosen once -/
  archive : ∀ p, row.archive = some p → row'.archive = some p
  /-- the place in the workspace is not forgotten -/
  place : ∀ r, row.at r → row'.at r

theorem Row.Later.refl (row : Row) : row.Later row :=
  ⟨fun h => ⟨rfl, h⟩, rfl, fun _ h => h, fun _ h => h⟩

/-- A row whose state and generation change. -/
theorem Row.Later.of_eq {row row' : Row} (hid : row'.identity = row.identity)
    (hstate : row.state ≠ .creating → row'.state ≠ .creating) (hroot : row'.root = row.root)
    (harchive : row'.archive = row.archive) (hrel : row'.relative = row.relative)
    (horig : row'.original = row.original) : row.Later row' := by
  refine ⟨fun h => ⟨hid, hstate h⟩, hroot, fun p hp => harchive.trans hp, fun r hr => ?_⟩
  rw [Row.at, hrel, horig]
  exact hr

/-- What a step keeps of the registry. -/
structure Later (h h' : Host) : Prop where
  /-- `wl_directories` -/
  rows : ∀ id row, h.rows id = some row → ∃ row', h'.rows id = some row' ∧ row.Later row'
  /-- `wl_plans`: the payload is frozen -/
  plans : ∀ key plan, h.plans key = some plan →
    ∃ plan', h'.plans key = some plan' ∧ plan'.items = plan.items ∧ plan'.action = plan.action
  /-- `wl_operations` -/
  operations : ∀ key, (h.operations key).isSome → (h'.operations key).isSome

theorem Later.refl (h : Host) : Later h h :=
  ⟨fun _ row hrow => ⟨row, hrow, .refl row⟩, fun _ plan hplan => ⟨plan, hplan, rfl, rfl⟩,
    fun _ hop => hop⟩

/-- A step that leaves the plans and the operations. -/
theorem Later.of_rows (hplans : h'.plans = h.plans) (hops : h'.operations = h.operations)
    (hrows : ∀ id row, h.rows id = some row → ∃ row', h'.rows id = some row' ∧ row.Later row') :
    Later h h' :=
  ⟨hrows, fun _ plan hplan => ⟨plan, hplans ▸ hplan, rfl, rfl⟩, fun _ hop => hops ▸ hop⟩

theorem Later.of_eq (hrows : h'.rows = h.rows) (hplans : h'.plans = h.plans)
    (hops : h'.operations = h.operations) : Later h h' :=
  .of_rows hplans hops fun _ row hrow => ⟨row, hrows ▸ hrow, .refl row⟩

/-- A write to one row. -/
theorem later_set {rows : Table DirId Row} {k : DirId} {row row' : Row} (hrow : rows k = some row)
    (hl : row.Later row') (id : DirId) (r : Row) (hr : rows id = some r) :
    ∃ r', (rows.set k row') id = some r' ∧ r.Later r' := by
  rw [Table.set_apply]
  split_ifs with hk
  · subst hk
    rw [hrow] at hr
    cases hr
    exact ⟨row', rfl, hl⟩
  · exact ⟨r, hr, .refl r⟩

theorem later_update {rows : Table DirId Row} {k : DirId} {f : Row → Row}
    (hl : ∀ row, rows k = some row → row.Later (f row)) (id : DirId) (r : Row)
    (hr : rows id = some r) :
    ∃ r', (rows.update k (fun _ => true) f) id = some r' ∧ r.Later r' := by
  rcases rows.update_cases k (fun _ => true) f id with hs | ⟨r₁, rfl, hr₁, -, hs⟩
  · exact ⟨r, hs.trans hr, .refl r⟩
  · rw [hr] at hr₁
    cases hr₁
    exact ⟨f r, hs, hl r hr⟩

/-! ### What a process holds -/

/-- A step leaves what the processes `P` have pinned: its identity and the objects that are held
with it. -/
def Spares (P : ℕ → Prop) (h h' : Host) : Prop :=
  ∀ p pin, h.pins p = some pin → P pin.owner → h'.pins p = some pin ∧
    ∀ tree, h.files p = some tree → (∀ e ∈ pin.held, e ∈ tree.entries) →
      ∃ tree', h'.files p = some tree' ∧ tree'.ident = tree.ident ∧
        ∀ e ∈ pin.held, e ∈ tree'.entries

/-- The process `id` holds the object `ident` at a place, and the objects `held` in it. -/
def Holds (h : Host) (id : ℕ) (p : Place) (ident : Ident) (held : List Entry) : Prop :=
  h.pins p = some ⟨id, held⟩ ∧ ∃ tree, h.files p = some tree ∧ tree.ident = ident ∧
    ∀ e ∈ held, e ∈ tree.entries

variable {p : Place} {ident : Ident} {held : List Entry}

theorem Holds.spared {P : ℕ → Prop} (hh : Holds h id p ident held) (hs : Spares P h h')
    (hid : P id) : Holds h' id p ident held := by
  obtain ⟨hpin, tree, htree, hident, hheld⟩ := hh
  obtain ⟨hpin', hkeep⟩ := hs p _ hpin hid
  obtain ⟨tree', htree', hident', hheld'⟩ := hkeep tree htree hheld
  exact ⟨hpin', tree', htree', hident'.trans hident, hheld'⟩

/-- A step that leaves the pins and the files. -/
theorem Spares.of_eq {P : ℕ → Prop} (hpins : h'.pins = h.pins) (hfiles : h'.files = h.files) :
    Spares P h h' := by
  intro p pin hpin _
  refine ⟨hpins ▸ hpin, fun tree htree hheld => ⟨tree, hfiles ▸ htree, rfl, hheld⟩⟩

/-- A step that leaves the pins and the files of the other processes. -/
theorem Spares.of_others (h₁ : ∀ p pin, h.pins p = some pin → pin.owner ≠ id →
    h'.pins p = some pin ∧ h'.files p = h.files p) : Spares (· ≠ id) h h' := by
  intro p pin hpin hne
  obtain ⟨hpin', hfile⟩ := h₁ p pin hpin hne
  exact ⟨hpin', fun tree htree hheld => ⟨tree, hfile.trans htree, rfl, hheld⟩⟩

/-- The user cannot touch what is pinned. -/
theorem spares_edit (h : Host) (q : Place) (t : Option Tree) : Spares (fun _ => True) h (h.edit q t) := by
  intro p pin hpin _
  unfold Host.edit
  split_ifs with hal
  · refine ⟨hpin, fun tree htree hheld => ?_⟩
    by_cases hp : p = q
    · subst hp
      rw [Host.allowed, hpin, htree] at hal
      cases t with
      | none => cases hal
      | some new =>
        simp only [Bool.and_eq_true, decide_eq_true_eq, List.all_eq_true] at hal
        exact ⟨new, if_pos rfl, hal.1, hal.2⟩
    · exact ⟨tree, (if_neg hp).trans htree, rfl, hheld⟩
  · exact ⟨hpin, fun tree htree hheld => ⟨tree, htree, rfl, hheld⟩⟩

/-- A process releases what it holds. -/
theorem spares_unpin (h : Host) (id : ℕ) : Spares (· ≠ id) h (h.unpin id) := by
  refine .of_others fun p pin hpin hne => ⟨?_, rfl⟩
  show (h.pins.deleteWhere fun _ pin => decide (pin.owner = id)) p = some pin
  rw [Table.deleteWhere_eq_some]
  exact ⟨hpin, decide_eq_false hne⟩

/-! ### What a worker knows -/

/-- What the registry says of the item that a worker is at. -/
structure Job.Sound (h : Host) (plan : Plan) (j : Job) : Prop where
  /-- the item is one of the plan -/
  item : j.item ∈ plan.items
  /-- the row is the one of the approved object, and the places are its own -/
  row : ∃ row, h.rows j.item.id = some row ∧ row.state ≠ .creating ∧
    row.identity = some j.item.manifest.ident ∧ j.row.identity = row.identity ∧
    j.row.root = row.root ∧ row.at j.row.relative ∧ row.archive = some j.dest

/-- What a worker of `plan` knows at a point of `resume`. -/
def Pc.Sound (h : Host) (id : ℕ) (plan : Plan) : Pc → Prop
  | .ready item => item ∈ plan.items
  | .placed j | .found j | .moved j | .known j | .verified j | .settled j | .last j =>
    j.Sound h plan
  | .condemned j => j.Sound h plan ∧ plan.action = .deleteSession
  | .pinned j | .fenced j =>
    j.Sound h plan ∧
      Holds h id (j.origin plan.action) j.item.manifest.ident j.item.manifest.entries
  | .sliding j => j.Sound h plan ∧ Holds h id (j.origin plan.action) j.item.manifest.ident []
  | .purging j order | .purge j order =>
    j.Sound h plan ∧ plan.action = .deleteSession ∧ order.Nodup ∧
      (∀ e ∈ order, e ∈ j.item.manifest.entries) ∧ Holds h id j.dest j.item.manifest.ident order
  | .opened | .entered | .next | .complete | .closing | .failing _ | .releasing => True

/-- What a worker knows. -/
structure Worker.Sound (h : Host) (id : ℕ) (w : Worker) : Prop where
  /-- the plan is the one that was approved -/
  plan : ∃ plan, h.plans w.key = some plan ∧ plan.items = w.plan.items ∧
    plan.action = w.plan.action
  /-- the operation was begun -/
  operation : (h.operations w.key).isSome
  /-- the items are those of the plan -/
  todo : ∀ item ∈ w.todo, item ∈ w.plan.items
  /-- where it is -/
  pc : w.pc.Sound h id w.plan

theorem Job.Sound.later {plan : Plan} (hj : j.Sound h plan) (hl : Later h h') :
    j.Sound h' plan := by
  obtain ⟨row, hrow, hstate, hident, hsame, hroot, hat, harchive⟩ := hj.row
  obtain ⟨row', hrow', hl'⟩ := hl.rows _ row hrow
  obtain ⟨hid', hstate'⟩ := hl'.identity hstate
  exact ⟨hj.item, row', hrow', hstate', hid'.trans hident, hsame.trans hid'.symm,
    hroot.trans hl'.root.symm, hl'.place _ hat, hl'.archive _ harchive⟩

theorem Pc.Sound.later {P : ℕ → Prop} {plan : Plan} {pc : Pc} (hp : pc.Sound h id plan)
    (hl : Later h h') (hs : Spares P h h') (hid : P id) : pc.Sound h' id plan := by
  cases pc with
  | ready | opened | entered | next | complete | closing | failing | releasing => exact hp
  | placed | found | moved | known | verified | settled | last => exact Job.Sound.later hp hl
  | condemned => exact ⟨hp.1.later hl, hp.2⟩
  | pinned | fenced | sliding => exact ⟨hp.1.later hl, hp.2.spared hs hid⟩
  | purging | purge =>
    exact ⟨hp.1.later hl, hp.2.1, hp.2.2.1, hp.2.2.2.1, hp.2.2.2.2.spared hs hid⟩

/-- What a worker knows stays. -/
theorem Worker.Sound.later {P : ℕ → Prop} (hw : w.Sound h id) (hl : Later h h')
    (hs : Spares P h h') (hid : P id) : w.Sound h' id := by
  obtain ⟨plan, hplan, hitems, haction⟩ := hw.plan
  obtain ⟨plan', hplan', hitems', haction'⟩ := hl.plans _ plan hplan
  exact ⟨⟨plan', hplan', hitems'.trans hitems, haction'.trans haction⟩,
    hl.operations _ hw.operation, hw.todo, hw.pc.later hl hs hid⟩

/-- A worker that goes on. -/
theorem Worker.Sound.goes (hw : w.Sound h id) (hl : Later h h')
    {todo : List Item} (htodo : ∀ item ∈ todo, item ∈ w.plan.items) {pc : Pc}
    (hpc : pc.Sound h' id w.plan) : ({ w with todo := todo, pc := pc } : Worker).Sound h' id := by
  obtain ⟨plan, hplan, hitems, haction⟩ := hw.plan
  obtain ⟨plan', hplan', hitems', haction'⟩ := hl.plans _ plan hplan
  exact ⟨⟨plan', hplan', hitems'.trans hitems, haction'.trans haction⟩,
    hl.operations _ hw.operation, htodo, hpc⟩

/-- The states in which a directory may be planned. -/
def Action.admits : Action → DirState → Prop
  | .restore, s => s = .archived
  | .archive, s => s = .active
  | .deleteSession, s => s = .active ∨ s = .archived

/-- What holds of a host in any order of steps. -/
structure Inv (h : Host) : Prop where
  /-- the rows -/
  rows : ∀ id row, h.rows id = some row → row.Valid id ∧ id < h.uuids
  /-- no two directories are at the same place of a workspace -/
  sources : ∀ k k' row row', k ≠ k' → h.rows k = some row → h.rows k' = some row' →
    row.original = none → row'.original = none → row.source ≠ row'.source
  /-- the plans: each item is a registered object -/
  plans : ∀ key plan, h.plans key = some plan → key < h.uuids ∧
    (∀ item ∈ plan.items, plan.action.admits item.state) ∧
    ∀ item ∈ plan.items, ∃ row, h.rows item.id = some row ∧ row.state ≠ .creating ∧
      row.identity = some item.manifest.ident
  /-- the workers -/
  workers : ∀ id w, h.workers id = some w → w.Sound h id

/-! ### The steps of a worker -/

/-- What a step of the worker `id` keeps. -/
structure Goes (h h' : Host) (id : ℕ) : Prop where
  /-- of the registry -/
  later : Later h h'
  /-- of what the other processes hold -/
  spares : Spares (· ≠ id) h h'
  /-- of the rows: none is added -/
  rows : ∀ k row', h'.rows k = some row' → ∃ row, h.rows k = some row ∧ row.Kept k row'
  /-- of the operations: none is begun -/
  operations : ∀ key, (h'.operations key).isSome → (h.operations key).isSome
  /-- of the plans -/
  plans : h'.plans = h.plans
  /-- of the ids -/
  uuids : h.uuids ≤ h'.uuids
  /-- of the other workers -/
  others : ∀ id', id' ≠ id → h'.workers id' = h.workers id'
  /-- what the worker knows then -/
  own : ∀ w', h'.workers id = some w' → w'.Sound h' id

theorem rows_eq {h h' : Host} (hrows : h'.rows = h.rows) (k : DirId) (row' : Row)
    (hrow' : h'.rows k = some row') : ∃ row, h.rows k = some row ∧ row.Kept k row' :=
  ⟨row', hrows ▸ hrow', .refl k row'⟩

theorem ops_eq {h h' : Host} (hops : h'.operations = h.operations) (key : PlanId)
    (hop : (h'.operations key).isSome) : (h.operations key).isSome :=
  hops ▸ hop

/-- A worker goes on in a host `x` that has its own registry, files and pins. -/
theorem Goes.goto {x : Host} {pc : Pc} (hw : w.Sound h id) (hl : Later h x)
    (hs : Spares (· ≠ id) h x)
    (hrows : ∀ k row', x.rows k = some row' → ∃ row, h.rows k = some row ∧ row.Kept k row')
    (hops : ∀ key, (x.operations key).isSome → (h.operations key).isSome)
    (hplans : x.plans = h.plans) (huuids : h.uuids ≤ x.uuids) (hworkers : x.workers = h.workers)
    (hpc : pc.Sound x id w.plan) : Goes h (x.goto id w pc) id := by
  have hl' : Later h (x.goto id w pc) := ⟨hl.rows, hl.plans, hl.operations⟩
  refine ⟨hl', hs, hrows, hops, hplans, huuids, fun id' hne => ?_, fun w' hw' => ?_⟩
  · exact (Table.set_of_ne _ _ _ hne).trans (by rw [hworkers])
  · have hset : (x.goto id w pc).workers id = some { w with pc := pc } := Table.set_same ..
    rw [hset] at hw'
    cases hw'
    exact hw.goes hl' hw.todo (hpc.later (P := fun _ => True) (.of_eq rfl rfl rfl)
      (.of_eq rfl rfl) trivial)

/-- A worker goes on, and nothing else changes. -/
theorem Goes.stays {pc : Pc} (hw : w.Sound h id) (hpc : pc.Sound h id w.plan) :
    Goes h (h.goto id w pc) id :=
  .goto hw (.refl h) (.of_eq rfl rfl) (rows_eq rfl) (ops_eq rfl) rfl le_rfl rfl hpc

/-- The file system after a step of a worker. -/
inductive Touched (h h' : Host) (plan : Plan) : Prop
  /-- nothing is touched -/
  | same (heq : h'.files = h.files)
  /-- the object of an item is moved, and replaces nothing -/
  | moved (j : Job) (hj : j.Sound h plan) (tree : Tree)
      (hident : tree.ident = j.item.manifest.ident)
      (horigin : h.files (j.origin plan.action) = some tree)
      (htarget : h.files (j.target plan.action) = none)
      (heq : h'.files = (h.files.erase (j.origin plan.action)).set (j.target plan.action) tree)
  /-- an object of the manifest of an item is deleted in the archive -/
  | deleted (j : Job) (hj : j.Sound h plan) (haction : plan.action = .deleteSession)
      (tree : Tree) (hident : tree.ident = j.item.manifest.ident)
      (htree : h.files j.dest = some tree) (e : Entry) (he : e ∈ j.item.manifest.entries)
      (heq : h'.files = h.files.set j.dest (tree.remove e))
  /-- the directory of an item is deleted in the archive, and it is empty -/
  | emptied (j : Job) (hj : j.Sound h plan) (haction : plan.action = .deleteSession)
      (tree : Tree) (hident : tree.ident = j.item.manifest.ident)
      (htree : h.files j.dest = some tree) (hempty : tree.entries = [])
      (heq : h'.files = h.files.erase j.dest)

/-- The job of a row that was just read. -/
theorem Job.Sound.of_read (hi : Inv h) {plan plan' : Plan} {key : PlanId}
    (hplan : h.plans key = some plan') (hitems : plan'.items = plan.items) {item : Item}
    (hitem : item ∈ plan.items) {row : Row} (hrow : h.rows item.id = some row) :
    row.state ≠ .creating ∧ row.identity = some item.manifest.ident := by
  obtain ⟨row', hrow', hstate, hident⟩ := (hi.plans key plan' hplan).2.2 item (hitems ▸ hitem)
  rw [hrow] at hrow'
  cases hrow'
  exact ⟨hstate, hident⟩

/-- The first transaction of an item. -/
theorem Goes.intend (hi : Inv h) (hw : w.Sound h id) {item : Item} (hitem : item ∈ w.plan.items)
    (hok : h.intend env id w item = .ok h') : Goes h h' id ∧ h'.files = h.files := by
  simp only [Host.intend, bind_eq_ok, Host.get, require_eq_ok, Option.filter_eq_some_iff] at hok
  obtain ⟨row, ⟨hrow, -⟩, hok⟩ := hok
  obtain ⟨plan, hplan, hitems, haction⟩ := hw.plan
  obtain ⟨hstate, hident⟩ := Job.Sound.of_read hi hplan hitems hitem hrow
  split at hok
  · simp only [pure_eq_ok] at hok
    subst hok
    exact ⟨.stays hw trivial, rfl⟩
  simp only [bind_eq_ok] at hok
  obtain ⟨-, -, -, -, -, -, hok⟩ := hok
  split_ifs at hok with hmoving
  · simp only [pure_eq_ok] at hok
    subst hok
    have hl : row.Later { row with
        state := w.plan.action.begun, archive := some (row.archive.getD (trash item.id row w.key))
        manifest := some item.manifest } := by
      refine ⟨fun _ => ⟨rfl, ?_⟩, rfl, fun p hp => ?_, fun r hr => hr⟩
      · cases w.plan.action <;> simp [Action.begun]
      · simp [hp]
    refine ⟨.goto hw ?_ ?_ ?_ (ops_eq rfl) rfl le_rfl rfl ?_, rfl⟩
    · exact .of_rows rfl rfl (later_set hrow hl)
    · exact .of_eq rfl rfl
    · intro k row' hrow'
      replace hrow' : (h.rows.set item.id _) k = some row' := hrow'
      rw [Table.set_apply] at hrow'
      split_ifs at hrow' with hk
      · cases hrow'
        refine ⟨row, hk ▸ hrow, fun hv => ⟨fun hnone => ?_, hv.original, fun hp => ?_,
          fun p hp => ?_⟩, fun ho => ⟨ho, rfl⟩⟩
        · cases hnone
        · cases haction' : w.plan.action <;> simp [haction', Action.begun] at hp
        · cases harchive : row.archive with
          | none =>
            simp only [harchive, Option.getD_none, Option.some.injEq] at hp
            exact ⟨_, _, _, by rw [← hp, trash, hk]⟩
          | some q =>
            simp only [harchive, Option.getD_some, Option.some.injEq] at hp
            exact hv.home p (by rw [harchive, hp])
      · exact ⟨row', hrow', .refl k row'⟩
    · exact ⟨hitem, _, Table.set_same .., hl.identity hstate |>.2, hident, rfl, rfl, .inl rfl, rfl⟩
  · simp only [pure_eq_ok] at hok
    subst hok
    -- A directory that has no archive is `active`, and would be moved.
    have harchive : row.archive ≠ none := by
      intro hnone
      rcases (hi.rows _ row hrow).1.archive hnone with hc | hc
      · exact hstate hc
      · exact hmoving (by simp [Action.moving, hc])
    obtain ⟨dest, hdest⟩ := Option.ne_none_iff_exists'.1 harchive
    refine ⟨.stays hw ⟨hitem, row, hrow, hstate, hident, rfl, rfl, .inl rfl, ?_⟩, rfl⟩
    rw [hdest]
    rfl

theorem pin_ok {p : Place} {tree : Tree} (hok : h.pin env p = .ok tree) :
    h.files p = some tree ∧ h.pins p = none := by
  simp only [Host.pin, bind_eq_ok, require_eq_ok, ensure_eq_ok, Option.isNone_iff_eq_none,
    pure_eq_ok] at hok
  obtain ⟨tree', htree, -, hfree, -, -, rfl⟩ := hok
  exact ⟨htree, hfree⟩

theorem Goes.look (hw : w.Sound h id) (hj : j.Sound h w.plan)
    (hok : h.look id w j = .ok h') : Goes h h' id ∧ h'.files = h.files := by
  simp only [Host.look, bind_eq_ok] at hok
  obtain ⟨-, -, hok⟩ := hok
  split at hok
  · simp only [bind_eq_ok, pure_eq_ok] at hok
    obtain ⟨-, -, rfl⟩ := hok
    exact ⟨.stays hw hj, rfl⟩
  · simp only [bind_eq_ok, pure_eq_ok] at hok
    obtain ⟨-, -, rfl⟩ := hok
    exact ⟨.stays hw hj, rfl⟩

/-- A pin on a place that nobody holds. -/
theorem spares_pin {p : Place} (hfree : h.pins p = none) (pin : Pin) :
    Spares (· ≠ id) h { h with pins := h.pins.set p pin } := by
  refine .of_others fun q pin' hpin' _ => ⟨?_, rfl⟩
  have hne : q ≠ p := by
    rintro rfl
    rw [hfree] at hpin'
    cases hpin'
  exact (Table.set_of_ne _ _ _ hne).trans hpin'

/-- A change to a place that the process itself holds. -/
theorem spares_own {p : Place} {held : List Entry} (hpin : h.pins p = some ⟨id, held⟩)
    {pins : Table Place Pin} {files : Table Place Tree}
    (hpins : ∀ q, q ≠ p → pins q = h.pins q) (hfiles : ∀ q, q ≠ p → files q = h.files q) :
    Spares (· ≠ id) h { h with pins := pins, files := files } := by
  refine .of_others fun q pin' hpin' hne => ?_
  have hq : q ≠ p := by
    rintro rfl
    rw [hpin] at hpin'
    cases hpin'
    exact hne rfl
  exact ⟨(hpins q hq).trans hpin', hfiles q hq⟩

theorem Goes.grasp (hw : w.Sound h id) (hj : j.Sound h w.plan)
    (hok : h.grasp env id w j = .ok h') : Goes h h' id ∧ h'.files = h.files := by
  simp only [Host.grasp, bind_eq_ok, ensure_eq_ok, decide_eq_true_eq, pure_eq_ok] at hok
  obtain ⟨tree, hpin, -, htree, rfl⟩ := hok
  obtain ⟨hfile, hfree⟩ := pin_ok hpin
  subst htree
  refine ⟨.goto hw (.of_eq rfl rfl rfl) (spares_pin hfree _) (rows_eq rfl) (ops_eq rfl) rfl
    le_rfl rfl ⟨hj.later (.of_eq rfl rfl rfl), ?_⟩, rfl⟩
  exact ⟨Table.set_same .., _, hfile, rfl, fun e he => he⟩

theorem Goes.slide (hw : w.Sound h id) (hj : j.Sound h w.plan)
    (hh : Holds h id (j.origin w.plan.action) j.item.manifest.ident j.item.manifest.entries)
    (hok : h.slide env id w j = .ok h') : Goes h h' id ∧ h'.files = h.files := by
  simp only [Host.slide, bind_eq_ok, pure_eq_ok] at hok
  obtain ⟨-, -, -, -, rfl⟩ := hok
  obtain ⟨hpin, tree, htree, hident, -⟩ := hh
  refine ⟨.goto hw (.of_eq rfl rfl rfl) (spares_own hpin (fun q hq => Table.set_of_ne _ _ _ hq)
    fun _ _ => rfl) (rows_eq rfl) (ops_eq rfl) rfl le_rfl rfl
    ⟨hj.later (.of_eq rfl rfl rfl), ?_⟩, rfl⟩
  exact ⟨Table.set_same .., tree, htree, hident, fun e he => by cases he⟩

theorem Goes.rename (hw : w.Sound h id) (hj : j.Sound h w.plan)
    (hh : Holds h id (j.origin w.plan.action) j.item.manifest.ident [])
    (hok : h.rename env id w j = .ok h') : Goes h h' id ∧ Touched h h' w.plan := by
  simp only [Host.rename, bind_eq_ok, ensure_eq_ok, Option.isNone_iff_eq_none, require_eq_ok,
    pure_eq_ok] at hok
  obtain ⟨-, -, -, htarget, tree, htree, rfl⟩ := hok
  obtain ⟨hpin, tree', htree', hident, -⟩ := hh
  rw [htree] at htree'
  cases htree'
  refine ⟨.goto hw (.of_eq rfl rfl rfl) ?_ (rows_eq rfl) (ops_eq rfl) rfl le_rfl rfl
    (hj.later (.of_eq rfl rfl rfl)), .moved j hj tree hident htree htarget rfl⟩
  intro q pin hpin' hne
  have hq : q ≠ j.origin w.plan.action := by
    rintro rfl
    rw [hpin] at hpin'
    cases hpin'
    exact hne rfl
  refine ⟨(Table.erase_of_ne _ _ hq).trans hpin', fun tree' htree' hheld => ?_⟩
  have hq' : q ≠ j.target w.plan.action := by
    rintro rfl
    rw [htarget] at htree'
    cases htree'
  exact ⟨tree', (Table.set_of_ne _ _ _ hq').trans ((Table.erase_of_ne _ _ hq).trans htree'), rfl,
    hheld⟩

theorem Goes.recognize (hw : w.Sound h id) (hj : j.Sound h w.plan)
    (hok : h.recognize id w j = .ok h') : Goes h h' id ∧ h'.files = h.files := by
  simp only [Host.recognize, bind_eq_ok, pure_eq_ok] at hok
  obtain ⟨ident, -, -, -, rfl⟩ := hok
  exact ⟨.stays hw hj, rfl⟩

theorem Goes.verify (hw : w.Sound h id) (hj : j.Sound h w.plan)
    (hok : h.verify env id w j = .ok h') : Goes h h' id ∧ h'.files = h.files := by
  simp only [Host.verify, bind_eq_ok, pure_eq_ok] at hok
  obtain ⟨tree, -, -, -, rfl⟩ := hok
  exact ⟨.stays hw hj, rfl⟩

/-- A worker writes the row of its item: that has an archive. -/
theorem rows_written {plan : Plan} (hj : j.Sound h plan) {f : Row → Row}
    (hkept : ∀ row : Row, row.archive.isSome → row.Kept j.item.id (f row))
    {h' : Host} (hrows : h'.rows = h.rows.update j.item.id (fun _ => true) f) (k : DirId)
    (row' : Row) (hrow' : h'.rows k = some row') :
    ∃ row, h.rows k = some row ∧ row.Kept k row' := by
  obtain ⟨row, hrow, -, -, -, -, -, harchive⟩ := hj.row
  rw [hrows] at hrow'
  rcases h.rows.update_cases j.item.id (fun _ => true) f k with hs | ⟨row₁, rfl, hrow₁, -, hs⟩
  · rw [hs] at hrow'
    exact ⟨row', hrow', .refl k row'⟩
  · rw [hs] at hrow'
    cases hrow'
    rw [hrow] at hrow₁
    cases hrow₁
    exact ⟨row, hrow, hkept row (by rw [harchive]; rfl)⟩

/-- A directory that has an archive goes to another state. -/
theorem kept_state {k : DirId} {row : Row} {state : DirState} (hne : state ≠ .purged)
    (harchive : row.archive.isSome) : row.Kept k { row with state := state } := by
  refine ⟨fun hv => ⟨fun hnone => ?_, hv.original, fun hp => absurd hp hne, hv.home⟩,
    fun ho => ⟨ho, rfl⟩⟩
  replace hnone : row.archive = none := hnone
  rw [hnone] at harchive
  cases harchive

theorem later_state {row : Row} {state : DirState} (hne : state ≠ .creating) :
    row.Later { row with state := state } :=
  .of_eq rfl (fun _ => hne) rfl rfl rfl rfl

theorem Goes.settle (hw : w.Sound h id) (hj : j.Sound h w.plan) :
    Goes h (h.settle id w j) id := by
  have hne : w.plan.action.moved ≠ .creating := by
    cases w.plan.action <;> intro hc <;> cases hc
  have hpurged : w.plan.action.moved ≠ .purged := by
    cases w.plan.action <;> intro hc <;> cases hc
  have hl : Later h { h with
      rows := h.rows.update j.item.id (fun _ => true) fun row =>
        { row with state := w.plan.action.moved } } :=
    .of_rows rfl rfl (later_update fun row _ => later_state hne)
  exact .goto hw hl (.of_eq rfl rfl)
    (rows_written hj (fun row harchive => kept_state hpurged harchive) rfl) (ops_eq rfl) rfl
    le_rfl rfl (hj.later hl)

theorem Goes.condemn (hw : w.Sound h id) (hj : j.Sound h w.plan)
    (hok : h.condemn id w j = .ok h') : Goes h h' id ∧ h'.files = h.files := by
  unfold Host.condemn at hok
  split at hok
  · simp only [pure_eq_ok] at hok
    subst hok
    exact ⟨.stays hw hj, rfl⟩
  rename_i haction
  rw [not_not] at haction
  simp only [bind_eq_ok, Host.get, require_eq_ok, Option.filter_eq_some_iff] at hok
  obtain ⟨row, ⟨hrow, -⟩, hok⟩ := hok
  -- The row is read again: it is the same object at the same places.
  have hj' : Job.Sound h w.plan { j with row := row } := by
    obtain ⟨row₁, hrow₁, hstate, hident, -, -, -, harchive⟩ := hj.row
    rw [hrow] at hrow₁
    cases hrow₁
    exact ⟨hj.item, row, hrow, hstate, hident, rfl, rfl, .inl rfl, harchive⟩
  split at hok
  · simp only [bind_eq_ok, pure_eq_ok] at hok
    obtain ⟨-, -, rfl⟩ := hok
    exact ⟨.stays hw ⟨hj', haction⟩, rfl⟩
  · simp only [bind_eq_ok, pure_eq_ok] at hok
    obtain ⟨-, -, rfl⟩ := hok
    exact ⟨.stays hw hj', rfl⟩

/-- A covered tree is the approved object, with approved objects in it. -/
theorem covers_eq {t t' : Tree} (h : t.covers t' = true) :
    t'.ident = t.ident ∧ ∀ e ∈ t'.entries, e ∈ t.entries := by
  simp only [Tree.covers, Bool.and_eq_true, decide_eq_true_eq, List.all_eq_true] at h
  exact ⟨h.1, fun e he => List.mem_of_find?_eq_some (h.2 e he)⟩

theorem purgeOrder_perm (t : Tree) : t.purgeOrder.Perm t.entries := List.mergeSort_perm ..

theorem entries_nodup (t : Tree) : t.entries.Nodup :=
  List.Nodup.of_map (fun e : Entry => e.path) t.paths

theorem Goes.doom (hw : w.Sound h id) (hj : j.Sound h w.plan)
    (haction : w.plan.action = .deleteSession) (hok : h.doom env id w j = .ok h') :
    Goes h h' id ∧ h'.files = h.files := by
  simp only [Host.doom, bind_eq_ok, ensure_eq_ok, pure_eq_ok] at hok
  obtain ⟨tree, hpin, -, -, -, hcovers, rfl⟩ := hok
  obtain ⟨hfile, hfree⟩ := pin_ok hpin
  obtain ⟨hident, hentries⟩ := covers_eq hcovers
  have hperm := purgeOrder_perm tree
  have hpurging : DirState.purging ≠ .purged := fun hc => by cases hc
  have hl : Later h { h with
      rows := h.rows.update j.item.id (fun _ => true) fun row => { row with state := .purging }
      pins := h.pins.set j.dest ⟨id, tree.purgeOrder⟩ } :=
    .of_rows rfl rfl (later_update fun row _ => later_state (by intro hc; cases hc))
  refine ⟨.goto hw hl (spares_pin hfree _)
    (rows_written hj (fun row harchive => kept_state hpurging harchive) rfl) (ops_eq rfl) rfl
    le_rfl rfl ⟨hj.later hl, haction, hperm.nodup_iff.2 (entries_nodup tree),
      fun e he => hentries e (hperm.mem_iff.1 he), Table.set_same .., tree, hfile, hident,
      fun e he => hperm.mem_iff.1 he⟩, rfl⟩

theorem Goes.purgeOne (hw : w.Sound h id) (hj : j.Sound h w.plan)
    (haction : w.plan.action = .deleteSession) {order : List Entry} (hnodup : order.Nodup)
    (happroved : ∀ e ∈ order, e ∈ j.item.manifest.entries)
    (hh : Holds h id j.dest j.item.manifest.ident order)
    (hok : h.purgeOne env id w j order = .ok h') : Goes h h' id ∧ Touched h h' w.plan := by
  simp only [Host.purgeOne, bind_eq_ok, require_eq_ok] at hok
  obtain ⟨-, -, tree, htree, hok⟩ := hok
  obtain ⟨hpin, tree', htree', hident, hheld⟩ := hh
  rw [htree] at htree'
  cases htree'
  split at hok
  · next e order =>
    simp only [bind_eq_ok, pure_eq_ok] at hok
    obtain ⟨-, -, rfl⟩ := hok
    obtain ⟨hnot, hnodup'⟩ := List.nodup_cons.1 hnodup
    refine ⟨.goto hw (.of_eq rfl rfl rfl) (spares_own hpin (fun q hq => Table.set_of_ne _ _ _ hq)
      fun q hq => Table.set_of_ne _ _ _ hq) (rows_eq rfl) (ops_eq rfl) rfl le_rfl rfl
      ⟨hj.later (.of_eq rfl rfl rfl), haction, hnodup',
        fun e' he' => happroved e' (List.mem_cons_of_mem _ he'), Table.set_same .., tree.remove e,
        Table.set_same .., hident, fun e' he' => ?_⟩,
      .deleted j hj haction tree hident htree e (happroved e List.mem_cons_self) rfl⟩
    have hne : e' ≠ e := by
      rintro rfl
      exact hnot he'
    exact (List.mem_erase_of_ne hne).2 (hheld e' (List.mem_cons_of_mem _ he'))
  · simp only [bind_eq_ok, ensure_eq_ok, List.isEmpty_iff, pure_eq_ok] at hok
    obtain ⟨-, hempty, rfl⟩ := hok
    exact ⟨.goto hw (.of_eq rfl rfl rfl) (spares_own hpin
      (fun q hq => Table.erase_of_ne _ _ hq) fun q hq => Table.erase_of_ne _ _ hq) (rows_eq rfl)
      (ops_eq rfl) rfl le_rfl rfl (hj.later (.of_eq rfl rfl rfl)),
      .emptied j hj haction tree hident htree hempty rfl⟩

/-- The last update of an item keeps the row. -/
theorem later_final (id : DirId) (a : Action) {row : Row} (hv : row.Valid id) :
    row.Later (Host.finalRow id a row) := by
  cases a with
  | archive | restore => exact .of_eq rfl (fun _ hc => by cases hc) rfl rfl rfl rfl
  | deleteSession =>
    refine ⟨fun _ => ⟨rfl, fun hc => by cases hc⟩, rfl, fun _ hp => hp, fun r hr => ?_⟩
    cases horig : row.original with
    | none =>
      rcases hr with rfl | hr
      · exact .inr (by rw [Host.finalRow, horig]; rfl)
      · rw [horig] at hr
        cases hr
    | some o =>
      rcases hr with rfl | hr
      · exact .inl (hv.original (by rw [horig]; rfl))
      · rw [horig] at hr
        cases hr
        exact .inr (by rw [Host.finalRow, horig]; rfl)

theorem kept_final (id : DirId) (a : Action) {row : Row} (harchive : row.archive.isSome) :
    row.Kept id (Host.finalRow id a row) := by
  have hsome : (Host.finalRow id a row).archive = row.archive := by cases a <;> rfl
  refine ⟨fun hv => ⟨fun hnone => ?_, ?_, ?_, fun p hp => hv.home p (hsome ▸ hp)⟩, fun ho => ?_⟩
  · rw [hsome] at hnone
    rw [hnone] at harchive
    cases harchive
  · cases a with
    | archive | restore => exact hv.original
    | deleteSession => exact fun _ => rfl
  · cases a with
    | archive | restore => intro hp; cases hp
    | deleteSession => exact fun _ => rfl
  · cases a with
    | archive | restore => exact ⟨ho, rfl⟩
    | deleteSession => cases ho

theorem Goes.finish (hi : Inv h) (hw : w.Sound h id) (hj : j.Sound h w.plan) :
    Goes h (h.finish id w j) id := by
  have hl : Later h { h with
      rows := h.rows.update j.item.id (fun _ => true)
        (Host.finalRow j.item.id w.plan.action) } :=
    .of_rows rfl rfl (later_update fun row hrow => later_final _ _ (hi.rows _ row hrow).1)
  exact .goto hw hl (.of_eq rfl rfl)
    (rows_written hj (fun row harchive => kept_final _ _ harchive) rfl) (ops_eq rfl) rfl le_rfl rfl
    trivial

theorem Goes.acquire (hw : w.Sound h id) (hok : h.acquire id w = .ok h') :
    Goes h h' id ∧ h'.files = h.files := by
  simp only [Host.acquire, bind_eq_ok, pure_eq_ok] at hok
  obtain ⟨-, -, rfl⟩ := hok
  refine ⟨⟨.of_eq rfl rfl rfl, .of_eq rfl rfl, rows_eq rfl, ops_eq rfl, rfl, Nat.le_succ _,
    fun id' hne => Table.set_of_ne _ _ _ hne, fun w' hw' => ?_⟩, rfl⟩
  have hset : (h.workers.set id { w with lease := h.uuids, pc := .entered }) id = some w' := hw'
  rw [Table.set_same] at hset
  cases hset
  exact ⟨hw.plan, hw.operation, hw.todo, trivial⟩

theorem Goes.close (hw : w.Sound h id) : Goes h (h.close id w) id ∧
    (h.close id w).files = h.files := by
  have hops : ∀ key, (h.operations key).isSome →
      ((h.operations.set w.key .completed) key).isSome := by
    intro key hkey
    rw [Table.set_apply]
    split_ifs
    · rfl
    · exact hkey
  have hbegun : ∀ key, ((h.operations.set w.key .completed) key).isSome →
      (h.operations key).isSome := by
    intro key hkey
    rw [Table.set_apply] at hkey
    split_ifs at hkey with hk
    · exact hk ▸ hw.operation
    · exact hkey
  unfold Host.close
  split_ifs with haction
  · refine ⟨.goto hw ⟨fun k row hrow => ?_, fun _ plan hplan => ⟨plan, hplan, rfl, rfl⟩, hops⟩
      (.of_eq rfl rfl) (fun k row' hrow' => ?_) hbegun rfl le_rfl rfl trivial, rfl⟩
    · rcases h.rows.updateWhere_cases (fun row => { row with generation := row.generation + 1 })
        (fun id _ => w.plan.kept.any (·.id = id)) k with hs | ⟨row₁, hrow₁, -, hs⟩
      · exact ⟨row, hs.trans hrow, .refl row⟩
      · rw [hrow] at hrow₁
        cases hrow₁
        exact ⟨_, hs, .of_eq rfl (fun hc => hc) rfl rfl rfl rfl⟩
    · rcases h.rows.updateWhere_cases (fun row => { row with generation := row.generation + 1 })
        (fun id _ => w.plan.kept.any (·.id = id)) k with hs | ⟨row₁, hrow₁, -, hs⟩
      · exact ⟨row', hs.symm.trans hrow', .refl k row'⟩
      · have hrow : some { row₁ with generation := row₁.generation + 1 } = some row' :=
          hs.symm.trans hrow'
        cases hrow
        exact ⟨row₁, hrow₁, fun hv => ⟨hv.archive, hv.original, hv.purged, hv.home⟩,
          fun ho => ⟨ho, rfl⟩⟩
  · exact ⟨.goto hw ⟨fun _ row hrow => ⟨row, hrow, .refl row⟩,
      fun _ plan hplan => ⟨plan, hplan, rfl, rfl⟩, hops⟩ (.of_eq rfl rfl) (rows_eq rfl) hbegun rfl le_rfl
      rfl trivial, rfl⟩

/-- The call ends. -/
theorem Goes.erased {x : Host} (hl : Later h x) (hs : Spares (· ≠ id) h x)
    (hrows : x.rows = h.rows) (hops : x.operations = h.operations) (hplans : x.plans = h.plans)
    (huuids : x.uuids = h.uuids) (hworkers : x.workers = h.workers.erase id) : Goes h x id := by
  refine ⟨hl, hs, rows_eq hrows, ops_eq hops, hplans, huuids.ge, fun id' hne => ?_, fun w' hw' => ?_⟩
  · rw [hworkers]
    exact Table.erase_of_ne _ _ hne
  · rw [hworkers, Table.erase_same] at hw'
    cases hw'

/-- **A step of a worker** that does not raise. -/
theorem Goes.advance (hi : Inv h) (hw : w.Sound h id) (hok : h.advance env id w = .ok h') :
    Goes h h' id ∧ Touched h h' w.plan := by
  have quiet : ∀ {x : Host}, Goes h x id ∧ x.files = h.files → Goes h x id ∧ Touched h x w.plan :=
    fun hx => ⟨hx.1, .same hx.2⟩
  have goes : ∀ {pc : Pc}, pc.Sound h id w.plan →
      Goes h (h.goto id w pc) id ∧ Touched h (h.goto id w pc) w.plan :=
    fun hpc => ⟨.stays hw hpc, .same rfl⟩
  have hpc := hw.pc
  obtain ⟨key, plan, lease, todo, pc⟩ := w
  cases pc with
  | opened => exact quiet (Goes.acquire hw hok)
  | entered =>
    simp only [Host.advance, bind_eq_ok, pure_eq_ok] at hok
    obtain ⟨-, -, rfl⟩ := hok
    exact goes trivial
  | next =>
    cases todo with
    | nil =>
      simp only [Host.advance, pure_eq_ok] at hok
      subst hok
      exact goes trivial
    | cons item todo =>
      simp only [Host.advance, bind_eq_ok, pure_eq_ok] at hok
      obtain ⟨-, -, rfl⟩ := hok
      have hw' : Worker.Sound h id ⟨key, plan, lease, todo, .next⟩ :=
        ⟨hw.plan, hw.operation, fun i hi => hw.todo i (List.mem_cons_of_mem _ hi), trivial⟩
      exact ⟨.stays hw' (hw.todo item List.mem_cons_self), .same rfl⟩
  | ready item => exact quiet (Goes.intend hi hw hpc hok)
  | placed j => exact quiet (Goes.look hw hpc hok)
  | found j => exact quiet (Goes.grasp hw hpc hok)
  | pinned j =>
    simp only [Host.advance, bind_eq_ok, pure_eq_ok] at hok
    obtain ⟨-, -, rfl⟩ := hok
    exact goes hpc
  | fenced j => exact quiet (Goes.slide hw hpc.1 hpc.2 hok)
  | sliding j => exact Goes.rename hw hpc.1 hpc.2 hok
  | moved j => exact quiet (Goes.recognize hw hpc hok)
  | known j => exact quiet (Goes.verify hw hpc hok)
  | verified j =>
    simp only [Host.advance, pure_eq_ok] at hok
    subst hok
    exact quiet ⟨.settle hw hpc, rfl⟩
  | settled j => exact quiet (Goes.condemn hw hpc hok)
  | condemned j => exact quiet (Goes.doom hw hpc.1 hpc.2 hok)
  | purging j order =>
    simp only [Host.advance, bind_eq_ok, pure_eq_ok] at hok
    obtain ⟨-, -, rfl⟩ := hok
    exact goes hpc
  | purge j order =>
    obtain ⟨hj, haction, hnodup, happroved, hh⟩ := hpc
    exact Goes.purgeOne hw hj haction hnodup happroved hh hok
  | last j =>
    simp only [Host.advance, pure_eq_ok] at hok
    subst hok
    exact quiet ⟨.finish hi hw hpc, rfl⟩
  | complete =>
    simp only [Host.advance, bind_eq_ok, pure_eq_ok] at hok
    obtain ⟨-, -, rfl⟩ := hok
    exact goes trivial
  | closing =>
    simp only [Host.advance, pure_eq_ok] at hok
    subst hok
    exact quiet (Goes.close hw)
  | failing e =>
    simp only [Host.advance, pure_eq_ok] at hok
    subst hok
    have hsame : ∀ key', ((h.operations.update key (fun _ => true) fun _ => .blocked e)
        key').isSome ↔ (h.operations key').isSome := by
      intro key'
      rw [Table.update_apply, Option.isSome_map]
    refine quiet ⟨.goto hw ⟨fun _ row hrow => ⟨row, hrow, .refl row⟩,
      fun _ plan hplan => ⟨plan, hplan, rfl, rfl⟩, fun key' => (hsame key').2⟩ (.of_eq rfl rfl)
      (rows_eq rfl) (fun key' => (hsame key').1) rfl le_rfl rfl trivial, rfl⟩
  | releasing =>
    simp only [Host.advance, pure_eq_ok] at hok
    subst hok
    exact quiet ⟨.erased (.of_eq rfl rfl rfl) (.of_eq rfl rfl) rfl rfl rfl rfl rfl, rfl⟩

end Workspace

end PythonAI
