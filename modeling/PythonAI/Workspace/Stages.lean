import Mathlib.Data.List.Perm.Subperm
import PythonAI.Workspace.Approved

/-!
# What an interrupted cleanup leaves

A call of `resume` can end after any of its steps.  What it leaves of a directory is one of a few
stages (`Stage`), told by the state of the row and by the two places of the directory; a directory
that is done is where the plan wants it (`Done`).  No other directory is reached by it (`Frame`).
-/

namespace PythonAI

open Library

namespace Workspace

variable {id : ℕ} {w : Worker} {h h' : Host} {env : Env} {j : Job} {key : PlanId} {plan : Plan}
  {item item' : Item} {row row' : Row} {source dest dest' : Place} {todo : List Item} {pc pc' : Pc}
  {rows : Table DirId Row} {files : Table Place Tree}

/-! ### The order of a purge -/

theorem length_splitOn (l : List Char) : (l.splitOn '/').length = l.count '/' + 1 := by
  induction l with
  | nil => rfl
  | cons c l ih =>
    rw [List.splitOn, List.splitOnP_cons_eq_if_modifyHead, List.count_cons]
    by_cases hc : (c == '/') = true
    · rw [if_pos hc, if_pos hc, List.length_cons]
      exact congrArg (· + 1) ih
    · rw [if_neg hc, if_neg hc, List.length_modifyHead]
      exact ih

/-- What is below a directory is deeper. -/
theorem depth_lt {e e' : Entry} (h : (e.path.toList ++ ['/']).isPrefixOf e'.path.toList = true) :
    Tree.depth e < Tree.depth e' := by
  obtain ⟨rest, hrest⟩ := List.isPrefixOf_iff_prefix.1 h
  rw [Tree.depth, Tree.depth, length_splitOn, length_splitOn, ← hrest]
  simp only [List.count_append, List.count_singleton_self]
  omega

/-- `a` is deleted before `b`. -/
def Sooner (a b : Entry) : Prop := Tree.depth b ≤ Tree.depth a

theorem purgeOrder_pairwise (t : Tree) : t.purgeOrder.Pairwise Sooner := by
  have hsorted : t.purgeOrder.Pairwise fun a b =>
      (decide (Tree.depth b < Tree.depth a) || decide (Tree.depth b = Tree.depth a) &&
        decide (b.path.length ≤ a.path.length)) = true := by
    refine List.pairwise_mergeSort (fun a b c hab hbc => ?_) (fun a b => ?_) t.entries
    · simp only [Bool.or_eq_true, Bool.and_eq_true, decide_eq_true_eq] at hab hbc ⊢
      omega
    · simp only [Bool.or_eq_true, Bool.and_eq_true, decide_eq_true_eq]
      omega
  refine hsorted.imp fun {a b} hab => ?_
  simp only [Bool.or_eq_true, Bool.and_eq_true, decide_eq_true_eq] at hab
  rw [Sooner]
  omega

/-- **The next object of a purge is not a directory with something in it.** -/
theorem not_occupied {t : Tree} {e : Entry} {order : List Entry}
    (hperm : (e :: order).Perm t.entries) (hsorted : (e :: order).Pairwise Sooner) :
    t.occupied e = false := by
  rw [Tree.occupied, Bool.and_eq_false_iff]
  refine .inr (List.any_eq_false.2 fun e' he' hprefix => ?_)
  have hdeep := depth_lt hprefix
  rcases List.mem_cons.1 (hperm.mem_iff.2 he') with rfl | hmem
  · omega
  · have hle : Tree.depth e' ≤ Tree.depth e := (List.pairwise_cons.1 hsorted).1 e' hmem
    omega

theorem lookup_self {t : Tree} {e : Entry} (he : e ∈ t.entries) : t.lookup e.path = some e := by
  rw [Tree.lookup, List.find?_eq_some_iff_append]
  obtain ⟨l₁, l₂, hl⟩ := List.append_of_mem he
  refine ⟨decide_eq_true rfl, l₁, l₂, hl, fun e' he' => ?_⟩
  rw [Bool.not_eq_true', decide_eq_false_iff_not]
  intro hpath
  have hnodup := t.paths
  rw [hl, List.map_append, List.map_cons, List.nodup_append] at hnodup
  exact hnodup.2.2 e'.path (List.mem_map_of_mem he') e.path List.mem_cons_self hpath

theorem covers_self (t : Tree) : t.covers t = true := by
  simp only [Tree.covers, decide_true, Bool.true_and, List.all_eq_true, decide_eq_true_eq]
  exact fun e he => lookup_self he

theorem covers_remove {t t' : Tree} (h : t.covers t' = true) (e : Entry) :
    t.covers (t'.remove e) = true := by
  simp only [Tree.covers, Bool.and_eq_true, List.all_eq_true] at h ⊢
  exact ⟨h.1, fun e' he' => h.2 e' (List.erase_subset he')⟩

theorem covers_length {t t' : Tree} (h : t.covers t' = true) :
    t'.entries.length ≤ t.entries.length :=
  (List.subperm_of_subset (entries_nodup t') (covers_eq h).2).length_le

/-! ### The stages of a directory -/

namespace Action

/-- The state of a directory that waits for its move. -/
def start : Action → DirState
  | restore => .archived
  | archive | deleteSession => .active

/-- Where the directory is before the move. -/
def origin (a : Action) (source dest : Place) : Place := if a = .restore then dest else source

/-- Where it is to be. -/
def target (a : Action) (source dest : Place) : Place := if a = .restore then source else dest

end Action

/-- The directory is at its origin. -/
def Waits (files : Table Place Tree) (a : Action) (item : Item) (source dest : Place) : Prop :=
  files (a.origin source dest) = some item.manifest ∧ files (a.target source dest) = none

/-- The directory is at its target. -/
def Arrived (files : Table Place Tree) (a : Action) (item : Item) (source dest : Place) : Prop :=
  files (a.origin source dest) = none ∧ files (a.target source dest) = some item.manifest

/-- What interrupted calls leave of a directory in a state. -/
inductive Stage (files : Table Place Tree) (a : Action) (item : Item) (source dest : Place) :
    DirState → Prop
  /-- it is still to be moved -/
  | waits {s : DirState} (hs : s = a.start ∨ s = a.begun) (hw : Waits files a item source dest) :
      Stage files a item source dest s
  /-- it was moved, and the row does not say so -/
  | arrived {s : DirState} (hs : s = a.begun) (ha : Arrived files a item source dest) :
      Stage files a item source dest s
  /-- the row says so -/
  | settled {s : DirState} (hs : s = a.moved ∨ a = .deleteSession ∧ s = .archived)
      (ht : files (a.target source dest) = some item.manifest)
      (ho : a = .restore → files dest = none) : Stage files a item source dest s
  /-- a part of it is deleted -/
  | purging {s : DirState} (ha : a = .deleteSession) (hs : s = .purging)
      (ht : ∀ t, files dest = some t → item.manifest.covers t = true) :
      Stage files a item source dest s

/-- The row of an item that is not done, with the archive of the directory. -/
structure Known (rows : Table DirId Row) (key : PlanId) (plan : Plan) (item : Item) (row : Row)
    (dest : Place) : Prop where
  /-- the row -/
  found : rows item.id = some row
  /-- it is one of the user -/
  principal : row.principal = plan.principal
  /-- it may be moved -/
  temporary : row.temporary = true ∨ plan.action = .restore
  /-- it is the registered object -/
  identity : row.identity = some item.manifest.ident
  /-- nothing has happened to it -/
  generation : row.generation = item.generation
  /-- it was not purged -/
  original : row.original = none
  /-- its archive -/
  dest : row.archive.getD (trash item.id row key) = dest

/-- The item is done: the directory is where the plan wants it. -/
def Done (rows : Table DirId Row) (files : Table Place Tree) (plan : Plan) (item : Item) : Prop :=
  ∃ row, rows item.id = some row ∧ row.principal = plan.principal ∧
    row.state = plan.action.final ∧ item.generation < row.generation ∧
    match plan.action with
    | .archive => ∃ p, row.archive = some p ∧ files p = some item.manifest
    | .restore => row.original = none ∧ files row.source = some item.manifest
    | .deleteSession => ∃ p, row.archive = some p ∧ files p = none

/-- The item is done, or at a stage. -/
def Item.At (rows : Table DirId Row) (files : Table Place Tree) (key : PlanId) (plan : Plan)
    (item : Item) : Prop :=
  Done rows files plan item ∨ ∃ row dest, Known rows key plan item row dest ∧
    Stage files plan.action item row.source dest row.state

/-- The row of the item that a worker is at. -/
structure Current (rows : Table DirId Row) (key : PlanId) (plan : Plan) (j : Job) (row : Row) :
    Prop where
  /-- it is not done -/
  known : Known rows key plan j.item row j.dest
  /-- the archive is recorded -/
  archive : row.archive = some j.dest
  /-- the row that the worker has read is at the same place -/
  source : j.row.source = row.source
  /-- it is the same object -/
  identity : j.row.identity = row.identity

/-- The other items of a plan. -/
def Others (rows : Table DirId Row) (files : Table Place Tree) (plan : Plan) (todo : List Item)
    (item : Item) : Prop :=
  item ∈ plan.items ∧ ∀ i ∈ plan.items, i ∈ todo ∨ i = item ∨ Done rows files plan i

/-- The item of a worker that is not done. -/
def Pc.current : Pc → Option Item
  | .placed j | .found j | .pinned j | .fenced j | .sliding j | .moved j | .known j | .verified j
  | .settled j | .condemned j | .purging j _ | .purge j _ | .last j => some j.item
  | .opened | .entered | .next | .ready _ | .complete | .closing | .failing _ | .releasing => none

/-- The place that a worker has pinned. -/
def Pc.held (a : Action) : Pc → Option Place
  | .pinned j | .fenced j | .sliding j => some (j.origin a)
  | .purging j _ | .purge j _ => some j.dest
  | _ => none

/-- The stage of the item that a worker is at. -/
def Pc.Stage (files : Table Place Tree) (a : Action) (row : Row) : Pc → Prop
  | .placed j => row.state = a.begun ∧
      (Waits files a j.item row.source j.dest ∨ Arrived files a j.item row.source j.dest)
  | .found j | .pinned j | .fenced j | .sliding j =>
      row.state = a.begun ∧ Waits files a j.item row.source j.dest
  | .moved j | .known j | .verified j =>
      row.state = a.begun ∧ Arrived files a j.item row.source j.dest
  | .settled j =>
      ((row.state = a.moved ∨ a = .deleteSession ∧ row.state = .archived) ∧
        files (a.target row.source j.dest) = some j.item.manifest ∧
        (a = .restore → files j.dest = none)) ∨
      a = .deleteSession ∧ row.state = .purging ∧
        ∀ t, files j.dest = some t → j.item.manifest.covers t = true
  | .condemned j => a = .deleteSession ∧ j.row.state = row.state ∧
      ∃ t, files j.dest = some t ∧ ((row.state = .purgePending ∨ row.state = .archived) ∧
        t = j.item.manifest ∨ row.state = .purging ∧ j.item.manifest.covers t = true)
  | .purging j order | .purge j order => a = .deleteSession ∧ row.state = .purging ∧
      ∃ t, files j.dest = some t ∧ j.item.manifest.covers t = true ∧ order.Perm t.entries ∧
        order.Pairwise Sooner
  | .last j =>
      (a ≠ .deleteSession ∧ row.state = a.moved ∧
        files (a.target row.source j.dest) = some j.item.manifest ∧
        (a = .restore → files j.dest = none)) ∨
      a = .deleteSession ∧ row.state = .purging ∧ files j.dest = none
  | _ => True

/-- Where a worker of `plan` is. -/
def Pc.At (rows : Table DirId Row) (files : Table Place Tree) (key : PlanId) (plan : Plan)
    (todo : List Item) : Pc → Prop
  | .opened | .entered => todo = plan.items
  | .next => ∀ i ∈ plan.items, i ∈ todo ∨ Done rows files plan i
  | .ready item => Others rows files plan todo item
  | .complete | .closing => ∀ i ∈ plan.items, Done rows files plan i
  | .failing _ | .releasing => True
  | pc@(.placed j) | pc@(.found j) | pc@(.pinned j) | pc@(.fenced j) | pc@(.sliding j)
  | pc@(.moved j) | pc@(.known j) | pc@(.verified j) | pc@(.settled j) | pc@(.condemned j)
  | pc@(.purging j _) | pc@(.purge j _) | pc@(.last j) =>
    Others rows files plan todo j.item ∧ ∃ row, Current rows key plan j row ∧
      pc.Stage files plan.action row

/-- What holds of the host while an operation is interrupted and resumed. -/
structure Base (h : Host) (key : PlanId) (plan : Plan) : Prop where
  /-- what holds in any order of steps -/
  inv : Inv h
  /-- the plan -/
  stored : h.plans key = some plan
  /-- an item is told by its id -/
  same : ∀ i ∈ plan.items, ∀ i' ∈ plan.items, i.id = i'.id → i = i'
  /-- a lease is over in time -/
  lease : ∀ l, h.leases key = some l → l.expires ≤ h.now + 600
  /-- the operation was begun, and it is complete only if all items are done -/
  operation : ∃ s, h.operations key = some s ∧
    (s = .completed → ∀ i ∈ plan.items, Done h.rows h.files plan i)

/-- No call of `resume` is running. -/
structure Idle (h : Host) (key : PlanId) (plan : Plan) : Prop where
  /-- what holds while it is interrupted and resumed -/
  base : Base h key plan
  /-- there is no worker -/
  workers : ∀ i, h.workers i = none
  /-- nothing is pinned -/
  pins : ∀ p, h.pins p = none
  /-- the items -/
  items : ∀ i ∈ plan.items, i.At h.rows h.files key plan

/-- The call `id` of `resume` is running, and no other. -/
structure Busy (h : Host) (key : PlanId) (plan : Plan) (id : ℕ) (w : Worker) : Prop where
  /-- what holds while it is interrupted and resumed -/
  base : Base h key plan
  /-- the worker -/
  worker : h.workers id = some w
  /-- it is the only one -/
  workers : ∀ i, i ≠ id → h.workers i = none
  /-- it works for the operation -/
  mine : w.key = key
  /-- it has the plan -/
  given : w.plan = plan
  /-- what it has pinned -/
  pins : ∀ p pin, h.pins p = some pin → pin.owner = id ∧ w.pc.held plan.action = some p
  /-- the items besides its own -/
  items : ∀ i ∈ plan.items, w.pc.current ≠ some i → i.At h.rows h.files key plan
  /-- where it is -/
  pc : w.pc.At h.rows h.files key plan w.todo

/-! ### What does not reach an item -/

/-- Only the directory `k`, with these places, is touched. -/
structure Frame (h h' : Host) (k : DirId) (source dest : Place) : Prop where
  /-- the rows -/
  rows : ∀ i, i ≠ k → h'.rows i = h.rows i
  /-- the directories -/
  files : ∀ p, p ≠ source → p ≠ dest → h'.files p = h.files p

theorem Known.home (hi : Inv h) (hk : Known h.rows key plan item row dest) :
    ∃ root principal key', dest = .payload root principal item.id key' := by
  have hdest := hk.dest
  cases harchive : row.archive with
  | none =>
    rw [harchive, Option.getD_none, trash] at hdest
    exact ⟨_, _, _, hdest.symm⟩
  | some p =>
    rw [harchive, Option.getD_some] at hdest
    subst hdest
    exact (hi.rows _ row hk.found).1.home p harchive

/-- The places of an archive are told by the directory. -/
theorem archive_ne (hi : Inv h) (hk : Known h.rows key plan item row dest) {i : DirId}
    (hne : i ≠ item.id) (hrow : h.rows i = some row') {p : Place} (hp : row'.archive = some p) :
    p ≠ row.source ∧ p ≠ dest := by
  obtain ⟨root, principal, k, rfl⟩ := (hi.rows i row' hrow).1.home p hp
  obtain ⟨root', principal', k', rfl⟩ := hk.home hi
  refine ⟨fun hs => (by cases hs), fun hd => ?_⟩
  cases hd
  exact hne rfl

theorem apart (hi : Inv h) (hk : Known h.rows key plan item row dest)
    (hk' : Known h.rows key plan item' row' dest') (hne : item'.id ≠ item.id) :
    (row'.source ≠ row.source ∧ row'.source ≠ dest) ∧ dest' ≠ row.source ∧ dest' ≠ dest := by
  obtain ⟨root, principal, k, rfl⟩ := hk.home hi
  obtain ⟨root', principal', k', rfl⟩ := hk'.home hi
  refine ⟨⟨hi.sources _ _ _ _ hne hk'.found hk.found hk'.original hk.original,
    fun hs => (by cases hs)⟩, fun hs => (by cases hs), fun hd => ?_⟩
  rw [Place.payload.injEq] at hd
  exact hne hd.2.2.1

theorem Action.origin_eq (a : Action) (source dest : Place) :
    a.origin source dest = source ∨ a.origin source dest = dest := by
  unfold Action.origin
  split_ifs
  · exact .inr rfl
  · exact .inl rfl

theorem Action.target_eq (a : Action) (source dest : Place) :
    a.target source dest = source ∨ a.target source dest = dest := by
  unfold Action.target
  split_ifs
  · exact .inl rfl
  · exact .inr rfl

/-- A stage is about the two places of the directory. -/
theorem Stage.later {files' : Table Place Tree} {a : Action} {s : DirState}
    (hst : Stage files a item source dest s) (hs : files' source = files source)
    (hd : files' dest = files dest) : Stage files' a item source dest s := by
  have ho : files' (a.origin source dest) = files (a.origin source dest) := by
    rcases a.origin_eq source dest with h | h <;> rw [h] <;> assumption
  have ht : files' (a.target source dest) = files (a.target source dest) := by
    rcases a.target_eq source dest with h | h <;> rw [h] <;> assumption
  cases hst with
  | waits hstate hw => exact .waits hstate ⟨ho.trans hw.1, ht.trans hw.2⟩
  | arrived hstate ha => exact .arrived hstate ⟨ho.trans ha.1, ht.trans ha.2⟩
  | settled hstate htarget horigin =>
    exact .settled hstate (ht.trans htarget) fun ha => hd.trans (horigin ha)
  | purging ha hstate hcovers => exact .purging ha hstate fun t htree => hcovers t (hd ▸ htree)

theorem Done.frame (hi : Inv h) (hk : Known h.rows key plan item row dest)
    (hf : Frame h h' item.id row.source dest) (hd : Done h.rows h.files plan item')
    (hne : item'.id ≠ item.id) : Done h'.rows h'.files plan item' := by
  obtain ⟨row', hrow, hprincipal, hstate, hgen, hfinal⟩ := hd
  refine ⟨row', (hf.rows _ hne).trans hrow, hprincipal, hstate, hgen, ?_⟩
  split at hfinal
  · obtain ⟨p, hp, hfile⟩ := hfinal
    obtain ⟨hs, hd⟩ := archive_ne hi hk hne hrow hp
    exact ⟨p, hp, (hf.files p hs hd).trans hfile⟩
  · obtain ⟨root, principal, k, rfl⟩ := hk.home hi
    refine ⟨hfinal.1, (hf.files _ ?_ fun hd => (by cases hd)).trans hfinal.2⟩
    exact hi.sources _ _ _ _ hne hrow hk.found hfinal.1 hk.original
  · obtain ⟨p, hp, hfile⟩ := hfinal
    obtain ⟨hs, hd⟩ := archive_ne hi hk hne hrow hp
    exact ⟨p, hp, (hf.files p hs hd).trans hfile⟩

/-- The item is not done. -/
theorem Known.not_done (hk : Known rows key plan item row dest) :
    ¬ Done rows files plan item := by
  rintro ⟨row', hrow, -, -, hgen, -⟩
  rw [hk.found] at hrow
  cases hrow
  rw [hk.generation] at hgen
  exact lt_irrefl _ hgen

theorem Item.At.frame (hi : Inv h) (hk : Known h.rows key plan item row dest)
    (hf : Frame h h' item.id row.source dest) (ha : item'.At h.rows h.files key plan)
    (hne : item'.id ≠ item.id) : item'.At h'.rows h'.files key plan := by
  rcases ha with hd | ⟨row', dest', hk', hst⟩
  · exact .inl (hd.frame hi hk hf hne)
  · obtain ⟨⟨hss, hsd⟩, hds, hdd⟩ := apart hi hk hk' hne
    refine .inr ⟨row', dest', ⟨(hf.rows _ hne).trans hk'.found, hk'.principal, hk'.temporary,
      hk'.identity, hk'.generation, hk'.original, hk'.dest⟩,
      hst.later (hf.files _ hss hsd) (hf.files _ hds hdd)⟩

end Workspace

end PythonAI
