import PythonAI.Workspace.Workers

/-!
# A cleanup touches approved objects only

Whatever workers, users and crashes do, every change of a directory is one of three
(`Host.touches`): the user makes it; or a worker moves the registered object of an approved item
between its place and its archive, replacing nothing; or a worker deletes, in the archive and under
an approved deletion, an object of the approved manifest, or the directory itself when it is empty.
So a run without the user loses no object (`Host.conserved`).
-/

namespace PythonAI

open Library

namespace Workspace

variable {id : ℕ} {w : Worker} {h h' : Host} {j : Job} {a : Act}

/-! ### The other steps -/

/-- The items are registered objects. -/
def Registered (h : Host) (items : List Item) : Prop :=
  ∀ item ∈ items, ∃ row, h.rows item.id = some row ∧ row.state ≠ .creating ∧
    row.identity = some item.manifest.ident

theorem Registered.later {items : List Item} (hr : Registered h items) (hl : Later h h') :
    Registered h' items := by
  intro item hitem
  obtain ⟨row, hrow, hstate, hident⟩ := hr item hitem
  obtain ⟨row', hrow', hlater⟩ := hl.rows _ row hrow
  obtain ⟨hid, hstate'⟩ := hlater.identity hstate
  exact ⟨row', hrow', hstate', hid.trans hident⟩

/-- A row after a step: it was there, or it is new and at a place of its own. -/
def Row.Comes (h h' : Host) (k : DirId) (row' : Row) : Prop :=
  (∃ row, h.rows k = some row ∧ row.Kept k row') ∨
    k = h.uuids ∧ h.uuids < h'.uuids ∧ row'.Valid k ∧ ∀ k' row, h.rows k' = some row →
      row.original = none → row.source ≠ row'.source

/-- A plan after a step: it was there, or it is one of registered objects. -/
def Plan.Comes (h h' : Host) (key : PlanId) (plan' : Plan) : Prop :=
  (∀ item ∈ plan'.items, plan'.action.admits item.state) ∧ Registered h' plan'.items ∨
    ∃ plan, h.plans key = some plan ∧ plan'.items = plan.items ∧ plan'.action = plan.action

/-- The transaction begins the operation of a plan: it consumes the approval of the plan, which has
not expired. -/
def Authorizes (h : Host) (key : PlanId) (a : Act) (plan : Plan) : Prop :=
  ∃ env approval, a = .execute env key approval (.ok ()) ∧ h.plans key = some plan ∧
    plan.approval = some approval ∧ h.now < plan.expires

/-- What a step of the host keeps. -/
structure Lawful (h h' : Host) (a : Act) : Prop where
  /-- what holds in any order -/
  inv : Inv h'
  /-- what the registry says -/
  later : Later h h'
  /-- an operation is begun with an approval -/
  begun : ∀ key, (h'.operations key).isSome →
    (h.operations key).isSome ∨ ∃ plan, Authorizes h key a plan

/-- A step that spares the processes `P`. -/
theorem Inv.next {P : ℕ → Prop} (hi : Inv h) (hl : Later h h') (hs : Spares P h h')
    (hu : h.uuids ≤ h'.uuids) (hrows : ∀ k row', h'.rows k = some row' → row'.Comes h h' k)
    (hplans : ∀ key plan', h'.plans key = some plan' → key < h'.uuids ∧ plan'.Comes h h' key)
    (hworkers : ∀ id w, h'.workers id = some w →
      h.workers id = some w ∧ P id ∨ w.Sound h' id) : Inv h' := by
  refine ⟨fun k row' hrow' => ?_, fun k₁ k₂ row₁ row₂ hne h₁ h₂ ho₁ ho₂ => ?_,
    fun key plan' hplan' => ?_, fun id w hw => ?_⟩
  · rcases hrows k row' hrow' with ⟨row, hrow, hkept⟩ | ⟨rfl, hlt, hv, -⟩
    · obtain ⟨hvalid, hlt⟩ := hi.rows k row hrow
      exact ⟨hkept.valid hvalid, hlt.trans_le hu⟩
    · exact ⟨hv, hlt⟩
  · rcases hrows k₁ row₁ h₁ with ⟨r₁, hr₁, hkept₁⟩ | ⟨rfl, -, -, hown₁⟩
    · obtain ⟨hr₁o, hs₁⟩ := hkept₁.source ho₁
      rcases hrows k₂ row₂ h₂ with ⟨r₂, hr₂, hkept₂⟩ | ⟨rfl, -, -, hown₂⟩
      · obtain ⟨hr₂o, hs₂⟩ := hkept₂.source ho₂
        rw [hs₁, hs₂]
        exact hi.sources k₁ k₂ r₁ r₂ hne hr₁ hr₂ hr₁o hr₂o
      · rw [hs₁]
        exact hown₂ k₁ r₁ hr₁ hr₁o
    · rcases hrows k₂ row₂ h₂ with ⟨r₂, hr₂, hkept₂⟩ | ⟨rfl, -⟩
      · obtain ⟨hr₂o, hs₂⟩ := hkept₂.source ho₂
        rw [hs₂]
        exact (hown₁ k₂ r₂ hr₂ hr₂o).symm
      · exact absurd rfl hne
  · obtain ⟨hdrawn, ⟨hready, hreg⟩ | ⟨plan, hplan, hitems, haction⟩⟩ := hplans key plan' hplan'
    · exact ⟨hdrawn, hready, hreg⟩
    · obtain ⟨-, hready, hreg⟩ := hi.plans key plan hplan
      rw [hitems, haction]
      exact ⟨hdrawn, hready, Registered.later hreg hl⟩
  · rcases hworkers id w hw with ⟨hw, hid⟩ | hw
    · exact (hi.workers id w hw).later hl hs hid
    · exact hw

/-- A step that leaves the operations. -/
theorem Inv.lawful {P : ℕ → Prop} {a : Act} (hi : Inv h) (hl : Later h h') (hs : Spares P h h')
    (hu : h.uuids ≤ h'.uuids) (hrows : ∀ k row', h'.rows k = some row' → row'.Comes h h' k)
    (hplans : ∀ key plan', h'.plans key = some plan' → key < h'.uuids ∧ plan'.Comes h h' key)
    (hworkers : ∀ id w, h'.workers id = some w →
      h.workers id = some w ∧ P id ∨ w.Sound h' id)
    (hops : h'.operations = h.operations) : Lawful h h' a :=
  ⟨hi.next hl hs hu hrows hplans hworkers, hl, fun key hop => .inl (ops_eq hops key hop)⟩

/-- The plans of a step that leaves them. -/
theorem plans_eq (hi : Inv h) (hplans : h'.plans = h.plans) (hu : h.uuids ≤ h'.uuids)
    (key : PlanId) (plan' : Plan) (hplan' : h'.plans key = some plan') :
    key < h'.uuids ∧ plan'.Comes h h' key := by
  rw [hplans] at hplan'
  exact ⟨(hi.plans key plan' hplan').1.trans_le hu, .inr ⟨plan', hplan', rfl, rfl⟩⟩

/-- The rows of a step that leaves them. -/
theorem rows_kept (hrows : h'.rows = h.rows) (k : DirId) (row' : Row)
    (hrow' : h'.rows k = some row') : row'.Comes h h' k :=
  .inl (rows_eq hrows k row' hrow')

/-- A worker that does not raise keeps the invariant. -/
theorem Inv.goes (hi : Inv h) (hg : Goes h h' id) : Inv h' := by
  refine hi.next hg.later hg.spares hg.uuids (fun k row' hrow' => .inl (hg.rows k row' hrow'))
    (plans_eq hi hg.plans hg.uuids) fun id' w' hw' => ?_
  by_cases hid : id' = id
  · subst hid
    exact .inr (hg.own w' hw')
  · rw [hg.others id' hid] at hw'
    exact .inl ⟨hw', hid⟩

theorem Goes.lawful {a : Act} (hi : Inv h) (hg : Goes h h' id) : Lawful h h' a :=
  ⟨hi.goes hg, hg.later, fun key hop => .inl (hg.operations key hop)⟩

/-- The process of a worker ends. -/
theorem Goes.crash (h : Host) (id : ℕ) : Goes h (h.crash id) id :=
  .erased (.of_eq rfl rfl rfl) (spares_unpin h id) rfl rfl rfl rfl rfl

/-- A worker raises. -/
theorem Goes.raise (hw : w.Sound h id) (e : Error) : Goes h (h.raise id w e) id := by
  unfold Host.raise
  split_ifs
  · exact .crash h id
  · exact .goto hw (.of_eq rfl rfl rfl) (spares_unpin h id) (rows_eq rfl) (ops_eq rfl) rfl le_rfl
      rfl trivial

/-- A write to one row by the registry. -/
theorem Inv.write (hi : Inv h) {k : DirId} {row : Row} (hrow : h.rows k = some row) (row' : Row)
    (hl : row.Later row') (hkept : row.Kept k row') (refs : List (DirId × SessionId)) :
    Lawful h { h with refs := refs, rows := h.rows.set k row' } a := by
  have hlater : Later h { h with refs := refs, rows := h.rows.set k row' } :=
    .of_rows rfl rfl (later_set hrow hl)
  refine hi.lawful (P := fun _ => True) hlater (.of_eq rfl rfl) le_rfl (fun k' r' hr' => ?_)
    (plans_eq hi rfl le_rfl) (fun _ _ hw => .inl ⟨hw, trivial⟩) rfl
  replace hr' : (h.rows.set k row') k' = some r' := hr'
  rw [Table.set_apply] at hr'
  split_ifs at hr' with hk
  · cases hr'
    exact .inl ⟨row, hk ▸ hrow, hk ▸ hkept⟩
  · exact .inl ⟨r', hr', .refl k' r'⟩

/-- An item of a preview is a registered object. -/
theorem previewRow_ok {action : Action} {k : DirId} {row : Row} {x : Item ⊕ Kept}
    (hok : h.previewRow action k row = .ok x) {item : Item} (hx : x = .inl item) :
    item.id = k ∧ action.admits item.state ∧ row.state ≠ .creating ∧
      row.identity = some item.manifest.ident := by
  subst hx
  unfold Host.previewRow at hok
  split at hok
  · simp only [bind_eq_ok, pure_eq_ok] at hok
    obtain ⟨-, -, hok⟩ := hok
    cases hok
  · simp only [bind_eq_ok, ensure_eq_ok, Host.locate, require_eq_ok, decide_eq_true_eq,
      pure_eq_ok, Sum.inl.injEq] at hok
    obtain ⟨-, hready, -, -, tree, ⟨tree', -, -, hident, rfl⟩, -, -, rfl⟩ := hok
    refine ⟨rfl, ?_, fun hc => ?_, hident.symm⟩
    · cases action <;> simpa [Action.admits] using hready
    · cases action <;> simp [hc] at hready

/-- Everything that a loop over a list found, it found for an element of the list. -/
theorem mapM_found {α β : Type} {f : α → Except Error β} {l : List α} {bs : List β}
    (hok : l.mapM f = .ok bs) {b : β} (hb : b ∈ bs) : ∃ a ∈ l, f a = .ok b := by
  induction l generalizing bs with
  | nil =>
    rw [List.mapM_nil, pure_eq_ok] at hok
    subst hok
    cases hb
  | cons a l ih =>
    rw [List.mapM_cons] at hok
    simp only [bind_eq_ok, pure_eq_ok] at hok
    obtain ⟨b', hb', bs', hbs', rfl⟩ := hok
    rcases List.mem_cons.1 hb with rfl | hb
    · exact ⟨a, List.mem_cons_self, hb'⟩
    · obtain ⟨a', ha', hf⟩ := ih hbs' hb
      exact ⟨a', List.mem_cons_of_mem _ ha', hf⟩

theorem Inv.preview (hi : Inv h) {e : Except Error Unit} {session : SessionId}
    {principal : String} {action : Action} {key : Option DirId}
    (hok : h.preview e session principal action key = .ok h') : Lawful h h' a ∧ h'.files = h.files := by
  simp only [Host.preview, bind_eq_ok, pure_eq_ok] at hok
  obtain ⟨-, -, found, hfound, rfl⟩ := hok
  have hfresh : ∀ k plan, h.plans k = some plan → k ≠ h.uuids := fun k plan hplan =>
    ((hi.plans k plan hplan).1).ne
  refine ⟨hi.lawful (P := fun _ => True) ⟨fun _ row hrow => ⟨row, hrow, .refl row⟩,
    fun k plan hplan => ⟨plan, (Table.set_of_ne _ _ _ (hfresh k plan hplan)).trans hplan, rfl, rfl⟩,
    fun _ hop => hop⟩ (.of_eq rfl rfl) (Nat.le_succ _) (rows_kept rfl) (fun k plan' hplan' => ?_)
    (fun _ _ hw => .inl ⟨hw, trivial⟩) rfl, rfl⟩
  replace hplan' : (h.plans.set h.uuids _) k = some plan' := hplan'
  rw [Table.set_apply] at hplan'
  split_ifs at hplan' with hk
  · cases hplan'
    have hall : ∀ item ∈ found.filterMap (·.getLeft?), action.admits item.state ∧
        ∃ row, h.rows item.id = some row ∧ row.state ≠ .creating ∧
          row.identity = some item.manifest.ident := by
      intro item hitem
      obtain ⟨x, hx, hleft⟩ := List.mem_filterMap.1 hitem
      obtain ⟨k', -, hrow⟩ := mapM_found hfound hx
      simp only [bind_eq_ok, Host.get, require_eq_ok, Option.filter_eq_some_iff] at hrow
      obtain ⟨row, ⟨hrow, -⟩, hpre⟩ := hrow
      have hxeq : x = .inl item := by
        cases x with
        | inl item' => rw [Sum.getLeft?_inl] at hleft; cases hleft; rfl
        | inr kept => rw [Sum.getLeft?_inr] at hleft; cases hleft
      obtain ⟨rfl, hready, hstate, hident⟩ := previewRow_ok hpre hxeq
      exact ⟨hready, row, hrow, hstate, hident⟩
    exact ⟨hk ▸ Nat.lt_succ_self _, .inl ⟨fun item hitem => (hall item hitem).1,
      fun item hitem => (hall item hitem).2⟩⟩
  · exact ⟨((hi.plans k plan' hplan').1).trans (Nat.lt_succ_self _),
      .inr ⟨plan', hplan', rfl, rfl⟩⟩

theorem Inv.request (hi : Inv h) {key : PlanId} {approval : Except Error ℕ}
    (hok : h.request key approval = .ok h') : Lawful h h' a ∧ h'.files = h.files := by
  simp only [Host.request, bind_eq_ok, pure_eq_ok] at hok
  obtain ⟨approval, -, rfl⟩ := hok
  have hplans := h.plans.update_cases key (fun _ => true)
    fun plan => { plan with approval := some approval }
  refine ⟨hi.lawful (P := fun _ => True) ⟨fun _ row hrow => ⟨row, hrow, .refl row⟩,
    fun k plan hplan => ?_, fun _ hop => hop⟩ (.of_eq rfl rfl) le_rfl (rows_kept rfl)
    (fun k plan' hplan' => ?_) (fun _ _ hw => .inl ⟨hw, trivial⟩) rfl, rfl⟩
  · rcases hplans k with hs | ⟨plan₁, -, hplan₁, -, hs⟩
    · exact ⟨plan, hs.trans hplan, rfl, rfl⟩
    · rw [hplan] at hplan₁
      cases hplan₁
      exact ⟨_, hs, rfl, rfl⟩
  · rcases hplans k with hs | ⟨plan₁, -, hplan₁, -, hs⟩
    · have hplan := hs.symm.trans hplan'
      exact ⟨(hi.plans k plan' hplan).1, .inr ⟨plan', hplan, rfl, rfl⟩⟩
    · cases hs.symm.trans hplan'
      exact ⟨(hi.plans k plan₁ hplan₁).1, .inr ⟨plan₁, hplan₁, rfl, rfl⟩⟩

theorem Inv.execute (hi : Inv h) {e : Except Error Unit} {key : PlanId} {approval : ℕ}
    {consumed : Except Error Unit} (hok : h.execute e key approval consumed = .ok h') :
    Lawful h h' (.execute e key approval consumed) ∧ h'.files = h.files := by
  simp only [Host.execute, bind_eq_ok, require_eq_ok, ensure_eq_ok, decide_eq_true_eq,
    pure_eq_ok] at hok
  obtain ⟨plan, hplan, -, -, -, hexpires, -, -, -, -, -, -, -, happroval, ⟨⟩, rfl, rfl⟩ := hok
  have hl : Later h { h with operations := h.operations.set key .running } := by
    refine ⟨fun _ row hrow => ⟨row, hrow, .refl row⟩, fun _ plan hplan => ⟨plan, hplan, rfl, rfl⟩,
      fun k hop => ?_⟩
    show ((h.operations.set key .running) k).isSome
    rw [Table.set_apply]
    split_ifs
    · rfl
    · exact hop
  refine ⟨⟨hi.next (P := fun _ => True) hl (.of_eq rfl rfl) le_rfl (rows_kept rfl)
    (plans_eq hi rfl le_rfl) fun _ _ hw => .inl ⟨hw, trivial⟩, hl, fun k hop => ?_⟩, rfl⟩
  by_cases hk : k = key
  · subst hk
    exact .inr ⟨plan, e, approval, rfl, hplan, happroval, hexpires⟩
  · replace hop : ((h.operations.set key .running) k).isSome := hop
    rw [Table.set_of_ne _ _ _ hk] at hop
    exact .inl hop

theorem overlaps_same {root relative : String} {row : Row} (hroot : row.root = root)
    (hrel : row.relative = relative) : Host.overlaps root relative row = true := by
  subst hroot
  subst hrel
  rw [Host.overlaps, Bool.or_eq_true, List.isPrefixOf_iff_prefix]
  exact .inl (List.prefix_refl _)

theorem Inv.create (hi : Inv h) {e : Except Error Unit} {session : SessionId}
    {root relative principal : String} {temporary : Bool}
    (hok : h.create e session root relative principal temporary = .ok h') :
    Lawful h h' a ∧ h'.files = h.files := by
  simp only [Host.create, bind_eq_ok, ensure_eq_ok, List.all_eq_true, List.mem_range,
    pure_eq_ok] at hok
  obtain ⟨-, -, -, hfree, rfl⟩ := hok
  refine ⟨hi.lawful (P := fun _ => True) (.of_rows rfl rfl fun k row hrow => ⟨row, ?_, .refl row⟩)
    (.of_eq rfl rfl) (Nat.le_succ _) (fun k row' hrow' => ?_) (plans_eq hi rfl (Nat.le_succ _))
    (fun _ _ hw => .inl ⟨hw, trivial⟩) rfl, rfl⟩
  · exact (Table.set_of_ne _ _ _ (hi.rows k row hrow).2.ne).trans hrow
  · replace hrow' : (h.rows.set h.uuids _) k = some row' := hrow'
    rw [Table.set_apply] at hrow'
    split_ifs at hrow' with hk
    · cases hrow'
      refine .inr ⟨hk, Nat.lt_succ_self _, ⟨fun _ => .inl rfl, fun hs => (by cases hs),
        fun hp => (by cases hp), fun p hp => (by cases hp)⟩, fun k' row hrow ho hsame => ?_⟩
      obtain ⟨hv, hlt⟩ := hi.rows k' row hrow
      have hrow' := hfree k' hlt
      rw [hrow, Option.all_some, Bool.or_eq_true, decide_eq_true_eq, Bool.not_eq_true'] at hrow'
      rcases hrow' with hpurged | hover
      · have hsome := hv.purged hpurged
        rw [ho] at hsome
        cases hsome
      · simp only [Row.source, Place.source.injEq] at hsame
        rw [overlaps_same hsame.1 hsame.2] at hover
        cases hover
    · exact .inl ⟨row', hrow', .refl k row'⟩

theorem Inv.created (hi : Inv h) {k : DirId} (hok : h.created k = .ok h') :
    Lawful h h' a ∧ h'.files = h.files := by
  simp only [Host.created, bind_eq_ok, require_eq_ok, Option.filter_eq_some_iff,
    decide_eq_true_eq, pure_eq_ok] at hok
  obtain ⟨row, ⟨hrow, hstate⟩, ident, -, rfl⟩ := hok
  exact ⟨hi.write hrow { row with state := .active, identity := some ident }
    ⟨fun hne => absurd hstate hne, rfl, fun _ hp => hp, fun _ hr => hr⟩
    ⟨fun hv => ⟨fun _ => .inr rfl, hv.original, fun hp => (by cases hp), hv.home⟩,
      fun ho => ⟨ho, rfl⟩⟩ h.refs, rfl⟩

theorem Inv.attach (hi : Inv h) {e : Except Error Unit} {session : SessionId}
    {principal : String} {k : DirId} (hok : h.attach e session principal k = .ok h') :
    Lawful h h' a ∧ h'.files = h.files := by
  simp only [Host.attach, bind_eq_ok, Host.get, require_eq_ok, Option.filter_eq_some_iff,
    pure_eq_ok] at hok
  obtain ⟨-, -, row, ⟨hrow, -⟩, -, -, rfl⟩ := hok
  exact ⟨hi.write hrow { row with generation := row.generation + 1 }
    (.of_eq rfl (fun hc => hc) rfl rfl rfl rfl)
    ⟨fun hv => ⟨hv.archive, hv.original, hv.purged, hv.home⟩, fun ho => ⟨ho, rfl⟩⟩ _, rfl⟩

theorem Inv.retain (hi : Inv h) {e : Except Error Unit} {principal : String} {k : DirId}
    (hok : h.retain e principal k = .ok h') : Lawful h h' a ∧ h'.files = h.files := by
  simp only [Host.retain, bind_eq_ok, Host.get, require_eq_ok, Option.filter_eq_some_iff,
    pure_eq_ok] at hok
  obtain ⟨-, -, row, ⟨hrow, -⟩, -, -, rfl⟩ := hok
  exact ⟨hi.write hrow { row with temporary := false, generation := row.generation + 1 }
    (.of_eq rfl (fun hc => hc) rfl rfl rfl rfl)
    ⟨fun hv => ⟨hv.archive, hv.original, hv.purged, hv.home⟩, fun ho => ⟨ho, rfl⟩⟩ h.refs, rfl⟩

theorem Inv.buildStatus (hi : Inv h) {e : Except Error Unit} {principal : String} {k : DirId}
    {state : BuildState} (hok : h.buildStatus e principal k state = .ok h') :
    Lawful h h' a ∧ h'.files = h.files := by
  simp only [Host.buildStatus, bind_eq_ok, Host.get, require_eq_ok, Option.filter_eq_some_iff,
    pure_eq_ok] at hok
  obtain ⟨-, -, row, ⟨hrow, -⟩, -, -, -, -, rfl⟩ := hok
  exact ⟨hi.write hrow { row with build := state, generation := row.generation + 1 }
    (.of_eq rfl (fun hc => hc) rfl rfl rfl rfl)
    ⟨fun hv => ⟨hv.archive, hv.original, hv.purged, hv.home⟩, fun ho => ⟨ho, rfl⟩⟩ h.refs, rfl⟩

theorem Inv.resume (hi : Inv h) {key : PlanId} (hok : h.resume id key = .ok h') :
    Lawful h h' a ∧ h'.files = h.files := by
  simp only [Host.resume, bind_eq_ok, require_eq_ok] at hok
  obtain ⟨-, -, plan, hplan, state, hstate, hok⟩ := hok
  split_ifs at hok
  · simp only [pure_eq_ok] at hok
    subst hok
    exact ⟨⟨hi, .refl h, fun _ hop => .inl hop⟩, rfl⟩
  · simp only [pure_eq_ok] at hok
    subst hok
    refine ⟨hi.lawful (P := fun _ => True) (.of_eq rfl rfl rfl) (.of_eq rfl rfl) le_rfl
      (rows_kept rfl) (plans_eq hi rfl le_rfl) (fun id' w hw => ?_) rfl, rfl⟩
    replace hw : (h.workers.set id _) id' = some w := hw
    rw [Table.set_apply] at hw
    split_ifs at hw
    · cases hw
      exact .inr ⟨⟨plan, hplan, rfl, rfl⟩, by rw [hstate]; rfl, fun _ hi => hi, trivial⟩
    · exact .inl ⟨hw, trivial⟩

theorem Inv.edit (hi : Inv h) (p : Place) (t : Option Tree) : Lawful h (h.edit p t) a := by
  have hsame : (h.edit p t).rows = h.rows ∧ (h.edit p t).plans = h.plans ∧
      (h.edit p t).operations = h.operations ∧ (h.edit p t).workers = h.workers ∧
      (h.edit p t).uuids = h.uuids := by
    unfold Host.edit
    split_ifs <;> exact ⟨rfl, rfl, rfl, rfl, rfl⟩
  obtain ⟨hrows, hplans, hops, hworkers, huuids⟩ := hsame
  refine hi.lawful (.of_eq hrows hplans hops) (spares_edit h p t) huuids.ge (rows_kept hrows)
    (plans_eq hi hplans huuids.ge) (fun id w hw => ?_) hops
  rw [hworkers] at hw
  exact .inl ⟨hw, trivial⟩

theorem edit_files (h : Host) (p : Place) (t : Option Tree) {q : Place} (hq : q ≠ p) :
    (h.edit p t).files q = h.files q := by
  unfold Host.edit
  split_ifs
  · exact if_neg hq
  · rfl

/-- The file system after a step: nothing was touched, or the user was there, or a worker. -/
inductive Step (h h' : Host) : Act → Prop
  | same (a : Act) (heq : h'.files = h.files) : Step h h' a
  | user (p : Place) (t : Option Tree) (heq : ∀ q, q ≠ p → h'.files q = h.files q) :
      Step h h' (.edit p t)
  | worker (env : Env) (id : ℕ) (w : Worker) (hmem : h.workers id = some w) (hw : w.Sound h id)
      (ht : Touched h h' w.plan) : Step h h' (.work env id)

/-- **Every step keeps the invariant**, begins what is approved, and touches what it may. -/
theorem Inv.act (hi : Inv h) (hst : Host.lts.step h a h') : Lawful h h' a ∧ Step h h' a := by
  have hst : h' = h.after a := hst
  subst hst
  have done : ∀ {x : Host}, Lawful h x a ∧ x.files = h.files → h.attempt a = .ok x →
      Lawful h (h.after a) a ∧ Step h (h.after a) a := by
    intro x hx hok
    unfold Host.after
    rw [hok]
    exact ⟨hx.1, .same _ hx.2⟩
  cases hok : h.attempt a with
  | error e =>
    unfold Host.after
    rw [hok]
    exact ⟨⟨hi, .refl h, fun _ hop => .inl hop⟩, .same _ rfl⟩
  | ok x =>
    cases a with
    | preview => exact done (hi.preview hok) hok
    | request => exact done (hi.request hok) hok
    | execute => exact done (hi.execute hok) hok
    | create => exact done (hi.create hok) hok
    | created => exact done (hi.created hok) hok
    | attach => exact done (hi.attach hok) hok
    | retain => exact done (hi.retain hok) hok
    | buildStatus => exact done (hi.buildStatus hok) hok
    | resume => exact done (hi.resume hok) hok
    | crash id =>
      refine done ?_ hok
      cases hok
      exact ⟨Goes.lawful hi (.crash h id), rfl⟩
    | tick t =>
      refine done ?_ hok
      cases hok
      exact ⟨hi.lawful (P := fun _ => True) (.of_eq rfl rfl rfl) (.of_eq rfl rfl) le_rfl
        (rows_kept rfl) (plans_eq hi rfl le_rfl) (fun _ _ hw => .inl ⟨hw, trivial⟩) rfl, rfl⟩
    | edit p t => exact ⟨hi.edit p t, .user p t fun q hq => edit_files h p t hq⟩
    | work env id =>
      have hafter : h.after (.work env id) = x := by
        unfold Host.after
        rw [hok]
      rw [hafter]
      simp only [Host.attempt] at hok
      split at hok
      · next w hw =>
        have hsound := hi.workers id w hw
        split at hok
        · next x' hx' =>
          cases hok
          obtain ⟨hg, ht⟩ := Goes.advance hi hsound hx'
          exact ⟨hg.lawful hi, .worker env id w hw hsound ht⟩
        · next e he =>
          cases hok
          refine ⟨Goes.lawful hi (.raise hsound e), .same _ ?_⟩
          unfold Host.raise
          split_ifs <;> rfl
      · cases hok
        exact ⟨⟨hi, .refl h, fun _ hop => .inl hop⟩, .same _ rfl⟩

theorem Inv.step (hi : Inv h) (hst : Host.lts.step h a h') : Inv h' := (hi.act hst).1.inv

/-! ### Results -/

theorem inv_initial (h₀ : h.Initial) : Inv h := by
  obtain ⟨hrows, -, hplans, -, -, -, hworkers⟩ := h₀
  refine ⟨fun k row hrow => ?_, fun k _ row _ _ hrow => ?_, fun key plan hplan => ?_,
    fun id w hw => ?_⟩
  · rw [hrows] at hrow
    cases hrow
  · rw [hrows] at hrow
    cases hrow
  · rw [hplans] at hplan
    cases hplan
  · rw [hworkers] at hw
    cases hw

theorem inv_reachable (hr : Host.lts.Reachable Host.Initial h) : Inv h :=
  hr.invariant (fun _ => inv_initial) fun _ _ _ hi hst => hi.step hst

/-- `item` is an item of the approved plan of the worker `w`, its object is registered in `row`,
with the archive `dest`. -/
structure Approved (h : Host) (w : Worker) (item : Item) (row : Row) (dest : Place) : Prop where
  /-- the plan and its operation -/
  plan : ∃ plan, h.plans w.key = some plan ∧ item ∈ plan.items ∧ plan.action = w.plan.action ∧
    (h.operations w.key).isSome
  /-- the row -/
  registered : h.rows item.id = some row
  /-- the object -/
  identity : row.identity = some item.manifest.ident
  /-- the archive -/
  archive : row.archive = some dest

theorem Job.Sound.approved (hj : j.Sound h w.plan) (hw : w.Sound h id) :
    ∃ row, Approved h w j.item row j.dest ∧ j.row.root = row.root ∧ row.at j.row.relative := by
  obtain ⟨row, hrow, -, hident, -, hroot, hat, harchive⟩ := hj.row
  obtain ⟨plan, hplan, hitems, haction⟩ := hw.plan
  exact ⟨row, ⟨⟨plan, hplan, hitems ▸ hj.item, haction, hw.operation⟩, hrow, hident, harchive⟩,
    hroot, hat⟩

namespace Host

/-- An operation is there because its plan was approved. -/
theorem operation_authorized {h₀ : Host} {as : List Act} {key : PlanId} (h₀i : Initial h₀)
    (hrun : lts.Run h₀ as h) (hop : (h.operations key).isSome) :
    ∃ as₁ b as₂ x x' plan, as = as₁ ++ b :: as₂ ∧ lts.Run h₀ as₁ x ∧ Authorizes x key b plan ∧
      lts.step x b x' ∧ lts.Run x' as₂ h := by
  have hstart : ¬ (h₀.operations key).isSome := by
    rw [h₀i.2.2.2.1]
    exact Bool.false_ne_true
  obtain ⟨as₁, b, as₂, x, x', rfl, h₁, -, hst, ⟨plan, hplan⟩, h₂⟩ :=
    hrun.exists_step_of_lost (P := fun x => Inv x ∧ ¬ (x.operations key).isSome)
      (Q := fun x b _ => ∃ plan, Authorizes x key b plan) ⟨inv_initial h₀i, hstart⟩
      (fun hx => hx.2 hop) fun x b x' hx hst => by
        have hl := (hx.1.act hst).1
        by_cases hx' : (x'.operations key).isSome
        · exact .inr ((hl.begun key hx').resolve_left hx.2)
        · exact .inl ⟨hl.inv, hx'⟩
  exact ⟨as₁, b, as₂, x, x', plan, rfl, h₁, hplan, hst, h₂⟩

/-- **An approved item was approved**: before, the transaction that began the operation consumed the
approval of a plan with this item and this action, before it expired. -/
theorem approval_consumed {h₀ : Host} {as : List Act} {item : Item} {row : Row} {dest : Place}
    (h₀i : Initial h₀) (hrun : lts.Run h₀ as h) (ha : Approved h w item row dest) :
    ∃ as₁ env approval as₂ x plan, as = as₁ ++ .execute env w.key approval (.ok ()) :: as₂ ∧
      lts.Run h₀ as₁ x ∧ x.plans w.key = some plan ∧ plan.approval = some approval ∧
      x.now < plan.expires ∧ item ∈ plan.items ∧ plan.action = w.plan.action := by
  obtain ⟨plan', hplan', hitem, haction, hop⟩ := ha.plan
  obtain ⟨as₁, b, as₂, x, x', plan, rfl, h₁, ⟨env, approval, rfl, hplan, happroval, hexpires⟩, hst,
    h₂⟩ := operation_authorized h₀i hrun hop
  -- The payload of the plan is frozen.
  have hfrozen : ∃ p, h.plans w.key = some p ∧ p.items = plan.items ∧ p.action = plan.action :=
    (Lts.Run.cons hst h₂).preserves_under (I := Inv)
      (P := fun y => ∃ p, y.plans w.key = some p ∧ p.items = plan.items ∧ p.action = plan.action)
      (fun _ _ _ hi hst => hi.step hst)
      (fun y b y' hi hy hst => by
        obtain ⟨p, hp, hitems, hact⟩ := hy
        obtain ⟨p', hp', hitems', hact'⟩ := (hi.act hst).1.later.plans _ p hp
        exact ⟨p', hp', hitems'.trans hitems, hact'.trans hact⟩)
      (inv_reachable ⟨h₀, as₁, h₀i, h₁⟩) ⟨plan, hplan, rfl, rfl⟩
  obtain ⟨p, hp, hitems, hact⟩ := hfrozen
  rw [hplan'] at hp
  cases hp
  exact ⟨as₁, env, approval, as₂, x, plan, rfl, h₁, hplan, happroval, hexpires, hitems ▸ hitem,
    hact.symm.trans haction⟩

/-- **A cleanup touches approved objects only.**  Whatever a step changes of the directories, the
user changed it, or a worker moved the registered object of an approved item from its place to its
archive, or back, where nothing was; or a worker of an approved deletion deleted, in the archive of
the registered object, an object of the approved manifest, or the directory when it was empty. -/
theorem touches (hr : lts.Reachable Initial h) {a : Act} (hst : lts.step h a h') :
    h'.files = h.files ∨ (∃ p t, a = .edit p t ∧ ∀ q, q ≠ p → h'.files q = h.files q) ∨
    ∃ env id w item row dest tree, a = .work env id ∧ h.workers id = some w ∧
      Approved h w item row dest ∧ tree.ident = item.manifest.ident ∧
      ((∃ relative, row.at relative ∧ w.plan.action ≠ .restore ∧
          h.files (.source row.root relative) = some tree ∧ h.files dest = none ∧
          h'.files = (h.files.erase (.source row.root relative)).set dest tree) ∨
        (∃ relative, row.at relative ∧ w.plan.action = .restore ∧ h.files dest = some tree ∧
          h.files (.source row.root relative) = none ∧
          h'.files = (h.files.erase dest).set (.source row.root relative) tree) ∨
        (w.plan.action = .deleteSession ∧ h.files dest = some tree ∧
          ((∃ e ∈ item.manifest.entries, h'.files = h.files.set dest (tree.remove e)) ∨
            tree.entries = [] ∧ h'.files = h.files.erase dest))) := by
  cases ((inv_reachable hr).act hst).2 with
  | same _ heq => exact .inl heq
  | user p t heq => exact .inr (.inl ⟨p, t, rfl, heq⟩)
  | worker env id w hmem hw ht =>
    cases ht with
    | same heq => exact .inl heq
    | moved j hj tree hident horigin htarget heq =>
      obtain ⟨row, happroved, hroot, hat⟩ := hj.approved hw
      refine .inr (.inr ⟨env, id, w, j.item, row, j.dest, tree, rfl, hmem, happroved, hident, ?_⟩)
      have hsource : j.row.source = .source row.root j.row.relative := by
        rw [Row.source, hroot]
      by_cases haction : w.plan.action = .restore
      · refine .inr (.inl ⟨j.row.relative, hat, haction, ?_⟩)
        rw [Job.origin, if_pos haction] at horigin heq
        rw [Job.target, if_pos haction, hsource] at htarget heq
        exact ⟨horigin, htarget, heq⟩
      · refine .inl ⟨j.row.relative, hat, haction, ?_⟩
        rw [Job.origin, if_neg haction, hsource] at horigin heq
        rw [Job.target, if_neg haction] at htarget heq
        exact ⟨horigin, htarget, heq⟩
    | deleted j hj haction tree hident htree e he heq =>
      obtain ⟨row, happroved, -⟩ := hj.approved hw
      exact .inr (.inr ⟨env, id, w, j.item, row, j.dest, tree, rfl, hmem, happroved, hident,
        .inr (.inr ⟨haction, htree, .inl ⟨e, he, heq⟩⟩)⟩)
    | emptied j hj haction tree hident htree hempty heq =>
      obtain ⟨row, happroved, -⟩ := hj.approved hw
      exact .inr (.inr ⟨env, id, w, j.item, row, j.dest, tree, rfl, hmem, happroved, hident,
        .inr (.inr ⟨haction, htree, .inr ⟨hempty, heq⟩⟩)⟩)

/-- No two places hold the same object. -/
def Single (h : Host) : Prop :=
  ∀ p q t t', h.files p = some t → h.files q = some t' → t.ident = t'.ident → p = q

/-- A worker's step deletes objects of the tree `t`: its plan is an approved deletion, and `t` is
its registered object, which is not whole after the step. -/
def Deletes (h : Host) (a : Act) (h' : Host) (t : Tree) : Prop :=
  ∃ env id w item row dest, a = .work env id ∧ h.workers id = some w ∧
    w.plan.action = .deleteSession ∧ Approved h w item row dest ∧ t.ident = item.manifest.ident ∧
    h.files dest = some t ∧ h'.files dest ≠ some t

/-- A move, in a host where an object is at one place. -/
theorem Single.move (hs : h.Single) {p q : Place} {t : Tree} (hp : h.files p = some t)
    (hfiles : h'.files = (h.files.erase p).set q t) : h'.Single := by
  -- Another place that holds the object would be the one that it left.
  have other : ∀ r t', r ≠ q → h'.files r = some t' → r ≠ p ∧ h.files r = some t' := by
    intro r t' hr ht'
    rw [hfiles, Table.set_of_ne _ _ _ hr] at ht'
    exact Table.erase_eq_some ht'
  have at_q : ∀ t', h'.files q = some t' → t' = t := by
    intro t' ht'
    rw [hfiles, Table.set_same] at ht'
    exact (Option.some.inj ht').symm
  intro r r' t₁ t₂ h₁ h₂ hident
  by_cases hr : r = q
  · by_cases hr' : r' = q
    · rw [hr, hr']
    · obtain ⟨hne, hold⟩ := other r' t₂ hr' h₂
      rw [hr] at h₁
      rw [at_q t₁ h₁] at hident
      exact absurd (hs p r' t t₂ hp hold hident).symm hne
  · obtain ⟨hne, hold⟩ := other r t₁ hr h₁
    by_cases hr' : r' = q
    · rw [hr'] at h₂
      rw [at_q t₂ h₂] at hident
      exact absurd (hs r p t₁ t hold hp hident) hne
    · obtain ⟨-, hold'⟩ := other r' t₂ hr' h₂
      exact hs r r' t₁ t₂ hold hold' hident

/-- What is at a place becomes another state of the same object, or is gone. -/
theorem Single.shrink (hs : h.Single) (hfiles : ∀ r t', h'.files r = some t' →
    ∃ t, h.files r = some t ∧ t.ident = t'.ident) : h'.Single := by
  intro r r' t₁ t₂ h₁ h₂ hident
  obtain ⟨t₁', h₁', hid₁⟩ := hfiles r t₁ h₁
  obtain ⟨t₂', h₂', hid₂⟩ := hfiles r' t₂ h₂
  exact hs r r' t₁' t₂' h₁' h₂' (hid₁.trans (hident.trans hid₂.symm))

/-- What a worker of an approved deletion finds at its destination is whole after its step, or the
worker deletes from it. -/
theorem whole_or_deletes {env : Env} {id : ℕ} {w : Worker} {item : Item} {row : Row}
    {dest : Place} {t : Tree} (hmem : h.workers id = some w)
    (haction : w.plan.action = .deleteSession) (happroved : Approved h w item row dest)
    (hident : t.ident = item.manifest.ident) (htree : h.files dest = some t) :
    (∃ p, h'.files p = some t) ∨ h.Deletes (.work env id) h' t := by
  by_cases hwhole : h'.files dest = some t
  · exact .inl ⟨dest, hwhole⟩
  · exact .inr ⟨env, id, w, item, row, dest, rfl, hmem, haction, happroved, hident, htree, hwhole⟩

/-- One step that is not the user's: the object `t` stays whole at one place, or is deleted. -/
theorem conserved_step (hi : Inv h) {a : Act} (hst : lts.step h a h')
    (hquiet : ∀ p t, a ≠ .edit p t) (hs : h.Single) :
    h'.Single ∧ ∀ t, (∃ p, h.files p = some t) →
      (∃ p, h'.files p = some t) ∨ h.Deletes a h' t := by
  have same : h'.files = h.files → h'.Single ∧ ∀ t, (∃ p, h.files p = some t) →
      (∃ p, h'.files p = some t) ∨ h.Deletes a h' t := by
    intro heq
    refine ⟨hs.shrink fun r t' ht' => ⟨t', heq ▸ ht', rfl⟩, fun t ht => .inl ?_⟩
    rw [heq]
    exact ht
  cases (hi.act hst).2 with
  | same _ heq => exact same heq
  | user p t => exact absurd rfl (hquiet p t)
  | worker env id w hmem hw ht =>
    cases ht with
    | same heq => exact same heq
    | moved j hj tree hident horigin htarget heq =>
      refine ⟨hs.move horigin heq, fun t ht => .inl ?_⟩
      obtain ⟨p, hp⟩ := ht
      by_cases hpo : p = j.origin w.plan.action
      · rw [hpo, horigin] at hp
        cases hp
        exact ⟨_, by rw [heq]; exact Table.set_same ..⟩
      · refine ⟨p, ?_⟩
        have hpt : p ≠ j.target w.plan.action := by
          rintro rfl
          rw [htarget] at hp
          cases hp
        rw [heq, Table.set_of_ne _ _ _ hpt, Table.erase_of_ne _ _ hpo, hp]
    | deleted j hj haction tree hident htree e he heq =>
      obtain ⟨row, happroved, -⟩ := hj.approved hw
      refine ⟨hs.shrink fun r t' ht' => ?_, fun t ht => ?_⟩
      · rw [heq, Table.set_apply] at ht'
        split_ifs at ht' with hr
        · cases ht'
          exact ⟨tree, hr ▸ htree, rfl⟩
        · exact ⟨t', ht', rfl⟩
      · obtain ⟨p, hp⟩ := ht
        by_cases hpd : p = j.dest
        · rw [hpd, htree] at hp
          cases hp
          exact whole_or_deletes hmem haction happroved hident htree
        · exact .inl ⟨p, by rw [heq, Table.set_of_ne _ _ _ hpd, hp]⟩
    | emptied j hj haction tree hident htree hempty heq =>
      obtain ⟨row, happroved, -⟩ := hj.approved hw
      refine ⟨hs.shrink fun r t' ht' => ?_, fun t ht => ?_⟩
      · rw [heq] at ht'
        exact ⟨t', (Table.erase_eq_some ht').2, rfl⟩
      · obtain ⟨p, hp⟩ := ht
        by_cases hpd : p = j.dest
        · rw [hpd, htree] at hp
          cases hp
          exact whole_or_deletes hmem haction happroved hident htree
        · exact .inl ⟨p, by rw [heq, Table.erase_of_ne _ _ hpd, hp]⟩

/-- **A cleanup loses nothing.**  In every run in which the user leaves the directories alone, with
any number of workers and crashes, no object is ever at two places, and an object that is somewhere
at the beginning is somewhere at the end, with the same contents, unless a worker of an approved
deletion deletes from it in between. -/
theorem conserved (hr : lts.Reachable Initial h) (hs : h.Single) {as : List Act}
    (hrun : lts.Run h as h') (hquiet : ∀ p t, .edit p t ∉ as) :
    h'.Single ∧ ∀ t, (∃ p, h.files p = some t) →
      (∃ p, h'.files p = some t) ∨
        ∃ as₁ a as₂ x x', as = as₁ ++ a :: as₂ ∧ lts.Run h as₁ x ∧ lts.step x a x' ∧
          lts.Run x' as₂ h' ∧ x.Deletes a x' t := by
  have hi := inv_reachable hr
  clear hr
  induction hrun with
  | nil => exact ⟨hs, fun t ht => .inl ht⟩
  | @cons x y z a as hst hrun ih =>
    have hquiet' : ∀ p t, a ≠ .edit p t := by
      rintro p t rfl
      exact hquiet p t List.mem_cons_self
    obtain ⟨hs', hstep⟩ := conserved_step hi hst hquiet' hs
    obtain ⟨hs'', hlater⟩ := ih hs' (fun p t hm => hquiet p t (List.mem_cons_of_mem _ hm))
      (hi.step hst)
    refine ⟨hs'', fun t ht => ?_⟩
    rcases hstep t ht with ht' | hdel
    · rcases hlater t ht' with hend | ⟨as₁, b, as₂, u, u', rfl, h₁, h₂, h₃, hdel⟩
      · exact .inl hend
      · exact .inr ⟨a :: as₁, b, as₂, u, u', rfl, .cons hst h₁, h₂, h₃, hdel⟩
    · exact .inr ⟨[], a, as, x, y, rfl, .nil x, hst, hrun, hdel⟩

/-! ### An archive -/

namespace Sample

/-- A directory with a file. -/
def tree : Tree := ⟨(1, 7), [⟨"a", (1, 8), none⟩, ⟨"a/b", (1, 9), some (3, "x")⟩], by decide⟩

/-- An empty registry. -/
def start : Host := ⟨.empty, [], .empty, .empty, .empty, .empty, .empty, .empty, 0, 0⟩

/-- The directory is registered, and the user approves that it is archived. -/
def approving : List Act :=
  [.create (.ok ()) "s" "/w" "d" "me" true, .edit (.source "/w" "d") (some tree), .created 0,
    .preview (.ok ()) "s" "me" .archive none, .request 1 (.ok 5), .execute (.ok ()) 1 5 (.ok ())]

/-- The plan is approved. -/
def approved : Host := approving.foldl after start

/-- A worker crashes after the move, and another one finishes. -/
def archiving : List Act :=
  .resume 9 1 :: List.replicate 9 (.work {} 9) ++ [.crash 9, .tick 600, .resume 8 1] ++
    List.replicate 14 (.work {} 8)

/-- A worker is about to rename the directory. -/
def sliding : Host := (archiving.take 9).foldl after approved

theorem run_foldl (h : Host) (as : List Act) : lts.Run h as (as.foldl after h) := by
  induction as generalizing h with
  | nil => exact .nil h
  | cons a as ih => exact .cons rfl (ih (h.after a))

theorem reachable (as : List Act) : lts.Reachable Initial (as.foldl after start) :=
  ⟨start, as, ⟨rfl, rfl, rfl, rfl, rfl, rfl, rfl⟩, run_foldl start as⟩

theorem approved_single : approved.Single := by
  have only : ∀ p t, approved.files p = some t → p = .source "/w" "d" := by
    intro p t hp
    by_contra hne
    have hnone : approved.files p = none := if_neg hne
    rw [hp] at hnone
    cases hnone
  intro p q t t' hp hq _
  rw [only p t hp, only q t' hq]

end Sample

/-- The rename of an approved directory. -/
theorem touches_archive :
    (Sample.sliding.after (.work {} 9)).files (.source "/w" "d") = none ∧
      ∃ w item row dest, Sample.sliding.workers 9 = some w ∧
        Approved Sample.sliding w item row dest := by
  have hgone : (Sample.sliding.after (.work {} 9)).files (.source "/w" "d") = none := by decide
  have hthere : (Sample.sliding.files (.source "/w" "d")).isSome := by decide
  have hr : lts.Reachable Initial Sample.sliding :=
    (Sample.reachable Sample.approving).run (Sample.run_foldl Sample.approved _)
  have hst : lts.step Sample.sliding (.work {} 9) (Sample.sliding.after (.work {} 9)) := rfl
  refine ⟨hgone, ?_⟩
  obtain heq | ⟨p, t, ha, -⟩ | ⟨env, id, w, item, row, dest, tree, ha, hw, happroved, -⟩ :=
    touches hr hst
  · rw [← heq, hgone] at hthere
    cases hthere
  · cases ha
  · cases ha
    exact ⟨w, item, row, dest, hw, happroved⟩

/-- A directory is archived by two workers, one of which crashes. -/
theorem conserved_archive :
    (Sample.archiving.foldl after Sample.approved).Single ∧
      (Sample.archiving.foldl after Sample.approved).files (.payload "/w" "me" 0 1) =
        some Sample.tree :=
  ⟨(conserved (Sample.reachable Sample.approving) Sample.approved_single
    (Sample.run_foldl Sample.approved Sample.archiving) (by
      intro p t hm
      simp [Sample.archiving] at hm)).1, by decide⟩

end Host

end Workspace

end PythonAI
