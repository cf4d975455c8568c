import PythonAI.Coordinator.Moves

/-!
# What the calls and children of a root spend

Every transaction of the host changes the budget tables in one of the ways of `Budgets.Db.Change`.
The counters stay within the limits of their budget, except that a call may report more than it has
reserved.

* `Host.budgets_conserved` : **in every reachable state the counters of a budget are the sums over
  its calls and children**, within its limits; of the tokens this is said while the sums are 64-bit
  integers (`Host.Fits`), since the column rounds a larger one (`Host.tokens_rounded`).
-/

namespace PythonAI

open Library Budgets

namespace Coordinator

variable {h h' : Host} {a : Act} {k : TaskKey} {db db' : Db} {new : List Held}

/-- What one transaction spends; `new` is what its call holds afterwards. -/
inductive Spends (db : Budgets.Db) (new : List Held) : Budgets.Db → Prop
  | same : Spends db new db
  /-- a budget is created -/
  | created (k : TaskKey) (deadline : Time) (limits : Limits) (hnone : db.budgets k = none)
      (hpos : 0 ≤ limits.cost) :
    Spends db new { db with budgets := db.budgets.set k ⟨deadline, limits, 0, 0, 0, 0⟩ }
  /-- a child is admitted -/
  | child (k : TaskKey) (row : Budget) (hrow : db.budgets k = some row)
      (hlt : row.children < row.limits.children) : Spends db new (TaskBudget.addChild k db)
  /-- a call is reserved, within the limits -/
  | reserved (c : ModelCall) (row : Budget) (rates : Table Token (ℚ × ℚ))
      (hrow : db.budgets c.budget = some row) (hnew : ∀ x ∈ db.calls, x.id ≠ c.id)
      (hlt : row.requests < row.limits.requests)
      (hfits : Integer64.Fits c.tokens)
      (ht : Integer64.sum row.tokens c.tokens ≤ row.limits.tokens)
      (hc : row.cost + c.cost ≤ row.limits.cost ∨ row.limits.cost = 0 ∧ c.cost = 0)
      (hm : .reserved c ∈ new) : Spends db new (TaskBudget.withCall c rates db)
  /-- a call that is open reports its usage -/
  | charged (c : ModelCall) (row : Budget) (settle : Bool) (total : ℤ) (reported : Option ℚ)
      (hc : c ∈ db.calls) (hs : c.status = .reserved) (hrow : db.budgets c.budget = some row)
      (hfits : Integer64.Fits (TaskBudget.charged settle total c.tokens - c.tokens))
      (hm : .reported c.id total reported ∈ new) :
    Spends db new (db.charge c settle (TaskBudget.charged settle total c.tokens)
      (if row.limits.cost = 0 then c.cost else (reported.map (max c.cost)).getD c.cost))

theorem Spends.change {b b' : Budgets.Db} (h : Spends b new b') : b.Change b' := by
  cases h with
  | same => exact .same
  | created k deadline limits hnone => exact .created k deadline limits hnone
  | child k row hrow hlt => exact .child k row hrow hlt
  | reserved c row rates hrow hnew hlt hfits => exact .reserved c row rates hrow hnew hlt hfits
  | charged c row settle total reported hc _ _ hfits => exact .charged c settle _ _ hc hfits

/-- The limits that a call holds are those of the row. -/
structure Host.Limited (h : Host) : Prop where
  budget : ∀ b, .budget b ∈ h.held →
    ∃ row, h.db.budgets.budgets b.key = some row ∧ b.limits = row.limits
  checked : ∀ b, .checked b ∈ h.held → .budget b ∈ h.held

theorem insert_spends {env : Env} {b : TaskBudget} {spec : NodeSpec} {key c : NodeId} {g : GraphId}
    {t₁ t₂ : Time} (hb : ∃ row, db.budgets.budgets b.key = some row ∧ b.limits = row.limits)
    (hi : insert env b spec key g t₁ t₂ db = .ok (db', c)) : Spends db.budgets new db'.budgets := by
  obtain rfl | ⟨row, db₁, payload, deadline, -, hrow, hadmits, -, -, heq⟩ := insert_ok hi
  · exact .same
  obtain ⟨row', hrow', hlimits⟩ := hb
  obtain rfl := Option.some.inj (hrow.symm.trans hrow')
  rw [heq]
  exact .child b.key row hrow (hlimits ▸ TaskBudget.admits_ok hadmits)

theorem reconcile_spends {b : TaskBudget} {key : Token} {usage : Option Usage} {settle : Bool}
    {d : Budgets.Db} (hb : ∃ row, d.budgets b.key = some row ∧ b.limits = row.limits) :
    Spends d (Act.reports b key usage settle d) (b.reconcile key usage settle d).1 := by
  obtain ⟨row, hrow, hlimits⟩ := hb
  rcases TaskBudget.reconcile_cases b key usage settle d with
    heq | ⟨u, total, c, rfl, htotal, hpos, hopen, hbind, heq⟩
  · rw [heq]
    exact .same
  obtain ⟨hc, -, hbudget, hst⟩ := TaskBudget.openCall_eq_some hopen
  rw [heq]
  have hcharge : b.report c u total settle d = d.charge c settle
      (TaskBudget.charged settle total c.tokens) (if row.limits.cost = 0 then c.cost else
        ((TaskBudget.reportedCost (d.rates c.id) u total).map (max c.cost)).getD c.cost) := by
    rw [TaskBudget.report, Db.charge, TaskBudget.chargedCost, hlimits, hbudget]
  rw [hcharge]
  refine .charged c row settle total _ hc hst (hbudget ▸ hrow) hbind.1 ?_
  simp [Act.reports, hopen, htotal, not_lt.2 hpos, hbind]

theorem reserve_spends {b : TaskBudget} {model : String} {prompt output : ℤ} {u out : Token}
    {t : Time} {d d' : Budgets.Db} (hb : ∃ row, d.budgets b.key = some row ∧ b.limits = row.limits)
    (hr : b.reserve model prompt output u t d = .ok (d', out)) :
    Spends d (d'.calls.getLast?.map Held.reserved).toList d' := by
  obtain ⟨row', hrow', hlimits⟩ := hb
  obtain ⟨row, c, rates, hrow, hid, hbudget, -, hreq, htokens, hfits, hover, hzero, hnew, rfl⟩ :=
    TaskBudget.reserve_ok hr
  obtain rfl := Option.some.inj (hrow.symm.trans hrow')
  rw [hlimits] at hreq htokens hzero
  refine .reserved c row rates (hbudget ▸ hrow) (hid ▸ hnew) hreq hfits htokens ?_ ?_
  · by_cases hcost : row.limits.cost = 0
    · exact .inr ⟨hcost, hzero hcost⟩
    · simpa [TaskBudget.overCost, hlimits, hcost] using hover
  · simp [TaskBudget.withCall]

/-- A committed transaction spends. -/
theorem attempt_spends (hl : h.Limited) (hn : (h.db.nodes.map Node.id).Nodup)
    (hp : a.permitted h.held) (ha : a.attempt h.uuids h.db = .ok (db', new)) :
    Spends h.db.budgets new db'.budgets := by
  have hsame : ∀ {d : Budgets.Db}, d = h.db.budgets → Spends h.db.budgets new d := by
    rintro d rfl
    exact .same
  cases a with
  | load | check | get | mergeable | probe | nodeStopped =>
    simp only [Act.attempt, bind_eq_ok, pure_eq_ok] at ha
    obtain ⟨_, _, ha⟩ := ha
    cases ha
    exact .same
  | unreviewed | unreviewable | task | renew | requeue | conflict | abort | dispatched | fence =>
    cases ha
    exact .same
  | create env k stored t =>
    simp only [Act.attempt, bind_eq_ok, pure_eq_ok] at ha
    obtain ⟨⟨d, _⟩, hc, ha⟩ := ha
    cases ha
    obtain rfl | ⟨hnone, limits, seconds, hpos, rfl⟩ := TaskBudget.create_ok hc
    · exact .same
    · exact .created k _ limits hnone hpos
  | reserve b model prompt output t =>
    simp only [Act.attempt, bind_eq_ok, pure_eq_ok] at ha
    obtain ⟨⟨d, _⟩, hr, ha⟩ := ha
    cases ha
    exact reserve_spends (hl.budget b hp) hr
  | reconcile b key usage settle =>
    cases ha
    exact reconcile_spends (hl.budget b hp)
  | reserveChild b depth t =>
    simp only [Act.attempt, bind_eq_ok, pure_eq_ok] at ha
    obtain ⟨⟨d, _⟩, hr, ha⟩ := ha
    cases ha
    obtain ⟨row', hrow', hlimits⟩ := hl.budget b hp
    obtain ⟨row, hrow, hlt, rfl⟩ := TaskBudget.reserveChild_ok hr
    obtain rfl := Option.some.inj (hrow.symm.trans hrow')
    exact .child b.key row hrow (hlimits ▸ hlt)
  | submit env b spec t₁ t₂ | review env b n t₁ t₂ =>
    simp only [Act.attempt, bind_eq_ok, pure_eq_ok] at ha
    obtain ⟨⟨db₁, c⟩, hi, ha⟩ := ha
    cases ha
    exact insert_spends (hl.budget b (hl.checked b hp.1)) hi
  | answer acc n text =>
    simp only [Act.attempt, Human.answer, bind_eq_ok, pure_eq_ok] at ha
    obtain ⟨x, ⟨-, -, y, -, rfl⟩, ha⟩ := ha
    cases ha
    exact .same
  | mark n t =>
    simp only [Act.attempt, Human.mark, bind_eq_ok, pure_eq_ok] at ha
    obtain ⟨x, ⟨-, -, rfl⟩, ha⟩ := ha
    cases ha
    exact .same
  | resolve acc n call text =>
    simp only [Act.attempt, Human.resolve, bind_eq_ok, pure_eq_ok] at ha
    obtain ⟨x, ⟨y, -, rfl⟩, ha⟩ := ha
    cases ha
    exact .same
  | cancel env owner k clock =>
    simp only [Act.attempt, cancel, bind_eq_ok, pure_eq_ok] at ha
    obtain ⟨x, ⟨-, -, -, -, rfl⟩, ha⟩ := ha
    cases ha
    exact .same
  | sealGraph g =>
    simp only [Act.attempt, Graphs.sealGraph, bind_eq_ok, pure_eq_ok] at ha
    obtain ⟨x, ⟨y, -, rfl⟩, ha⟩ := ha
    cases ha
    exact .same
  | recover env clock t =>
    simp only [Act.attempt, bind_eq_ok, pure_eq_ok] at ha
    obtain ⟨⟨db₁, _⟩, hr, ha⟩ := ha
    cases ha
    rw [recover_ok hr]
    exact .same
  | claim env clock =>
    simp only [Act.attempt, bind_eq_ok, pure_eq_ok] at ha
    obtain ⟨⟨db₁, _⟩, hr, ha⟩ := ha
    cases ha
    rw [(claim_ok hn hr).1]
    exact .same
  | publish env n r t₁ t₂ =>
    simp only [Act.attempt, bind_eq_ok, pure_eq_ok] at ha
    obtain ⟨⟨db₁, _⟩, hr, ha⟩ := ha
    cases ha
    rw [(publish_ok hr).2.2]
    exact .same
  | fail env n state t =>
    simp only [Act.attempt, bind_eq_ok, pure_eq_ok] at ha
    obtain ⟨⟨db₁, _⟩, hr, ha⟩ := ha
    cases ha
    obtain rfl | ⟨-, -, -, -, -, -, -, heq, -⟩ := fail_ok hr
    · exact .same
    · rw [heq]
      exact .same
  | abandon env n t =>
    simp only [Act.attempt, bind_eq_ok, pure_eq_ok] at ha
    obtain ⟨⟨db₁, _⟩, hr, ha⟩ := ha
    cases ha
    rw [(Human.abandon_ok hr).2]
    exact .same
  | start env site n t =>
    simp only [Act.attempt, bind_eq_ok, pure_eq_ok] at ha
    obtain ⟨⟨db₁, _⟩, hr, ha⟩ := ha
    cases ha
    rw [Merge.start_ok hr]
    exact .same
  | finish env site n token files archive t =>
    simp only [Act.attempt, bind_eq_ok, pure_eq_ok] at ha
    obtain ⟨⟨db₁, _⟩, hr, ha⟩ := ha
    cases ha
    obtain ⟨r, -, heq⟩ := Merge.finish_ok hr
    rw [heq]
    exact .same
  | stop g reason t =>
    simp only [Act.attempt, bind_eq_ok, pure_eq_ok] at ha
    obtain ⟨⟨db₁, _⟩, hr, ha⟩ := ha
    cases ha
    obtain ⟨graph, -, ⟨-, rfl | rfl⟩ | ⟨-, rfl⟩⟩ := Graphs.stop_ok hr
    all_goals exact .same
  | conclude g root t =>
    simp only [Act.attempt, bind_eq_ok, pure_eq_ok] at ha
    obtain ⟨⟨db₁, _⟩, hr, ha⟩ := ha
    cases ha
    obtain ⟨graph, -, _, rfl, hdb⟩ := Graphs.conclude_ok hr
    have hframe := congrArg Coordinator.Db.budgets (Graphs.failStuck_ok graph t
      (Graphs.order graph h.db) hn).1
    obtain rfl | ⟨state, -, -, rfl⟩ := hdb
    all_goals exact hsame hframe
  | graphClaim env g k p t =>
    simp only [Act.attempt, bind_eq_ok, pure_eq_ok] at ha
    obtain ⟨⟨db₁, _⟩, hr, ha⟩ := ha
    cases ha
    obtain ⟨-, rfl⟩ | ⟨graph, n, -, -, heq⟩ := Graphs.claim_ok hr
    · exact .same
    · rw [heq]
      exact .same
  | processDone g n t =>
    simp only [Act.attempt, bind_eq_ok, pure_eq_ok] at ha
    obtain ⟨⟨db₁, _⟩, hr, ha⟩ := ha
    cases ha
    rw [Graphs.processDone_ok hr]
    exact .same
  | reap p t =>
    simp only [Act.attempt, bind_eq_ok, pure_eq_ok] at ha
    obtain ⟨⟨db₁, _⟩, hr, ha⟩ := ha
    cases ha
    rw [(Graphs.reap_ok hr).frame]
    exact .same

/-! ### Over-reported calls -/

namespace Host

/-- A call of the budget has reported more tokens than it had reserved. -/
def TokensOver (h : Host) (k : TaskKey) : Prop :=
  ∃ c total cost, .reserved c ∈ h.held ∧ c.budget = k ∧ .reported c.id total cost ∈ h.held ∧
    c.tokens < total

/-- A call of the budget has reported a higher cost than it had reserved. -/
def CostOver (h : Host) (k : TaskKey) : Prop :=
  ∃ c total cost, .reserved c ∈ h.held ∧ c.budget = k ∧ .reported c.id total (some cost) ∈ h.held ∧
    c.cost < cost

/-- What a budget has spent. -/
structure Spent (h : Host) : Prop where
  limited : h.Limited
  conserved : h.db.budgets.Conserved
  /-- the row of a call agrees with its reservation, unless a call has reported more -/
  calls : ∀ x ∈ h.db.budgets.calls, ∃ c, .reserved c ∈ h.held ∧ c.id = x.id ∧ c.budget = x.budget ∧
    (x.status = .reserved → x.tokens = c.tokens ∨ h.TokensOver x.budget) ∧
    (x.cost = c.cost ∨ h.CostOver x.budget)
  cost : ∀ k row, h.db.budgets.budgets k = some row → row.cost ≤ row.limits.cost ∨ h.CostOver k

/-- The tokens of the budgets, while what the calls of each are charged stays within 64 bits. -/
structure Metered (h : Host) : Prop where
  exact : h.db.budgets.Exact
  tokens : ∀ k row, h.db.budgets.budgets k = some row →
    row.tokens ≤ row.limits.tokens ∨ h.TokensOver k

theorem TokensOver.mono (hs : ∀ x ∈ h.held, x ∈ h'.held) (ho : h.TokensOver k) :
    h'.TokensOver k := by
  obtain ⟨c, total, cost, hc, hk, hr, hlt⟩ := ho
  exact ⟨c, total, cost, hs _ hc, hk, hs _ hr, hlt⟩

theorem CostOver.mono (hs : ∀ x ∈ h.held, x ∈ h'.held) (ho : h.CostOver k) : h'.CostOver k := by
  obtain ⟨c, total, cost, hc, hk, hr, hlt⟩ := ho
  exact ⟨c, total, cost, hs _ hc, hk, hs _ hr, hlt⟩

/-- A step spends. -/
theorem spends (hw : h.Wf) (hl : h.Limited) (hs : lts.step h a h') :
    Spends h.db.budgets (a.yields h.uuids h.db) h'.db.budgets := by
  obtain ⟨t, -, -, hp, rfl⟩ := hs
  cases hr : a.attempt h.uuids h.db with
  | error e =>
    have hsame : (h.after a t).db = h.db := by simp [after, Act.perform, hr]
    rw [hsame]
    exact .same
  | ok x =>
    have hok : a.attempt h.uuids h.db = .ok (x.1, x.2) := hr
    have hdb : (h.after a t).db = x.1 := Act.perform_of_ok hok
    rw [hdb, Act.yields_of_ok hok]
    exact attempt_spends hl hw.ids hp hok

/-- A new call agrees with its reservation. -/
theorem calls_step (hi : h.Spent) (hm : ∀ x ∈ h.held, x ∈ h'.held)
    (hn : ∀ x ∈ a.yields h.uuids h.db, x ∈ h'.held)
    (hsp : Spends h.db.budgets (a.yields h.uuids h.db) h'.db.budgets) :
    ∀ x ∈ h'.db.budgets.calls, ∃ c, .reserved c ∈ h'.held ∧ c.id = x.id ∧ c.budget = x.budget ∧
      (x.status = .reserved → x.tokens = c.tokens ∨ h'.TokensOver x.budget) ∧
      (x.cost = c.cost ∨ h'.CostOver x.budget) := by
  have hold : ∀ x ∈ h.db.budgets.calls, ∃ c, .reserved c ∈ h'.held ∧ c.id = x.id ∧
      c.budget = x.budget ∧ (x.status = .reserved → x.tokens = c.tokens ∨ h'.TokensOver x.budget) ∧
      (x.cost = c.cost ∨ h'.CostOver x.budget) := by
    intro x hx
    obtain ⟨c, hc, hid, hb, ht, hcost⟩ := hi.calls x hx
    exact ⟨c, hm _ hc, hid, hb, fun hst => (ht hst).imp_right (.mono hm), hcost.imp_right (.mono hm)⟩
  generalize h'.db.budgets = d at hsp ⊢
  cases hsp with
  | same | created | child => exact hold
  | reserved c row rates hrow hnew hlt hfits ht hc hmem =>
    intro x hx
    rcases List.mem_append.1 hx with hx | hx
    · exact hold x hx
    · rw [List.mem_singleton.1 hx]
      exact ⟨c, hn _ hmem, rfl, rfl, fun _ => .inl rfl, .inl rfl⟩
  | charged c row settle total reported hc hst hrow hfits hmem =>
    intro x hx
    obtain ⟨y, hy, rfl⟩ := List.mem_map.1 hx
    by_cases hid : y.id = c.id
    · rw [if_pos hid]
      obtain rfl := List.inj_on_of_nodup_map hi.conserved.ids hy hc hid
      obtain ⟨c, hres, hcid, hcb, ht, hcost⟩ := hold y hy
      refine ⟨c, hres, hcid, hcb, fun hst' => ?_, ?_⟩
      · -- a partial report cannot refund, so a smaller one changes nothing
        cases settle with
        | true => cases hst'
        | false =>
          refine (ht hst).elim (fun heq => ?_) .inr
          by_cases hle : total ≤ y.tokens
          · exact .inl ((max_eq_right hle).trans heq)
          · exact .inr ⟨c, total, reported, hres, hcb, hcid ▸ hn _ hmem,
              heq ▸ lt_of_not_ge hle⟩
      · refine hcost.elim (fun heq => ?_) .inr
        simp only [TaskBudget.settled]
        split_ifs with hzero
        · exact .inl heq
        · cases reported with
          | none => exact .inl heq
          | some q =>
            by_cases hle : q ≤ y.cost
            · exact .inl ((max_eq_left hle).trans heq)
            · exact .inr ⟨c, total, q, hres, hcb, hcid ▸ hn _ hmem, heq ▸ lt_of_not_ge hle⟩
    · rw [if_neg hid]
      exact hold y hy

/-- The row of a budget after a step, under an update of the budget `b`. -/
theorem update_le {b : TaskKey} {f : Budget → Budget} {d : Budgets.Db} {row' : Budget}
    {P : TaskKey → Budget → Prop} (hold : ∀ k row, d.budgets k = some row → P k row)
    (hr : (d.budgets.update b (fun _ => true) f) k = some row')
    (hnew : ∀ row, d.budgets b = some row → P b row → P b (f row)) : P k row' := by
  obtain ⟨row, hrow, rfl⟩ := Budgets.update_row hr
  split_ifs with hk
  · subst hk
    exact hnew row hrow (hold _ row hrow)
  · exact hold k row hrow

theorem tokens_step (hi : h.Spent) (ht : h.Metered) (hb : h.db.budgets.Counted)
    (hb' : h'.db.budgets.Counted) (hm : ∀ x ∈ h.held, x ∈ h'.held)
    (hn : ∀ x ∈ a.yields h.uuids h.db, x ∈ h'.held)
    (hsp : Spends h.db.budgets (a.yields h.uuids h.db) h'.db.budgets) :
    ∀ k row, h'.db.budgets.budgets k = some row →
      row.tokens ≤ row.limits.tokens ∨ h'.TokensOver k := by
  have hold : ∀ k row, h.db.budgets.budgets k = some row →
      row.tokens ≤ row.limits.tokens ∨ h'.TokensOver k :=
    fun k row hr => (ht.tokens k row hr).imp_right (.mono hm)
  have hrange : ∀ k row, h.db.budgets.budgets k = some row → Integer64.Fits row.tokens :=
    fun k row hr => ht.exact k row hr ▸ hb.fits k
  generalize h'.db.budgets = d at hsp hb' ⊢
  cases hsp with
  | same => exact hold
  | created c deadline limits hnone hpos =>
    intro k row hr
    simp only [Table.set_apply] at hr
    split_ifs at hr
    · obtain rfl := Option.some.inj hr
      exact .inl (Int.natCast_nonneg _)
    · exact hold k row hr
  | child c row hrow hlt => exact fun k row' hr => update_le hold hr fun _ _ ho => ho
  | reserved c row rates hrow hnew hlt hfits hle =>
    intro k row' hr
    refine update_le hold hr fun row₁ hr₁ _ => .inl ?_
    obtain rfl := Option.some.inj (hr₁.symm.trans hrow)
    have hsum := hb'.fits c.budget
    rw [Db.tokensOf_withCall, if_pos rfl] at hsum
    rw [Integer64.sum_of_fits (hrange _ _ hr₁), ht.exact _ _ hr₁] at hle
    exact (ht.exact.add hb hr₁ hfits hsum).trans_le hle
  | charged c row settle total reported hc hst hrow hfits hmem =>
    intro k row' hr
    refine update_le hold hr fun row₁ hr₁ ho => ?_
    refine ho.elim (fun hle => ?_) .inr
    obtain ⟨c', hres, hcid, hcb, htokens, -⟩ := hi.calls c hc
    refine (htokens hst).elim (fun heq => ?_) fun ho => .inr (ho.mono hm)
    by_cases hmore : total ≤ c.tokens
    · have hcharged : TaskBudget.charged settle total c.tokens ≤ c.tokens := by
        unfold TaskBudget.charged
        split_ifs
        · exact hmore
        · exact max_le hmore le_rfl
      have hsum := hb'.fits c.budget
      rw [hi.conserved.tokensOf_charge hc, if_pos rfl] at hsum
      have hadd := ht.exact.add hb hr₁ hfits hsum
      rw [ht.exact _ _ hr₁] at hle
      exact .inl (by simp only; omega)
    · exact .inr ⟨c', total, reported, hm _ hres, hcb, hcid ▸ hn _ hmem,
        heq ▸ lt_of_not_ge hmore⟩

theorem cost_step (hi : h.Spent) (hm : ∀ x ∈ h.held, x ∈ h'.held)
    (hn : ∀ x ∈ a.yields h.uuids h.db, x ∈ h'.held)
    (hsp : Spends h.db.budgets (a.yields h.uuids h.db) h'.db.budgets) :
    ∀ k row, h'.db.budgets.budgets k = some row →
      row.cost ≤ row.limits.cost ∨ h'.CostOver k := by
  have hold : ∀ k row, h.db.budgets.budgets k = some row →
      row.cost ≤ row.limits.cost ∨ h'.CostOver k :=
    fun k row hr => (hi.cost k row hr).imp_right (.mono hm)
  generalize h'.db.budgets = d at hsp ⊢
  cases hsp with
  | same => exact hold
  | created c deadline limits hnone hpos =>
    intro k row hr
    simp only [Table.set_apply] at hr
    split_ifs at hr
    · obtain rfl := Option.some.inj hr
      exact .inl hpos
    · exact hold k row hr
  | child c row hrow hlt => exact fun k row' hr => update_le hold hr fun _ _ ho => ho
  | reserved c row rates hrow hnew hlt hfits ht hcost =>
    intro k row' hr
    refine update_le hold hr fun row₁ hr₁ ho => ?_
    obtain rfl := Option.some.inj (hr₁.symm.trans hrow)
    rcases hcost with hle | ⟨-, hzero⟩
    · exact .inl hle
    · refine ho.imp_left fun hle => ?_
      simp only [hzero, add_zero]
      exact hle
  | charged c row settle total reported hc hst hrow hfits hmem =>
    intro k row' hr
    refine update_le hold hr fun row₁ hr₁ ho => ?_
    refine ho.elim (fun hle => ?_) .inr
    obtain ⟨c', hres, hcid, hcb, -, hcost⟩ := hi.calls c hc
    refine hcost.elim (fun heq => ?_) fun ho => .inr (ho.mono hm)
    have hsame : ∀ {cost : ℚ}, cost = c.cost → row₁.cost + (cost - c.cost) ≤ row₁.limits.cost := by
      rintro cost rfl
      rw [sub_self, add_zero]
      exact hle
    dsimp only
    split_ifs
    · exact .inl (hsame rfl)
    cases reported with
    | none => exact .inl (hsame rfl)
    | some q =>
      by_cases hmore : q ≤ c.cost
      · exact .inl (hsame (max_eq_left hmore))
      · exact .inr ⟨c', total, q, hm _ hres, hcb, hcid ▸ hn _ hmem, heq ▸ lt_of_not_ge hmore⟩

theorem limited_step (hw : h.Wf) (hl : h.Limited) (hs : lts.step h a h') : h'.Limited := by
  have hrow : ∀ {k row}, h.db.budgets.budgets k = some row →
      ∃ row', h'.db.budgets.budgets k = some row' ∧ row.Same row' :=
    fun hr => (spends hw hl hs).change.row hr
  refine ⟨fun b hb => ?_, fun b hb => ?_⟩
  · have hfound : ∃ row, h.db.budgets.budgets b.key = some row ∧ b.limits = row.limits := by
      rcases held_step hw hs hb with hb | hb
      · exact hl.budget b hb
      · cases hb with
        | budget hrow hlim => exact ⟨_, hrow, hlim⟩
        | other hx => cases hx
    obtain ⟨row, hr, hlim⟩ := hfound
    obtain ⟨row', hr', hsame⟩ := hrow hr
    exact ⟨row', hr', hlim.trans hsame.2.symm⟩
  · rcases held_step hw hs hb with hb | hb
    · exact held_mono hs (hl.checked b hb)
    · cases hb with
      | checked hb => exact held_mono hs hb
      | other hx => cases hx

/-- What the call of a step holds afterwards, the host holds. -/
theorem held_yields (hw : h.Wf) (hs : lts.step h a h') :
    ∀ x ∈ a.yields h.uuids h.db, x ∈ h'.held := by
  obtain ⟨new, heq, rfl, -⟩ := given hw hs
  exact fun x hx => heq ▸ List.mem_append_right _ hx

theorem spent_step (hw : h.Wf) (hi : h.Spent) (hs : lts.step h a h') : h'.Spent := by
  have hsp := spends hw hi.limited hs
  have hm : ∀ x ∈ h.held, x ∈ h'.held := fun _ hx => held_mono hs hx
  have hn := held_yields hw hs
  exact ⟨limited_step hw hi.limited hs, hi.conserved.change hsp.change, calls_step hi hm hn hsp,
    cost_step hi hm hn hsp⟩

theorem Initial.spent (hi : Initial h) : h.Spent := by
  have hempty : h.db.budgets = .empty := by rw [hi.db]; rfl
  have hheld : ∀ {x : Held}, x ∉ h.held := fun hx => by rw [hi.held] at hx; cases hx
  refine ⟨⟨fun _ hb => absurd hb hheld, fun _ hb => absurd hb hheld⟩, ?_, ?_, ?_⟩ <;>
    rw [hempty]
  · exact Budgets.Db.conserved_empty
  · exact fun _ hx => nomatch hx
  · exact fun _ _ hr => nomatch hr

theorem spent (hr : lts.Reachable Initial h) : h.Wf ∧ h.Spent :=
  hr.invariant (I := fun h => h.Wf ∧ h.Spent) (fun _ hi => ⟨hi.wf, hi.spent⟩)
    fun _ _ _ hI hs => ⟨wf_step hI.1 hs, spent_step hI.1 hI.2 hs⟩

/-- What the calls of each budget are charged has been an integer of 64 bits in some run to `h`. -/
def Fits (h : Host) : Prop :=
  (lts.restrict fun h _ => h.db.budgets.Counted).Reachable Initial h ∧ h.db.budgets.Counted

/-- The tokens of the budgets in such a run. -/
theorem Fits.metered (hc : h.Fits) : h.Metered := by
  -- a state is metered if it is within the bound; every state that a step leaves is
  refine (hc.1.invariant (I := fun h => h.Wf ∧ h.Spent ∧ (h.db.budgets.Counted → h.Metered))
    (fun h hi => ⟨hi.wf, hi.spent, fun _ => ?_⟩) fun h a h' hI hs => ?_).2.2 hc.2
  · have hempty : h.db.budgets = .empty := by rw [hi.db]; rfl
    refine ⟨?_, ?_⟩ <;> rw [hempty]
    · exact fun _ _ hr => nomatch hr
    · exact fun _ _ hr => nomatch hr
  · obtain ⟨hw, hi, hmetered⟩ := hI
    obtain ⟨hst, hb⟩ := hs
    have hsp := spends hw hi.limited hst
    refine ⟨wf_step hw hst, spent_step hw hi hst, fun hb' => ?_⟩
    exact ⟨(hmetered hb).exact.change hi.conserved hsp.change hb hb',
      tokens_step hi (hmetered hb) hb hb' (fun _ hx => held_mono hst hx) (held_yields hw hst) hsp⟩

/-! ### The budgets of the host -/

/-- The budgets of a state, and what becomes of them. -/
structure Budgeted (h : Host) : Prop where
  /-- the counters are the totals of the calls -/
  conserved : ∀ k row, h.db.budgets.budgets k = some row →
    row.requests = (h.db.budgets.callsOf k).length ∧
    (h.Fits → row.tokens = ((h.db.budgets.callsOf k).map (·.tokens)).sum) ∧
    row.cost = ((h.db.budgets.callsOf k).map (·.cost)).sum
  /-- requests and children stay within the limits -/
  capped : ∀ k row, h.db.budgets.budgets k = some row →
    row.requests ≤ row.limits.requests ∧ row.children ≤ row.limits.children
  /-- a limit is only exceeded by a call that has reported more than it had reserved -/
  tokens : h.Fits → ∀ k row, h.db.budgets.budgets k = some row →
    row.limits.tokens < row.tokens → h.TokensOver k
  cost : ∀ k row, h.db.budgets.budgets k = some row → row.limits.cost < row.cost → h.CostOver k
  /-- a reservation that raises changes nothing -/
  raises : ∀ b model prompt output t e h', lts.step h (.reserve b model prompt output t) h' →
    (Act.reserve b model prompt output t).attempt h.uuids h.db = .error e →
      h'.db = h.db ∧ h'.held = h.held
  /-- the deadline and the limits never change -/
  fixed : ∀ as h', lts.Run h as h' → ∀ k row, h.db.budgets.budgets k = some row →
    ∃ row', h'.db.budgets.budgets k = some row' ∧ row'.deadline = row.deadline ∧
      row'.limits = row.limits

theorem row_of_run {as : List Act} (hw : h.Wf) (hi : h.Spent) (hrun : lts.Run h as h')
    {row : Budget} (hr : h.db.budgets.budgets k = some row) :
    ∃ row', h'.db.budgets.budgets k = some row' ∧ row.Same row' := by
  refine hrun.preserves_under (I := fun h => h.Wf ∧ h.Spent)
    (P := fun m => ∃ row', m.db.budgets.budgets k = some row' ∧ row.Same row')
    (fun _ _ _ hI hs => ⟨wf_step hI.1 hs, spent_step hI.1 hI.2 hs⟩) ?_ ⟨hw, hi⟩ ⟨row, hr, rfl, rfl⟩
  rintro m a m' hI ⟨row₁, hr₁, hsame⟩ hs
  obtain ⟨row₂, hr₂, hsame'⟩ := (spends hI.1 hI.2.limited hs).change.row hr₁
  exact ⟨row₂, hr₂, hsame'.1.trans hsame.1, hsame'.2.trans hsame.2⟩

/-- **Budgets are conserved and capped** in every reachable state; the tokens are, as long as what the
calls of each budget are charged stays within 64 bits. -/
theorem budgets_conserved (hr : lts.Reachable Initial h) : h.Budgeted := by
  obtain ⟨hw, hi⟩ := spent hr
  refine ⟨fun k row hk => ⟨hi.conserved.requests k row hk, fun hc => hc.metered.exact k row hk,
    hi.conserved.cost k row hk⟩, fun k row hk => hi.conserved.limited k row hk,
    fun hc k row hk hlt => ?_, fun k row hk hlt => ?_, fun b model prompt output t e h' hs he => ?_,
    fun as h' hrun k row hk => row_of_run hw hi hrun hk⟩
  · exact (hc.metered.tokens k row hk).resolve_left (not_le.2 hlt)
  · exact (hi.cost k row hk).resolve_left (not_le.2 hlt)
  · obtain ⟨T, -, -, -, rfl⟩ := hs
    simp [after, Act.perform, Act.yields, he]

/-- A call is reserved, and reports more than it had reserved. -/
def Sample.spent : Sample.Script := Sample.began {} ++
  [fun h => (.reserve (Sample.budget h) "model" 100 10 1, 1),
    fun h => (.reconcile (Sample.budget h) (h.uuids - 2) (some { total := .int 300000 }) true, 2)]

/-- The tokens are those of the report, and every total was within 64 bits. -/
theorem budgets_conserved_sample :
    let h := Sample.host.script Sample.spent
    (h.db.budgets.budgets Sample.root).map (·.tokens) = some 300000 ∧ h.Fits ∧ h.Budgeted := by
  intro h
  have hrun : (lts.restrict fun h _ => decide h.db.budgets.Counted).Run Sample.host
      (Sample.host.acts Sample.spent) h :=
    run_script_restrict (by decide) (by decide)
  simp only [decide_eq_true_eq] at hrun
  exact ⟨by decide, ⟨.run (.of_init Sample.host_initial) hrun, by decide⟩,
    budgets_conserved (.run (.of_init Sample.host_initial) hrun.of_restrict)⟩

/-- Two calls that report `2 ^ 62 + 1` tokens each. -/
def Sample.overflowed : Sample.Script := Sample.began {} ++
  [fun h => (.reserve (Sample.budget h) "model" 100 10 1, 1),
    fun h => (.reserve (Sample.budget h) "model" 100 10 1, 1),
    fun h => (.reconcile (Sample.budget h) (h.uuids - 4) (some { total := .int (2 ^ 62 + 1) }) false,
      2),
    fun h => (.reconcile (Sample.budget h) (h.uuids - 4) (some { total := .int (2 ^ 62 + 1) }) false,
      2)]

/-- A sum that leaves 64 bits is stored as a `REAL`, which is rounded. -/
theorem tokens_rounded :
    ¬ ∀ h, lts.Reachable Initial h → ∀ k row, h.db.budgets.budgets k = some row →
      row.tokens = ((h.db.budgets.callsOf k).map (·.tokens)).sum := by
  intro hall
  have hrun : lts.Run Sample.host (Sample.host.acts Sample.overflowed)
      (Sample.host.script Sample.overflowed) :=
    run_script (by decide)
  have hreach := Lts.Reachable.run (.of_init Sample.host_initial) hrun
  have hsum : (((Sample.host.script Sample.overflowed).db.budgets.callsOf Sample.root).map
      (·.tokens)).sum = 2 ^ 63 + 2 := by decide +kernel
  have htokens : ((Sample.host.script Sample.overflowed).db.budgets.budgets Sample.root).map
      (·.tokens) = some (2 ^ 63) := by decide +kernel
  obtain ⟨row, hrow, hrounded⟩ := Option.map_eq_some_iff.1 htokens
  have hexact := hall _ hreach Sample.root row hrow
  rw [hrounded, hsum] at hexact
  exact absurd hexact (by decide)

end Host

end Coordinator

end PythonAI
