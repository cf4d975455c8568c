import Mathlib.Algebra.Order.Ring.Rat
import PythonAI.Budgets.Store

/-!
# Budgets are conserved

The counters of a budget are the totals of its calls.  A reservation adds a call with its tokens and
its cost; a report moves the difference between what a call was charged and what it is charged now;
a child only counts.

**Main results**: `Db.Change` is what one transaction does to the budget tables;
`Db.Conserved.change` that every change keeps the requests and the cost equal to the totals, and the
counters within the limits; and `Db.Exact.change` that it keeps the tokens equal to the total, as long
as the totals stay within 64 bits.
-/

namespace PythonAI

open Library

namespace Budgets

variable {db db' : Db} {b : TaskBudget} {k : TaskKey} {t : Time} {key : Token}

/-! ### What each operation does -/

theorem numeric_ok {env : Environ} {name : String} {default q : ℚ} {allowZero : Bool}
    (h : numeric env name default allowZero = .ok q) : 0 ≤ q := by
  unfold numeric at h
  split at h
  case h_1 x hx =>
    simp only [bind_eq_ok, pure_eq_ok, ensure_eq_ok] at h
    obtain ⟨-, hpos, rfl⟩ := h
    simp only [Bool.not_eq_true', Bool.or_eq_false_iff, decide_eq_false_iff_not] at hpos
    exact not_lt.1 hpos.1
  all_goals cases h

theorem limitsOf_ok {env : Environ} {limits : Limits} (h : limitsOf env = .ok limits) :
    0 ≤ limits.cost := by
  simp only [limitsOf, bind_eq_ok, pure_eq_ok] at h
  obtain ⟨-, -, -, -, -, -, -, -, cost, hcost, -, -, -, -, -, -, rfl⟩ := h
  exact numeric_ok hcost

namespace TaskBudget

theorem create_ok {env : Environ} {stored : ℕ} {out : Unit}
    (h : create env k stored t db = .ok (db', out)) :
    db' = db ∨ db.budgets k = none ∧ ∃ limits seconds, 0 ≤ limits.cost ∧
      db' = { db with budgets := db.budgets.set k ⟨t + seconds, limits, 0, 0, 0, 0⟩ } := by
  simp only [create, bind_eq_ok] at h
  obtain ⟨limits, hlimits, -, -, seconds, -, h⟩ := h
  split at h
  · cases h
    exact .inl rfl
  case h_2 hnone =>
    cases h
    exact .inr ⟨hnone, limits, seconds, limitsOf_ok hlimits, rfl⟩

theorem load_ok (h : load k db = .ok b) :
    b.key = k ∧ ∃ row, db.budgets k = some row ∧ b.limits = row.limits := by
  simp only [load, bind_eq_ok, pure_eq_ok, require_eq_ok] at h
  obtain ⟨row, hrow, rates, -, rfl⟩ := h
  exact ⟨rfl, row, hrow, rfl⟩

theorem admits_ok {row : Budget} {deep : Bool} {u : Unit} (h : b.admits row deep t = .ok u) :
    row.children < b.limits.children := by
  simp only [admits, ensure_eq_ok, Bool.not_eq_true', Bool.or_eq_false_iff,
    decide_eq_false_iff_not] at h
  exact Nat.lt_of_not_le h.1.2

theorem reserveChild_ok {depth : ℕ} {out : Unit}
    (h : b.reserveChild depth t db = .ok (db', out)) :
    ∃ row, db.budgets b.key = some row ∧ row.children < b.limits.children ∧
      db' = addChild b.key db := by
  simp only [reserveChild, bind_eq_ok, pure_eq_ok, require_eq_ok] at h
  obtain ⟨row, hrow, _, hadmits, h⟩ := h
  cases h
  exact ⟨row, hrow, admits_ok hadmits, rfl⟩

/-- The tables with one more call. -/
def withCall (c : ModelCall) (rates : Table Token (ℚ × ℚ)) (db : Db) : Db where
  budgets := db.budgets.update c.budget (fun _ => true) fun row =>
    { row with
      requests := row.requests + 1
      tokens := Integer64.add row.tokens c.tokens
      cost := row.cost + c.cost }
  calls := db.calls ++ [c]
  rates := rates

theorem reserve_ok {model : String} {prompt output : ℤ} {out : Token}
    (h : b.reserve model prompt output key t db = .ok (db', out)) :
    ∃ row c rates, db.budgets b.key = some row ∧ c.id = key ∧ c.budget = b.key ∧
      c.status = .reserved ∧ row.requests < b.limits.requests ∧
      Integer64.sum row.tokens c.tokens ≤ b.limits.tokens ∧ Integer64.Fits c.tokens ∧
      b.overCost (row.cost + c.cost) = false ∧ (b.limits.cost = 0 → c.cost = 0) ∧
      (∀ x ∈ db.calls, x.id ≠ key) ∧ db' = withCall c rates db := by
  simp only [reserve, bind_eq_ok, pure_eq_ok, require_eq_ok, ensure_eq_ok] at h
  obtain ⟨rates, hrates, row, hrow, -, hlimits, -, hfits, -, hfree, h⟩ := h
  cases h
  simp only [Bool.and_eq_true, decide_eq_true_eq, Bool.not_eq_true'] at hlimits
  obtain ⟨⟨⟨-, hreq⟩, htokens⟩, hcost⟩ := hlimits
  refine ⟨row, ⟨key, b.key, prompt + output, reservedCost rates prompt output, .reserved⟩, _, hrow,
    rfl, rfl, rfl, hreq, htokens, of_decide_eq_true hfits, hcost, fun hzero => ?_,
    fun x hx => ?_, rfl⟩
  · rw [rated, if_pos hzero] at hrates
    cases hrates
    rfl
  simp only [Bool.not_eq_true', List.any_eq_false, decide_eq_true_eq] at hfree
  exact hfree x hx

theorem openCall_eq_some {c : ModelCall} (h : b.openCall key db = some c) :
    c ∈ db.calls ∧ c.id = key ∧ c.budget = b.key ∧ c.status = .reserved := by
  have hc := List.find?_some h
  simp only [Bool.and_eq_true, decide_eq_true_eq] at hc
  exact ⟨List.mem_of_find?_eq_some h, hc.1.1, hc.1.2, hc.2⟩

/-- `reconcile` writes nothing, or reports an open call. -/
theorem reconcile_cases (b : TaskBudget) (key : Token) (usage : Option Usage) (settle : Bool)
    (db : Db) :
    (b.reconcile key usage settle db).1 = db ∨
      ∃ u total c, usage = some u ∧ u.total = .int total ∧ 0 ≤ total ∧ b.openCall key db = some c ∧
        Bindable settle total c ∧
        (b.reconcile key usage settle db).1 = b.report c u total settle db := by
  unfold reconcile
  split
  · exact .inl rfl
  case h_2 u =>
    split
    case h_1 total htotal =>
      split_ifs with hneg
      · exact .inl rfl
      · split
        · exact .inl rfl
        case h_2 c hc =>
          split_ifs with hfits
          · exact .inr ⟨u, total, c, rfl, htotal, not_lt.1 hneg, hc, hfits, rfl⟩
          · exact .inl rfl
    · exact .inl rfl

end TaskBudget

/-! ### Changes -/

/-- The tables after the call `c` is charged `tokens` and `cost`. -/
def Db.charge (c : ModelCall) (settle : Bool) (tokens : ℤ) (cost : ℚ) (db : Db) : Db :=
  { db with
    budgets := db.budgets.update c.budget (fun _ => true) fun row =>
      { row with
        tokens := Integer64.add row.tokens (tokens - c.tokens)
        cost := row.cost + (cost - c.cost) }
    calls := db.calls.map fun x => if x.id = c.id then TaskBudget.settled settle tokens cost x else x }

/-- What one transaction does to the budget tables. -/
inductive Db.Change (db : Db) : Db → Prop
  | same : Change db db
  /-- a budget is created -/
  | created (k : TaskKey) (deadline : Time) (limits : Limits) (hnone : db.budgets k = none) :
    Change db { db with budgets := db.budgets.set k ⟨deadline, limits, 0, 0, 0, 0⟩ }
  /-- a child is counted -/
  | child (k : TaskKey) (row : Budget) (hrow : db.budgets k = some row)
      (hlt : row.children < row.limits.children) : Change db (TaskBudget.addChild k db)
  /-- a call is reserved -/
  | reserved (c : ModelCall) (row : Budget) (rates : Table Token (ℚ × ℚ))
      (hrow : db.budgets c.budget = some row) (hnew : ∀ x ∈ db.calls, x.id ≠ c.id)
      (hlt : row.requests < row.limits.requests) (hfits : Integer64.Fits c.tokens) :
    Change db (TaskBudget.withCall c rates db)
  /-- a call is charged -/
  | charged (c : ModelCall) (settle : Bool) (tokens : ℤ) (cost : ℚ) (hc : c ∈ db.calls)
      (hfits : Integer64.Fits (tokens - c.tokens)) : Change db (db.charge c settle tokens cost)

/-- What the calls of a budget are charged. -/
def Db.tokensOf (db : Db) (k : TaskKey) : ℤ := ((db.callsOf k).map (·.tokens)).sum

/-- What the calls of each budget are charged is an integer of 64 bits. -/
def Db.Counted (db : Db) : Prop := ∀ c ∈ db.calls, Integer64.Fits (db.tokensOf c.budget)

instance (db : Db) : Decidable db.Counted :=
  inferInstanceAs (Decidable (∀ c ∈ db.calls, Integer64.Fits (db.tokensOf c.budget)))

/-- The tokens of a budget are what its calls are charged. -/
def Db.Exact (db : Db) : Prop := ∀ k row, db.budgets k = some row → row.tokens = db.tokensOf k

/-- The counters, other than the tokens, are the totals of the calls, and within the limits. -/
structure Db.Conserved (db : Db) : Prop where
  /-- the primary key of calls -/
  ids : (db.calls.map ModelCall.id).Nodup
  /-- a call belongs to a budget -/
  owned : ∀ c ∈ db.calls, (db.budgets c.budget).isSome = true
  requests : ∀ k row, db.budgets k = some row → row.requests = (db.callsOf k).length
  cost : ∀ k row, db.budgets k = some row → row.cost = ((db.callsOf k).map (·.cost)).sum
  limited : ∀ k row, db.budgets k = some row →
    row.requests ≤ row.limits.requests ∧ row.children ≤ row.limits.children

/-! ### The rows of budgets -/

/-- Two rows of a budget: the deadline and the limits never change. -/
def Budget.Same (row row' : Budget) : Prop :=
  row'.deadline = row.deadline ∧ row'.limits = row.limits

theorem update_row {f : Budget → Budget} {k' : TaskKey} {row' : Budget}
    (h : (db.budgets.update k (fun _ => true) f) k' = some row') :
    ∃ row, db.budgets k' = some row ∧ row' = if k' = k then f row else row := by
  rw [Table.update_apply] at h
  obtain ⟨row, hrow, rfl⟩ := Option.map_eq_some_iff.1 h
  refine ⟨row, hrow, ?_⟩
  by_cases hk : k' = k <;> simp [hk]

/-- A change keeps the rows, with their deadlines and limits. -/
theorem Db.Change.row (h : db.Change db') {row : Budget} (hrow : db.budgets k = some row) :
    ∃ row', db'.budgets k = some row' ∧ row.Same row' := by
  have hupdate : ∀ {c : TaskKey} {f : Budget → Budget}, (∀ x : Budget, x.Same (f x)) →
      ∃ row', (db.budgets.update c (fun _ => true) f) k = some row' ∧ row.Same row' := by
    intro c f hf
    rw [Table.update_apply, hrow, Option.map_some]
    refine ⟨_, rfl, ?_⟩
    split_ifs
    · exact hf row
    · exact ⟨rfl, rfl⟩
  cases h with
  | same => exact ⟨row, hrow, rfl, rfl⟩
  | created c deadline limits hnone =>
    have hne : k ≠ c := fun he => by rw [he, hnone] at hrow; cases hrow
    exact ⟨row, (Table.set_of_ne _ _ _ hne).trans hrow, rfl, rfl⟩
  | child c row₀ => exact hupdate fun _ => ⟨rfl, rfl⟩
  | reserved c row₀ rates => exact hupdate fun _ => ⟨rfl, rfl⟩
  | charged c settle tokens cost => exact hupdate fun _ => ⟨rfl, rfl⟩

theorem Db.Change.isSome (h : db.Change db') (hk : (db.budgets k).isSome = true) :
    (db'.budgets k).isSome = true := by
  obtain ⟨row, hrow⟩ := Option.isSome_iff_exists.1 hk
  obtain ⟨row', hrow', -⟩ := h.row hrow
  exact Option.isSome_iff_exists.2 ⟨row', hrow'⟩

/-! ### The calls of a budget -/

theorem callsOf_withCall {c : ModelCall} {rates : Table Token (ℚ × ℚ)} :
    (TaskBudget.withCall c rates db).callsOf k =
      db.callsOf k ++ if c.budget = k then [c] else [] := by
  simp only [TaskBudget.withCall, Db.callsOf, List.filter_append, List.filter_singleton]
  by_cases hk : c.budget = k <;> simp [hk]

theorem callsOf_charge {c : ModelCall} {settle : Bool} {tokens : ℤ} {cost : ℚ} :
    (db.charge c settle tokens cost).callsOf k = (db.callsOf k).map fun x =>
      if x.id = c.id then TaskBudget.settled settle tokens cost x else x := by
  have hkey : ((fun x : ModelCall => decide (x.budget = k)) ∘ fun x : ModelCall =>
      if x.id = c.id then TaskBudget.settled settle tokens cost x else x) =
      fun x => decide (x.budget = k) := by
    funext x
    rw [Function.comp]
    split_ifs <;> rfl
  rw [Db.charge, Db.callsOf, List.filter_map, hkey, Db.callsOf]

/-- The calls of another budget are not charged. -/
theorem callsOf_charge_of_ne {c : ModelCall} {settle : Bool} {tokens : ℤ} {cost : ℚ}
    (hn : (db.calls.map ModelCall.id).Nodup) (hc : c ∈ db.calls) (hk : c.budget ≠ k) :
    (db.charge c settle tokens cost).callsOf k = db.callsOf k := by
  rw [callsOf_charge]
  refine (List.map_congr_left fun x hx => ?_).trans (List.map_id _)
  obtain ⟨hmem, hxk⟩ := List.mem_filter.1 hx
  refine if_neg fun hid => hk ?_
  rw [← List.inj_on_of_nodup_map hn hmem hc hid]
  simpa using hxk

/-- The total of a column of the calls, after one of them is charged. -/
theorem sum_charge {M : Type} [AddCommGroup M] {c : ModelCall} {settle : Bool} {tokens : ℤ}
    {cost : ℚ} {g : ModelCall → M} (hn : (db.calls.map ModelCall.id).Nodup) (hc : c ∈ db.calls)
    (hk : c.budget = k) :
    (((db.charge c settle tokens cost).callsOf k).map g).sum =
      ((db.callsOf k).map g).sum + (g (TaskBudget.settled settle tokens cost c) - g c) := by
  rw [callsOf_charge]
  refine Records.sum_map_ite (hn.sublist (List.filter_sublist.map _)) (List.mem_filter.2 ⟨hc, ?_⟩)
  simpa using hk

/-! ### Conservation -/

namespace Db

theorem Conserved.callsOf_of_none (h : db.Conserved) (hnone : db.budgets k = none) :
    db.callsOf k = [] :=
  List.filter_eq_nil_iff.2 fun c hc hk => by
    have hsome := h.owned c hc
    rw [of_decide_eq_true hk, hnone] at hsome
    cases hsome

theorem Conserved.created {deadline : Time} {limits : Limits} (h : db.Conserved)
    (hnone : db.budgets k = none) :
    Conserved { db with budgets := db.budgets.set k ⟨deadline, limits, 0, 0, 0, 0⟩ } := by
  have hnil := h.callsOf_of_none hnone
  have hrow : ∀ {c row}, (db.budgets.set k ⟨deadline, limits, 0, 0, 0, 0⟩) c = some row →
      c = k ∧ row = ⟨deadline, limits, 0, 0, 0, 0⟩ ∨ db.budgets c = some row := by
    intro c row hr
    rw [Table.set_apply] at hr
    split_ifs at hr with hc
    · exact .inl ⟨hc, (Option.some.inj hr).symm⟩
    · exact .inr hr
  refine ⟨h.ids, fun c hc => (Change.created k deadline limits hnone).isSome (h.owned c hc),
    fun c row hr => ?_, fun c row hr => ?_, fun c row hr => ?_⟩
  · rcases hrow hr with ⟨rfl, rfl⟩ | hr
    · exact (congrArg List.length hnil).symm
    · exact h.requests c row hr
  · rcases hrow hr with ⟨rfl, rfl⟩ | hr
    · exact (congrArg (fun l => (l.map (·.cost)).sum) hnil).symm
    · exact h.cost c row hr
  · rcases hrow hr with ⟨rfl, rfl⟩ | hr
    · exact ⟨Nat.zero_le _, Nat.zero_le _⟩
    · exact h.limited c row hr

theorem Conserved.child {row₀ : Budget} (h : db.Conserved) (hrow₀ : db.budgets k = some row₀)
    (hlt : row₀.children < row₀.limits.children) : Conserved (TaskBudget.addChild k db) := by
  have hrow : ∀ {c row'}, (TaskBudget.addChild k db).budgets c = some row' →
      ∃ row, db.budgets c = some row ∧ row' = if c = k then { row with children := row.children + 1 }
        else row := update_row
  refine ⟨h.ids, fun c hc => (Change.child k row₀ hrow₀ hlt).isSome (h.owned c hc),
    fun c row' hr => ?_, fun c row' hr => ?_, fun c row' hr => ?_⟩
  · obtain ⟨row, hold, rfl⟩ := hrow hr
    exact .trans (by split_ifs <;> rfl) (h.requests c row hold)
  · obtain ⟨row, hold, rfl⟩ := hrow hr
    exact .trans (by split_ifs <;> rfl) (h.cost c row hold)
  · obtain ⟨row, hold, rfl⟩ := hrow hr
    split_ifs with hc
    · subst hc
      obtain rfl := Option.some.inj (hold.symm.trans hrow₀)
      exact ⟨(h.limited c row hold).1, hlt⟩
    · exact h.limited c row hold

theorem Conserved.reserved {c : ModelCall} {row₀ : Budget} {rates : Table Token (ℚ × ℚ)}
    (h : db.Conserved) (hrow₀ : db.budgets c.budget = some row₀) (hnew : ∀ x ∈ db.calls, x.id ≠ c.id)
    (hlt : row₀.requests < row₀.limits.requests) (hfits : Integer64.Fits c.tokens) :
    Conserved (TaskBudget.withCall c rates db) := by
  have hrow : ∀ {k row'}, (TaskBudget.withCall c rates db).budgets k = some row' →
      ∃ row, db.budgets k = some row ∧ row' = if k = c.budget then
        { row with
          requests := row.requests + 1
          tokens := Integer64.add row.tokens c.tokens
          cost := row.cost + c.cost }
        else row := update_row
  refine ⟨Records.nodup_append h.ids hnew, fun x hx => ?_, fun k row' hr => ?_, fun k row' hr => ?_,
    fun k row' hr => ?_⟩
  · refine (Change.reserved c row₀ rates hrow₀ hnew hlt hfits).isSome ?_
    rcases List.mem_append.1 hx with hx | hx
    · exact h.owned x hx
    · rw [List.mem_singleton.1 hx, hrow₀]
      rfl
  · obtain ⟨row, hold, rfl⟩ := hrow hr
    rw [callsOf_withCall, List.length_append, ← h.requests k row hold]
    by_cases hk : k = c.budget <;> simp [hk, eq_comm]
  · obtain ⟨row, hold, rfl⟩ := hrow hr
    rw [callsOf_withCall, List.map_append, List.sum_append, ← h.cost k row hold]
    by_cases hk : k = c.budget <;> simp [hk, eq_comm]
  · obtain ⟨row, hold, rfl⟩ := hrow hr
    split_ifs with hk
    · subst hk
      obtain rfl := Option.some.inj (hold.symm.trans hrow₀)
      exact ⟨hlt, (h.limited _ row hold).2⟩
    · exact h.limited k row hold

theorem Conserved.charged {c : ModelCall} {settle : Bool} {tokens : ℤ} {cost : ℚ} (h : db.Conserved)
    (hc : c ∈ db.calls) (hfits : Integer64.Fits (tokens - c.tokens)) :
    Conserved (db.charge c settle tokens cost) := by
  have hrow : ∀ {k row'}, (db.charge c settle tokens cost).budgets k = some row' →
      ∃ row, db.budgets k = some row ∧ row' = if k = c.budget then
        { row with
          tokens := Integer64.add row.tokens (tokens - c.tokens)
          cost := row.cost + (cost - c.cost) }
        else row := update_row
  refine ⟨?_, fun x hx => ?_, fun k row' hr => ?_, fun k row' hr => ?_, fun k row' hr => ?_⟩
  · rw [Db.charge, Records.map_key fun x _ => by split_ifs <;> rfl]
    exact h.ids
  · obtain ⟨y, hy, rfl⟩ := List.mem_map.1 hx
    have hbudget : (if y.id = c.id then TaskBudget.settled settle tokens cost y else y).budget =
        y.budget := by split_ifs <;> rfl
    rw [hbudget]
    exact (Change.charged c settle tokens cost hc hfits).isSome (h.owned y hy)
  · obtain ⟨row, hold, rfl⟩ := hrow hr
    rw [callsOf_charge, List.length_map, ← h.requests k row hold]
    split_ifs <;> rfl
  · obtain ⟨row, hold, rfl⟩ := hrow hr
    split_ifs with hk
    · rw [sum_charge h.ids hc hk.symm, ← h.cost k row hold]
      rfl
    · rw [callsOf_charge_of_ne h.ids hc (Ne.symm hk)]
      exact h.cost k row hold
  · obtain ⟨row, hold, rfl⟩ := hrow hr
    split_ifs
    · exact h.limited k row hold
    · exact h.limited k row hold

/-- **Every change conserves the budgets.** -/
theorem Conserved.change (h : db.Conserved) (hc : db.Change db') : db'.Conserved := by
  cases hc with
  | same => exact h
  | created k deadline limits hnone => exact h.created hnone
  | child k row hrow hlt => exact h.child hrow hlt
  | reserved c row rates hrow hnew hlt hfits => exact h.reserved hrow hnew hlt hfits
  | charged c settle tokens cost hc hfits => exact h.charged hc hfits

theorem conserved_empty : empty.Conserved :=
  ⟨List.nodup_nil, fun _ h => (nomatch h), fun _ _ h => (nomatch h), fun _ _ h => (nomatch h),
    fun _ _ h => (nomatch h)⟩

/-! ### The tokens -/

theorem Counted.fits (h : db.Counted) (k : TaskKey) : Integer64.Fits (db.tokensOf k) := by
  cases hcalls : db.callsOf k with
  | nil =>
    rw [tokensOf, hcalls]
    exact Integer64.fits_zero
  | cons c cs =>
    have hc : c ∈ db.callsOf k := hcalls ▸ List.mem_cons_self
    obtain ⟨hmem, hk⟩ := List.mem_filter.1 hc
    exact of_decide_eq_true hk ▸ h c hmem

theorem tokensOf_withCall {c : ModelCall} {rates : Table Token (ℚ × ℚ)} :
    (TaskBudget.withCall c rates db).tokensOf k =
      db.tokensOf k + if k = c.budget then c.tokens else 0 := by
  rw [tokensOf, callsOf_withCall, List.map_append, List.sum_append, ← tokensOf]
  by_cases hk : k = c.budget <;> simp [hk, eq_comm]

theorem Conserved.tokensOf_charge {c : ModelCall} {settle : Bool} {tokens : ℤ} {cost : ℚ}
    (h : db.Conserved) (hc : c ∈ db.calls) :
    (db.charge c settle tokens cost).tokensOf k =
      db.tokensOf k + if k = c.budget then tokens - c.tokens else 0 := by
  split_ifs with hk
  · exact sum_charge h.ids hc hk.symm
  · rw [tokensOf, callsOf_charge_of_ne h.ids hc (Ne.symm hk), ← tokensOf, add_zero]

/-- A sum that stays within 64 bits is exact. -/
theorem Exact.add {row : Budget} {n : ℤ} (h : db.Exact) (hb : db.Counted)
    (hrow : db.budgets k = some row) (hn : Integer64.Fits n)
    (hb' : Integer64.Fits (db.tokensOf k + n)) :
    Integer64.add row.tokens n = db.tokensOf k + n := by
  rw [h k row hrow]
  exact Integer64.add_of_fits (hb.fits k) hn hb'

/-- **Every change keeps the tokens exact**, as long as the totals stay within 64 bits. -/
theorem Exact.change (h : db.Exact) (hcons : db.Conserved) (hc : db.Change db') (hb : db.Counted)
    (hb' : db'.Counted) : db'.Exact := by
  intro k row' hr
  have hfits := hb'.fits k
  cases hc with
  | same => exact h k row' hr
  | created c deadline limits hnone =>
    simp only [Table.set_apply] at hr
    split_ifs at hr with hk
    · cases hr
      rw [hk]
      exact (congrArg (fun l => (l.map ModelCall.tokens).sum) (hcons.callsOf_of_none hnone)).symm
    · exact h k row' hr
  | child c row hrow hlt =>
    obtain ⟨row, hold, rfl⟩ := update_row hr
    exact .trans (by split_ifs <;> rfl) (h k row hold)
  | reserved c row rates hrow hnew hlt hn =>
    obtain ⟨row, hold, rfl⟩ := update_row hr
    rw [tokensOf_withCall] at hfits ⊢
    split_ifs at hfits ⊢ with hk
    · exact h.add hb hold hn hfits
    · rw [add_zero]
      exact h k row hold
  | charged c settle tokens cost hc hn =>
    obtain ⟨row, hold, rfl⟩ := update_row hr
    rw [hcons.tokensOf_charge hc] at hfits ⊢
    split_ifs at hfits ⊢ with hk
    · exact h.add hb hold hn hfits
    · rw [add_zero]
      exact h k row hold

end Db

end Budgets

end PythonAI
