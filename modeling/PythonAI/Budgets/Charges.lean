import Mathlib.Algebra.Order.Ring.Rat
import Mathlib.Tactic.Ring
import PythonAI.Budgets.Conservation

/-!
# The final charge of a model call

A stream reports the usage of its call while it runs, and once more when it has ended.  A report
writes the charge of the call and moves the difference into the budget, so that what is charged in
the end depends on all of them.

* `TaskBudget.reports_charge` : **the charge of a call after any reports**: the tokens of the first
  report that settles it, or else the greatest number that was reserved or reported, and the greatest
  cost up to that report;
* `TaskBudget.report_unbindable` : a report that SQLite cannot store raises, and charges nothing;
* `TaskBudget.iterate_reports` : a stream makes such reports.
-/

namespace PythonAI

open Library

namespace Budgets

/-- The call with the id `key`. -/
def Db.call (db : Db) (key : Token) : Option ModelCall := Records.find ModelCall.id key db.calls

/-- The arguments of `reconcile`. -/
structure Report where
  usage : Option Usage
  settle : Bool
  deriving DecidableEq, Repr

namespace Report

/-- `total`, if the usage is valid and SQLite can store it. -/
def total (r : Report) : Option ℤ :=
  r.usage.bind fun u =>
    match u.total with
    | .int n => if n < 0 ∨ 2 ^ 63 ≤ n then none else some n
    | _ => none

theorem total_bounds {r : Report} {n : ℤ} (h : r.total = some n) : 0 ≤ n ∧ n < 2 ^ 63 := by
  obtain ⟨u, -, hu⟩ := Option.bind_eq_some_iff.1 h
  split at hu
  · split_ifs at hu with hn
    cases hu
    omega
  · cases hu

/-- The cost that is computed from the report. -/
def cost (b : TaskBudget) (rates : Option (ℚ × ℚ)) (r : Report) : Option ℚ :=
  if b.limits.cost = 0 then none
  else r.usage.bind fun u => r.total.bind fun total => TaskBudget.reportedCost rates u total

/-- The report ends the call: it is valid, and no partial one. -/
def settles (r : Report) : Bool := r.settle && r.total.isSome

/-- The reports up to the one that ends the call. -/
def heard : List Report → List Report
  | [] => []
  | r :: rs => if r.settles then [r] else r :: heard rs

/-- The tokens that are charged in the end. -/
def finalTokens (reserved : ℤ) (rs : List Report) : ℤ :=
  match (rs.find? settles).bind total with
  | some n => n
  | none => (rs.filterMap total).foldl max reserved

/-- The cost that is charged in the end. -/
def finalCost (b : TaskBudget) (rates : Option (ℚ × ℚ)) (reserved : ℚ) (rs : List Report) : ℚ :=
  ((heard rs).filterMap (cost b rates)).foldl max reserved

/-- The status in the end. -/
def finalStatus (rs : List Report) : Status := if rs.any settles then .reported else .reserved

end Report

namespace TaskBudget

variable {db : Db} {b : TaskBudget} {key : Token} {c : ModelCall} {r : Report} {rs : List Report}
  {rates : Option (ℚ × ℚ)}

/-- One report after the other; an exceeded budget raises after its report is written. -/
def reports (b : TaskBudget) (key : Token) (rs : List Report) (db : Db) : Db :=
  rs.foldl (fun db r => (b.reconcile key r.usage r.settle db).1) db

/-! ### The row of the call -/

/-- The row of a call after a report. -/
def hear (b : TaskBudget) (rates : Option (ℚ × ℚ)) (c : ModelCall) (r : Report) : ModelCall :=
  match c.status, r.total with
  | .reserved, some total =>
    settled r.settle (charged r.settle total c.tokens)
      (((r.cost b rates).map (max c.cost)).getD c.cost) c
  | _, _ => c

theorem hear_reported (h : c.status = .reported) : b.hear rates c r = c := by
  rw [hear, h]

theorem hear_invalid (h : r.total = none) : b.hear rates c r = c := by
  rw [hear, h]
  cases c.status <;> rfl

theorem hear_budget : (b.hear rates c r).budget = c.budget := by
  unfold hear
  split <;> rfl

theorem charged_eq (settle : Bool) (total tokens : ℤ) :
    charged settle total tokens = total ∨ charged settle total tokens = tokens := by
  unfold charged
  split_ifs
  · exact .inl rfl
  · exact max_choice total tokens

/-- The tokens of a call stay, or become those of the report. -/
theorem hear_tokens : (b.hear rates c r).tokens = c.tokens ∨
    r.total = some (b.hear rates c r).tokens := by
  unfold hear
  split
  case h_1 total _ htotal =>
    rw [htotal]
    exact (charged_eq r.settle total c.tokens).elim (fun h => .inr (congrArg some h.symm)) .inl
  · exact .inl rfl

/-- The call has a number of tokens that SQLite can store. -/
def Stored (c : ModelCall) : Prop := 0 ≤ c.tokens ∧ c.tokens < 2 ^ 63

theorem Stored.hear (h : Stored c) : Stored (b.hear rates c r) := by
  obtain ht | ht : (b.hear rates c r).tokens = c.tokens ∨ r.total = some (b.hear rates c r).tokens :=
    hear_tokens
  · rw [Stored, ht]
    exact h
  · exact Report.total_bounds ht

/-- A total that cannot be stored cannot be charged. -/
theorem not_bindable {settle : Bool} {total : ℤ} (h : 2 ^ 63 ≤ total) : ¬ Bindable settle total c := by
  rintro ⟨-, -, hlt⟩
  refine not_lt.2 (h.trans ?_) hlt
  unfold charged
  split_ifs
  · exact le_rfl
  · exact le_max_left _ _

/-- The total can be written iff it is below the bound. -/
theorem bindable_iff (h : Stored c) {settle : Bool} {total : ℤ} (hpos : 0 ≤ total) :
    Bindable settle total c ↔ total < 2 ^ 63 := by
  obtain ⟨h₀, h₁⟩ := h
  constructor
  · exact fun hbind => not_le.1 fun hge => not_bindable hge hbind
  · intro hlt
    have hcharged : 0 ≤ charged settle total c.tokens ∧ charged settle total c.tokens < 2 ^ 63 := by
      rcases charged_eq settle total c.tokens with he | he <;> rw [he]
      · exact ⟨hpos, hlt⟩
      · exact ⟨h₀, h₁⟩
    exact ⟨Integer64.fits_sub hcharged.1 hcharged.2 h₀ h₁, by omega, hcharged.2⟩

theorem openCall_eq (hids : (db.calls.map ModelCall.id).Nodup) (hc : db.call key = some c)
    (hk : c.budget = b.key) :
    b.openCall key db = if c.status = .reserved then some c else none := by
  cases ho : b.openCall key db with
  | none =>
    refine (if_neg fun hs => ?_).symm
    have hnone := List.find?_eq_none.1 ho c (Records.mem_of_find hc)
    simp [Records.key_of_find hc, hk, hs] at hnone
  | some x =>
    obtain ⟨hx, hid, -, hs⟩ := openCall_eq_some ho
    have hfind := Records.find_of_mem hids hx
    rw [hid, ← Db.call, hc] at hfind
    obtain rfl := Option.some.inj hfind
    rw [if_pos hs]

/-- What a sequence of reports leaves: `c'` is the row that `c` has become. -/
structure Charges (b : TaskBudget) (key : Token) (c c' : ModelCall) (db db' : Db) : Prop where
  ids : (db'.calls.map ModelCall.id).Nodup
  rates : db'.rates = db.rates
  call : db'.call key = some c'
  /-- no other call is charged -/
  others : ∀ k ≠ key, db'.call k = db.call k
  /-- no other budget is charged -/
  budgets : ∀ k ≠ b.key, db'.budgets k = db.budgets k

theorem Charges.refl (hids : (db.calls.map ModelCall.id).Nodup) (hc : db.call key = some c) :
    Charges b key c c db db :=
  ⟨hids, rfl, hc, fun _ _ => rfl, fun _ _ => rfl⟩

theorem Charges.trans {c' c'' : ModelCall} {db' db'' : Db} (h : Charges b key c c' db db')
    (h' : Charges b key c' c'' db' db'') : Charges b key c c'' db db'' :=
  ⟨h'.ids, h'.rates.trans h.rates, h'.call, fun k hk => (h'.others k hk).trans (h.others k hk),
    fun k hk => (h'.budgets k hk).trans (h.budgets k hk)⟩

/-- The report of a valid usage for a reserved call. -/
theorem report_charges (hids : (db.calls.map ModelCall.id).Nodup) (hc : db.call key = some c)
    {u : Usage} {total : ℤ} {settle : Bool} {c' : ModelCall}
    (hc' : c' = settled settle (charged settle total c.tokens)
      (b.chargedCost (reportedCost (db.rates c.id) u total) c.cost) c) :
    Charges b key c c' db (b.report c u total settle db) := by
  subst hc'
  have hid : c.id = key := Records.key_of_find hc
  have hkeep : ∀ x ∈ db.calls, (if x.id = c.id then settled settle (charged settle total c.tokens)
      (b.chargedCost (reportedCost (db.rates c.id) u total) c.cost) x else x).id = x.id := by
    intro x _
    split_ifs <;> rfl
  refine ⟨?_, rfl, ?_, fun k hk => ?_, fun k hk => Table.update_of_ne _ _ _ _ hk⟩
  · rw [report, Records.map_key hkeep]
    exact hids
  · rw [Db.call, report, Records.find_map hkeep, ← Db.call, hc, Option.map_some, if_pos rfl]
  · rw [Db.call, report, Records.find_map hkeep, ← Db.call]
    cases hx : db.call k with
    | none => rfl
    | some x =>
      rw [Option.map_some, if_neg fun he => hk ?_]
      rw [← hid, ← he]
      exact (Records.key_of_find hx).symm

/-- The report moves the difference into the budget. -/
theorem report_budget {u : Usage} {total : ℤ} {settle : Bool} {row : Budget} {c' : ModelCall}
    (hc' : c' = settled settle (charged settle total c.tokens)
      (b.chargedCost (reportedCost (db.rates c.id) u total) c.cost) c)
    (hrow : db.budgets b.key = some row) :
    (b.report c u total settle db).budgets b.key = some { row with
      tokens := Integer64.add row.tokens (c'.tokens - c.tokens)
      cost := row.cost + (c'.cost - c.cost) } := by
  subst hc'
  change (db.budgets.update b.key _ _) b.key = _
  rw [Table.update_same, hrow]
  rfl

/-- A report without a valid usage changes nothing. -/
theorem reconcile_invalid (h : r.total = none) : (b.reconcile key r.usage r.settle db).1 = db := by
  unfold reconcile
  unfold Report.total at h
  cases hu : r.usage with
  | none => rfl
  | some u =>
    rw [hu, Option.bind_some] at h
    cases ht : u.total with
    | int n =>
      simp only [ht] at h ⊢
      split_ifs at h with hn
      rcases hn with hneg | hge
      · rw [if_pos hneg]
      · split_ifs with hneg
        · rfl
        · cases b.openCall key db with
          | none => rfl
          | some c => exact congrArg Prod.fst (if_neg (not_bindable hge))
    | _ => simp only [ht]

/-- A report with a valid usage is written, if the call is open and the report can be written. -/
theorem reconcile_valid {u : Usage} {total : ℤ} (hu : r.usage = some u) (h : r.total = some total) :
    (b.reconcile key r.usage r.settle db).1 = (b.openCall key db).elim db fun c =>
      if Bindable r.settle total c then b.report c u total r.settle db else db := by
  unfold reconcile
  unfold Report.total at h
  rw [hu, Option.bind_some] at h
  rw [hu]
  cases ht : u.total with
  | int n =>
    simp only [ht] at h ⊢
    split_ifs at h with hn
    cases h
    rw [if_neg fun hneg => hn (.inl hneg)]
    cases b.openCall key db with
    | none => rfl
    | some c => exact apply_ite Prod.fst _ _ _
  | _ => simp [ht] at h

/-- A report changes nothing, or it has a valid usage and is written for its open call. -/
theorem reconcile_eq (hids : (db.calls.map ModelCall.id).Nodup) (hc : db.call key = some c)
    (hk : c.budget = b.key) (hstored : Stored c) :
    b.hear (db.rates key) c r = c ∧ (b.reconcile key r.usage r.settle db).1 = db ∨
      ∃ u total, b.hear (db.rates key) c r = settled r.settle (charged r.settle total c.tokens)
          (b.chargedCost (reportedCost (db.rates c.id) u total) c.cost) c ∧
        (b.reconcile key r.usage r.settle db).1 = b.report c u total r.settle db := by
  cases htotal : r.total with
  | none => exact .inl ⟨hear_invalid htotal, reconcile_invalid htotal⟩
  | some total =>
    obtain ⟨u, hu, -⟩ := Option.bind_eq_some_iff.1 htotal
    rw [reconcile_valid hu htotal, openCall_eq hids hc hk]
    cases hs : c.status with
    | reported => exact .inl ⟨hear_reported hs, rfl⟩
    | reserved =>
      have hid : c.id = key := Records.key_of_find hc
      obtain ⟨hpos, hlt⟩ := Report.total_bounds htotal
      refine .inr ⟨u, total, ?_, if_pos ((bindable_iff hstored hpos).2 hlt)⟩
      rw [hear, hs, htotal]
      simp only [chargedCost, Report.cost, hu, htotal, Option.bind_some, hid]
      split_ifs <;> rfl

/-- One report. -/
theorem reconcile_charges (hids : (db.calls.map ModelCall.id).Nodup) (hc : db.call key = some c)
    (hk : c.budget = b.key) (hstored : Stored c) :
    Charges b key c (b.hear (db.rates key) c r) db (b.reconcile key r.usage r.settle db).1 := by
  rcases reconcile_eq (r := r) hids hc hk hstored with ⟨hear, heq⟩ | ⟨u, total, hear, heq⟩
  · rw [hear, heq]
    exact .refl hids hc
  · rw [heq]
    exact report_charges hids hc hear

/-- Any reports. -/
theorem reports_charges (hids : (db.calls.map ModelCall.id).Nodup) (hc : db.call key = some c)
    (hk : c.budget = b.key) (hstored : Stored c) (rs : List Report) :
    Charges b key c (rs.foldl (b.hear (db.rates key)) c) db (b.reports key rs db) := by
  induction rs generalizing db c with
  | nil => exact .refl hids hc
  | cons r rs ih =>
    have hstep := reconcile_charges (r := r) hids hc hk hstored
    have hrest := ih hstep.ids hstep.call (hear_budget.trans hk) hstored.hear
    rw [hstep.rates] at hrest
    exact hstep.trans hrest

/-- The numbers that a call may be charged by the reports. -/
def Told (c : ModelCall) (rs : List Report) (n : ℤ) : Prop :=
  n = c.tokens ∨ ∃ r ∈ rs, r.total = some n

/-- Any reports move the difference into the budget, as long as its tokens stay within 64 bits. -/
theorem reports_budget (hids : (db.calls.map ModelCall.id).Nodup) (hc : db.call key = some c)
    (hk : c.budget = b.key) (hstored : Stored c) (rs : List Report) {row : Budget}
    (hrow : db.budgets b.key = some row)
    (hfits : ∀ n, Told c rs n → Integer64.Fits (row.tokens + (n - c.tokens))) :
    (b.reports key rs db).budgets b.key = some { row with
      tokens := row.tokens + ((rs.foldl (b.hear (db.rates key)) c).tokens - c.tokens)
      cost := row.cost + ((rs.foldl (b.hear (db.rates key)) c).cost - c.cost) } := by
  induction rs generalizing db c row with
  | nil => simp [reports, hrow]
  | cons r rs ih =>
    have hstep := reconcile_charges (r := r) hids hc hk hstored
    have htold : Told c (r :: rs) (b.hear (db.rates key) c r).tokens :=
      hear_tokens.imp_right fun h => ⟨r, List.mem_cons_self, h⟩
    -- the budget after the first report
    have hfirst : (b.reconcile key r.usage r.settle db).1.budgets b.key = some { row with
        tokens := row.tokens + ((b.hear (db.rates key) c r).tokens - c.tokens)
        cost := row.cost + ((b.hear (db.rates key) c r).cost - c.cost) } := by
      rcases reconcile_eq (r := r) hids hc hk hstored with ⟨hear, heq⟩ | ⟨u, total, hear, heq⟩
      · simp [hear, heq, hrow]
      · have hrange : Integer64.Fits row.tokens := by simpa using hfits c.tokens (.inl rfl)
        have hdiff : Integer64.Fits ((b.hear (db.rates key) c r).tokens - c.tokens) :=
          Integer64.fits_sub hstored.hear.1 hstored.hear.2 hstored.1 hstored.2
        rw [heq, report_budget hear hrow, Integer64.add_of_fits hrange hdiff (hfits _ htold)]
    have hrest := ih hstep.ids hstep.call (hear_budget.trans hk) hstored.hear hfirst fun n hn => ?_
    · rw [hstep.rates] at hrest
      refine hrest.trans ?_
      simp only [List.foldl_cons, Option.some.injEq, Budget.mk.injEq, true_and, and_true]
      constructor <;> ring
    · have hn' : Told c (r :: rs) n := by
        rcases hn with rfl | ⟨r', hr', hn⟩
        · exact htold
        · exact .inr ⟨r', List.mem_cons_of_mem _ hr', hn⟩
      have hsum := hfits n hn'
      simp only
      convert hsum using 1
      ring

/-! ### The closed form -/

theorem foldl_hear_reported (h : c.status = .reported) : rs.foldl (b.hear rates) c = c := by
  induction rs with
  | nil => rfl
  | cons r rs ih =>
    rw [List.foldl_cons, hear_reported h]
    exact ih

theorem cost_of_invalid (h : r.total = none) : r.cost b rates = none := by
  unfold Report.cost
  split_ifs
  · rfl
  · cases r.usage <;> simp [h]

/-- The row of a reserved call after any reports. -/
theorem foldl_hear (h : c.status = .reserved) :
    rs.foldl (b.hear rates) c = { c with
      status := Report.finalStatus rs
      tokens := Report.finalTokens c.tokens rs
      cost := Report.finalCost b rates c.cost rs } := by
  induction rs generalizing c with
  | nil => exact congrArg (fun s => { c with status := s }) h
  | cons r rs ih =>
    rw [List.foldl_cons]
    cases htotal : r.total with
    | none =>
      have hs : r.settles = false := by simp [Report.settles, htotal]
      rw [hear_invalid htotal, ih h]
      simp [Report.finalStatus, Report.finalTokens, Report.finalCost, Report.heard, hs, htotal,
        cost_of_invalid htotal]
    | some total =>
      have hhear : b.hear rates c r = settled r.settle (charged r.settle total c.tokens)
          (((r.cost b rates).map (max c.cost)).getD c.cost) c := by rw [hear, h, htotal]
      cases hsettle : r.settle with
      | true =>
        -- later reports find no open call
        have hs : r.settles = true := by simp [Report.settles, htotal, hsettle]
        rw [hhear, hsettle, foldl_hear_reported rfl]
        cases hcost : r.cost b rates <;>
          simp [settled, charged, Report.finalStatus, Report.finalTokens, Report.finalCost,
            Report.heard, hs, htotal, hcost]
      | false =>
        have hs : r.settles = false := by simp [Report.settles, hsettle]
        rw [hhear, hsettle, ih rfl]
        cases hcost : r.cost b rates <;>
          simp [settled, charged, Report.finalStatus, Report.finalTokens, Report.finalCost,
            Report.heard, hs, htotal, hcost, max_comm]

theorem le_foldl_max {costs : List ℚ} {q : ℚ} : q ≤ costs.foldl max q := by
  induction costs generalizing q with
  | nil => exact le_rfl
  | cons x costs ih => exact (le_max_left q x).trans ih

theorem heard_append (rs rs' : List Report) :
    ∃ more, Report.heard (rs ++ rs') = Report.heard rs ++ more := by
  induction rs with
  | nil => exact ⟨Report.heard rs', rfl⟩
  | cons r rs ih =>
    rw [List.cons_append, Report.heard, Report.heard]
    obtain ⟨more, hmore⟩ := ih
    split_ifs
    · exact ⟨[], rfl⟩
    · exact ⟨more, by rw [hmore, List.cons_append]⟩

/-- The cost never decreases. -/
theorem finalCost_le {rs' : List Report} {q : ℚ} :
    Report.finalCost b rates q rs ≤ Report.finalCost b rates q (rs ++ rs') := by
  obtain ⟨more, hmore⟩ := heard_append rs rs'
  rw [Report.finalCost, Report.finalCost, hmore, List.filterMap_append, List.foldl_append]
  exact le_foldl_max

theorem reports_append {rs' : List Report} :
    b.reports key (rs ++ rs') db = b.reports key rs' (b.reports key rs db) :=
  List.foldl_append

/-- **The final charge of a call.**  After any reports for a reserved call its row has the tokens of
the first valid report that settles it, or else the greatest of its reservation and of the totals that
were reported, and the greatest of its reserved cost and of the costs that were computed up to then.
Its budget is charged the difference, as long as its tokens stay within 64 bits.  The cost never
decreases, and a report without a valid usage changes nothing. -/
theorem reports_charge (hids : (db.calls.map ModelCall.id).Nodup)
    (hopen : b.openCall key db = some c) (hstored : Stored c) (rs : List Report) :
    (b.reports key rs db).call key = some { c with
      status := Report.finalStatus rs
      tokens := Report.finalTokens c.tokens rs
      cost := Report.finalCost b (db.rates key) c.cost rs } ∧
    (∀ row, db.budgets b.key = some row →
      (∀ n, Told c rs n → Integer64.Fits (row.tokens + (n - c.tokens))) →
      (b.reports key rs db).budgets b.key = some { row with
        tokens := row.tokens + (Report.finalTokens c.tokens rs - c.tokens)
        cost := row.cost + (Report.finalCost b (db.rates key) c.cost rs - c.cost) }) ∧
    (∀ rs', Report.finalCost b (db.rates key) c.cost rs ≤
      Report.finalCost b (db.rates key) c.cost (rs ++ rs')) ∧
    ∀ r : Report, r.total = none → b.reports key (rs ++ [r]) db = b.reports key rs db := by
  obtain ⟨hmem, hid, hk, hs⟩ := openCall_eq_some hopen
  have hc : db.call key = some c := hid ▸ Records.find_of_mem hids hmem
  refine ⟨?_, fun row hrow hfits => ?_, fun rs' => finalCost_le, fun r hr => ?_⟩
  · rw [(reports_charges hids hc hk hstored rs).call, foldl_hear hs]
  · rw [reports_budget hids hc hk hstored rs hrow hfits, foldl_hear hs]
  · rw [reports_append]
    exact reconcile_invalid hr

namespace Sample

/-- A budget with a cost limit. -/
def budget : TaskBudget := ⟨("owner", "task"), ⟨1000, 24, 4, 2, 10, 1024, some []⟩, []⟩

/-- A call that has reserved 100 tokens. -/
def call : ModelCall := ⟨7, ("owner", "task"), 100, 1 / 10000, .reserved⟩

/-- The tables with that call. -/
def tables : Db where
  budgets := Table.empty.set budget.key ⟨600, budget.limits, 1, 100, 1 / 10000, 0⟩
  calls := [call]
  rates := Table.empty.set 7 (1, 1)

/-- The report of a total, all of it prompt. -/
def told (total : ℤ) (settle : Bool) : Report :=
  ⟨some { total := .int total, prompt := .int total, completion := .int 0 }, settle⟩

/-- Two partial reports, one that settles, and a late one. -/
def story : List Report := [told 120 false, told 80 false, told 90 true, told 500 false]

end Sample

/-- The call is charged the 90 tokens of the report that settles it. -/
theorem reports_charge_story :
    (Sample.budget.reports 7 Sample.story Sample.tables).call 7 =
      some { Sample.call with
        status := Report.finalStatus Sample.story
        tokens := Report.finalTokens 100 Sample.story
        cost := Report.finalCost Sample.budget (Sample.tables.rates 7) (1 / 10000) Sample.story } ∧
    Report.finalTokens 100 Sample.story = 90 :=
  ⟨(reports_charge (by decide) rfl ⟨by decide, by decide⟩ Sample.story).1, by decide⟩

/-- SQLite cannot store a total of `2 ^ 63` tokens: the report that should settle the call raises, and
the call stays reserved with its 100 tokens. -/
theorem report_unbindable :
    (Sample.budget.reconcile 7 (Sample.told (2 ^ 63) true).usage true Sample.tables).2 =
      .error unbindable ∧
    ((Sample.budget.reports 7 [Sample.told (2 ^ 63) true] Sample.tables).call 7).map
      (fun c => (c.status, c.tokens)) = some (.reserved, 100) := by
  decide

/-! ### Streams -/

/-- A chunk of a stream, with what the loop finds when it arrives. -/
structure Chunk where
  usage : Option Usage
  /-- `assert_owner_active` -/
  active : Bool := true
  /-- the time -/
  time : Time
  /-- the error of the monitor, or the one of a closed stream -/
  interrupted : Except Error Unit := .ok ()

/-- What the loop finds when the stream has ended. -/
structure Finish where
  /-- `assert_owner_active` -/
  active : Bool := true
  /-- the time -/
  time : Time
  /-- the error of the monitor, of a closed stream or of the wall deadline -/
  interrupted : Except Error Unit := .ok ()

/-- `BudgetStream.__iter__`; `usage` is the last one that was seen. -/
def iterate (b : TaskBudget) (key : Token) (finish : Finish) :
    Option Usage → List Chunk → Db → Db × Except Error Unit
  | usage, [], db =>
    match finish.interrupted with
    | .error e => (db, .error e)
    | .ok _ =>
      let (db, outcome) := b.reconcile key usage true db
      (db, outcome >>= fun _ => b.check finish.active finish.time db)
  | usage, chunk :: chunks, db =>
    match b.check chunk.active chunk.time db >>= fun _ => chunk.interrupted with
    | .error e => (db, .error e)
    | .ok _ =>
      match chunk.usage with
      | none => iterate b key finish usage chunks db
      | some u =>
        match b.reconcile key (some u) false db with
        | (db, .error e) => (db, .error e)
        | (db, .ok _) => iterate b key finish (some u) chunks db

/-- The partial reports of the usages. -/
def streamed (us : List Usage) : List Report := us.map fun u => ⟨some u, false⟩

/-- **A stream makes reports**: it raises after partial reports of its first usages, or it makes all
of them, and the last usage settles. -/
theorem iterate_reports (b : TaskBudget) (key : Token) (finish : Finish) (chunks : List Chunk)
    (usage : Option Usage) (db : Db) :
    (∃ us e, us <+: chunks.filterMap Chunk.usage ∧
      b.iterate key finish usage chunks db = (b.reports key (streamed us) db, .error e)) ∨
    (b.iterate key finish usage chunks db).1 = b.reports key
      (streamed (chunks.filterMap Chunk.usage) ++
        [⟨((chunks.filterMap Chunk.usage).getLast?).or usage, true⟩]) db := by
  induction chunks generalizing usage db with
  | nil =>
    unfold iterate
    split
    · exact .inl ⟨[], _, List.nil_prefix, rfl⟩
    · exact .inr rfl
  | cons chunk chunks ih =>
    unfold iterate
    split
    · exact .inl ⟨[], _, List.nil_prefix, rfl⟩
    · cases hu : chunk.usage with
      | none =>
        rw [List.filterMap_cons_none hu]
        exact ih usage db
      | some u =>
        rw [List.filterMap_cons_some hu]
        have hfirst : ∀ rs, b.reports key (⟨some u, false⟩ :: rs) db =
            b.reports key rs (b.reconcile key (some u) false db).1 := fun _ => rfl
        cases hrec : b.reconcile key (some u) false db with
        | mk db' outcome =>
          rw [hrec] at hfirst
          cases outcome with
          | error e =>
            refine .inl ⟨[u], e, List.cons_prefix_cons.2 ⟨rfl, List.nil_prefix⟩, ?_⟩
            simp only [hrec]
            exact congrArg (·, _) (hfirst []).symm
          | ok x =>
            simp only [hrec]
            rcases ih (some u) db' with ⟨us, e, hus, heq⟩ | heq
            · refine .inl ⟨u :: us, e, List.cons_prefix_cons.2 ⟨rfl, hus⟩, heq.trans ?_⟩
              exact congrArg (·, _) (hfirst _).symm
            · refine .inr (heq.trans ?_)
              have hlast : ((u :: chunks.filterMap Chunk.usage).getLast?).or usage =
                  ((chunks.filterMap Chunk.usage).getLast?).or (some u) := by
                rw [List.getLast?_cons]
                cases (chunks.filterMap Chunk.usage).getLast? <;> rfl
              rw [hlast]
              exact (hfirst _).symm

end TaskBudget

end Budgets

end PythonAI
