import PythonAI.Library.Variant
import PythonAI.Workspace.Progress

/-!
# An interrupted cleanup is completed

Any native call of `resume` can fail, and its process can end after any step.  The next call goes on
from what is left, and nothing makes it fail but the lease of another call, the user or the native
calls.

* `Host.interrupted_completes` : **after any interrupted calls of `resume`, an undisturbed one
  completes the operation, with every directory where the plan wants it**
-/

namespace PythonAI

open Library

namespace Workspace

variable {id : ℕ} {w : Worker} {h h' : Host} {env : Env} {j : Job} {key : PlanId} {plan : Plan}
  {item item' : Item} {row row' : Row} {source dest dest' : Place} {todo : List Item} {pc pc' : Pc}
  {rows : Table DirId Row} {files : Table Place Tree}

/-! ### No step raises -/

section

variable {ε α β : Type}

theorem exists_bind {x : Except ε α} {f : α → Except ε β} {a : α} (hx : x = .ok a)
    (hf : ∃ b, f a = .ok b) : ∃ b, (x >>= f) = .ok b := by
  obtain ⟨b, hb⟩ := hf
  exact ⟨b, bind_eq_ok.2 ⟨a, hx, hb⟩⟩

end

/-- The lease is its own. -/
theorem Live.fence (hl : Live h key w) (hkey : w.key = key) (hne : w.pc ≠ .opened) :
    h.fence w = .ok () := by
  obtain ⟨l, hlease, htoken, hlt⟩ := (if_neg hne).mp hl.lease
  rw [Host.fence, ensure_eq_ok, hkey, hlease]
  simp [htoken, hlt]

theorem Known.get (hk : Known h.rows key plan item row dest) :
    h.get plan.principal item.id = .ok row := by
  rw [Host.get, require_eq_ok, Option.filter_eq_some_iff]
  exact ⟨hk.found, decide_eq_true hk.principal⟩

theorem pin_free {p : Place} {tree : Tree} (hfile : h.files p = some tree)
    (hfree : h.pins p = none) : h.pin {} p = .ok tree := by
  rw [Host.pin, hfile, hfree]
  rfl

theorem Busy.can_intend (hb : Busy h key plan id w) (hpc : w.pc = .ready item) :
    ∃ h', h.intend {} id w item = .ok h' := by
  have hat := hb.pc
  rw [hpc] at hat
  obtain ⟨hitem, -⟩ := hat
  have ha : item.At h.rows h.files key plan :=
    hb.items item hitem (by rw [hpc]; exact fun hc => (by cases hc))
  rw [Host.intend, hb.given]
  rcases ha with ⟨row, hrow, hprincipal, hstate, hgen, -⟩ | ⟨row, dest, hk, -⟩
  · have hget : h.get plan.principal item.id = .ok row := by
      rw [Host.get, require_eq_ok, Option.filter_eq_some_iff]
      exact ⟨hrow, decide_eq_true hprincipal⟩
    refine exists_bind hget ⟨_, if_pos ?_⟩
    rw [hstate, decide_eq_true rfl, decide_eq_true hgen]
    rfl
  · refine exists_bind hk.get ?_
    dsimp only
    split
    · exact ⟨_, rfl⟩
    refine exists_bind (a := ()) (ensure_eq_ok.2 ?_) ?_
    · rw [decide_eq_true hk.generation, Bool.and_true, Bool.or_eq_true, decide_eq_true_eq]
      exact hk.temporary
    refine exists_bind rfl (exists_bind (a := ()) ?_ ?_)
    · split <;> rfl
    · split
      · exact ⟨_, rfl⟩
      · exact ⟨_, rfl⟩

theorem Busy.can_look (hb : Busy h key plan id w) (hpc : w.pc = .placed j) :
    ∃ h', h.look id w j = .ok h' := by
  have hat := hb.pc
  rw [hpc] at hat
  obtain ⟨-, row, hc, -, ⟨horigin, htarget⟩ | ⟨horigin, htarget⟩⟩ := hat
  · rw [Host.look, hb.given, hc.origin, hc.target, horigin, htarget]
    refine exists_bind (a := ()) rfl (exists_bind (a := ()) (ensure_eq_ok.2 ?_) ⟨_, rfl⟩)
    exact decide_eq_true (hc.known.identity.symm.trans hc.identity.symm)
  · rw [Host.look, hb.given, hc.origin, hc.target, horigin, htarget]
    exact ⟨_, rfl⟩

theorem Busy.can_grasp (hb : Busy h key plan id w) (hpc : w.pc = .found j) :
    ∃ h', h.grasp {} id w j = .ok h' := by
  have hat := hb.pc
  rw [hpc] at hat
  obtain ⟨-, row, hc, -, horigin, -⟩ := hat
  rw [Host.grasp, hb.given, hc.origin]
  exact exists_bind (pin_free horigin (hb.unpinned hpc rfl _))
    (exists_bind (a := ()) (ensure_eq_ok.2 (decide_eq_true rfl)) ⟨_, rfl⟩)

theorem Busy.can_slide (hb : Busy h key plan id w) (hpc : w.pc = .fenced j) :
    ∃ h', h.slide {} id w j = .ok h' := by
  have hat := hb.pc
  rw [hpc] at hat
  obtain ⟨-, row, hc, -, -, htarget⟩ := hat
  rw [Host.slide, hb.given, hc.target, htarget]
  exact ⟨_, rfl⟩

theorem Busy.can_rename (hb : Busy h key plan id w) (hpc : w.pc = .sliding j) :
    ∃ h', h.rename {} id w j = .ok h' := by
  have hat := hb.pc
  rw [hpc] at hat
  obtain ⟨-, row, hc, -, horigin, htarget⟩ := hat
  rw [Host.rename, hb.given, hc.origin, hc.target, horigin, htarget]
  exact ⟨_, rfl⟩

theorem Busy.can_recognize (hb : Busy h key plan id w) (hpc : w.pc = .moved j) :
    ∃ h', h.recognize id w j = .ok h' := by
  have hat := hb.pc
  rw [hpc] at hat
  obtain ⟨-, row, hc, -, -, htarget⟩ := hat
  rw [Host.recognize, Host.identity, hb.given, hc.target, htarget]
  refine exists_bind rfl (exists_bind (a := ()) (ensure_eq_ok.2 ?_) ⟨_, rfl⟩)
  exact decide_eq_true (hc.known.identity.symm.trans hc.identity.symm)

theorem Busy.can_verify (hb : Busy h key plan id w) (hpc : w.pc = .known j) :
    ∃ h', h.verify {} id w j = .ok h' := by
  have hat := hb.pc
  rw [hpc] at hat
  obtain ⟨-, row, hc, -, -, htarget⟩ := hat
  rw [Host.verify, hb.given, hc.target]
  exact exists_bind (pin_free htarget (hb.unpinned hpc rfl _))
    (exists_bind (a := ()) (ensure_eq_ok.2 (decide_eq_true rfl)) ⟨_, rfl⟩)

theorem Busy.can_condemn (hb : Busy h key plan id w) (hpc : w.pc = .settled j) :
    ∃ h', h.condemn id w j = .ok h' := by
  have hat := hb.pc
  rw [hpc] at hat
  obtain ⟨-, row, hc, hst⟩ := hat
  rw [Host.condemn, hb.given]
  split_ifs with ha
  · exact ⟨_, rfl⟩
  rw [not_not] at ha
  rw [ha] at hst
  refine exists_bind hc.known.get ?_
  split
  · next tree htree =>
    refine exists_bind (a := ()) (ensure_eq_ok.2 (decide_eq_true ?_)) ⟨_, rfl⟩
    rw [hc.known.identity]
    rcases hst with ⟨-, htarget, -⟩ | ⟨-, -, hcovers⟩
    · replace htarget : h.files j.dest = some j.item.manifest := htarget
      rw [htree] at htarget
      cases htarget
      rfl
    · rw [(covers_eq (hcovers tree htree)).1]
  · next hnone =>
    refine exists_bind (a := ()) (ensure_eq_ok.2 (decide_eq_true ?_)) ⟨_, rfl⟩
    rcases hst with ⟨-, htarget, -⟩ | ⟨-, hstate, -⟩
    · replace htarget : h.files j.dest = some j.item.manifest := htarget
      rw [hnone] at htarget
      cases htarget
    · exact hstate

theorem Busy.can_doom (hb : Busy h key plan id w) (hpc : w.pc = .condemned j) :
    ∃ h', h.doom {} id w j = .ok h' := by
  have hat := hb.pc
  rw [hpc] at hat
  obtain ⟨-, row, hc, -, hsame, tree, htree, hst⟩ := hat
  rw [Host.doom]
  refine exists_bind (pin_free htree (hb.unpinned hpc rfl _))
    (exists_bind (a := ()) (ensure_eq_ok.2 ?_) (exists_bind (a := ()) (ensure_eq_ok.2 ?_) ⟨_, rfl⟩))
  · rw [Bool.or_eq_true, decide_eq_true_eq, decide_eq_true_eq, hsame]
    exact hst.symm.imp And.left And.right
  · rcases hst with ⟨-, rfl⟩ | ⟨-, hcovers⟩
    · exact covers_self _
    · exact hcovers

theorem Busy.can_purge {order : List Entry} (hb : Busy h key plan id w)
    (hpc : w.pc = .purge j order) : ∃ h', h.purgeOne {} id w j order = .ok h' := by
  have hat := hb.pc
  rw [hpc] at hat
  obtain ⟨-, row, hc, -, -, tree, htree, -, hperm, hsorted⟩ := hat
  rw [Host.purgeOne, htree]
  refine exists_bind (a := ()) rfl (exists_bind rfl ?_)
  cases order with
  | nil =>
    refine exists_bind (a := ()) (ensure_eq_ok.2 ?_) ⟨_, rfl⟩
    rw [hperm.symm.eq_nil]
    rfl
  | cons e order =>
    refine exists_bind (a := ()) (ensure_eq_ok.2 ?_) ⟨_, rfl⟩
    rw [not_occupied hperm hsorted]
    rfl

/-- **A worker that nothing disturbs does not fail.** -/
theorem Busy.able (hb : Busy h key plan id w) (hl : Live h key w) :
    ∃ h', h.advance {} id w = .ok h' := by
  have hfence := hl.fence hb.mine
  rw [Host.advance]
  cases hpc : w.pc with
  | opened =>
    have hlease := hl.lease
    rw [if_pos hpc] at hlease
    refine exists_bind (a := ()) (ensure_eq_ok.2 ?_) ⟨_, rfl⟩
    rw [hb.mine]
    cases hkey : h.leases key with
    | none => rfl
    | some l =>
      show (!decide (h.now < l.expires)) = true
      rw [decide_eq_false (Nat.not_lt.2 (hlease l hkey))]
      rfl
  | entered =>
    refine exists_bind (a := ()) ?_ ⟨_, rfl⟩
    split_ifs <;> rfl
  | next =>
    cases htodo : w.todo with
    | nil => exact ⟨_, rfl⟩
    | cons item todo =>
      exact exists_bind (hfence (by rw [hpc]; exact fun hc => (by cases hc))) ⟨_, rfl⟩
  | ready item => exact hb.can_intend hpc
  | placed j => exact hb.can_look hpc
  | found j => exact hb.can_grasp hpc
  | pinned j => exact exists_bind (hfence (by rw [hpc]; exact fun hc => (by cases hc))) ⟨_, rfl⟩
  | fenced j => exact hb.can_slide hpc
  | sliding j => exact hb.can_rename hpc
  | moved j => exact hb.can_recognize hpc
  | known j => exact hb.can_verify hpc
  | verified j => exact ⟨_, rfl⟩
  | settled j => exact hb.can_condemn hpc
  | condemned j => exact hb.can_doom hpc
  | purging j order =>
    exact exists_bind (hfence (by rw [hpc]; exact fun hc => (by cases hc))) ⟨_, rfl⟩
  | purge j order => exact hb.can_purge hpc
  | last j => exact ⟨_, rfl⟩
  | complete =>
    refine exists_bind (a := ()) ?_ ⟨_, rfl⟩
    split_ifs
    · rw [hfence (by rw [hpc]; exact fun hc => (by cases hc))]
      rfl
    · rfl
  | closing => exact ⟨_, rfl⟩
  | failing e => exact absurd hpc (hl.sound e)
  | releasing => exact ⟨_, rfl⟩

/-! ### Interrupted calls -/

/-- A call of `resume` is running, or none. -/
inductive Underway (h : Host) (key : PlanId) (plan : Plan) (id : ℕ) : Prop
  /-- none -/
  | idle (hi : Idle h key plan)
  /-- the call `id` -/
  | busy (w : Worker) (hb : Busy h key plan id w)

/-- What happens while an operation is interrupted and resumed: calls of `resume`, one at a time,
with any failures, crashes, and time. -/
def Act.attempts (id : ℕ) (key : PlanId) : Act → Prop
  | .resume i k => i = id ∧ k = key
  | .work _ _ | .crash _ | .tick _ => True
  | _ => False

theorem Base.of_eq (hb : Base h key plan) {x : Host} (hi : Inv x) (hrows : x.rows = h.rows)
    (hfiles : x.files = h.files) (hplans : x.plans = h.plans) (hops : x.operations = h.operations)
    (hleases : x.leases = h.leases) (hnow : h.now ≤ x.now) : Base x key plan := by
  refine ⟨hi, hplans ▸ hb.stored, hb.same, fun l hl => ?_, ?_⟩
  · rw [hleases] at hl
    exact (hb.lease l hl).trans (Nat.add_le_add_right hnow 600)
  · rw [hops, hrows, hfiles]
    exact hb.operation

/-- The call is raised, or its process ends. -/
theorem Busy.ended (hb : Busy h key plan id w) (hi : Inv (h.crash id)) :
    Idle (h.crash id) key plan := by
  refine hb.idle hi rfl rfl rfl rfl hb.base.lease rfl fun p => ?_
  rw [Option.eq_none_iff_forall_ne_some]
  intro pin hpin
  replace hpin : (h.pins.deleteWhere fun _ pin => pin.owner = id) p = some pin := hpin
  rw [Table.deleteWhere_eq_some] at hpin
  exact of_decide_eq_false hpin.2 (hb.pins p pin hpin.1).1

theorem Busy.raised (hb : Busy h key plan id w) {e : Error} (hi : Inv (h.raise id w e)) :
    Underway (h.raise id w e) key plan id := by
  unfold Host.raise at hi ⊢
  split_ifs at hi ⊢
  · exact .idle (hb.ended hi)
  obtain ⟨hworker, hothers⟩ := hb.alone (x := (h.unpin id).goto id w (.failing e)) rfl
  refine .busy _ ⟨hb.base.of_eq hi rfl rfl rfl rfl rfl le_rfl, hworker, hothers, hb.mine, hb.given,
    fun p pin hpin => ?_, fun i hi _ => hb.every i hi, trivial⟩
  replace hpin : (h.pins.deleteWhere fun _ pin => pin.owner = id) p = some pin := hpin
  rw [Table.deleteWhere_eq_some] at hpin
  exact absurd (hb.pins p pin hpin.1).1 (of_decide_eq_false hpin.2)

theorem Idle.crash (hi : Idle h key plan) {i : ℕ} (hinv : Inv (h.crash i)) :
    Idle (h.crash i) key plan := by
  refine ⟨hi.base.of_eq hinv rfl rfl rfl rfl rfl le_rfl, fun k => ?_, fun p => ?_, hi.items⟩
  · show (h.workers.erase i) k = none
    by_cases hk : k = i
    · rw [hk]
      exact Table.erase_same ..
    · exact (Table.erase_of_ne _ _ hk).trans (hi.workers k)
  · show (h.pins.deleteWhere fun _ pin => pin.owner = i) p = none
    rw [Table.deleteWhere, hi.pins p]
    rfl

/-- A new call of `resume`. -/
theorem Idle.resume (hi : Idle h key plan) (hok : h.resume id key = .ok h') (hinv : Inv h') :
    h.operations key = some .completed ∧ h' = h ∨
      ∃ w, Busy h' key plan id w ∧ w.pc = .opened ∧ h'.leases = h.leases ∧ h'.now = h.now := by
  simp only [Host.resume, bind_eq_ok, require_eq_ok] at hok
  obtain ⟨-, -, plan', hplan, s, hs, hok⟩ := hok
  rw [hi.base.stored] at hplan
  cases hplan
  split_ifs at hok with hcompleted
  · simp only [pure_eq_ok] at hok
    exact .inl ⟨hcompleted ▸ hs, hok.symm⟩
  · simp only [pure_eq_ok] at hok
    subst hok
    refine .inr ⟨{ key := key, plan := plan, todo := plan.items },
      ⟨hi.base.of_eq hinv rfl rfl rfl rfl rfl le_rfl, Table.set_same .., fun i hne => ?_, rfl, rfl,
        fun p pin hpin => ?_, fun i hmem _ => hi.items i hmem, rfl⟩, rfl, rfl, rfl⟩
    · exact (Table.set_of_ne _ _ _ hne).trans (hi.workers i)
    · have hnone := hi.pins p
      rw [show h.pins p = some pin from hpin] at hnone
      cases hnone

/-- **Interrupted calls leave stages**, one step. -/
theorem Underway.step (hu : Underway h key plan id) {a : Act} (ha : a.attempts id key)
    (hst : Host.lts.step h a h') : Underway h' key plan id := by
  have hinv : Inv h := by
    cases hu with
    | idle hi => exact hi.base.inv
    | busy w hb => exact hb.base.inv
  have hinv' := hinv.step hst
  replace hst : h' = h.after a := hst
  unfold Host.after at hst
  cases a with
  | resume i k =>
    obtain ⟨rfl, rfl⟩ := ha
    cases hok : h.resume i k with
    | error e =>
      rw [Host.attempt, hok] at hst
      rw [hst]
      exact hu
    | ok x =>
      rw [Host.attempt, hok] at hst
      cases hst
      cases hu with
      | idle hi =>
        rcases hi.resume hok hinv' with ⟨-, rfl⟩ | ⟨w, hb, -⟩
        · exact .idle hi
        · exact .busy w hb
      | busy w hb =>
        rw [Host.resume, hb.worker] at hok
        cases hok
  | work env i =>
    cases hw : h.workers i with
    | none =>
      rw [Host.attempt, hw] at hst
      rw [hst]
      exact hu
    | some w =>
      cases hu with
      | idle hi =>
        rw [hi.workers i] at hw
        cases hw
      | busy w' hb =>
        by_cases hid : i = id
        · subst hid
          rw [hb.worker, Option.some.injEq] at hw
          subst hw
          rw [Host.attempt, hb.worker] at hst
          dsimp only at hst
          cases hok : h.advance env i w' with
          | ok x =>
            rw [hok] at hst
            cases hst
            rcases hb.advance hok with ⟨w, hb', -, -⟩ | ⟨hi, -, -⟩
            · exact .busy w hb'
            · exact .idle hi
          | error e =>
            rw [hok] at hst
            cases hst
            exact hb.raised hinv'
        · rw [hb.workers i hid] at hw
          cases hw
  | crash i =>
    cases hst
    cases hu with
    | idle hi => exact .idle (hi.crash hinv')
    | busy w hb =>
      by_cases hid : i = id
      · subst hid
        exact .idle (hb.ended hinv')
      · refine .busy w ⟨hb.base.of_eq hinv' rfl rfl rfl rfl rfl le_rfl, ?_, fun k hk => ?_, hb.mine,
          hb.given, fun p pin hpin => ?_, hb.items, hb.pc⟩
        · exact (Table.erase_of_ne _ _ (fun hc => hid hc.symm)).trans hb.worker
        · show (h.workers.erase i) k = none
          by_cases hki : k = i
          · rw [hki]
            exact Table.erase_same ..
          · exact (Table.erase_of_ne _ _ hki).trans (hb.workers k hk)
        · replace hpin : (h.pins.deleteWhere fun _ pin => pin.owner = i) p = some pin := hpin
          rw [Table.deleteWhere_eq_some] at hpin
          exact hb.pins p pin hpin.1
  | tick t =>
    cases hst
    cases hu with
    | idle hi =>
      exact .idle ⟨hi.base.of_eq hinv' rfl rfl rfl rfl rfl (Nat.le_add_right ..), hi.workers,
        hi.pins, hi.items⟩
    | busy w hb =>
      exact .busy w ⟨hb.base.of_eq hinv' rfl rfl rfl rfl rfl (Nat.le_add_right ..), hb.worker,
        hb.workers, hb.mine, hb.given, hb.pins, hb.items, hb.pc⟩
  | preview | request | execute | create | created | attach | retain | buildStatus | edit =>
    cases ha

/-! ### The operation is begun -/

/-- Nothing stands in the way of a plan. -/
structure Clear (h : Host) (key : PlanId) (plan : Plan) : Prop where
  /-- no cleanup is running -/
  workers : ∀ i, h.workers i = none
  /-- nothing is pinned -/
  pins : ∀ p, h.pins p = none
  /-- nobody has the lease of the operation -/
  lease : h.leases key = none
  /-- nothing is where a directory is to go -/
  free : ∀ item ∈ plan.items, ∀ row, h.rows item.id = some row →
    plan.action.moving row.state = true →
    h.files (plan.action.target row.source (row.archive.getD (trash item.id row key))) = none
  /-- no directory was purged before -/
  original : ∀ item ∈ plan.items, ∀ row, h.rows item.id = some row → row.original = none

theorem forM_ok {α : Type} {f : α → Except Error Unit} {l : List α} (hok : l.forM f = .ok ()) :
    ∀ a ∈ l, f a = .ok () := by
  induction l with
  | nil => exact fun a ha => by cases ha
  | cons b l ih =>
    replace hok : (f b >>= fun _ => l.forM f) = .ok () := hok
    rw [bind_eq_ok] at hok
    obtain ⟨_, hb, hl⟩ := hok
    intro a ha
    rcases List.mem_cons.1 ha with rfl | ha
    · exact hb
    · exact ih hl a ha

/-- What `check_items` has found. -/
theorem checkItem_ok (hok : h.checkItem plan item = .ok ()) :
    ∃ row, h.rows item.id = some row ∧ row.principal = plan.principal ∧
      row.generation = item.generation ∧ row.state = item.state ∧
      (row.temporary = true ∨ plan.action = .restore) ∧
      h.files (Host.place row) = some item.manifest ∧ row.identity = some item.manifest.ident := by
  simp only [Host.checkItem, Host.get, Host.locate, bind_eq_ok, require_eq_ok, ensure_eq_ok,
    Option.filter_eq_some_iff, pure_eq_ok, Bool.and_eq_true, Bool.or_eq_true,
    decide_eq_true_eq] at hok
  obtain ⟨row, ⟨hrow, hprincipal⟩, -, ⟨⟨hgen, hstate⟩, htemp⟩, -, -, -, -, tree,
    ⟨tree', hfile, -, hident, rfl⟩, htree⟩ := hok
  rw [htree] at hfile hident
  exact ⟨row, hrow, hprincipal, hgen, hstate, htemp, hfile, hident.symm⟩

/-- An item that was checked is at its first stage. -/
theorem checkItem_at (hi : Inv h) (hc : Clear h key plan) (hitem : item ∈ plan.items)
    (hplan : h.plans key = some plan) (hok : h.checkItem plan item = .ok ()) :
    item.At h.rows h.files key plan := by
  obtain ⟨row, hrow, hprincipal, hgen, hstate, htemp, hfile, hident⟩ := checkItem_ok hok
  refine .inr ⟨row, _, ⟨hrow, hprincipal, htemp, hident, hgen, hc.original item hitem row hrow,
    rfl⟩, ?_⟩
  have hfree := hc.free item hitem row hrow
  have hadmits := (hi.plans key plan hplan).2.1 item hitem
  -- A directory that is archived has an archive.
  have harchived : row.state = .archived →
      Host.place row = row.archive.getD (trash item.id row key) := by
    intro hs
    cases harchive : row.archive with
    | none =>
      rcases (hi.rows _ row hrow).1.archive harchive with hs' | hs' <;> rw [hs] at hs' <;> cases hs'
    | some p => simp only [Host.place, hs, harchive, Option.getD_some]
  have hactive : row.state = .active → Host.place row = row.source := by
    intro hs
    simp only [Host.place, hs]
  rw [← hstate] at hadmits
  cases ha : plan.action with
  | archive =>
    rw [ha] at hadmits hfree
    replace hadmits : row.state = .active := hadmits
    rw [hactive hadmits] at hfile
    exact .waits (.inl hadmits) ⟨hfile, hfree (by rw [hadmits]; rfl)⟩
  | restore =>
    rw [ha] at hadmits hfree
    replace hadmits : row.state = .archived := hadmits
    rw [harchived hadmits] at hfile
    exact .waits (.inl hadmits) ⟨hfile, hfree (by rw [hadmits]; rfl)⟩
  | deleteSession =>
    rw [ha] at hadmits hfree
    rcases hadmits with hs | hs
    · rw [hactive hs] at hfile
      exact .waits (.inl hs) ⟨hfile, hfree (by rw [hs]; rfl)⟩
    · rw [harchived hs] at hfile
      exact .settled (.inr ⟨rfl, hs⟩) hfile fun hc => by cases hc

/-- The approved operation begins. -/
theorem idle_execute (hi : Inv h) (hplan : h.plans key = some plan) {e consumed : Except Error Unit}
    {approval : ℕ} (hok : h.execute e key approval consumed = .ok h') (hc : Clear h key plan) :
    Idle h' key plan := by
  have hi' := (hi.execute hok).1.inv
  simp only [Host.execute, bind_eq_ok, require_eq_ok, pure_eq_ok] at hok
  obtain ⟨plan', hplan', -, -, -, -, -, -, -, -, _, hitems, -, -, -, -, rfl⟩ := hok
  rw [hplan] at hplan'
  cases hplan'
  replace hitems := forM_ok hitems
  have hat : ∀ i ∈ plan.items, i.At h.rows h.files key plan :=
    fun i hmem => checkItem_at hi hc hmem hplan (hitems i hmem)
  refine ⟨⟨hi', hplan, fun i hmem i' hmem' hid => ?_, fun l hl => ?_, .running,
    Table.set_same .., fun hs => (by cases hs)⟩, hc.workers, hc.pins, hat⟩
  · obtain ⟨row, hrow, -, hgen, hstate, -, hfile, -⟩ := checkItem_ok (hitems i hmem)
    obtain ⟨row', hrow', -, hgen', hstate', -, hfile', -⟩ := checkItem_ok (hitems i' hmem')
    rw [← hid, hrow] at hrow'
    cases hrow'
    rw [hfile] at hfile'
    cases i
    cases i'
    simp only [Option.some.injEq] at hid hgen hstate hfile' hgen' hstate'
    rw [Item.mk.injEq]
    exact ⟨hid, hgen.symm.trans hgen', hstate.symm.trans hstate', hfile'⟩
  · replace hl : h.leases key = some l := hl
    rw [hc.lease] at hl
    cases hl

/-! ### The end -/

/-- The operation is complete, the call has ended, and every directory is where the plan wants
it. -/
def Finished (h : Host) (key : PlanId) (plan : Plan) : Prop :=
  h.operations key = some .completed ∧ (∀ i, h.workers i = none) ∧
    ∀ item ∈ plan.items, Done h.rows h.files plan item

theorem Idle.finished (hi : Idle h key plan) (hops : h.operations key = some .completed) :
    Finished h key plan := by
  obtain ⟨s, hs, hdone⟩ := hi.base.operation
  rw [hops, Option.some.injEq] at hs
  exact ⟨hops, hi.workers, hdone hs.symm⟩

/-- An undisturbed worker comes to the end. -/
theorem Busy.finishes (hb : Busy h key plan id w) (hl : Live h key w) :
    ∃ n h', Host.lts.Run h (List.replicate n (.work {} id)) h' ∧ Finished h' key plan := by
  refine Lts.Run.exists_of_variant (I := fun x => ∃ w, Busy x key plan id w ∧ Live x key w)
    (fun x => ((x.workers id).map (·.rank)).getD 0) ?_ ⟨w, hb, hl⟩
  rintro x ⟨w, hb, hl⟩
  obtain ⟨x', hok⟩ := hb.able hl
  have hst : Host.lts.step x (.work {} id) x' := by
    show x' = x.after (.work {} id)
    simp only [Host.after, Host.attempt, hb.worker, hok]
  refine ⟨x', hst, ?_⟩
  rcases hb.advance hok with ⟨w', hb', hrank, hlive⟩ | ⟨hi, hpc, hops⟩
  · refine .inr ⟨⟨w', hb', hlive hl⟩, ?_⟩
    rw [hb.worker, hb'.worker]
    exact hrank
  · exact .inl (hi.finished (hops ▸ hl.done hpc))

/-- The process ends, the lease expires, and a new call is made. -/
theorem Underway.restarts (hu : Underway h key plan id) :
    ∃ n h', Host.lts.Run h ([.crash id, .tick 600, .resume id key] ++
      List.replicate n (.work {} id)) h' ∧ Finished h' key plan := by
  have hcrash : Idle (h.crash id) key plan := by
    cases hu with
    | idle hi => exact hi.crash (hi.base.inv.step (a := .crash id) rfl)
    | busy w hb => exact hb.ended (hb.base.inv.step (a := .crash id) rfl)
  have htick : Idle { h.crash id with now := (h.crash id).now + 600 } key plan :=
    ⟨hcrash.base.of_eq (hcrash.base.inv.step (a := .tick 600) rfl) rfl rfl rfl rfl rfl
      (Nat.le_add_right ..), hcrash.workers, hcrash.pins, hcrash.items⟩
  have hexpired : ∀ l, (h.crash id).leases key = some l → l.expires ≤ (h.crash id).now + 600 :=
    hcrash.base.lease
  generalize hx : { h.crash id with now := (h.crash id).now + 600 } = x at htick
  have hstep : Host.lts.step h (.crash id) (h.crash id) := rfl
  have hstep' : Host.lts.step (h.crash id) (.tick 600) x := hx.symm
  have hrun : Host.lts.Run h [.crash id, .tick 600] x := .cons hstep (.single hstep')
  obtain ⟨x', hok⟩ : ∃ x', x.resume id key = .ok x' := by
    obtain ⟨s, hs, -⟩ := htick.base.operation
    rw [Host.resume, htick.workers id, htick.base.stored, hs]
    refine exists_bind (a := ()) rfl (exists_bind rfl (exists_bind rfl ?_))
    split
    · exact ⟨_, rfl⟩
    · exact ⟨_, rfl⟩
  have hst : Host.lts.step x (.resume id key) x' := by
    show x' = x.after (.resume id key)
    simp only [Host.after, Host.attempt, hok]
  have hrun' := hrun.snoc hst
  rcases htick.resume hok (htick.base.inv.step hst) with ⟨hops, rfl⟩ | ⟨w, hb, hpc, hleases, hnow⟩
  · exact ⟨0, x', hrun', htick.finished hops⟩
  · have hl : Live x' key w := by
      refine ⟨?_, ?_, ?_⟩
      · rw [if_pos hpc, hleases, hnow, ← hx]
        exact hexpired
      · rw [hpc]
        exact fun e hc => by cases hc
      · rw [hpc]
        exact fun hc => by cases hc
    obtain ⟨n, y, hrun'', hfin⟩ := hb.finishes hl
    exact ⟨n, y, hrun'.append hrun'', hfin⟩

namespace Host

variable {h₁ h₂ : Host}

/-- **An interrupted cleanup is completed.**  When a plan is executed and nothing stands in its
way, then after any calls of `resume`, one at a time, that fail or crash anywhere, one more call
that nothing disturbs completes the operation, with every directory where the plan wants it. -/
theorem interrupted_completes (hr : lts.Reachable Initial h) (hplan : h.plans key = some plan)
    (hc : Clear h key plan) {e consumed : Except Error Unit} {approval : ℕ}
    (hok : h.execute e key approval consumed = .ok h₁) {as : List Act}
    (hrun : lts.Run h₁ as h₂) (has : ∀ a ∈ as, a.attempts id key) :
    ∃ n h₃, lts.Run h₂ ([.crash id, .tick 600, .resume id key] ++
      List.replicate n (.work {} id)) h₃ ∧ Finished h₃ key plan := by
  have hstart : Underway h₁ key plan id :=
    .idle (idle_execute (inv_reachable hr) hplan hok hc)
  clear hok
  induction hrun with
  | nil => exact hstart.restarts
  | cons hst hrun ih =>
    exact ih (fun a ha => has a (List.mem_cons_of_mem _ ha))
      (hstart.step (has _ List.mem_cons_self) hst)

namespace Sample

/-- The plan is made, and the user has approved it. -/
def requested : Host := (approving.take 5).foldl after start

/-- The plan, with its approval. -/
def wanted : Plan :=
  { session := "s", principal := "me", action := .archive, items := [⟨0, 1, .active, tree⟩]
    kept := [], expires := 300, approval := some 5 }

theorem requested_clear : Clear requested 1 wanted := by
  refine ⟨fun _ => rfl, fun _ => rfl, rfl, fun item hitem row hrow _ => ?_,
    fun item hitem row hrow => ?_⟩
  · rcases List.mem_singleton.1 hitem with rfl
    cases hrow
    rfl
  · rcases List.mem_singleton.1 hitem with rfl
    cases hrow
    rfl

end Sample

/-- A call crashes before the rename, and the directory comes to the archive. -/
theorem interrupted_archive :
    ∃ n h₃, lts.Run Sample.sliding ([.crash 9, .tick 600, .resume 9 1] ++
      List.replicate n (.work {} 9)) h₃ ∧ h₃.operations 1 = some .completed ∧
        ∃ p, h₃.files p = some Sample.tree := by
  have hexec : Sample.requested.execute (.ok ()) 1 5 (.ok ()) = .ok Sample.approved := rfl
  have hcalls : ∀ a ∈ Sample.archiving.take 9, a.attempts 9 1 := by
    intro a ha
    simp only [Sample.archiving, List.take, List.replicate, List.cons_append, List.mem_cons] at ha
    rcases ha with rfl | ha
    · exact ⟨rfl, rfl⟩
    · simp only [List.not_mem_nil, or_false, or_self] at ha
      subst ha
      trivial
  obtain ⟨n, h₃, hrun, hops, -, hdone⟩ := interrupted_completes
    (Sample.reachable (Sample.approving.take 5)) rfl Sample.requested_clear hexec
    (Sample.run_foldl Sample.approved (Sample.archiving.take 9)) hcalls
  obtain ⟨row, -, -, -, -, p, -, hfile⟩ := hdone ⟨0, 1, .active, Sample.tree⟩ List.mem_cons_self
  exact ⟨n, h₃, hrun, hops, p, hfile⟩

end Host

end Workspace

end PythonAI
