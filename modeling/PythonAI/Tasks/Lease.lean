import PythonAI.Library.Fence
import PythonAI.Tasks.Calls

/-!
# Lease fencing

The lease of a task is a fence in the sense of `Library.Fence`: only `claim` makes a new holder,
with a fresh token, and every other operation keeps the holder or drops it.  Together with the
row invariant `RowInv` (an unexpired lease exists only while the state is `running`) this gives
`TaskSys.lease_fencing`: **a call that presents a superseded token changes nothing**, however the
run goes on.
-/

namespace PythonAI

open Library

/-! ### The row invariant -/

/-- What holds of every task row, when the tokens below `u` have been handed out and the clock
stands at `t`. -/
structure RowInv (u : Token) (t : Time) (row : TaskRow) : Prop where
  /-- the lease was handed out -/
  issued : ∀ k, row.leaseOwner = some k → k < u
  /-- an unexpired lease exists only while the state is `running` -/
  running : row.leased t = true → row.state = .running
  /-- a terminal row has no lease -/
  ended : row.state.terminal = true → row.leaseOwner = none ∧ row.leaseUntil = none

@[simp] theorem TaskRow.release_leased (row : TaskRow) (t : Time) :
    row.release.leased t = false := rfl

theorem TaskStore.renewable_iff {token : Token} {t : Time} {row : TaskRow} :
    renewable token t row = true ↔ row.heldBy token t = true ∧ row.state = .running := by
  simp [renewable]

/-- The row invariant holds of the same row at a later time. -/
theorem RowInv.later {u : Token} {t t' : Time} {row : TaskRow} (h : RowInv u t row)
    (htt : t ≤ t') : RowInv (u + 1) t' row where
  issued k hk := Nat.lt_succ_of_lt (h.issued k hk)
  running hl := h.running (TaskRow.leased_anti htt hl)
  ended := h.ended

/-- A row without a lease satisfies the row invariant. -/
theorem RowInv.of_release {u : Token} {t : Time} {row : TaskRow} (ho : row.leaseOwner = none)
    (hu : row.leaseUntil = none) : RowInv u t row where
  issued k hk := by rw [ho] at hk; cases hk
  running hl := by simp [TaskRow.leased, hu] at hl
  ended _ := ⟨ho, hu⟩

variable {u v : Token} {t t' : Time} {r r' : Option TaskRow}

theorem WorkerStep.inv (h : WorkerStep u t t' r r') (htt : t ≤ t')
    (hr : ∀ row, r = some row → RowInv u t row) :
    ∀ row', r' = some row' → RowInv (u + 1) t' row' := by
  intro row' hrow'
  cases h with
  | same => exact (hr row' hrow').later htt
  | inserted | claimed =>
    cases hrow'
    exact ⟨fun k hk => Option.some.inj hk ▸ Nat.lt_succ_self u, fun _ => rfl, nofun⟩
  | marked row h₁ h₁' hopen hfree hphase =>
    cases hrow'
    refine ⟨((hr row rfl).later htt).issued, fun hl => ?_, nofun⟩
    have : row.leased _ = true := TaskRow.leased_anti h₁' hl
    rw [hfree] at this; cases this
  | renewed row token h₁ h₂ hheld =>
    cases hrow'
    obtain ⟨-, hrun⟩ := TaskStore.renewable_iff.1 hheld
    exact ⟨((hr row rfl).later htt).issued, fun _ => hrun, fun h => by rw [hrun] at h; cases h⟩
  | saved row token h₁ h₁' hheld phase data =>
    cases hrow'
    have hi := (hr row rfl).later htt
    exact ⟨hi.issued, hi.running, hi.ended⟩
  | finished | lapsed => cases hrow'; exact .of_release rfl rfl

theorem HumanStep.inv (h : HumanStep r r') (htt : t ≤ t')
    (hr : ∀ row, r = some row → RowInv u t row) :
    ∀ row', r' = some row' → RowInv (u + 1) t' row' := by
  intro row' hrow'
  cases h with
  | same => exact (hr row' hrow').later htt
  | answered row call text hsus hcall =>
    cases hrow'
    have hi := (hr row rfl).later htt
    refine ⟨hi.issued, fun hl => ?_, nofun⟩
    have := hi.running hl
    rw [hsus] at this; cases this
  | resolved | stopped => cases hrow'; exact .of_release rfl rfl

/-- **The row invariant is kept by every step.** -/
theorem RowStep.inv (h : RowStep u t t' r r') (htt : t ≤ t')
    (hr : ∀ row, r = some row → RowInv u t row) :
    ∀ row', r' = some row' → RowInv (u + 1) t' row' := by
  cases h with
  | worker h => exact h.inv htt hr
  | human h => exact h.inv htt hr

/-- A step keeps the holder of the lease, drops it, or makes the fresh token the holder. -/
theorem RowStep.holder (h : RowStep u t t' r r') :
    r'.bind (·.leaseOwner) = r.bind (·.leaseOwner) ∨ r'.bind (·.leaseOwner) = none ∨
      r'.bind (·.leaseOwner) = some u := by
  cases h with
  | worker h =>
    cases h with
    | same | marked | renewed | saved => exact .inl rfl
    | finished | lapsed => exact .inr (.inl rfl)
    | inserted | claimed => exact .inr (.inr rfl)
  | human h =>
    cases h with
    | same | answered => exact .inl rfl
    | resolved | stopped => exact .inr (.inl rfl)

/-! ### Calls that present a token -/

namespace Call

/-- The task and the token of a call that needs the task's lease. -/
def presents : Call → Option (TaskKey × Token)
  | renew owner key token _ _ | checkpoint _ owner key token _ _ _ _
  | finish _ owner key token _ _ _ | bindWorkspace _ owner key token _ _ =>
    some ((owner, key), token)
  | _ => none

/-- The call, which presents a token, succeeds. -/
def accepted (db : TaskDb) : Call → Bool
  | renew owner key token t₁ t₂ => (TaskStore.renew owner key token t₁ t₂ db).2
  | checkpoint env owner key token phase data step t =>
    (TaskStore.checkpoint env owner key token phase data step t db).isOk
  | finish env owner key token state reply t =>
    (TaskStore.finish env owner key token state reply t db).isOk
  | bindWorkspace env owner key token repository storage =>
    (TaskStore.bindWorkspace env owner key token repository storage db).isOk
  | _ => false

/-- The call takes the task `k` over with the token `u`, or stops it. -/
def supersedes (u : Token) (db : TaskDb) (k : TaskKey) : Call → Prop
  | claim env owner key goal messages episode criteria t₁ t₂ => (owner, key) = k ∧
    ∃ db', TaskStore.claim env owner key goal messages episode criteria u t₁ t₂ db =
      .ok (db', .token u)
  | cancel owner key => (owner, key) = k
  | cancelSession owner _ => owner = k.1
  | _ => False

variable {c : Call} {db : TaskDb} {k : TaskKey} {token : Token}

theorem isOk_iff {ε α : Type} {x : Except ε α} : x.isOk = true ↔ ∃ a, x = .ok a := by
  cases x <;> simp [Except.isOk, Except.toBool]

/-- **A call that presents a token and succeeds presents the holder of the lease.** -/
theorem holder_of_accepted (hp : c.presents = some (k, token)) (hc : c.accepted db = true) :
    (db.tasks k).bind (·.leaseOwner) = some token := by
  have ofSelects : ∀ {owner key tok} {p : TaskRow → Bool},
      db.tasks.selects (owner, key) p = true → ((owner, key), tok) = (k, token) →
      (∀ row, p row = true → row.leaseOwner = some tok) →
      (db.tasks k).bind (·.leaseOwner) = some token := by
    rintro owner key tok p hsel heq hrow
    cases heq
    obtain ⟨row, hr, hpr⟩ := (db.tasks.selects_eq_true _ _).1 hsel
    rw [hr]; exact hrow row hpr
  cases c with
  | renew owner key tok t₁ t₂ =>
    exact ofSelects hc (Option.some.inj hp)
      fun row h => (TaskRow.heldBy_iff.1 (TaskStore.renewable_iff.1 h).1).1
  | checkpoint env owner key tok phase data step t =>
    obtain ⟨a, ha⟩ := isOk_iff.1 hc
    exact ofSelects (TaskStore.checkpoint_ok ha).1 (Option.some.inj hp)
      fun row h => (TaskRow.heldBy_iff.1 (TaskStore.renewable_iff.1 h).1).1
  | finish env owner key tok state reply t =>
    obtain ⟨a, ha⟩ := isOk_iff.1 hc
    exact ofSelects (TaskStore.finish_ok ha).1 (Option.some.inj hp)
      fun row h => (TaskRow.heldBy_iff.1 h).1
  | bindWorkspace env owner key tok repository storage =>
    obtain ⟨a, ha⟩ := isOk_iff.1 hc
    simp only [TaskStore.bindWorkspace, bind_eq_ok, ensure_eq_ok] at ha
    obtain ⟨-, hsel, -⟩ := ha
    refine ofSelects hsel (Option.some.inj hp) fun row h => ?_
    rw [Bool.and_eq_true] at h
    exact of_decide_eq_true h.2
  | _ => cases hp

/-- A call that presents a token and fails changes nothing. -/
theorem perform_of_not_accepted {u : Token} (hp : c.presents = some (k, token))
    (hc : c.accepted db = false) : c.perform u db = db := by
  have ofError : ∀ {α : Type} {x : Except Error (TaskDb × α)}, x.isOk = false →
      settle db x = db := by
    intro α x hx
    cases x with
    | error e => rfl
    | ok a => cases hx
  cases c with
  | renew owner key tok t₁ t₂ =>
    show { db with tasks := db.tasks.update _ _ _ } = db
    rw [Table.update_of_not_selects _ _ _ _ hc]
  | checkpoint | finish | bindWorkspace => exact ofError hc
  | _ => cases hp

/-- A call that presents a token other than the holder changes nothing. -/
theorem perform_of_stale {u : Token} (hp : c.presents = some (k, token))
    (hh : (db.tasks k).bind (·.leaseOwner) ≠ some token) : c.perform u db = db := by
  refine perform_of_not_accepted hp ?_
  by_contra hc
  exact hh (holder_of_accepted hp (by simpa using hc))

/-- After a call that supersedes, the task has no lease or the fresh one. -/
theorem holder_of_supersedes {u : Token} (hc : c.supersedes u db k)
    (hinv : ∀ row, db.tasks k = some row → row.state.terminal = true → row.leaseOwner = none) :
    ∀ tok, ((c.perform u db).tasks k).bind (·.leaseOwner) = some tok → tok = u := by
  have ofStop : ∀ {reply : String} {r : Option TaskRow},
      (∀ row, r = some row → row.state.terminal = true → row.leaseOwner = none) →
      ∀ tok, (r.map fun row => if !row.state.terminal then TaskStore.stop reply row else row).bind
        (·.leaseOwner) = some tok → tok = u := by
    rintro reply (_ | row) hrow tok htok
    · cases htok
    · cases hterm : row.state.terminal with
      | false => simp [hterm, TaskStore.stop, TaskRow.release] at htok
      | true => simp [hterm, hrow row rfl hterm] at htok
  cases c with
  | claim env owner key goal messages episode criteria t₁ t₂ =>
    obtain ⟨rfl, db', hclaim⟩ := hc
    intro tok htok
    simp only [perform, hclaim, settle_ok] at htok
    rcases TaskStore.claim_ok hclaim with ⟨row, -, -, -, hout⟩ | ⟨-, -, rfl⟩ |
      ⟨row, -, -, -, -, ⟨e, hout⟩, -⟩ | ⟨row, -, -, -, -, -, -, -, -, rfl⟩
    · cases hout
    · simpa [TaskStore.takeOver] using htok.symm
    · cases hout
    · simpa [TaskStore.takeOver] using htok.symm
  | cancel owner key =>
    cases hc
    intro tok htok
    simp only [perform, TaskStore.cancel, Table.update_same] at htok
    exact ofStop hinv tok htok
  | cancelSession owner t =>
    cases hc
    intro tok htok
    simp only [perform, TaskStore.cancelSession, Table.updateWhere_apply, decide_true,
      Bool.true_and] at htok
    exact ofStop hinv tok htok
  | _ => exact hc.elim

end Call

/-! ### Fencing -/

namespace TaskSys

variable {s s' : TaskSys}

/-- The invariant of every row of a reachable database. -/
def Inv (s : TaskSys) : Prop := ∀ k row, s.db.tasks k = some row → RowInv s.uuids s.now row

theorem inv_initial (h : Initial s) : Inv s := by
  intro k row hrow
  rw [h] at hrow; cases hrow

theorem inv_step {c : Call} (hs : Inv s) (h : lts.step s c s') : Inv s' := by
  intro k row hrow
  have := (rowStep h k).inv (now_le h) (hs k) row hrow
  rwa [h.2.2.2]

theorem inv_reachable (h : lts.Reachable Initial s) : Inv s :=
  h.invariant (fun _ => inv_initial) fun _ _ _ => inv_step

/-- The lease of the task `k`. -/
def lease (k : TaskKey) : Fence lts where
  holder s := (s.db.tasks k).bind (·.leaseOwner)
  supply s := s.uuids
  moves {s l s'} h := by
    refine ⟨(uuids_lt h).le, ?_⟩
    rcases (rowStep h k).holder with hk | hn | hu
    · exact .inl hk
    · exact .inr (.inl hn)
    · exact .inr (.inr ⟨hu, uuids_lt h⟩)

/-- **Lease fencing.**  In every reachable state of the task `k`:

* at most one token makes `renew`, `checkpoint`, `finish` or `bind_workspace` succeed;
* an unexpired lease exists only while the state is `running`;
* after a claim of `k` succeeds, or `k` is cancelled, no call that presents a token handed out
  before changes anything, however the run goes on. -/
theorem lease_fencing (hs : lts.Reachable Initial s) (k : TaskKey) :
    (∀ (c c' : Call) token token', c.presents = some (k, token) →
      c'.presents = some (k, token') → c.accepted s.db = true → c'.accepted s.db = true →
      token = token') ∧
    (∀ row, s.db.tasks k = some row → row.leased s.now = true → row.state = .running) ∧
    (∀ (c : Call) s₁ ls s₂, c.supersedes s.uuids s.db k → lts.step s c s₁ → lts.Run s₁ ls s₂ →
      ∀ (d : Call) token, d.presents = some (k, token) → token < s.uuids →
        d.perform s₂.uuids s₂.db = s₂.db) := by
  refine ⟨?_, fun row hrow => (inv_reachable hs k row hrow).running, ?_⟩
  · intro c c' token token' hp hp' hc hc'
    have h := Call.holder_of_accepted hp hc
    rw [Call.holder_of_accepted hp' hc'] at h
    exact (Option.some.inj h).symm
  · intro c s₁ ls s₂ hsup hstep hrun d token hd hlt
    have hat : (lease k).AtLeast s.uuids s₁ := by
      intro tok htok
      have hdb : s₁.db = c.perform s.uuids s.db := hstep.2.2.1
      rw [Call.holder_of_supersedes hsup
        (fun row hrow ht => ((inv_reachable hs k row hrow).ended ht).1) tok (hdb ▸ htok)]
    refine Call.perform_of_stale hd fun hhold => ?_
    exact absurd (Fence.stale hrun (Fence.supply_le (F := lease k) hstep) hat token hhold)
      (Nat.not_le.2 hlt)

/-- A claim of the task passes the tests that are not about its row. -/
structure Admits (env : Access) (k : TaskKey) : Prop where
  key : (k.2 ≠ "" && k.2.length ≤ 256) = true
  active : env.active = true
  backend : env.claimBackend = .ok ()

/-- A claim of one task, at time `t`. -/
def claimAt (t : Time) : Call := .claim {} "owner" "task" "goal" [] none none t t

/-- A worker that lost its task to another one saves its progress: nothing happens. -/
theorem lease_fencing_takeover :
    let s := (TaskSys.mk .empty 0 0).after (claimAt 0) 0
    let s' := s.after (claimAt 200) 200
    (Call.checkpoint {} "owner" "task" 0 .toolStarted { messages := [] } none 201).perform 2 s'.db
      = s'.db := by
  intro s s'
  have hs : lts.Reachable Initial s :=
    .step (.of_init (s := TaskSys.mk .empty 0 0) rfl) (step_after le_rfl (by decide))
  have hstep : lts.step s (claimAt 200) s' := step_after (t := 200) (by decide) (by decide)
  exact (lease_fencing hs ("owner", "task")).2.2 (claimAt 200) s' [] s' ⟨rfl, _, rfl⟩ hstep
    (.nil _) _ 0 rfl (by decide)

end TaskSys

end PythonAI
