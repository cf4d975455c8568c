import PythonAI.Temporal.Cancelled

/-!
# Fences for erasure

`prepare` fences a submission and its task for erasure: the task is cancelled, and its id cannot be
used again.  Only `prepare` writes fences (`Op.spares`), and every operation keeps them
(`Fences.step`).  Whatever would bind, submit, claim or act for a fenced task raises
(`Op.refused`), also when the rows of the task are gone.
-/

namespace PythonAI

open Library

namespace Temporal

/-! ### Backends -/

/-- `assert_claim_backend`, in the activity of the task `active` if there is one. -/
def assertClaimBackend (active : Option TaskKey) (k : TaskKey) (db : Db) : Except Error Unit := do
  assertNotErased k db
  ensure (!(db.bindings k = some .temporal && active ≠ some k))
    (.permission "Temporal task cannot be claimed by a legacy executor")

/-- A claim of `TaskStore` finds what `assert_claim_backend` says. -/
def Op.Backed (db : Db) : Op → Prop
  | .task (.claim env owner key ..) =>
    ∃ active, env.claimBackend = assertClaimBackend active (owner, key) db
  | _ => True

/-! ### Operations on a fenced task -/

/-- `submit` returns the submission of the task, or inserts one for a task that is not fenced. -/
theorem submit_inserts {env : Access} {owner : Owner} {task : TaskId} {messages : List Message}
    {context : Context} {role : String} {settings : Settings} {contract : Except Error Contract}
    {authorized : Except Error Unit} {criteria : Criteria} {u out : SubmissionId} {db db' : Db}
    (h : Store.submit env owner task messages context role settings contract authorized criteria u
      db = .ok (db', out)) :
    db.erased (owner, task) = none ∧
      (db' = db ∨ ∃ row new contracts protocols, row.taskKey = (owner, task) ∧
        row.state = .pending ∧
        db' = { db with
          base := { db.base with tasks := db.base.tasks.set row.taskKey new }
          submissions := db.submissions.set u row
          forTask := db.forTask.set row.taskKey u
          protocols := protocols
          contracts := contracts }) := by
  simp only [Store.submit, bind_eq_ok, assertNotErased, ensure_eq_ok, Option.isNone_iff_eq_none] at h
  obtain ⟨contract, -, latest, -, -, -, -, -, -, herased, -, -, h⟩ := h
  refine ⟨herased, ?_⟩
  split at h
  · simp only [bind_eq_ok, pure_eq_ok, Prod.mk.injEq] at h
    obtain ⟨row, -, -, -, -, -, rfl, -⟩ := h
    exact .inl rfl
  · simp only [bind_eq_ok, ensure_eq_ok, pure_eq_ok, Prod.mk.injEq] at h
    obtain ⟨-, -, -, -, -, -, -, -, rfl, -⟩ := h
    let row : Submission :=
      { owner := owner, task := task, scope := ⟨latest, context, role⟩, input := messages
        address := settings.address, space := settings.space
        queue := queueFor db.host settings.engine, state := .pending }
    exact .inr ⟨row, _, _, _, rfl, rfl, rfl⟩

/-- **Inversion of `prepare`.**  A submission that is not fenced is fenced with its task. -/
theorem prepareErasure_fences {env : Access} {key : SubmissionId} {row : Submission}
    {reason : String} {u : FenceId} {db db' : Db} {out : Unit}
    (h : prepareErasure env key row reason u db = .ok (db', out)) :
    ((db.erasures key).isSome ∧ db' = db) ∨
      db.erasures key = none ∧ db.erased row.taskKey = none ∧ db' = { db with
        erased := db.erased.set row.taskKey ()
        erasures := db.erasures.set key reason
        operations := fenceOperations (· = row.taskKey) db.operations
        submissions := db.submissions.update key (fun _ => true) fun row =>
          { row with state := .erasing, fence := some u }
        base := { db.base with
          tasks := db.base.tasks.update row.taskKey (fun _ => true) fun task =>
            { task.release with state := .cancelled, phase := .temporalErasing } } } := by
  simp only [prepareErasure, bind_eq_ok] at h
  obtain ⟨-, -, h⟩ := h
  split_ifs at h with hold
  · simp only [pure_eq_ok, Prod.mk.injEq] at h
    exact .inl ⟨hold, h.1.symm⟩
  · simp only [bind_eq_ok, ensure_eq_ok, Option.isNone_iff_eq_none, pure_eq_ok, Prod.mk.injEq] at h
    obtain ⟨-, -, -, hfree, rfl, -⟩ := h
    exact .inr ⟨by simpa using hold, hfree, rfl⟩

/-! ### What the operations leave -/

/-- The operation may insert the row of the task `k`. -/
def Op.creates (k : TaskKey) : Op → Prop
  | .submit _ owner taskId .. | .task (.claim _ owner taskId ..) => (owner, taskId) = k
  | _ => False

section

variable {o : Op} {u : Token} {db db' : Db} {k : TaskKey}

theorem update_none {t : Table TaskKey TaskRow} {k' : TaskKey} {p : TaskRow → Bool}
    {f : TaskRow → TaskRow} (h : t k = none) : t.update k' p f k = none := by
  rw [Table.update_apply, h]
  rfl

/-- Only a claim inserts a task. -/
theorem Call.uncreated {db : TaskDb} (call : Call) (hk : db.tasks k = none)
    (hc : ¬ Op.creates k (.task call)) : (call.perform u db).tasks k = none := by
  cases call with
  | claim env owner key goal messages episode criteria t₁ t₂ =>
    have hne : k ≠ (owner, key) := fun heq => hc heq.symm
    refine settle_of (P := fun db' : TaskDb => db'.tasks k = none) hk fun db' a h => ?_
    rcases TaskStore.claim_ok h with ⟨row, -, -, hdb, -⟩ | ⟨-, -, rfl⟩ | ⟨row, -, -, -, -, -, rfl⟩ |
      ⟨row, -, -, -, -, -, -, -, -, rfl⟩
    · rw [hdb]
      exact hk
    all_goals exact (Table.set_of_ne _ _ _ hne).trans hk
  | renew | markUncertain | cancel => exact update_none hk
  | checkpoint env owner key token phase data step t =>
    refine settle_of (P := fun db' : TaskDb => db'.tasks k = none) hk fun db' a h => ?_
    obtain ⟨-, rfl⟩ := TaskStore.checkpoint_ok h
    exact update_none hk
  | finish env owner key token state reply t =>
    refine settle_of (P := fun db' : TaskDb => db'.tasks k = none) hk fun db' a h => ?_
    obtain ⟨-, rfl⟩ := TaskStore.finish_ok h
    exact update_none hk
  | answer env owner key text =>
    refine settle_of (P := fun db' : TaskDb => db'.tasks k = none) hk fun db' a h => ?_
    obtain ⟨row, call, hrow, -, -, rfl⟩ := TaskStore.answer_ok h
    refine (Table.set_of_ne _ _ _ ?_).trans hk
    rintro rfl
    rw [hk] at hrow
    cases hrow
  | resolve env owner key callId text =>
    refine settle_of (P := fun db' : TaskDb => db'.tasks k = none) hk fun db' a h => ?_
    obtain ⟨row, step, hrow, -, -, -, -, rfl⟩ := TaskStore.resolve_ok h
    refine (Table.set_of_ne _ _ _ ?_).trans hk
    rintro rfl
    rw [hk] at hrow
    cases hrow
  | cancelSession owner t =>
    show db.tasks.updateWhere (fun k row => k.1 = owner && !row.state.terminal)
      (TaskStore.stop "Session cleared") k = none
    rw [Table.updateWhere_apply, hk]
    rfl
  | bindWorkspace env owner key token repository storage =>
    refine settle_of (P := fun db' : TaskDb => db'.tasks k = none) hk fun db' a h => ?_
    rw [(TaskStore.bindWorkspace_ok h).1]
    exact hk

/-- The operation leaves the fences for erasure, and inserts no task but its own. -/
structure Spares (o : Op) (db db' : Db) : Prop where
  /-- `temporal_erased_tasks` -/
  erased : db'.erased = db.erased
  /-- `temporal_erasures` -/
  erasures : db'.erasures = db.erasures
  tasks : ∀ k, db.task k = none → ¬ o.creates k → db'.task k = none
  /-- the index: only a task that is not fenced gets a submission -/
  index : ∀ k key, db'.forTask k = some key → db.forTask k = some key ∨ db.erased k = none

theorem Spares.quiet (herased : db'.erased = db.erased) (herasures : db'.erasures = db.erasures)
    (hbase : db'.base = db.base) (hindex : db'.forTask = db.forTask) : Spares o db db' :=
  ⟨herased, herasures, fun k hk _ => by rw [Db.task, hbase]; exact hk,
    fun k key hk => .inl (hindex ▸ hk)⟩

theorem StepStore.Committed.spares {l : Ledger} {cursor out : Cursor} {fence : Option FenceId}
    {run : StepRun} {value : Snapshot} {v : Token} {db₁ : Db} (h : Spares o db db₁)
    (hc : StepStore.Committed l cursor fence v db₁ db' out run value) : Spares o db db' := by
  obtain ⟨answers, rfl⟩ := hc.db_eq
  exact ⟨h.erased, h.erasures, h.tasks, h.index⟩

/-- **Every operation but `prepare` leaves the fences.** -/
theorem Op.spares (h : o.attempt u db = .ok db') (ho : o.erases = false) : Spares o db db' := by
  cases o with
  | task call =>
    cases h
    refine ⟨?_, ?_, fun k hk hc => ?_, fun k key hk => .inl ?_⟩
    · cases call <;> rfl
    · cases call <;> rfl
    · rw [Db.task, performTask_base]
      exact Call.uncreated call hk hc
    · cases call <;> exact hk
  | bind env owner task requested admitted =>
    obtain ⟨out, h⟩ := outcome_eq_ok.1 h
    obtain ⟨bindings, rfl⟩ := Store.bind_ok h
    exact .quiet rfl rfl rfl rfl
  | submit env owner task messages context role settings contract authorized criteria =>
    obtain ⟨out, h⟩ := outcome_eq_ok.1 h
    obtain ⟨herased, rfl | ⟨row, new, contracts, protocols, hkey, -, rfl⟩⟩ := submit_inserts h
    · exact .quiet rfl rfl rfl rfl
    · refine ⟨rfl, rfl, fun k hk hc => (Table.set_of_ne _ _ _ fun heq => hc
        (hkey.symm.trans heq.symm)).trans hk, fun k key hk => ?_⟩
      replace hk : db.forTask.set row.taskKey u k = some key := hk
      rw [Table.set_apply] at hk
      split_ifs at hk with heq
      · exact .inr (heq ▸ hkey ▸ herased)
      · exact .inl hk
  | dispatched key error =>
    cases h
    exact .quiet rfl rfl rfl rfl
  | claim env key settings =>
    obtain ⟨out, h⟩ := outcome_eq_ok.1 h
    obtain ⟨row, -, -, rfl⟩ := Store.claim_ok h
    exact .quiet rfl rfl rfl rfl
  | finish env key fence state result =>
    obtain ⟨out, h⟩ := outcome_eq_ok.1 h
    obtain ⟨row, -, -, rfl⟩ := Store.finish_ok h
    exact .quiet rfl rfl rfl rfl
  | cancel key owner =>
    obtain ⟨out, h⟩ := outcome_eq_ok.1 h
    obtain ⟨row, -, -, rfl⟩ := Store.cancel_ok h
    exact ⟨rfl, rfl, fun k hk _ => update_none hk, fun k key hk => .inl hk⟩
  | workflowFailed key owner error =>
    obtain ⟨out, h⟩ := outcome_eq_ok.1 h
    obtain rfl | ⟨k', reply, row, rfl⟩ := Store.workflowFailed_ok h
    · exact .quiet rfl rfl rfl rfl
    · exact ⟨rfl, rfl, fun k hk _ => update_none hk, fun k key hk => .inl hk⟩
  | failBudgetBeforeStart key owner =>
    obtain ⟨out, h⟩ := outcome_eq_ok.1 h
    obtain ⟨k', rfl | ⟨result, reply, rfl⟩⟩ := Store.failBudgetBeforeStart_ok h
    · exact .quiet rfl rfl rfl rfl
    · exact ⟨rfl, rfl, fun k hk _ => update_none hk, fun k key hk => .inl hk⟩
  | prepare env c l step kind arguments =>
    obtain ⟨out, h⟩ := outcome_eq_ok.1 h
    obtain ⟨-, -, ⟨-, rfl, -⟩ | ⟨-, -, -, rfl⟩⟩ := Ledger.prepare_ok h <;> exact .quiet rfl rfl rfl rfl
  | start env c l step =>
    obtain ⟨out, h⟩ := outcome_eq_ok.1 h
    obtain ⟨-, -, ⟨-, -, rfl⟩ | ⟨row, -, -, -, rfl, rfl⟩⟩ := Ledger.claim_ok h <;>
      exact .quiet rfl rfl rfl rfl
  | uncertain env c l step fence =>
    obtain ⟨out, h⟩ := outcome_eq_ok.1 h
    obtain ⟨-, -, rfl⟩ := Ledger.uncertain_ok h
    exact .quiet rfl rfl rfl rfl
  | reject env c l step =>
    obtain ⟨out, h⟩ := outcome_eq_ok.1 h
    obtain ⟨-, -, rfl⟩ := Ledger.reject_ok h
    exact .quiet rfl rfl rfl rfl
  | complete env c l step fence result evidence =>
    obtain ⟨out, h⟩ := outcome_eq_ok.1 h
    obtain ⟨-, -, row, -, -, -, -, rfl⟩ := Ledger.complete_ok h
    exact .quiet rfl rfl rfl rfl
  | bootstrapClaim env key settings =>
    obtain ⟨out, h⟩ := outcome_eq_ok.1 h
    obtain ⟨row, -, -, rfl | ⟨-, rfl⟩⟩ := StepStore.bootstrapClaim_ok h <;> exact .quiet rfl rfl rfl rfl
  | bootstrap env c l key =>
    obtain ⟨out, h⟩ := outcome_eq_ok.1 h
    obtain ⟨-, -, ⟨-, -, -, rfl⟩ | ⟨value, -, -, -, rfl⟩⟩ := StepStore.bootstrap_ok h <;>
      exact .quiet rfl rfl rfl rfl
  | claimStep env c l cursor =>
    obtain ⟨out, h⟩ := outcome_eq_ok.1 h
    obtain ⟨-, -, run, -, ⟨-, rfl, -⟩ | ⟨-, -, rfl⟩⟩ := StepStore.claim_ok h <;>
      exact .quiet rfl rfl rfl rfl
  | commit env c l cursor fence kind t =>
    obtain ⟨out, h⟩ := outcome_eq_ok.1 h
    obtain ⟨-, -, run, -, ⟨-, rfl, -⟩ | ⟨value, hdone⟩⟩ := StepStore.commit_ok h
    · exact .quiet rfl rfl rfl rfl
    · exact hdone.spares (.quiet rfl rfl rfl rfl)
  | recover env c l cursor t =>
    obtain ⟨out, h⟩ := outcome_eq_ok.1 h
    obtain ⟨-, -, run, -, ⟨-, rfl, -⟩ | ⟨-, rfl, -⟩ | ⟨value, db₁, hdb₁, hdone⟩ |
      ⟨task, operation, -, -, -, -, -, rfl⟩⟩ := StepStore.recover_ok h
    · exact .quiet rfl rfl rfl rfl
    · exact .quiet rfl rfl rfl rfl
    · refine hdone.spares ?_
      rcases hdb₁ with rfl | rfl
      · exact .quiet rfl rfl rfl rfl
      · exact ⟨rfl, rfl, fun k hk _ => update_none hk, fun k key hk => .inl hk⟩
    · exact ⟨rfl, rfl, fun k hk _ => update_none hk, fun k key hk => .inl hk⟩
  | human env c l cursor t₁ t₂ =>
    obtain ⟨out, h⟩ := outcome_eq_ok.1 h
    obtain ⟨-, -, -, run, -, ⟨-, rfl, -⟩ | ⟨-, rfl, -⟩ | ⟨task, task', value, db₁, db₂, answers,
      -, htask, -, -, -, rfl, hdone, rfl⟩⟩ := StepStore.human_ok h
    · exact .quiet rfl rfl rfl rfl
    · exact .quiet rfl rfl rfl rfl
    · have hset : Spares (o := .human env c l cursor t₁ t₂) db db₂ := by
        refine StepStore.Committed.spares ?_ hdone
        refine ⟨rfl, rfl, fun k hk _ => ?_, fun k key hk => .inl hk⟩
        have hne : k ≠ l.taskKey := by
          rintro rfl
          rw [hk] at htask
          cases htask
        exact (Table.set_of_ne db.base.tasks _ _ hne).trans hk
      exact ⟨hset.erased, hset.erasures, hset.tasks, hset.index⟩
  | answer env key owner callId text revision t =>
    obtain ⟨out, h⟩ := outcome_eq_ok.1 h
    obtain ⟨-, answers, rfl⟩ := Decisions.answer_ok h
    exact .quiet rfl rfl rfl rfl
  | append env c key row eventKey kind payload terminal budget =>
    obtain ⟨out, h⟩ := outcome_eq_ok.1 h
    obtain ⟨-, events, rfl⟩ := append_ok h
    exact .quiet rfl rfl rfl rfl
  | finalized key =>
    cases h
    exact .quiet rfl rfl rfl rfl
  | erase => cases ho

end

/-- The task is not there, or it is cancelled and nobody holds its lease. -/
def Idle (r : Option TaskRow) : Prop :=
  ∀ row, r = some row → row.state = .cancelled ∧ row.leaseOwner = none

/-- The operation binds, submits or claims the task `k`, or acts for it or for the submission
`key`. -/
def Op.uses (db : Db) (key : SubmissionId) (k : TaskKey) : Op → Prop
  | .bind _ owner taskId .. | .submit _ owner taskId .. | .task (.claim _ owner taskId ..) =>
    (owner, taskId) = k
  | .claim _ key' _ | .finish _ key' .. | .bootstrapClaim _ key' _ | .answer _ key' .. => key' = key
  | o => o.acts db k

/-- The operation raises. -/
def Op.Raises (u : Token) (db : Db) : Op → Prop
  | .task (.claim env owner key goal messages episode criteria t₁ t₂) =>
    ∃ e, TaskStore.claim env owner key goal messages episode criteria u t₁ t₂ db.base = .error e
  | o => ∃ e, o.attempt u db = .error e

section

variable {o : Op} {u : Token} {db db' : Db} {k : TaskKey}

theorem assertNotErased_ne (herased : (db.erased k).isSome) : assertNotErased k db ≠ .ok () := by
  rw [assertNotErased, Ne, ensure_eq_ok, Option.isNone_iff_eq_none]
  exact Option.isSome_iff_ne_none.1 herased

/-- No legacy claim of a task that is fenced. -/
theorem Op.claim_refused {env : Access} {owner : Owner} {key : TaskId} {goal : String}
    {messages : List Message} {episode : Option ℕ} {criteria : Option Criteria} {t₁ t₂ : Time}
    (herased : (db.erased (owner, key)).isSome)
    (hb : (Op.task (.claim env owner key goal messages episode criteria t₁ t₂)).Backed db) :
    (Op.task (.claim env owner key goal messages episode criteria t₁ t₂)).Raises u db := by
  obtain ⟨active, hactive⟩ := hb
  cases hr : TaskStore.claim env owner key goal messages episode criteria u t₁ t₂ db.base with
  | error e => exact ⟨e, hr⟩
  | ok x =>
    simp only [TaskStore.claim, bind_eq_ok, hactive, assertClaimBackend] at hr
    obtain ⟨_, _, _, _, _, ⟨_, hfree, _⟩, _⟩ := hr
    exact absurd hfree (assertNotErased_ne herased)

/-- An operation that raises changes nothing. -/
theorem Op.Raises.perform (h : o.Raises u db) : o.perform u db = db := by
  have raised : (∃ e, o.attempt u db = .error e) → o.perform u db = db := by
    rintro ⟨e, he⟩
    rw [Op.perform, he, commit_error]
  cases o with
  | task call =>
    cases call with
    | claim env owner key goal messages episode criteria t₁ t₂ =>
      obtain ⟨e, he⟩ := h
      show { db with base := settle db.base _ } = db
      rw [he]
      rfl
    | _ => exact raised h
  | _ => exact raised h

variable {key : SubmissionId}

/-- **Nothing uses a task that is fenced for erasure**, and not once its row is deleted either. -/
theorem Op.refused (herased : (db.erased k).isSome) (hidle : Idle (db.task k))
    (hkey : ∀ row, db.submissions key = some row → row.taskKey = k)
    (hb : o.Backed db) (h : o.uses db key k) : o.Raises u db := by
  -- Whatever acts for the task would find it open.
  have raises : (∀ db', o.attempt u db = .ok db' → o.acts db k) → ∃ e, o.attempt u db = .error e := by
    intro hacts
    cases hr : o.attempt u db with
    | error e => exact ⟨e, rfl⟩
    | ok db' =>
      obtain ⟨row, hrow, hopen⟩ := Op.acts_found hr (hacts db' hr)
      exact absurd (hidle row hrow).1 hopen
  cases o with
  | bind env owner taskId requested admitted =>
    refine raises fun db' hok => ?_
    obtain ⟨out, hok⟩ := outcome_eq_ok.1 hok
    simp only [Store.bind, bind_eq_ok] at hok
    obtain ⟨_, _, _, _, _, hfree, _⟩ := hok
    exact absurd (h ▸ hfree) (assertNotErased_ne herased)
  | submit env owner taskId messages context role settings contract authorized criteria =>
    refine raises fun db' hok => ?_
    obtain ⟨out, hok⟩ := outcome_eq_ok.1 hok
    exact absurd (h ▸ (submit_inserts hok).1) (Option.isSome_iff_ne_none.1 herased)
  | task call =>
    cases call with
    | claim => exact Op.claim_refused (h ▸ herased) hb
    | _ => exact h.elim
  | claim env key' settings =>
    refine raises fun db' hok => ?_
    obtain ⟨out, hok⟩ := outcome_eq_ok.1 hok
    obtain ⟨row, hrow, -⟩ := Store.claim_ok hok
    exact ⟨row, hrow, hkey row (h ▸ hrow)⟩
  | finish env key' fence state result =>
    refine raises fun db' hok => ?_
    obtain ⟨out, hok⟩ := outcome_eq_ok.1 hok
    obtain ⟨row, hrow, -⟩ := Store.finish_ok hok
    exact ⟨row, hrow, hkey row (h ▸ hrow)⟩
  | bootstrapClaim env key' settings =>
    refine raises fun db' hok => ?_
    obtain ⟨out, hok⟩ := outcome_eq_ok.1 hok
    obtain ⟨row, hrow, -⟩ := StepStore.bootstrapClaim_ok hok
    exact ⟨row, hrow, hkey row (h ▸ hrow)⟩
  | answer env key' owner callId text revision t =>
    refine raises fun db' hok => ?_
    obtain ⟨out, hok⟩ := outcome_eq_ok.1 hok
    obtain ⟨⟨row, task, hrow, -⟩, -⟩ := Decisions.answer_ok hok
    exact ⟨row, hrow, hkey row (h ▸ hrow)⟩
  | _ => exact raises fun _ _ => h

end

/-! ### The fences -/

/-- What the fences say of the database. -/
structure Fences (s : Sys) : Prop where
  /-- the ids of fenced submissions were drawn -/
  drawn : ∀ key, (s.db.erasures key).isSome → key < s.uuids
  /-- a fenced submission is `erasing` -/
  erasing : ∀ key row, s.db.submissions key = some row → (s.db.erasures key).isSome →
    row.state = .erasing
  /-- its task is fenced -/
  erased : ∀ key row, s.db.submissions key = some row → (s.db.erasures key).isSome →
    (s.db.erased row.taskKey).isSome
  /-- a task that is fenced has no other submission -/
  index : ∀ k key, (s.db.erased k).isSome → s.db.forTask k = some key →
    (s.db.erasures key).isSome
  /-- a task that is fenced is idle -/
  idle : ∀ k, (s.db.erased k).isSome → Idle (s.db.task k)

section

variable {s s' : Sys} {o : Op} {k : TaskKey}

theorem Fences.initial (h : s.Initial) : Fences s := by
  obtain ⟨host, h⟩ := h
  refine ⟨?_, ?_, ?_, ?_, ?_⟩ <;> rw [h] <;> intros <;> simp_all [Db.empty]

theorem Idle.stays {r r' : Option TaskRow} (h : Idle r) (hstays : Stays r r')
    (hnone : r = none → r' = none) : Idle r' := by
  intro row' hrow'
  cases hr : r with
  | none =>
    rw [hnone hr] at hrow'
    cases hrow'
  | some row =>
    obtain ⟨row₁, hrow₁, hstate, hfree⟩ :=
      hstays ⟨row, hr, (h row hr).1, (h row hr).2⟩
    rw [hrow'] at hrow₁
    cases hrow₁
    exact ⟨hstate, hfree⟩

/-- Nobody takes the id of a submission, when that is gone either. -/
theorem Indexed.row_kept (hi : Indexed s) (h : Sys.lts.step s o s')
    {key : SubmissionId} (hkey : key < s.uuids) {row' : Submission}
    (hrow' : s'.db.submissions key = some row') :
    ∃ row, s.db.submissions key = some row ∧ Kept o row row' := by
  cases hrow : s.db.submissions key with
  | some row =>
    obtain ⟨row₁, hrow₁, hkept⟩ := hi.kept h hrow
    rw [hrow'] at hrow₁
    cases hrow₁
    exact ⟨row, rfl, hkept⟩
  | none =>
    cases h
    refine absurd hrow' ?_
    show (commit s.db (o.attempt s.uuids s.db)).submissions key ≠ some row'
    refine commit_of (P := fun db : Db => db.submissions key ≠ some row') (by simp [hrow])
      fun db' hok => ?_
    rcases Op.moves hok with ⟨-, hmoves⟩ | ⟨new, -, -, hsubs⟩
    · rcases hmoves key with ⟨-, hnone⟩ | ⟨row₁, row₂, hrow₁, -⟩
      · rw [hnone]
        simp
      · rw [hrow] at hrow₁
        cases hrow₁
    · rw [hsubs, Table.set_of_ne _ _ _ hkey.ne, hrow]
      simp

theorem set_isSome {K V : Type} [DecidableEq K] {t : Table K V} {k k' : K} {v : V}
    (h : (t k').isSome) : ((t.set k v) k').isSome := by
  rw [Table.set_apply]
  split_ifs
  · rfl
  · exact h

/-- Nothing inserts a task that is fenced. -/
theorem Op.uncreated {u : Token} {db : Db} (herased : (db.erased k).isSome) (hb : o.Backed db)
    (h : o.creates k) : o.perform u db = db := by
  refine Op.Raises.perform ?_
  cases o with
  | submit env owner taskId messages context role settings contract authorized criteria =>
    cases hr : (Op.submit env owner taskId messages context role settings contract authorized
      criteria).attempt u db with
    | error e => exact ⟨e, hr⟩
    | ok db' =>
      obtain ⟨out, hok⟩ := outcome_eq_ok.1 hr
      exact absurd (h ▸ (submit_inserts hok).1) (Option.isSome_iff_ne_none.1 herased)
  | task call =>
    cases call with
    | claim => exact Op.claim_refused (h ▸ herased) hb
    | _ => exact h.elim
  | _ => exact h.elim

/-- An operation that fences nothing keeps the fences. -/
theorem Fences.spared (hf : Fences s) (hi : Indexed s) (h : Sys.lts.step s o s')
    (hb : o.Backed s.db) (ho : o.erases = false) (hok : o.attempt s.uuids s.db = .ok s'.db) :
    Fences s' := by
  have hsp := Op.spares hok ho
  have huuids : s.uuids ≤ s'.uuids := by
    cases h
    exact Nat.le_add_right ..
  have hkept : ∀ key row', s'.db.submissions key = some row' → (s'.db.erasures key).isSome →
      (s.db.erasures key).isSome ∧ ∃ row, s.db.submissions key = some row ∧ Kept o row row' := by
    intro key row' hrow' hkey
    rw [hsp.erasures] at hkey
    exact ⟨hkey, hi.row_kept h (hf.drawn key hkey) hrow'⟩
  refine ⟨fun key hkey => ?_, fun key row' hrow' hkey => ?_, fun key row' hrow' hkey => ?_,
    fun k key hk hfor => ?_, fun k hk => ?_⟩
  · rw [hsp.erasures] at hkey
    exact (hf.drawn key hkey).trans_le huuids
  · obtain ⟨hkey, row, hrow, hkept⟩ := hkept key row' hrow' hkey
    have hstate := hf.erasing key row hrow hkey
    rcases hkept.halted (by rw [hstate]; rfl) with hsame | ⟨-, herasing⟩
    · rw [hsame, hstate]
    · exact herasing
  · obtain ⟨hkey, row, hrow, hkept⟩ := hkept key row' hrow' hkey
    rw [hsp.erased, hkept.taskKey]
    exact hf.erased key row hrow hkey
  · rw [hsp.erased] at hk
    rw [hsp.erasures]
    rcases hsp.index k key hfor with hfor | hnone
    · exact hf.index k key hk hfor
    · rw [hnone] at hk
      cases hk
  · rw [hsp.erased] at hk
    refine (hf.idle k hk).stays (Op.stays hok k) fun hnone => ?_
    by_cases hc : o.creates k
    · have hsame := Op.uncreated (u := s.uuids) hk hb hc
      rw [Op.perform, hok, commit_ok] at hsame
      rw [hsame]
      exact hnone
    · exact hsp.tasks k hnone hc

/-- The fences of `prepare`. -/
theorem Fences.fenced (hf : Fences s) (hi : Indexed s) {key : SubmissionId} {row : Submission}
    (hrow : s.db.submissions key = some row) {reason : String} {u : FenceId} {db' : Db}
    (hdb : db' = { s.db with
      erased := s.db.erased.set row.taskKey ()
      erasures := s.db.erasures.set key reason
      operations := fenceOperations (· = row.taskKey) s.db.operations
      submissions := s.db.submissions.update key (fun _ => true) fun row =>
        { row with state := .erasing, fence := some u }
      base := { s.db.base with
        tasks := s.db.base.tasks.update row.taskKey (fun _ => true) fun task =>
          { task.release with state := .cancelled, phase := .temporalErasing } } })
    {n : ℕ} (hn : s.uuids ≤ n) : Fences ⟨db', n⟩ := by
  subst hdb
  have erasure : ∀ key', ((s.db.erasures.set key reason) key').isSome →
      key' = key ∨ (s.db.erasures key').isSome := by
    intro key' h
    by_cases hk : key' = key
    · exact .inl hk
    · rw [Table.set_of_ne _ _ _ hk] at h
      exact .inr h
  have rows : ∀ key' row', (s.db.submissions.update key (fun _ => true) fun row =>
      { row with state := .erasing, fence := some u }) key' = some row' →
      ∃ row, s.db.submissions key' = some row ∧ row'.taskKey = row.taskKey ∧
        (row'.state = .erasing ∨ key' ≠ key ∧ row' = row) := by
    intro key' row' h
    by_cases hk : key' = key
    · subst hk
      rw [Table.update_same, hrow] at h
      cases h
      exact ⟨row, hrow, rfl, .inl rfl⟩
    · rw [Table.update_of_ne _ _ _ _ hk] at h
      exact ⟨row', h, rfl, .inr ⟨hk, rfl⟩⟩
  refine ⟨fun key' h => ?_, fun key' row' hrow' h => ?_, fun key' row' hrow' h => ?_,
    fun k key' h hfor => ?_, fun k h => ?_⟩
  · rcases erasure key' h with rfl | h
    · exact (hi.drawn key' row hrow).trans_le hn
    · exact (hf.drawn key' h).trans_le hn
  · obtain ⟨row₁, hrow₁, -, hstate | ⟨hne, rfl⟩⟩ := rows key' row' hrow'
    · exact hstate
    · exact hf.erasing key' row' hrow₁ ((erasure key' h).resolve_left hne)
  · obtain ⟨row₁, hrow₁, htask, -⟩ := rows key' row' hrow'
    rw [htask]
    rcases erasure key' h with rfl | h
    · rw [hrow] at hrow₁
      cases hrow₁
      exact congrArg Option.isSome (Table.set_same ..)
    · exact set_isSome (hf.erased key' row₁ hrow₁ h)
  · show ((s.db.erasures.set key reason) key').isSome
    rw [Table.set_apply]
    split_ifs with hne
    · rfl
    · -- The index names one submission of the task.
      refine hf.index k key' ?_ hfor
      by_cases hk : k = row.taskKey
      · have hnamed := hi.named key row hrow
        rw [← hk] at hnamed
        exact absurd (Option.some.inj (hfor.symm.trans hnamed)) hne
      · replace h : ((s.db.erased.set row.taskKey ()) k).isSome := h
        rwa [Table.set_of_ne _ _ _ hk] at h
  · show Idle ((s.db.base.tasks.update row.taskKey (fun _ => true) fun task =>
      { task.release with state := .cancelled, phase := .temporalErasing }) k)
    by_cases hk : k = row.taskKey
    · subst hk
      rw [Table.update_same]
      intro row' hrow'
      obtain ⟨row₁, -, rfl⟩ := Option.map_eq_some_iff.1 hrow'
      exact ⟨rfl, rfl⟩
    · rw [Table.update_of_ne _ _ _ _ hk]
      replace h : ((s.db.erased.set row.taskKey ()) k).isSome := h
      rw [Table.set_of_ne _ _ _ hk] at h
      exact hf.idle k h

/-- What a step keeps of the fences. -/
structure Holds (s s' : Sys) : Prop where
  /-- ids are drawn -/
  uuids : s.uuids ≤ s'.uuids
  /-- a fence of a submission -/
  erasures : ∀ key, (s.db.erasures key).isSome → (s'.db.erasures key).isSome
  /-- a fence of a task -/
  erased : ∀ k, (s.db.erased k).isSome → (s'.db.erased k).isSome
  /-- nobody takes an id that was drawn -/
  rows : ∀ key row', key < s.uuids → s'.db.submissions key = some row' →
    ∃ row, s.db.submissions key = some row ∧ row'.taskKey = row.taskKey
  /-- nobody takes a task that is fenced -/
  index : ∀ k key, (s.db.erased k).isSome → s'.db.forTask k = some key →
    s.db.forTask k = some key

theorem Holds.trans {s₁ s₂ s₃ : Sys} (h : Holds s₁ s₂) (h' : Holds s₂ s₃) : Holds s₁ s₃ where
  uuids := h.uuids.trans h'.uuids
  erasures key hkey := h'.erasures key (h.erasures key hkey)
  erased k hk := h'.erased k (h.erased k hk)
  rows key row'' hkey hrow'' := by
    obtain ⟨row', hrow', htask'⟩ := h'.rows key row'' (hkey.trans_le h.uuids) hrow''
    obtain ⟨row, hrow, htask⟩ := h.rows key row' hkey hrow'
    exact ⟨row, hrow, htask'.trans htask⟩
  index k key hk hfor := h.index k key hk (h'.index k key (h.erased k hk) hfor)

theorem Holds.of_db (hdb : s'.db = s.db) (h : s.uuids ≤ s'.uuids) : Holds s s' :=
  ⟨h, fun _ hkey => hdb ▸ hkey, fun _ hk => hdb ▸ hk,
    fun _ row' _ hrow' => ⟨row', hdb ▸ hrow', rfl⟩, fun _ _ _ hfor => hdb ▸ hfor⟩

theorem Fences.of_db (hf : Fences s) (hdb : s'.db = s.db) (h : s.uuids ≤ s'.uuids) : Fences s' := by
  obtain ⟨hdrawn, herasing, herased, hindex, hidle⟩ := hf
  rw [← hdb] at hdrawn herasing herased hindex hidle
  exact ⟨fun key hkey => (hdrawn key hkey).trans_le h, herasing, herased, hindex, hidle⟩

/-- **Every operation keeps the fences**, and fences submissions that are there. -/
theorem Fences.step (hf : Fences s) (hi : Indexed s) (h : Sys.lts.step s o s')
    (hb : o.Backed s.db) : Fences s' ∧ Holds s s' ∧
      ∀ key, (s'.db.erasures key).isSome → (s.db.erasures key).isSome ∨
        (s.db.submissions key).isSome := by
  have huuids : s.uuids ≤ s'.uuids := by
    cases h
    exact Nat.le_add_right ..
  have rows : ∀ key row', key < s.uuids → s'.db.submissions key = some row' →
      ∃ row, s.db.submissions key = some row ∧ row'.taskKey = row.taskKey := by
    intro key row' hkey hrow'
    obtain ⟨row, hrow, hkept⟩ := hi.row_kept h hkey hrow'
    exact ⟨row, hrow, hkept.taskKey⟩
  have hdb : s'.db = commit s.db (o.attempt s.uuids s.db) := by
    cases h
    rfl
  cases hok : o.attempt s.uuids s.db with
  | error e =>
    rw [hok, commit_error] at hdb
    exact ⟨hf.of_db hdb huuids, .of_db hdb huuids, fun key hkey => .inl (hdb ▸ hkey)⟩
  | ok db' =>
    rw [hok, commit_ok] at hdb
    by_cases ho : o.erases = false
    · have hsp := Op.spares hok ho
      rw [← hdb] at hok hsp
      refine ⟨hf.spared hi h hb ho hok, ⟨huuids, fun key hkey => hsp.erasures ▸ hkey,
        fun k hk => hsp.erased ▸ hk, rows, fun k key hk hfor => ?_⟩,
        fun key hkey => .inl (hsp.erasures ▸ hkey)⟩
      rcases hsp.index k key hfor with hfor | hnone
      · exact hfor
      · rw [hnone] at hk
        cases hk
    · cases o with
      | erase env key reason =>
        simp only [Op.attempt, bind_eq_ok] at hok
        obtain ⟨row, hget, hok⟩ := hok
        obtain ⟨out, hok⟩ := outcome_eq_ok.1 hok
        rcases prepareErasure_fences hok with ⟨-, hsame⟩ | ⟨-, -, heq⟩
        · rw [hsame] at hdb
          exact ⟨hf.of_db hdb huuids, .of_db hdb huuids, fun key hkey => .inl (hdb ▸ hkey)⟩
        · have hrow := (get_ok hget).1
          have hf' := hf.fenced hi hrow heq huuids
          rw [← hdb] at hf'
          refine ⟨hf', ⟨huuids, fun key' h => ?_, fun k h => ?_, rows, fun k key' _ hfor => ?_⟩,
            fun key' h => ?_⟩
          · rw [hdb, heq]
            exact set_isSome h
          · rw [hdb, heq]
            exact set_isSome h
          · rw [hdb, heq] at hfor
            exact hfor
          · by_cases hk : key' = key
            · exact .inr (hk ▸ hrow ▸ rfl)
            · rw [hdb, heq] at h
              replace h : ((s.db.erasures.set key reason) key').isSome := h
              rw [Table.set_of_ne _ _ _ hk] at h
              exact .inl h
      | _ => exact absurd rfl ho

end

end Temporal

end PythonAI
