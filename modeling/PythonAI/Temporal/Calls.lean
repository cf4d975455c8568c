import PythonAI.Library.Lts
import PythonAI.Tasks.Calls
import PythonAI.Temporal.Effects

/-!
# The Temporal backend under any sequence of operations

Workers, activities, workflows, humans and the retention job perform the operations of `TaskStore`,
`Store`, `Ledger`, `StepStore`, `Decisions`, `publication` and `retention` in any order, each one
transaction.  The clock values of the operations are arbitrary: nothing below depends on them.
-/

namespace PythonAI

open Library

namespace Temporal

/-- An operation, with what it reads outside the database. -/
inductive Op
  /-- an operation of `TaskStore` -/
  | task (call : Call)
  | bind (env : Access) (owner : Owner) (task : TaskId) (requested : Option Backend)
      (admitted : Except Error Backend)
  | submit (env : Access) (owner : Owner) (task : TaskId) (messages : List Message)
      (context : Context) (role : String) (settings : Settings)
      (contract : Except Error Contract) (authorized : Except Error Unit) (criteria : Criteria)
  | dispatched (key : SubmissionId) (error : Option String)
  /-- `Store.claim` -/
  | claim (env : Access) (key : SubmissionId) (settings : Settings)
  /-- `Store.finish` -/
  | finish (env : Access) (key : SubmissionId) (fence : Option FenceId) (state : SubmissionState)
      (result : Outcome)
  /-- `Store.cancel` -/
  | cancel (key : SubmissionId) (owner : Owner)
  | workflowFailed (key : SubmissionId) (owner : Owner) (error : String)
  | failBudgetBeforeStart (key : SubmissionId) (owner : Owner)
  /-- `Ledger.prepare` -/
  | prepare (env : Access) (c : Caller) (l : Ledger) (step : String) (kind : Kind)
      (arguments : String)
  /-- `Ledger.claim` -/
  | start (env : Access) (c : Caller) (l : Ledger) (step : String)
  /-- `Ledger.uncertain` -/
  | uncertain (env : Access) (c : Caller) (l : Ledger) (step : String) (fence : Option FenceId)
  /-- `Ledger.reject` -/
  | reject (env : Access) (c : Caller) (l : Ledger) (step : String)
  /-- `Ledger.complete` -/
  | complete (env : Access) (c : Caller) (l : Ledger) (step : String) (fence : Option FenceId)
      (result evidence : Payload)
  | bootstrapClaim (env : Access) (key : SubmissionId) (settings : Settings)
  | bootstrap (env : Access) (c : Caller) (l : Ledger) (key : SubmissionId)
  /-- `StepStore.claim` -/
  | claimStep (env : Access) (c : Caller) (l : Ledger) (cursor : Cursor)
  /-- `StepStore.commit` -/
  | commit (env : Access) (c : Caller) (l : Ledger) (cursor : Cursor) (fence : Option FenceId)
      (kind : Kind) (t : Time)
  /-- `StepStore.recover` -/
  | recover (env : Access) (c : Caller) (l : Ledger) (cursor : Cursor) (t : Time)
  /-- `StepStore.human` -/
  | human (env : Access) (c : Caller) (l : Ledger) (cursor : Cursor) (t₁ t₂ : Time)
  /-- `Decisions.answer` -/
  | answer (env : Access) (key : SubmissionId) (owner : Owner) (callId text : String)
      (revision : ℕ) (t : Time)
  /-- `publication.append` -/
  | append (env : Access) (c : Caller) (key : SubmissionId) (row : Submission)
      (eventKey kind payload : String) (terminal : Bool) (budget : Except Error Unit)
  /-- the last statement of `publication.finalize` -/
  | finalized (key : SubmissionId)
  /-- `retention.prepare` -/
  | erase (env : Access) (key : SubmissionId) (reason : String)

/-- `TaskStore.cancel` and `cancel_session` request the cancellation of submissions in their
transaction. -/
def performTask (u : Token) (db : Db) (call : Call) : Db :=
  let db' := { db with base := call.perform u db.base }
  match call with
  | .cancel owner key => request (· = (owner, key)) db'
  | .cancelSession owner _ => request (·.1 = owner) db'
  | _ => db'

namespace Op

/-- The database that the operation commits; it draws `u` and `u + 1`. -/
def attempt (u : Token) (db : Db) : Op → Except Error Db
  | task call => .ok (performTask u db call)
  | bind env owner taskId requested admitted =>
    outcome (Store.bind env owner taskId requested admitted db)
  | submit env owner taskId messages context role settings contract authorized criteria =>
    outcome (Store.submit env owner taskId messages context role settings contract authorized
      criteria u db)
  | dispatched key error => .ok (Store.dispatched key error db)
  | claim env key settings => outcome (Store.claim env key settings u db)
  | finish env key fence state result => outcome (Store.finish env key fence state result db)
  | cancel key owner => outcome (Store.cancel key owner db)
  | workflowFailed key owner error => outcome (Store.workflowFailed key owner error db)
  | failBudgetBeforeStart key owner => outcome (Store.failBudgetBeforeStart key owner db)
  | prepare env c l step kind arguments => outcome (l.prepare env c step kind arguments db)
  | start env c l step => outcome (l.claim env c step u db)
  | uncertain env c l step fence => outcome (l.uncertain env c step fence db)
  | reject env c l step => outcome (l.reject env c step db)
  | complete env c l step fence result evidence =>
    outcome (l.complete env c step fence result evidence u (u + 1) db)
  | bootstrapClaim env key settings => outcome (StepStore.bootstrapClaim env key settings u db)
  | bootstrap env c l key => outcome (StepStore.bootstrap env c l key u db)
  | claimStep env c l cursor => outcome (StepStore.claim env c l cursor u db)
  | commit env c l cursor fence kind t =>
    outcome (StepStore.commit env c l cursor fence kind u t db)
  | recover env c l cursor t => outcome (StepStore.recover env c l cursor u t db)
  | human env c l cursor t₁ t₂ => outcome (StepStore.human env c l cursor u (u + 1) t₁ t₂ db)
  | answer env key owner callId text revision t =>
    outcome (Decisions.answer env key owner callId text revision t db)
  | append env c key row eventKey kind payload terminal budget =>
    outcome (Temporal.append env c key row eventKey kind payload terminal budget db)
  | finalized key => .ok (Temporal.finalized key db)
  | erase env key reason => do
    let row ← get key none db
    outcome (prepareErasure env key row reason u db)

/-- The database after the operation. -/
def perform (u : Token) (db : Db) (o : Op) : Db := Library.commit db (o.attempt u db)

/-- The caller of the operation, where it checks a scope. -/
def caller : Op → Option Caller
  | prepare _ c .. | start _ c .. | uncertain _ c .. | reject _ c .. | complete _ c ..
  | bootstrap _ c .. | claimStep _ c .. | commit _ c .. | recover _ c .. | human _ c ..
  | append _ c .. => some c
  | _ => none

end Op

/-- The database with the supply of `uuid4` values. -/
structure Sys where
  /-- the database -/
  db : Db
  /-- the next value; every value drawn so far is smaller -/
  uuids : Token

namespace Sys

/-- A new database. -/
def Initial (s : Sys) : Prop := ∃ host, s.db = .empty host

/-- The state after the operation `o`. -/
def after (s : Sys) (o : Op) : Sys := ⟨o.perform s.uuids s.db, s.uuids + 2⟩

/-- One operation at a time. -/
def lts : Lts Sys Op where
  step s o s' := s' = s.after o

/-- The state after a list of operations. -/
def runs (s : Sys) (os : List Op) : Sys := os.foldl after s

theorem step_after (s : Sys) (o : Op) : lts.step s o (s.after o) := rfl

theorem run_runs (s : Sys) (os : List Op) : lts.Run s os (s.runs os) := by
  induction os generalizing s with
  | nil => exact .nil s
  | cons o os ih => exact .cons rfl (ih (s.after o))

end Sys

/-! ### Effects -/

/-- The operation claims the ledger row under `k` for a caller that is not cancelled. -/
def Op.starts (o : Op) (k : OpKey) (db : Db) : Prop :=
  ∃ env c l step, o = .start env c l step ∧ k = (l.taskKey, step) ∧ c.checkCancelled db = .ok false

/-- `OpStep o u db k r r'` : the operation `o` on `db` turns the ledger row `r` under `k` into
`r'`, but does not complete it. -/
inductive OpStep (o : Op) (u : Token) (db : Db) (k : OpKey) :
    Option Operation → Option Operation → Prop
  | same (r : Option Operation) : OpStep o u db k r r
  | prepared (row : Operation) (h : Ledger.Opened db k row) : OpStep o u db k none (some row)
  | claimed (row : Operation) (h : row.state = .prepared) (hstart : o.starts k db) :
      OpStep o u db k (some row) (some { row with state := .running, fence := some u })
  | uncertain (row : Operation) (h : row.state = .running) :
      OpStep o u db k (some row) (some { row with state := .uncertain })
  | rejected (row : Operation) (h : row.state = .prepared)
      (hcan : ∀ c, o.caller = some c → c.checkCancelled db = .ok false) :
      OpStep o u db k (some row) (some { row with state := .rejectedNoEffect })

/-- What an operation that succeeds does to the ledger, the artifacts and the steps. -/
inductive Effect (o : Op) (u : Token) (db db' : Db) : Prop
  /-- it completes no operation, and touches neither artifacts nor steps -/
  | ledger (hops : ∀ k, OpStep o u db k (db.operations k) (db'.operations k))
      (harts : db'.artifacts = db.artifacts) (hruns : db'.stepRuns = db.stepRuns)
  /-- it completes one operation -/
  | completed (l : Ledger) (step : String) (row : Operation) (result evidence : Payload)
      (hrow : db.operations (l.taskKey, step) = some row) (hrunning : row.state = .running)
      (harts : db'.artifacts = l.store (l.store db.artifacts ⟨u, result⟩) ⟨u + 1, evidence⟩)
      (hops : db'.operations = db.operations.set (l.taskKey, step) { row with
          state := .completed
          resultRef := some ⟨u, result⟩
          evidenceRef := some ⟨u + 1, evidence⟩ })
      (hruns : db'.stepRuns = db.stepRuns)
  /-- it inserts the first step of a submission -/
  | bootstrap (c : Caller) (l : Ledger) (value : Snapshot) (hscope : Ledger.InScope c l false db)
      (hfree : db.stepRuns (l.key, 0) = none)
      (hvalid : validateSnapshot (.snapshot value) = .ok value)
      (harts : db'.artifacts = l.store db.artifacts ⟨u, .snapshot value⟩)
      (hops : db'.operations = db.operations)
      (hruns : db'.stepRuns =
        db.stepRuns.set (l.key, 0) (StepStore.newRun .model ⟨u, .snapshot value⟩))
  /-- it starts a step, or makes it ready again -/
  | step (k : SubmissionId × ℕ) (run run' : StepRun) (hrun : db.stepRuns k = some run)
      (hrun' : run.status = .ready ∧ run' = { run with status := .running, fence := some u } ∨
        run.status = .running ∧ run' = { run with status := .ready, fence := none })
      (hops : db'.operations = db.operations) (harts : db'.artifacts = db.artifacts)
      (hruns : db'.stepRuns = db.stepRuns.set k run')
  /-- it completes a step with a fence that the step has, or with a new one -/
  | commit (c : Caller) (l : Ledger) (cursor : Cursor) (fence : Option FenceId) (run : StepRun)
      (kind : Kind) (value : Snapshot) (v : Token) (hv : v = u ∨ v = u + 1)
      (hscope : Ledger.InScope c l false db) (hkey : cursor.submission = l.key)
      (hrun : db.stepRuns (cursor.submission, cursor.revision) = some run)
      (hopen : run.status ≠ .completed)
      (hfence : run.status = .running ∧ run.fence = fence ∨ fence = some u)
      (hlimit : cursor.revision + 1 ≤ stepLimit)
      (hfree : db.stepRuns (cursor.submission, cursor.revision + 1) = none)
      (hvalid : validateSnapshot (.snapshot value) = .ok value)
      (hops : db'.operations = db.operations)
      (harts : db'.artifacts = l.store db.artifacts ⟨v, .snapshot value⟩)
      (hruns : db'.stepRuns = StepStore.advance
        (db.stepRuns.set (cursor.submission, cursor.revision)
          { run with status := .running, fence := fence }) cursor
        ⟨cursor.submission, cursor.revision + 1, kind, ⟨v, .snapshot value⟩⟩ fence)

variable {o : Op} {u : Token} {db db' : Db}

theorem fenceOperations_step (ho : o.caller = none) (p : TaskKey → Bool)
    (t : Table OpKey Operation) (k : OpKey) :
    OpStep o u db k (t k) (fenceOperations p t k) := by
  rcases t.updateWhere_cases fenced
    (fun k row => p k.1 && (row.state = .prepared || row.state = .running)) k with
    hs | ⟨row, hrow, hp, hs⟩
  · rw [fenceOperations, hs]; exact .same _
  · rw [fenceOperations, hs, hrow]
    simp only [Bool.and_eq_true, Bool.or_eq_true, decide_eq_true_eq] at hp
    rcases hp.2 with h | h
    · simpa [fenced, h] using OpStep.rejected row h fun c hc => by rw [ho] at hc; cases hc
    · simpa [fenced, h] using OpStep.uncertain row h

theorem set_opStep {k : OpKey} {row : Operation} (h : OpStep o u db k (db.operations k) (some row))
    (k' : OpKey) : OpStep o u db k' (db.operations k') (db.operations.set k row k') := by
  by_cases hk : k' = k
  · subst hk; simpa using h
  · rw [Table.set_of_ne _ _ _ hk]; exact .same _

theorem update_opStep {k : OpKey} {p : Operation → Bool} {f : Operation → Operation}
    (h : ∀ row, p row = true → OpStep o u db k (some row) (some (f row))) (k' : OpKey) :
    OpStep o u db k' (db.operations k') (db.operations.update k p f k') := by
  rcases db.operations.update_cases k p f k' with hs | ⟨row, rfl, hrow, hp, hs⟩
  · rw [hs]; exact .same _
  · rw [hs, hrow]; exact h row hp

theorem Effect.quiet (hops : db'.operations = db.operations)
    (harts : db'.artifacts = db.artifacts) (hruns : db'.stepRuns = db.stepRuns) :
    Effect o u db db' :=
  .ledger (fun _ => hops ▸ .same _) harts hruns

theorem Effect.refl (o : Op) (u : Token) (db : Db) : Effect o u db db := .quiet rfl rfl rfl

theorem Effect.fencing (ho : o.caller = none) (p : TaskKey → Bool)
    (hops : db'.operations = fenceOperations p db.operations)
    (harts : db'.artifacts = db.artifacts) (hruns : db'.stepRuns = db.stepRuns) :
    Effect o u db db' :=
  .ledger (fun k => hops ▸ fenceOperations_step ho p _ k) harts hruns

theorem request_effect (ho : o.caller = none) (p : TaskKey → Bool) (base : TaskDb) :
    Effect o u db (request p { db with base := base }) :=
  .fencing ho (fun k => (db.submissionOf k).any (requested p { db with base := base })) rfl rfl rfl

/-- The effect depends on the three tables only. -/
theorem Effect.frame {db'' : Db} (h : Effect o u db db') (hops : db''.operations = db'.operations)
    (harts : db''.artifacts = db'.artifacts) (hruns : db''.stepRuns = db'.stepRuns) :
    Effect o u db db'' := by
  cases h with
  | ledger h₁ h₂ h₃ =>
    exact .ledger (fun k => hops ▸ h₁ k) (harts.trans h₂) (hruns.trans h₃)
  | completed l step row result evidence hrow hrunning h₁ h₂ h₃ =>
    exact .completed l step row result evidence hrow hrunning (harts.trans h₁) (hops.trans h₂)
      (hruns.trans h₃)
  | bootstrap c l value hscope hfree hvalid h₁ h₂ h₃ =>
    exact .bootstrap c l value hscope hfree hvalid (harts.trans h₁) (hops.trans h₂)
      (hruns.trans h₃)
  | step k run run' hrun hrun' h₁ h₂ h₃ =>
    exact .step k run run' hrun hrun' (hops.trans h₁) (harts.trans h₂) (hruns.trans h₃)
  | commit c l cursor fence run kind value v hv hscope hkey hrun hopen hfence hlimit hfree hvalid
      h₁ h₂ h₃ =>
    exact .commit c l cursor fence run kind value v hv hscope hkey hrun hopen hfence hlimit hfree
      hvalid (hops.trans h₁) (harts.trans h₂) (hruns.trans h₃)

/-- What `_commit` did, after it read the step `run` or the operation started it with `fence`. -/
theorem StepStore.Committed.effect {c : Caller} {l : Ledger} {cursor out : Cursor}
    {fence : Option FenceId} {run run' : StepRun} {value : Snapshot} {v : Token} {db₁ : Db}
    (h : Committed l cursor fence v db₁ db' out run' value) (hv : v = u ∨ v = u + 1)
    (hscope : Ledger.InScope c l false db) (hkey : cursor.submission = l.key)
    (hrun : db.stepRuns (cursor.submission, cursor.revision) = some run)
    (hrun' : run.status = .running ∧ run' = run ∨ run.status ≠ .completed ∧
      fence = some u ∧ run' = { run with status := .running, fence := some u })
    (hops : db₁.operations = db.operations) (harts : db₁.artifacts = db.artifacts)
    (hruns : db₁.stepRuns = db.stepRuns.set (cursor.submission, cursor.revision) run') :
    Effect o u db db' := by
  obtain ⟨⟨hstatus, hfence⟩, hfree, hlimit, hvalid, ⟨kind, rfl⟩, answers, rfl⟩ := h
  have hset : run' = { run with status := .running, fence := fence } := by
    rcases hrun' with ⟨hs, rfl⟩ | ⟨-, rfl, rfl⟩
    · rw [← hs, ← hfence]
    · rfl
  have hfree' : db.stepRuns (cursor.submission, cursor.revision + 1) = none := by
    rw [hruns, Table.set_of_ne _ _ _ (by simp)] at hfree
    exact hfree
  refine .commit c l cursor fence run kind value v hv hscope hkey hrun ?_ ?_ hlimit hfree' hvalid
    hops ?_ ?_
  · rcases hrun' with ⟨hs, -⟩ | ⟨hs, -⟩
    · rw [hs]; nofun
    · exact hs
  · rcases hrun' with ⟨hs, rfl⟩ | ⟨-, rfl, -⟩
    · exact .inl ⟨hs, hfence⟩
    · exact .inr rfl
  · show l.store db₁.artifacts _ = _
    rw [harts]
  · show StepStore.advance db₁.stepRuns _ _ _ = _
    rw [hruns, hset]

/-- **Every operation that succeeds has one of the effects.** -/
theorem Op.effect (h : o.attempt u db = .ok db') : Effect o u db db' := by
  cases o with
  | task call =>
    cases h
    cases call with
    | cancel owner key => exact request_effect rfl _ _
    | cancelSession owner t => exact request_effect rfl _ _
    | _ => exact .quiet rfl rfl rfl
  | bind env owner task requested admitted =>
    obtain ⟨out, h⟩ := outcome_eq_ok.1 h
    obtain ⟨bindings, rfl⟩ := Store.bind_ok h
    exact .quiet rfl rfl rfl
  | submit env owner task messages context role settings contract authorized criteria =>
    obtain ⟨out, h⟩ := outcome_eq_ok.1 h
    obtain rfl | ⟨row, new, contracts, protocols, -, -, rfl⟩ := Store.submit_ok h
    · exact .refl ..
    · exact .quiet rfl rfl rfl
  | dispatched key error =>
    cases h
    exact .quiet rfl rfl rfl
  | claim env key settings =>
    obtain ⟨out, h⟩ := outcome_eq_ok.1 h
    obtain ⟨row, -, -, rfl⟩ := Store.claim_ok h
    exact .quiet rfl rfl rfl
  | finish env key fence state result =>
    obtain ⟨out, h⟩ := outcome_eq_ok.1 h
    obtain ⟨row, -, -, rfl⟩ := Store.finish_ok h
    exact .quiet rfl rfl rfl
  | cancel key owner =>
    obtain ⟨out, h⟩ := outcome_eq_ok.1 h
    obtain ⟨row, -, -, rfl⟩ := Store.cancel_ok h
    exact request_effect rfl _ _
  | workflowFailed key owner error =>
    obtain ⟨out, h⟩ := outcome_eq_ok.1 h
    obtain rfl | ⟨k, reply, row, rfl⟩ := Store.workflowFailed_ok h
    · exact .refl ..
    · exact .fencing rfl (· = k) rfl rfl rfl
  | failBudgetBeforeStart key owner =>
    obtain ⟨out, h⟩ := outcome_eq_ok.1 h
    obtain ⟨k, rfl | ⟨result, reply, rfl⟩⟩ := Store.failBudgetBeforeStart_ok h <;>
      exact .fencing rfl (· = k) rfl rfl rfl
  | prepare env c l step kind arguments =>
    obtain ⟨out, h⟩ := outcome_eq_ok.1 h
    obtain ⟨-, -, ⟨-, rfl, -⟩ | ⟨hnone, hopened, -, rfl⟩⟩ := Ledger.prepare_ok h
    · exact .refl ..
    · exact .ledger (set_opStep (hnone ▸ .prepared _ hopened)) rfl rfl
  | start env c l step =>
    obtain ⟨out, h⟩ := outcome_eq_ok.1 h
    obtain ⟨-, hcan, ⟨-, -, rfl⟩ | ⟨row, hrow, hprep, -, rfl, rfl⟩⟩ := Ledger.claim_ok h
    · exact .refl ..
    · exact .ledger (set_opStep (hrow ▸ .claimed row hprep ⟨env, c, l, step, rfl, rfl, hcan⟩)) rfl
        rfl
  | uncertain env c l step fence =>
    obtain ⟨out, h⟩ := outcome_eq_ok.1 h
    obtain ⟨-, -, rfl⟩ := Ledger.uncertain_ok h
    exact .ledger (update_opStep fun row hp => .uncertain row (Ledger.running_iff.1 hp).1) rfl rfl
  | reject env c l step =>
    obtain ⟨out, h⟩ := outcome_eq_ok.1 h
    obtain ⟨-, hcan, rfl⟩ := Ledger.reject_ok h
    refine .ledger (update_opStep fun row hp => .rejected row (by simpa using hp) ?_) rfl rfl
    rintro c' ⟨⟩
    exact hcan
  | complete env c l step fence result evidence =>
    obtain ⟨out, h⟩ := outcome_eq_ok.1 h
    obtain ⟨-, -, row, hrow, hrunning, -, -, rfl⟩ := Ledger.complete_ok h
    exact .completed l step row result evidence hrow hrunning rfl rfl rfl
  | bootstrapClaim env key settings =>
    obtain ⟨out, h⟩ := outcome_eq_ok.1 h
    obtain ⟨row, -, -, rfl | ⟨-, rfl⟩⟩ := StepStore.bootstrapClaim_ok h
    · exact .refl ..
    · exact .quiet rfl rfl rfl
  | bootstrap env c l key =>
    obtain ⟨out, h⟩ := outcome_eq_ok.1 h
    obtain ⟨rfl, hscope, ⟨-, -, -, rfl⟩ | ⟨value, hfree, hvalid, -, rfl⟩⟩ :=
      StepStore.bootstrap_ok h
    · exact .refl ..
    · exact .bootstrap c l value hscope hfree hvalid rfl rfl rfl
  | claimStep env c l cursor =>
    obtain ⟨out, h⟩ := outcome_eq_ok.1 h
    obtain ⟨-, -, run, hrun, ⟨-, rfl, -⟩ | ⟨hready, -, rfl⟩⟩ := StepStore.claim_ok h
    · exact .refl ..
    · exact .step _ run _ (StepStore.stepRow_ok hrun).2.1 (.inl ⟨hready, rfl⟩) rfl rfl rfl
  | commit env c l cursor fence kind t =>
    obtain ⟨out, h⟩ := outcome_eq_ok.1 h
    obtain ⟨hkey, hscope, run, hrun, ⟨-, rfl, -⟩ | ⟨value, hdone⟩⟩ := StepStore.commit_ok h
    · exact .refl ..
    · have hrow := (StepStore.stepRow_ok hrun).2.1
      exact hdone.effect (.inl rfl) hscope hkey hrow (.inl ⟨hdone.running.1, rfl⟩) rfl rfl
        (Function.update_eq_self_iff.2 hrow.symm).symm
  | recover env c l cursor t =>
    obtain ⟨out, h⟩ := outcome_eq_ok.1 h
    obtain ⟨hkey, hscope, run, hrun, ⟨-, rfl, -⟩ | ⟨-, rfl, -⟩ | ⟨value, db₁, hdb₁, hdone⟩ |
      ⟨task, operation, hrunning, -, -, -, -, rfl⟩⟩ := StepStore.recover_ok h
    · exact .refl ..
    · exact .refl ..
    · have hrow := (StepStore.stepRow_ok hrun).2.1
      have hsame : db₁.operations = db.operations ∧ db₁.artifacts = db.artifacts ∧
          db₁.stepRuns = db.stepRuns := by
        rcases hdb₁ with rfl | rfl <;> exact ⟨rfl, rfl, rfl⟩
      exact hdone.effect (.inl rfl) hscope hkey hrow (.inl ⟨hdone.running.1, rfl⟩) hsame.1
        hsame.2.1 (hsame.2.2.trans (Function.update_eq_self_iff.2 hrow.symm).symm)
    · exact .step _ run _ (StepStore.stepRow_ok hrun).2.1 (.inr ⟨hrunning, rfl⟩) rfl rfl rfl
  | human env c l cursor t₁ t₂ =>
    obtain ⟨out, h⟩ := outcome_eq_ok.1 h
    obtain ⟨-, hkey, hscope, run, hrun, ⟨-, rfl, -⟩ | ⟨-, rfl, -⟩ | ⟨task, task', value, db₁, db₂,
      answers, hopen, -, -, -, -, rfl, hdone, rfl⟩⟩ := StepStore.human_ok h
    · exact .refl ..
    · exact .refl ..
    · have hrow := (StepStore.stepRow_ok hrun).2.1
      have := hdone.effect (o := .human env c l cursor t₁ t₂) (u := u) (.inr rfl) hscope hkey hrow (.inr ⟨hopen, rfl, rfl⟩) rfl rfl rfl
      exact this.frame rfl rfl rfl
  | answer env key owner callId text revision t =>
    obtain ⟨out, h⟩ := outcome_eq_ok.1 h
    obtain ⟨-, answers, rfl⟩ := Decisions.answer_ok h
    exact .quiet rfl rfl rfl
  | append env c key row eventKey kind payload terminal budget =>
    obtain ⟨out, h⟩ := outcome_eq_ok.1 h
    obtain ⟨-, events, rfl⟩ := append_ok h
    exact .quiet rfl rfl rfl
  | finalized key =>
    cases h
    exact .quiet rfl rfl rfl
  | erase env key reason =>
    simp only [Op.attempt, bind_eq_ok, outcome_eq_ok] at h
    obtain ⟨row, -, out, h⟩ := h
    obtain rfl | ⟨erased, erasures, rfl⟩ := prepareErasure_ok h
    · exact .refl ..
    · exact .fencing rfl (· = row.taskKey) rfl rfl rfl

/-! ### A run

The first operations on a task of the step protocol: it is bound, submitted, claimed and given its
first cursor.
-/

namespace Sample

/-- The target of the submission. -/
def settings : Settings := ⟨"localhost:7233", "default", .steps⟩

/-- The context of the submission. -/
def context : Context := { workspace := "w" }

/-- The input of the submission. -/
def input : Message := { role := "user", content := "go" }

/-- The activity, in the workspace of the submission. -/
def caller : Caller := { owner := "o", task := some "t", workspace := some "w", configured := "w" }

/-- The ledger of the submission. -/
def ledger : Ledger := ⟨2, some 4, "o", "t", ⟨input, context, "assistant"⟩⟩

/-- The operations. -/
def opening : List Op :=
  [.bind {} "o" "t" (some .temporal) (.ok .temporal),
    .submit {} "o" "t" [input] context "assistant" settings (.ok { deadline := 1000 }) (.ok ()) {},
    .bootstrapClaim {} 2 settings,
    .bootstrap {} caller ledger 2]

/-- The first cursor. -/
def cursor : Cursor :=
  ⟨2, 0, .model, ⟨6, .snapshot
    ⟨.temporalPending, { messages := [input] }, .pending, none⟩⟩⟩

/-- The database before the first operation. -/
def start : Sys := ⟨.empty "host", 0⟩

theorem reachable (os : List Op) : Sys.lts.Reachable Sys.Initial (start.runs os) :=
  ⟨start, os, ⟨"host", rfl⟩, Sys.run_runs start os⟩

end Sample

end Temporal

end PythonAI
