import PythonAI.Temporal.Steps

/-!
# What a successful transaction did

One lemma for each operation of the Temporal backend: what it found, and which rows it wrote.
-/

namespace PythonAI

open Library

namespace Temporal

variable {env : Access} {c : Caller} {l : Ledger} {db db' seen : Db} {u u' : Token}

theorem get_ok {key : SubmissionId} {owner : Option Owner} {row : Submission}
    (h : get key owner db = .ok row) :
    db.submissions key = some row ∧ ∀ o, owner = some o → row.owner = o := by
  simp only [get, require_eq_ok, Option.filter_eq_some_iff] at h
  refine ⟨h.1, ?_⟩
  rintro o rfl
  simpa using h.2

namespace Store

variable {key : SubmissionId} {settings : Settings}

theorem bind_ok {owner : Owner} {task : TaskId} {requested : Option Backend}
    {admitted : Except Error Backend} {out : Backend}
    (h : bind env owner task requested admitted db = .ok (db', out)) :
    ∃ bindings, db' = { db with bindings := bindings } := by
  simp only [bind, bind_eq_ok] at h
  obtain ⟨-, -, -, -, -, -, h⟩ := h
  split at h
  · simp only [pure_eq_ok, Prod.mk.injEq] at h
    exact ⟨db.bindings, h.1.symm⟩
  · simp only [bind_eq_ok, pure_eq_ok, Prod.mk.injEq] at h
    obtain ⟨-, -, -, -, backend, -, rfl, -⟩ := h
    exact ⟨_, rfl⟩

/-- **Inversion of `submit`.**  It returns the submission of the task, or inserts the task and its
submission. -/
theorem submit_ok {owner : Owner} {task : TaskId} {messages : List Message} {context : Context}
    {role : String} {contract : Except Error Contract} {authorized : Except Error Unit}
    {criteria : Criteria} {out : SubmissionId}
    (h : submit env owner task messages context role settings contract authorized criteria u db =
      .ok (db', out)) :
    db' = db ∨ ∃ row new contracts protocols, db.forTask row.taskKey = none ∧
      db.task row.taskKey = none ∧
      db' = { db with
        base := { db.base with tasks := db.base.tasks.set row.taskKey new }
        submissions := db.submissions.set u row
        forTask := db.forTask.set row.taskKey u
        protocols := protocols
        contracts := contracts } := by
  simp only [submit, bind_eq_ok] at h
  obtain ⟨contract, -, latest, -, -, -, -, -, -, -, -, -, h⟩ := h
  split at h
  · simp only [bind_eq_ok, pure_eq_ok, Prod.mk.injEq] at h
    obtain ⟨row, -, -, -, -, -, rfl, -⟩ := h
    exact .inl rfl
  case h_2 hfree =>
    simp only [bind_eq_ok, ensure_eq_ok, pure_eq_ok, Prod.mk.injEq,
      Option.isNone_iff_eq_none] at h
    obtain ⟨-, -, -, -, -, -, -, hnone, rfl, -⟩ := h
    let row : Submission :=
      { owner := owner, task := task, scope := ⟨latest, context, role⟩, input := messages
        address := settings.address, space := settings.space
        queue := queueFor db.host settings.engine, state := .pending }
    exact .inr ⟨row, _, _, _, hfree, hnone, rfl⟩

/-- The id that `submit` returns is the one that the index names. -/
theorem submit_forTask {owner : Owner} {task : TaskId} {messages : List Message}
    {context : Context} {role : String} {contract : Except Error Contract}
    {authorized : Except Error Unit} {criteria : Criteria} {out : SubmissionId}
    (h : submit env owner task messages context role settings contract authorized criteria u db =
      .ok (db', out)) : db'.forTask (owner, task) = some out := by
  simp only [submit, bind_eq_ok] at h
  obtain ⟨contract, -, latest, -, -, -, -, -, -, -, -, -, h⟩ := h
  split at h
  case h_1 old hold =>
    simp only [bind_eq_ok, pure_eq_ok, Prod.mk.injEq] at h
    obtain ⟨row, -, -, -, -, -, rfl, rfl⟩ := h
    exact hold
  · simp only [bind_eq_ok, ensure_eq_ok, pure_eq_ok, Prod.mk.injEq] at h
    obtain ⟨-, -, -, -, -, -, -, -, rfl, rfl⟩ := h
    exact Table.set_same ..

theorem claim_ok {out : Submission} (h : claim env key settings u db = .ok (db', out)) :
    ∃ row, db.submissions key = some row ∧
      (∃ task, db.task row.taskKey = some task ∧ task.state ≠ .cancelled) ∧
      db' = { db with
        submissions := db.submissions.update key queued fun row =>
          { row with state := .running, fence := some u } } := by
  simp only [claim, bind_eq_ok, ensure_eq_ok, pure_eq_ok, Prod.mk.injEq] at h
  obtain ⟨row, hrow, -, -, -, -, -, htask, -, -, rfl, -⟩ := h
  obtain ⟨task, htask, hstate⟩ := (Option.any_eq_true _ _).1 htask
  exact ⟨row, (get_ok hrow).1, ⟨task, htask, by simpa using hstate⟩, rfl⟩

theorem finish_ok {fence : Option FenceId} {state : SubmissionState} {result : Outcome}
    {out : Unit} (h : finish env key fence state result db = .ok (db', out)) :
    ∃ row, db.submissions key = some row ∧
      (∃ task, db.task row.taskKey = some task ∧ task.state ≠ .cancelled) ∧
      db' = { db with
        submissions := db.submissions.update key (running fence) fun row =>
          { row with state := state, result := some result }
        finalizations := finalIntent key row db.finalizations } := by
  simp only [finish, bind_eq_ok, ensure_eq_ok, pure_eq_ok, Prod.mk.injEq] at h
  obtain ⟨-, -, row, hrow, -, -, -, htask, -, -, -, -, rfl, -⟩ := h
  obtain ⟨task, htask, hstate⟩ := (Option.any_eq_true _ _).1 htask
  exact ⟨row, (get_ok hrow).1, ⟨task, htask, by simpa using hstate⟩, rfl⟩

theorem cancel_ok {owner : Owner} {out : Unit} (h : cancel key owner db = .ok (db', out)) :
    ∃ row, db.submissions key = some row ∧ row.owner = owner ∧
      db' = request (· = (owner, row.task))
        { db with base := (TaskStore.cancel owner row.task db.base).1 } := by
  simp only [cancel, bind_eq_ok, pure_eq_ok, Prod.mk.injEq] at h
  obtain ⟨row, hrow, rfl, -⟩ := h
  exact ⟨row, (get_ok hrow).1, (get_ok hrow).2 owner rfl, rfl⟩

/-- **Inversion of `workflow_failed`.**  It gives up a submission that has not ended, its
operations, and its task if that is not terminal. -/
theorem workflowFailed_ok {owner : Owner} {error : String} {out : Unit}
    (h : workflowFailed key owner error db = .ok (db', out)) :
    db' = db ∨ ∃ (k : TaskKey) (reply : String) (row : Submission),
      db' = { db with
        submissions := db.submissions.update key live fun row =>
          { row with state := .uncertain, lastError := some error }
        operations := fenceOperations (· = k) db.operations
        finalizations := finalIntent key row db.finalizations
        base := { db.base with
          tasks := db.base.tasks.update k (!·.state.terminal) fun task =>
            { task.release with state := .uncertain, reply := some reply } } } := by
  simp only [workflowFailed, bind_eq_ok] at h
  obtain ⟨row, -, h⟩ := h
  split_ifs at h
  · simp only [pure_eq_ok, Prod.mk.injEq] at h
    exact .inr ⟨_, _, _, h.1.symm⟩
  · simp only [pure_eq_ok, Prod.mk.injEq] at h
    exact .inl h.1.symm

/-- **Inversion of `fail_budget_before_start`.**  It fences the operations of the task, and fails
a submission that was not started, with its task if that is pending. -/
theorem failBudgetBeforeStart_ok {owner : Owner} {out : Bool}
    (h : failBudgetBeforeStart key owner db = .ok (db', out)) :
    ∃ k : TaskKey, db' = { db with operations := fenceOperations (· = k) db.operations } ∨
      ∃ (result : Submission → Outcome) (reply : String), db' = { db with
        operations := fenceOperations (· = k) db.operations
        submissions := db.submissions.update key queued fun row =>
          { row with
            state := .failed, result := some (result row), lastError := some "BudgetExhausted" }
        base := { db.base with
          tasks := db.base.tasks.update k (·.state = .pending) fun task =>
            { task.release with state := .failed, reply := some reply } } } := by
  simp only [failBudgetBeforeStart, bind_eq_ok] at h
  obtain ⟨row, -, h⟩ := h
  split_ifs at h
  · simp only [pure_eq_ok, Prod.mk.injEq] at h
    exact ⟨(owner, row.task), .inr ⟨fun row => .reply "Error: Task deadline exhausted" row.input,
      _, h.1.symm⟩⟩
  · simp only [pure_eq_ok, Prod.mk.injEq] at h
    exact ⟨(owner, row.task), .inl h.1.symm⟩

end Store

theorem append_ok {key : SubmissionId} {row : Submission} {eventKey kind payload : String}
    {terminal : Bool} {budget : Except Error Unit} {out : Unit}
    (h : append env c key row eventKey kind payload terminal budget db = .ok (db', out)) :
    (terminal = false → ∃ task, db.task row.taskKey = some task ∧ task.state ≠ .cancelled) ∧
      ∃ events, db' = { db with events := events } := by
  simp only [append, bind_eq_ok, require_eq_ok, ensure_eq_ok, Bool.and_eq_true, Bool.or_eq_true,
    decide_eq_true_eq] at h
  obtain ⟨-, -, cancelled, -, -, -, -, -, -, -, -, -, -, -, now, -, task, htask, -, ⟨-, hopen⟩, h⟩ := h
  refine ⟨?_, ?_⟩
  · rintro rfl
    rcases hopen with hopen | ⟨hopen, -⟩
    · cases hopen
    · exact ⟨task, htask, hopen⟩
  · split at h
    · simp only [bind_eq_ok, pure_eq_ok, Prod.mk.injEq] at h
      obtain ⟨-, -, rfl, -⟩ := h
      exact ⟨db.events, rfl⟩
    · simp only [bind_eq_ok, pure_eq_ok, Prod.mk.injEq] at h
      obtain ⟨-, -, target, -, rfl, -⟩ := h
      exact ⟨_, rfl⟩

theorem prepareErasure_ok {key : SubmissionId} {row : Submission} {reason : String} {out : Unit}
    (h : prepareErasure env key row reason u db = .ok (db', out)) :
    db' = db ∨ ∃ erased erasures, db' = { db with
      erased := erased
      erasures := erasures
      operations := fenceOperations (· = row.taskKey) db.operations
      submissions := db.submissions.update key (fun _ => true) fun row =>
        { row with state := .erasing, fence := some u }
      base := { db.base with
        tasks := db.base.tasks.update row.taskKey (fun _ => true) fun task =>
          { task.release with state := .cancelled, phase := .temporalErasing } } } := by
  simp only [prepareErasure, bind_eq_ok] at h
  obtain ⟨-, -, h⟩ := h
  split_ifs at h
  · simp only [pure_eq_ok, Prod.mk.injEq] at h
    exact .inl h.1.symm
  · simp only [bind_eq_ok, pure_eq_ok, Prod.mk.injEq] at h
    obtain ⟨-, -, -, -, rfl, -⟩ := h
    exact .inr ⟨_, _, rfl⟩

theorem Decisions.answer_ok {key : SubmissionId} {owner : Owner} {callId text : String}
    {revision : ℕ} {t : Time} {out : Unit}
    (h : Decisions.answer env key owner callId text revision t db = .ok (db', out)) :
    (∃ row task, db.submissions key = some row ∧ row.owner = owner ∧
      db.task row.taskKey = some task ∧ task.state ≠ .cancelled) ∧
    ∃ answers, db' = { db with answers := answers } := by
  simp only [Decisions.answer, bind_eq_ok, require_eq_ok, Option.filter_eq_some_iff] at h
  obtain ⟨-, -, row, hrow, engine, -, -, -, -, -, -, -, task, ⟨htask, hopen⟩, wait, -, h⟩ := h
  obtain ⟨hsub, howner⟩ := get_ok hrow
  have hown := howner owner rfl
  refine ⟨⟨row, task, hsub, hown, ?_, fun hc => ?_⟩, ?_⟩
  · rw [Submission.taskKey, hown]; exact htask
  · simp [Decisions.closed, hc] at hopen
  · split_ifs at h
    · simp only [pure_eq_ok, Prod.mk.injEq] at h
      exact ⟨db.answers, h.1.symm⟩
    · simp only [bind_eq_ok, pure_eq_ok, Prod.mk.injEq] at h
      obtain ⟨-, -, -, -, rfl, -⟩ := h
      exact ⟨_, rfl⟩

namespace Ledger

/-- What a passed scope check found. -/
structure InScope (c : Caller) (l : Ledger) (active : Bool) (db : Db) : Prop where
  /-- the caller acts for the owner -/
  owner : c.owner = l.owner
  /-- the submission runs with the fence of the ledger -/
  submission : ∃ row, db.submissions l.key = some row ∧ row.taskKey = l.taskKey ∧
    row.fence = l.fence ∧ scopeStates active row.state = true ∧ row.scope = l.scope
  /-- the task is open -/
  task : ∃ row, db.task l.taskKey = some row ∧ scopeTasks active row.state = true

theorem checkScope_ok {active : Bool} {x : Unit}
    (h : l.checkScope env c active seen db = .ok x) :
    InScope c l active db ∧ c.checkCancelled seen = .ok false := by
  simp only [checkScope, bind_eq_ok, ensure_eq_ok, require_eq_ok, Option.filter_eq_some_iff,
    Bool.and_eq_true, decide_eq_true_eq] at h
  obtain ⟨-, ⟨howner, -⟩, -, -, row, ⟨hrow, ⟨⟨hkey, -⟩, hfence⟩, hstate⟩, -, htask, -, -, -, hscope,
    -, -, -, -, -, -, cancelled, hcancelled, hcan⟩ := h
  obtain ⟨task, htask, hopen⟩ := (Option.any_eq_true _ _).1 htask
  refine ⟨⟨howner, ⟨row, hrow, hkey, hfence, hstate, hscope⟩, task, htask, hopen⟩, ?_⟩
  rw [hcancelled, show cancelled = false by simpa using hcan]

/-- What a passed scope check found of a task. -/
theorem InScope.not_cancelled {active : Bool} (h : InScope c l active db) :
    ∃ row, db.task l.taskKey = some row ∧ row.state ≠ .cancelled := by
  obtain ⟨row, hrow, hstate⟩ := h.task
  refine ⟨row, hrow, fun hc => ?_⟩
  rw [hc] at hstate; cases hstate

/-- A new operation, which a caller in scope prepared. -/
structure Opened (db : Db) (k : OpKey) (row : Operation) : Prop where
  /-- it is prepared -/
  state : row.state = .prepared
  /-- its step id is valid -/
  step : checkStep k.2 = .ok ()
  /-- its kind is one of an operation -/
  io : row.kind.io = true
  /-- the fingerprint is of its kind -/
  kind : row.arguments.kind = row.kind
  /-- the fingerprint is of the scope of its submission -/
  scope : ∃ key sub, db.submissions key = some sub ∧ sub.taskKey = k.1 ∧
    row.arguments.scope = sub.scope

variable {step : String} {kind : Kind} {arguments : String}

theorem prepare_ok {out : Operation}
    (h : l.prepare env c step kind arguments db = .ok (db', out)) :
    InScope c l false db ∧ c.checkCancelled db = .ok false ∧
    ((db.operations (l.taskKey, step) = some out ∧ db' = db ∧ out.kind = kind ∧
        out.arguments = ⟨l.scope, kind, arguments⟩) ∨
      (db.operations (l.taskKey, step) = none ∧ Opened db (l.taskKey, step) out ∧
        out = { kind := kind, arguments := ⟨l.scope, kind, arguments⟩, state := .prepared } ∧
        db' = { db with operations := db.operations.set (l.taskKey, step) out })) := by
  simp only [prepare, bind_eq_ok, ensure_eq_ok] at h
  obtain ⟨y, hstep, -, hio, x, hscope, h⟩ := h
  obtain ⟨hscope, hcan⟩ := checkScope_ok hscope
  refine ⟨hscope, hcan, ?_⟩
  cases hr : db.operations (l.taskKey, step) with
  | none =>
    simp only [hr, bind_eq_ok, pure_eq_ok, Prod.mk.injEq] at h
    obtain ⟨-, -, -, -, -, -, rfl, rfl⟩ := h
    obtain ⟨sub, hsub, hkey, -, -, hsame⟩ := hscope.submission
    exact .inr ⟨rfl, ⟨rfl, hstep, hio, rfl, l.key, sub, hsub, hkey, hsame.symm⟩, rfl, rfl⟩
  | some old =>
    simp only [hr, bind_eq_ok, ensure_eq_ok, Bool.and_eq_true, decide_eq_true_eq] at h
    obtain ⟨-, ⟨hkind, hargs⟩, h⟩ := h
    split_ifs at h
    · simp only [pure_eq_ok, Prod.mk.injEq] at h
      obtain ⟨rfl, rfl⟩ := h
      exact .inl ⟨rfl, rfl, hkind, hargs⟩
    · simp only [bind_eq_ok, pure_eq_ok, Prod.mk.injEq] at h
      obtain ⟨-, -, rfl, rfl⟩ := h
      exact .inl ⟨rfl, rfl, hkind, hargs⟩

theorem claim_ok {out : Operation} (h : l.claim env c step u db = .ok (db', out)) :
    InScope c l false db ∧ c.checkCancelled db = .ok false ∧
    ((db.operations (l.taskKey, step) = some out ∧ out.state = .completed ∧ db' = db) ∨
      ∃ row, db.operations (l.taskKey, step) = some row ∧ row.state = .prepared ∧
        InScope c l true db ∧ out = { row with state := .running, fence := some u } ∧
        db' = { db with operations := db.operations.set (l.taskKey, step) out }) := by
  simp only [claim, row, bind_eq_ok, require_eq_ok] at h
  obtain ⟨-, -, x, hscope, row, hrow, h⟩ := h
  obtain ⟨hscope, hcan⟩ := checkScope_ok hscope
  refine ⟨hscope, hcan, ?_⟩
  split_ifs at h with hstate
  · simp only [pure_eq_ok, Prod.mk.injEq] at h
    obtain ⟨rfl, rfl⟩ := h
    exact .inl ⟨hrow, hstate, rfl⟩
  · simp only [bind_eq_ok, ensure_eq_ok, decide_eq_true_eq, pure_eq_ok, Prod.mk.injEq] at h
    obtain ⟨y, hactive, -, hprep, rfl, rfl⟩ := h
    exact .inr ⟨row, hrow, hprep, (checkScope_ok hactive).1, rfl, rfl⟩

theorem running_iff {fence : Option FenceId} {row : Operation} :
    running fence row = true ↔ row.state = .running ∧ fence.isSome = true ∧ row.fence = fence := by
  simp [running, and_assoc]

theorem uncertain_ok {fence : Option FenceId} {out : Unit}
    (h : l.uncertain env c step fence db = .ok (db', out)) :
    InScope c l true db ∧ c.checkCancelled db = .ok false ∧
    db' = { db with
      operations := db.operations.update (l.taskKey, step) (running fence)
        fun row => { row with state := .uncertain } } := by
  simp only [uncertain, bind_eq_ok, pure_eq_ok, Prod.mk.injEq] at h
  obtain ⟨x, hscope, -, -, rfl, -⟩ := h
  obtain ⟨hscope, hcan⟩ := checkScope_ok hscope
  exact ⟨hscope, hcan, rfl⟩

theorem reject_ok {out : Unit} (h : l.reject env c step db = .ok (db', out)) :
    InScope c l true db ∧ c.checkCancelled db = .ok false ∧
    db' = { db with
      operations := db.operations.update (l.taskKey, step) (·.state = .prepared)
        fun row => { row with state := .rejectedNoEffect } } := by
  simp only [reject, bind_eq_ok, pure_eq_ok, Prod.mk.injEq] at h
  obtain ⟨-, -, x, hscope, -, -, rfl, -⟩ := h
  obtain ⟨hscope, hcan⟩ := checkScope_ok hscope
  exact ⟨hscope, hcan, rfl⟩

theorem artifact_ok {value : Payload} {ref : Ref} (h : artifact env u value = .ok ref) :
    ref = ⟨u, value⟩ := by
  simp only [artifact, bind_eq_ok, pure_eq_ok] at h
  obtain ⟨-, -, rfl⟩ := h
  rfl

theorem complete_ok {fence : Option FenceId} {result evidence : Payload} {out : Ref}
    (h : l.complete env c step fence result evidence u u' db = .ok (db', out)) :
    InScope c l true db ∧ c.checkCancelled db = .ok false ∧
    ∃ row, db.operations (l.taskKey, step) = some row ∧ row.state = .running ∧
      row.fence = fence ∧ out = ⟨u, result⟩ ∧
      db' = { db with
        artifacts := l.store (l.store db.artifacts ⟨u, result⟩) ⟨u', evidence⟩
        operations := db.operations.set (l.taskKey, step)
          { row with
            state := .completed
            resultRef := some ⟨u, result⟩
            evidenceRef := some ⟨u', evidence⟩ } } := by
  simp only [complete, row, bind_eq_ok, require_eq_ok, ensure_eq_ok, Bool.and_eq_true,
    decide_eq_true_eq, pure_eq_ok, Prod.mk.injEq] at h
  obtain ⟨ref, hr, ref', hr', x, hscope, row, hrow, -, ⟨hstate, hfence⟩, -, -, rfl, rfl⟩ := h
  obtain ⟨hscope, hcan⟩ := checkScope_ok hscope
  rw [artifact_ok hr, artifact_ok hr']
  exact ⟨hscope, hcan, row, hrow, hstate, hfence, rfl, rfl⟩

/-- The artifact of a reference is stored for the task. -/
def Stored (db : Db) (k : TaskKey) (ref : Ref) : Prop :=
  db.artifacts ref.id = some ⟨k.1, k.2, ref.sha256, ref.sha256⟩

theorem load_ok {ref : Ref} {out : Payload} (h : l.load env c ref seen = .ok out) :
    InScope c l false seen ∧ c.checkCancelled seen = .ok false ∧ out = ref.sha256 := by
  simp only [load, bind_eq_ok, require_eq_ok, ensure_eq_ok, pure_eq_ok, Bool.and_eq_true,
    decide_eq_true_eq] at h
  obtain ⟨x, hscope, row, -, -, ⟨-, hdata⟩, rfl⟩ := h
  obtain ⟨hscope, hcan⟩ := checkScope_ok hscope
  exact ⟨hscope, hcan, hdata⟩

/-- A stored artifact is read back. -/
theorem load_stored {ref : Ref} (hs : l.checkScope env c false seen seen = .ok ())
    (h : Stored seen l.taskKey ref) : l.load env c ref seen = .ok ref.sha256 := by
  simp only [load, bind_eq_ok, require_eq_ok, ensure_eq_ok, pure_eq_ok,
    Option.filter_eq_some_iff, Bool.and_eq_true, decide_eq_true_eq]
  exact ⟨(), hs, _, ⟨h, rfl, rfl⟩, (), ⟨rfl, rfl⟩, rfl⟩

end Ledger

namespace StepStore

variable {cursor : Cursor} {t : Time}

/-- What a cursor matches. -/
theorem stepRow_ok {run : StepRun} (h : stepRow db cursor = .ok run) :
    cursor.revision ≤ stepLimit ∧ db.stepRuns (cursor.submission, cursor.revision) = some run ∧
      run.stateRef = cursor.stateRef ∧ run.nextKind = cursor.nextKind := by
  simp only [stepRow, bind_eq_ok, ensure_eq_ok, decide_eq_true_eq, require_eq_ok,
    Option.filter_eq_some_iff, Bool.and_eq_true] at h
  obtain ⟨-, hle, hrow, href, hkind⟩ := h
  exact ⟨hle, hrow, href, hkind⟩

theorem validateCursor_ok {out : Cursor} (h : validateCursor cursor = .ok out) : out = cursor := by
  simp only [validateCursor, bind_eq_ok, pure_eq_ok] at h
  obtain ⟨-, -, rfl⟩ := h
  rfl

theorem cached_ok {run : StepRun} {out : Cursor} (h : cached env c l run seen = .ok out) :
    run.output = some out := by
  simp only [cached, bind_eq_ok, require_eq_ok, pure_eq_ok] at h
  obtain ⟨output, ho, result, hv, -, -, rfl⟩ := h
  rw [ho, validateCursor_ok hv]

theorem checkCursor_ok {x : Unit} (h : checkCursor env c l cursor db = .ok x) :
    cursor.submission = l.key ∧ Ledger.InScope c l false db := by
  simp only [checkCursor, bind_eq_ok, ensure_eq_ok, decide_eq_true_eq] at h
  obtain ⟨-, hkey, payload, hload, -⟩ := h
  exact ⟨hkey, (Ledger.load_ok hload).1⟩

theorem snapshot_ok {task : TaskRow} {value : Snapshot} (h : snapshot task = .ok value) :
    validateSnapshot (.snapshot value) = .ok value := by
  simp only [snapshot, validateSnapshot, bind_eq_ok, ensure_eq_ok, pure_eq_ok] at h
  obtain ⟨x, hx, rfl⟩ := h
  simp only [validateSnapshot, bind_eq_ok, ensure_eq_ok, pure_eq_ok]
  exact ⟨x, hx, trivial⟩

theorem put_ok {value : Snapshot} {ref : Ref}
    (h : put env c l value u seen db = .ok (db', ref)) :
    ref = ⟨u, .snapshot value⟩ ∧
      db' = { db with artifacts := l.store db.artifacts ⟨u, .snapshot value⟩ } := by
  simp only [put, bind_eq_ok, pure_eq_ok, Prod.mk.injEq] at h
  obtain ⟨-, -, ref', hr, -, -, rfl, rfl⟩ := h
  rw [Ledger.artifact_ok hr]
  exact ⟨rfl, rfl⟩

theorem create_ok {task : TaskRow} (h : Decisions.create env cursor task t db = .ok db') :
    ∃ answers, db' = { db with answers := answers } := by
  simp only [Decisions.create, bind_eq_ok, pure_eq_ok] at h
  obtain ⟨-, -, -, -, -, -, -, -, -, -, -, -, -, -, rfl⟩ := h
  exact ⟨_, rfl⟩

theorem bootstrapClaim_ok {key : SubmissionId} {settings : Settings} {out : Unit}
    (h : bootstrapClaim env key settings u db = .ok (db', out)) :
    ∃ row, db.submissions key = some row ∧
      (∃ task, db.task row.taskKey = some task ∧ task.state ≠ .cancelled) ∧
      (db' = db ∨ Store.queued row = true ∧
        db' = { db with
          submissions := db.submissions.set key { row with state := .running, fence := some u } }) := by
  simp only [bootstrapClaim, get, bind_eq_ok, require_eq_ok, Option.filter_eq_some_iff,
    ensure_eq_ok] at h
  obtain ⟨row, ⟨hrow, -⟩, -, -, -, -, -, -, -, -, -, htask, h⟩ := h
  obtain ⟨task, htask, hstate⟩ := (Option.any_eq_true _ _).1 htask
  refine ⟨row, hrow, ⟨task, htask, by simpa using hstate⟩, ?_⟩
  split_ifs at h with hq
  · simp only [pure_eq_ok, Prod.mk.injEq] at h
    exact .inr ⟨hq, h.1.symm⟩
  · simp only [bind_eq_ok, pure_eq_ok, Prod.mk.injEq] at h
    obtain ⟨-, -, rfl, -⟩ := h
    exact .inl rfl

/-- **Inversion of `bootstrap`.**  It returns the first cursor, or inserts it. -/
theorem bootstrap_ok {key : SubmissionId} {out : Cursor}
    (h : bootstrap env c l key u db = .ok (db', out)) :
    key = l.key ∧ Ledger.InScope c l false db ∧
    ((∃ old, db.stepRuns (key, 0) = some old ∧ out = old.cursor key 0 ∧ db' = db) ∨
      ∃ value, db.stepRuns (key, 0) = none ∧
        validateSnapshot (.snapshot value) = .ok value ∧
        out = (newRun .model ⟨u, .snapshot value⟩).cursor key 0 ∧
        db' = { db with
          artifacts := l.store db.artifacts ⟨u, .snapshot value⟩
          stepRuns := db.stepRuns.set (key, 0) (newRun .model ⟨u, .snapshot value⟩) }) := by
  simp only [bootstrap, bind_eq_ok, ensure_eq_ok, decide_eq_true_eq] at h
  obtain ⟨-, hkey, x, hscope, h⟩ := h
  refine ⟨hkey, (Ledger.checkScope_ok hscope).1, ?_⟩
  cases hr : db.stepRuns (key, 0) with
  | some old =>
    simp only [hr, bind_eq_ok, pure_eq_ok, Prod.mk.injEq] at h
    obtain ⟨-, -, rfl, rfl⟩ := h
    exact .inl ⟨old, rfl, rfl, rfl⟩
  | none =>
    simp only [hr, bind_eq_ok, pure_eq_ok, Prod.mk.injEq] at h
    obtain ⟨task, -, -, -, value, hvalue, ⟨db₁, ref⟩, hput, rfl, rfl⟩ := h
    obtain ⟨rfl, rfl⟩ := put_ok hput
    exact .inr ⟨value, rfl, snapshot_ok hvalue, rfl, rfl⟩

theorem claim_ok {out : Claimed} (h : claim env c l cursor u db = .ok (db', out)) :
    cursor.submission = l.key ∧ Ledger.InScope c l false db ∧
    ∃ run, stepRow db cursor = .ok run ∧
      ((run.status = .completed ∧ db' = db ∧ ∃ result, run.output = some result ∧
          out = .cached result) ∨
        (run.status = .ready ∧ out = .started u ∧
          db' = { db with
            stepRuns := db.stepRuns.set (cursor.submission, cursor.revision)
              { run with status := .running, fence := some u } })) := by
  simp only [claim, bind_eq_ok] at h
  obtain ⟨x, hcursor, -, -, run, hrun, h⟩ := h
  obtain ⟨hkey, hscope⟩ := checkCursor_ok hcursor
  refine ⟨hkey, hscope, run, hrun, ?_⟩
  split_ifs at h with hdone
  · simp only [bind_eq_ok, pure_eq_ok, Prod.mk.injEq] at h
    obtain ⟨result, hr, rfl, rfl⟩ := h
    exact .inl ⟨hdone, rfl, result, cached_ok hr, rfl⟩
  · simp only [bind_eq_ok, ensure_eq_ok, decide_eq_true_eq, pure_eq_ok, Prod.mk.injEq] at h
    obtain ⟨-, -, -, -, -, hready, rfl, rfl⟩ := h
    exact .inr ⟨hready, rfl, rfl⟩

/-- What `_commit` did: it completed the running step of `cursor`, which had the given fence. -/
structure Committed (l : Ledger) (cursor : Cursor) (fence : Option FenceId) (u : Token)
    (db db' : Db) (out : Cursor) (run : StepRun) (value : Snapshot) : Prop where
  /-- the step was running with the fence -/
  running : run.status = .running ∧ run.fence = fence
  /-- the next step was not there -/
  free : db.stepRuns (cursor.submission, cursor.revision + 1) = none
  /-- the next step is within the limit -/
  limit : cursor.revision + 1 ≤ stepLimit
  /-- the snapshot of the task is valid -/
  valid : validateSnapshot (.snapshot value) = .ok value
  /-- the next cursor -/
  out_eq : ∃ kind, out = ⟨cursor.submission, cursor.revision + 1, kind, ⟨u, .snapshot value⟩⟩
  /-- the tables -/
  db_eq : ∃ answers, db' = { db with
    artifacts := l.store db.artifacts ⟨u, .snapshot value⟩
    answers := answers
    stepRuns := advance db.stepRuns cursor out fence }

/-- **Inversion of `_commit`.** -/
theorem commitRow_ok {fence : Option FenceId} {kind : Kind} {task : TaskRow} {out : Cursor}
    (h : commitRow env c l cursor fence kind task u t seen db = .ok (db', out)) :
    ∃ run, stepRow db cursor = .ok run ∧
      ((run.status = .completed ∧ db' = db ∧ run.output = some out) ∨
        ∃ value, Committed l cursor fence u db db' out run value) := by
  simp only [commitRow, bind_eq_ok] at h
  obtain ⟨run, hrun, h⟩ := h
  refine ⟨run, hrun, ?_⟩
  split_ifs at h with hdone hhuman
  · simp only [bind_eq_ok, pure_eq_ok, Prod.mk.injEq] at h
    obtain ⟨result, hr, rfl, rfl⟩ := h
    exact .inl ⟨hdone, rfl, cached_ok hr⟩
  all_goals
    simp only [bind_eq_ok, ensure_eq_ok, Bool.and_eq_true, decide_eq_true_eq, pure_eq_ok,
      Prod.mk.injEq, Option.isNone_iff_eq_none] at h
    obtain ⟨-, hrunning, -, -, -, hlimit, value, hvalue, ⟨db₁, ref⟩, hput, db₂, hdb₂, -, hfree,
      rfl, rfl⟩ := h
    obtain ⟨rfl, rfl⟩ := put_ok hput
  · obtain ⟨answers, rfl⟩ := create_ok hdb₂
    exact .inr ⟨value, hrunning, hfree, hlimit, snapshot_ok hvalue, ⟨kind, rfl⟩, answers, rfl⟩
  · cases hdb₂
    exact .inr ⟨value, hrunning, hfree, hlimit, snapshot_ok hvalue, ⟨kind, rfl⟩, db.answers, rfl⟩

theorem commit_ok {fence : Option FenceId} {kind : Kind} {out : Cursor}
    (h : commit env c l cursor fence kind u t db = .ok (db', out)) :
    cursor.submission = l.key ∧ Ledger.InScope c l false db ∧
      ∃ run, stepRow db cursor = .ok run ∧
        ((run.status = .completed ∧ db' = db ∧ run.output = some out) ∨
          ∃ value, Committed l cursor fence u db db' out run value) := by
  simp only [commit, bind_eq_ok, ensure_eq_ok, decide_eq_true_eq] at h
  obtain ⟨-, hkey, x, hscope, task, -, h⟩ := h
  exact ⟨hkey, (Ledger.checkScope_ok hscope).1, commitRow_ok h⟩

/-- **Inversion of `recover`.**  It returns the output of a completed step or the cursor of a
ready one, completes a running step, or makes it ready again; then the operation it may have
started is not there or only prepared. -/
theorem recover_ok {out : Cursor} (h : recover env c l cursor u t db = .ok (db', out)) :
    cursor.submission = l.key ∧ Ledger.InScope c l false db ∧
    ∃ run, stepRow db cursor = .ok run ∧
      ((run.status = .completed ∧ db' = db ∧ run.output = some out) ∨
        (run.status = .ready ∧ db' = db ∧ out = cursor) ∨
        (∃ value db₁, (db₁ = db ∨ db₁ = rependTask l.taskKey db) ∧
          Committed l cursor run.fence u db₁ db' out run value) ∨
        (∃ task operation, run.status = .running ∧ out = cursor ∧
          db.task l.taskKey = some task ∧
          pendingOperation task.phase task.checkpoint = .ok operation ∧
          (∀ step, operation = some step → ∀ row, db.operations (l.taskKey, step) = some row →
            row.state = .prepared) ∧
          db' = { rependTask l.taskKey db with
            stepRuns := db.stepRuns.set (cursor.submission, cursor.revision)
              { run with status := .ready, fence := none } })) := by
  simp only [recover, bind_eq_ok] at h
  obtain ⟨x, hcursor, -, -, run, hrun, h⟩ := h
  obtain ⟨hkey, hscope⟩ := checkCursor_ok hcursor
  refine ⟨hkey, hscope, run, hrun, ?_⟩
  split_ifs at h with hdone hready
  · simp only [bind_eq_ok, pure_eq_ok, Prod.mk.injEq] at h
    obtain ⟨result, hr, rfl, rfl⟩ := h
    exact .inl ⟨hdone, rfl, cached_ok hr⟩
  · simp only [pure_eq_ok, Prod.mk.injEq] at h
    exact .inr (.inl ⟨hready, h.1.symm, h.2.symm⟩)
  · -- A step that `_commit` completes was running, so that `_commit` wrote.
    have hcommit : ∀ {kind task db₁}, (db₁ = db ∨ db₁ = rependTask l.taskKey db) →
        commitRow env c l cursor run.fence kind task u t db db₁ = .ok (db', out) →
        ∃ value, Committed l cursor run.fence u db₁ db' out run value := by
      intro kind task db₁ hdb₁ hc
      obtain ⟨run', hrun', h'⟩ := commitRow_ok hc
      have hsame : stepRow db₁ cursor = stepRow db cursor := by
        rcases hdb₁ with rfl | rfl <;> rfl
      rw [hsame, hrun] at hrun'; cases hrun'
      rcases h' with ⟨hd, -⟩ | h'
      · exact absurd hd hdone
      · exact h'
    simp only [bind_eq_ok, require_eq_ok] at h
    obtain ⟨task, htask, h⟩ := h
    split_ifs at h with hterm hsus hbound
    · obtain ⟨value, hv⟩ := hcommit (.inl rfl) h
      exact .inr (.inr (.inl ⟨value, db, .inl rfl, hv⟩))
    · obtain ⟨value, hv⟩ := hcommit (.inl rfl) h
      exact .inr (.inr (.inl ⟨value, db, .inl rfl, hv⟩))
    · simp only [bind_eq_ok] at h
      obtain ⟨-, -, kind, -, h⟩ := h
      obtain ⟨value, hv⟩ := hcommit (.inr rfl) h
      exact .inr (.inr (.inl ⟨value, _, .inr rfl, hv⟩))
    · simp only [bind_eq_ok, ensure_eq_ok, pure_eq_ok, Prod.mk.injEq] at h
      obtain ⟨-, -, operation, hop, -, hall, rfl, rfl⟩ := h
      refine .inr (.inr (.inr ⟨task, operation, ?_, rfl, htask, hop, ?_, rfl⟩))
      · cases hs : run.status with
        | running => rfl
        | ready => exact absurd hs hready
        | completed => exact absurd hs hdone
      · rintro step rfl row hrow
        simpa [hrow] using hall

/-- **Inversion of `human`.**  It returns the output of a completed step, reports a wait that
goes on, or completes the step with the fence it hands out. -/
theorem human_ok {t₁ t₂ : Time} {out : Cursor × Time}
    (h : human env c l cursor u u' t₁ t₂ db = .ok (db', out)) :
    cursor.nextKind = .human ∧ cursor.submission = l.key ∧ Ledger.InScope c l false db ∧
    ∃ run, stepRow db cursor = .ok run ∧
      ((run.status = .completed ∧ db' = db ∧ run.output = some out.1) ∨
        (run.status ≠ .completed ∧ db' = db ∧ out.1 = cursor) ∨
        (∃ task task' value db₁ db₂ answers, run.status ≠ .completed ∧
          db.task l.taskKey = some task ∧ task.state = .suspended ∧
          task'.state ≠ .cancelled ∧ task'.leaseOwner = task.leaseOwner ∧
          db₁ = { db with
            base := { db.base with tasks := db.base.tasks.set l.taskKey task' }
            stepRuns := db.stepRuns.set (cursor.submission, cursor.revision)
              { run with status := .running, fence := some u } } ∧
          Committed l cursor (some u) u' db₁ db₂ out.1
            { run with status := .running, fence := some u } value ∧
          db' = { db₂ with answers := answers })) := by
  simp only [human, bind_eq_ok, ensure_eq_ok, decide_eq_true_eq] at h
  obtain ⟨-, hkind, x, hcursor, -, -, run, hrun, h⟩ := h
  obtain ⟨hkey, hscope⟩ := checkCursor_ok hcursor
  refine ⟨hkind, hkey, hscope, run, hrun, ?_⟩
  split_ifs at h with hdone
  · simp only [bind_eq_ok, pure_eq_ok, Prod.mk.injEq] at h
    obtain ⟨result, hr, rfl, rfl⟩ := h
    exact .inl ⟨hdone, rfl, cached_ok hr⟩
  · simp only [bind_eq_ok, require_eq_ok, ensure_eq_ok, Bool.and_eq_true, decide_eq_true_eq] at h
    obtain ⟨answer, -, task, htask, -, ⟨⟨hsus, -⟩, -⟩, h⟩ := h
    split_ifs at h with hwait
    · simp only [pure_eq_ok, Prod.mk.injEq] at h
      obtain ⟨rfl, rfl⟩ := h
      exact .inr (.inl ⟨hdone, rfl, rfl⟩)
    · simp only [bind_eq_ok, pure_eq_ok, Prod.mk.injEq] at h
      obtain ⟨⟨kind, task', state⟩, hconsume, -, -, ⟨db₂, result⟩, hc, rfl, rfl⟩ := h
      obtain ⟨run', hrun', h'⟩ := commitRow_ok hc
      obtain ⟨-, hrow, -, -⟩ := stepRow_ok hrun'
      have hrow' : run' = { run with status := .running, fence := some u } := by
        simpa using hrow.symm
      subst hrow'
      rcases h' with ⟨hd, -⟩ | ⟨value, hv⟩
      · cases hd
      have htask' : task'.state ≠ .cancelled ∧ task'.leaseOwner = task.leaseOwner := by
        unfold consume at hconsume
        split_ifs at hconsume
        · cases hconsume
          exact ⟨(fun h => by cases h), rfl⟩
        · simp only [bind_eq_ok, pure_eq_ok, Prod.mk.injEq] at hconsume
          obtain ⟨-, -, -, -, -, rfl, -⟩ := hconsume
          exact ⟨(fun h => by cases h), rfl⟩
      exact .inr (.inr ⟨task, task', value, _, db₂, _, hdone, htask, hsus, htask'.1, htask'.2, rfl,
        hv, rfl⟩)

end StepStore

end Temporal

end PythonAI
