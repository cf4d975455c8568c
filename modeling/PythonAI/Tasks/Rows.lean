import PythonAI.Tasks.Store

/-!
# What one operation can do to one task row

`WorkerStep` lists every change that a worker's operation can make to the row of one task, with
the conditions under which it makes it; `HumanStep` does so for the operations of a human
(`answer`, `resolve`, `cancel`, `cancel_session`), and `RowStep` is either.  The theorems below read them off the
operations, once each.  Every invariant of task rows is proved from these relations, and no later
proof unfolds an operation.
-/

namespace PythonAI

open Library

/-- `WorkerStep u t t' r r'` : an operation of a worker, which may hand out the token `u` and
reads the clock between `t` and `t'`, turns the row `r` into `r'`. -/
inductive WorkerStep (u : Token) (t t' : Time) : Option TaskRow → Option TaskRow → Prop
  | same (r : Option TaskRow) : WorkerStep u t t' r r
  | inserted (goal : String) (messages : List Message) (episode : Option ℕ)
      (criteria : Option Criteria) {t₂ : Time} (h₂ : t ≤ t₂) (h₂' : t₂ ≤ t') :
      WorkerStep u t t' none
        (some (TaskStore.takeOver u t₂ 0 (TaskStore.newRow goal messages episode criteria)))
  | claimed (row : TaskRow) {t₁ t₂ : Time} (h₁ : t ≤ t₁) (h₂ : t₁ ≤ t₂) (h₂' : t₂ ≤ t')
      (hopen : row.state.terminal = false) (hfree : row.leased t₁ = false)
      (hphase : row.phase.started = false) (hsus : row.state ≠ .suspended)
      (hunc : row.state ≠ .uncertain) (hrec : row.recoveries < recoveryLimit) :
      WorkerStep u t t' (some row)
        (some (TaskStore.takeOver u t₂ (TaskStore.recovery row).toNat row))
  | marked (row : TaskRow) {t₁ : Time} (h₁ : t ≤ t₁) (h₁' : t₁ ≤ t')
      (hopen : row.state.terminal = false) (hfree : row.leased t₁ = false)
      (hphase : row.phase.started = true) :
      WorkerStep u t t' (some row) (some (TaskStore.mark row))
  | renewed (row : TaskRow) (token : Token) {t₁ t₂ : Time} (h₁ : t₁ ≤ t₂) (h₂ : t₂ ≤ t')
      (hheld : TaskStore.renewable token t₂ row = true) :
      WorkerStep u t t' (some row) (some { row with leaseUntil := some (t₁ + leaseTerm) })
  | saved (row : TaskRow) (token : Token) {t₁ : Time} (h₁ : t ≤ t₁) (h₁' : t₁ ≤ t')
      (hheld : TaskStore.renewable token t₁ row = true) (phase : Phase) (data : Checkpoint) :
      WorkerStep u t t' (some row) (some { row with phase := phase, checkpoint := data })
  | finished (row : TaskRow) (token : Token) {t₁ : Time} (h₁ : t ≤ t₁) (h₁' : t₁ ≤ t')
      (hheld : row.heldBy token t₁ = true) (state : TaskState) (reply : Option String) :
      WorkerStep u t t' (some row)
        (some { row.release with
          state := state, reply := reply, verification := TaskStore.quality state row })
  | lapsed (row : TaskRow) {t₁ : Time} (h₁ : t₁ ≤ t')
      (hlapsed : TaskStore.lapsed t₁ row = true) :
      WorkerStep u t t' (some row) (some { row.release with state := .uncertain })

/-- `HumanStep r r'` : an operation of a human turns the row `r` into `r'`. -/
inductive HumanStep : Option TaskRow → Option TaskRow → Prop
  | same (r : Option TaskRow) : HumanStep r r
  | answered (row : TaskRow) (call text : String) (hsus : row.state = .suspended)
      (hcall : row.checkpoint.suspendedToolCallId = some call) :
      HumanStep (some row)
        (some { row with
          state := .pending
          phase := .toolDone
          checkpoint := TaskStore.answered row.checkpoint call text
          reply := none })
  | resolved (row : TaskRow) (call text : String) (hunc : row.state = .uncertain)
      (hphase : row.phase = .toolStarted) :
      HumanStep (some row)
        (some { row.release with
          state := .pending
          phase := .toolDone
          checkpoint := TaskStore.resolved row.checkpoint call text })
  | stopped (row : TaskRow) (reply : String) (hopen : row.state.terminal = false) :
      HumanStep (some row) (some (TaskStore.stop reply row))

/-- `RowStep u t t' r r'` : an operation of a worker or of a human turns the row `r` into `r'`. -/
inductive RowStep (u : Token) (t t' : Time) : Option TaskRow → Option TaskRow → Prop
  | worker {r r' : Option TaskRow} (h : WorkerStep u t t' r r') : RowStep u t t' r r'
  | human {r r' : Option TaskRow} (h : HumanStep r r') : RowStep u t t' r r'

namespace TaskStore

variable {env : Access} {owner : Owner} {key : TaskId} {db db' : TaskDb} {u : Token} {t t' : Time}

/-! ### What a successful call did -/

/-- **Inversion of `claim`.**  A claim that does not roll back finds a terminal row and changes
nothing, inserts a row, marks a row uncertain, or takes a row over. -/
theorem claim_ok {goal : String} {messages : List Message} {episode : Option ℕ}
    {criteria : Option Criteria} {t₁ t₂ : Time} {out : Claimed}
    (h : claim env owner key goal messages episode criteria u t₁ t₂ db = .ok (db', out)) :
    (∃ row, db.tasks (owner, key) = some row ∧ row.state.terminal = true ∧ db' = db ∧
      out = .finished) ∨
    (db.tasks (owner, key) = none ∧ out = .token u ∧
      db' = { db with
        tasks := db.tasks.set (owner, key)
          (takeOver u t₂ 0 (newRow goal messages episode criteria)) }) ∨
    (∃ row, db.tasks (owner, key) = some row ∧ row.state.terminal = false ∧
      row.leased t₁ = false ∧ row.phase.started = true ∧ (∃ e, out = .refused e) ∧
      db' = { db with tasks := db.tasks.set (owner, key) (mark row) }) ∨
    (∃ row, db.tasks (owner, key) = some row ∧ row.state.terminal = false ∧
      row.leased t₁ = false ∧ row.phase.started = false ∧ row.state ≠ .suspended ∧
      row.state ≠ .uncertain ∧ row.recoveries < recoveryLimit ∧ out = .token u ∧
      db' = { db with
        tasks := db.tasks.set (owner, key) (takeOver u t₂ (recovery row).toNat row) }) := by
  simp only [claim, bind_eq_ok] at h
  obtain ⟨-, -, -, -, -, -, h⟩ := h
  cases hr : db.tasks (owner, key) with
  | none =>
    simp only [hr, bind_eq_ok, pure_eq_ok, Prod.mk.injEq] at h
    obtain ⟨-, -, -, -, -, -, rfl, rfl⟩ := h
    exact .inr (.inl ⟨rfl, rfl, rfl⟩)
  | some row =>
    simp only [hr] at h
    split_ifs at h with hterm hlease hphase hstate hrec
    · simp only [pure_eq_ok, Prod.mk.injEq] at h
      obtain ⟨rfl, rfl⟩ := h
      exact .inl ⟨row, rfl, hterm, rfl, rfl⟩
    · simp only [pure_eq_ok, Prod.mk.injEq] at h
      obtain ⟨rfl, rfl⟩ := h
      exact .inr (.inr (.inl ⟨row, rfl, by simpa using hterm, by simpa using hlease, hphase,
        ⟨_, rfl⟩, rfl⟩))
    · simp only [pure_eq_ok, Prod.mk.injEq] at h
      obtain ⟨rfl, rfl⟩ := h
      rw [not_or] at hstate
      exact .inr (.inr (.inr ⟨row, rfl, by simpa using hterm, by simpa using hlease,
        by simpa using hphase, hstate.1, hstate.2, by omega, rfl, rfl⟩))

theorem checkpoint_ok {token : Token} {phase : Phase} {data : Checkpoint}
    {step : Option StepRecord} {t₁ : Time} {out : Unit}
    (h : checkpoint env owner key token phase data step t₁ db = .ok (db', out)) :
    db.tasks.selects (owner, key) (renewable token t₁) = true ∧
    db' = { db with
      tasks := db.tasks.update (owner, key) (renewable token t₁)
        fun row => { row with phase := phase, checkpoint := data }
      steps := putSteps db.steps (owner, key) step } := by
  simp only [checkpoint, bind_eq_ok, pure_eq_ok, Prod.mk.injEq, ensure_eq_ok] at h
  obtain ⟨-, -, -, -, -, -, -, hsel, rfl, -⟩ := h
  exact ⟨hsel, rfl⟩

theorem finish_ok {token : Token} {state : TaskState} {reply : Option String} {t₁ : Time}
    {out : Unit} (h : finish env owner key token state reply t₁ db = .ok (db', out)) :
    db.tasks.selects (owner, key) (·.heldBy token t₁) = true ∧
    db' = { db with
      tasks := db.tasks.update (owner, key) (·.heldBy token t₁) fun row =>
        { row.release with
          state := state, reply := reply, verification := quality state row } } := by
  simp only [finish, bind_eq_ok, pure_eq_ok, Prod.mk.injEq, ensure_eq_ok] at h
  obtain ⟨-, -, -, -, -, hsel, rfl, -⟩ := h
  exact ⟨hsel, rfl⟩

theorem answer_ok {text : String} {out : Unit}
    (h : answer env owner key text db = .ok (db', out)) :
    ∃ row call, db.tasks (owner, key) = some row ∧ row.state = .suspended ∧
      row.checkpoint.suspendedToolCallId = some call ∧
      db' = { db with
        tasks := db.tasks.set (owner, key) { row with
          state := .pending
          phase := .toolDone
          checkpoint := answered row.checkpoint call text
          reply := none } } := by
  simp only [answer, bind_eq_ok, pure_eq_ok, Prod.mk.injEq, require_eq_ok,
    Option.filter_eq_some_iff, decide_eq_true_eq] at h
  obtain ⟨-, -, -, -, row, ⟨hrow, hsus⟩, call, hcall, -, -, rfl, -⟩ := h
  exact ⟨row, call, hrow, hsus, hcall, rfl⟩

/-- **Inversion of `resolve`.**  It requires an uncertain row in phase `tool_started` and a
running step of the given name, appends one tool message, and records the step as resolved. -/
theorem resolve_ok {callId text : String} {out : Unit}
    (h : resolve env owner key callId text db = .ok (db', out)) :
    ∃ row step, db.tasks (owner, key) = some row ∧ row.state = .uncertain ∧
      row.phase = .toolStarted ∧ db.steps ((owner, key), callId) = some step ∧
      step.state = .running ∧
      db' = { db with
        tasks := db.tasks.set (owner, key) { row.release with
          state := .pending
          phase := .toolDone
          checkpoint := resolved row.checkpoint callId text }
        steps := db.steps.set ((owner, key), callId)
          { step with state := .resolvedByHuman, result := some text } } := by
  simp only [resolve, bind_eq_ok, pure_eq_ok, Prod.mk.injEq, require_eq_ok,
    Option.filter_eq_some_iff, decide_eq_true_eq, Bool.and_eq_true] at h
  obtain ⟨-, -, -, -, row, ⟨hrow, hunc, hphase⟩, step, ⟨hstep, hrun⟩, -, -, rfl, -⟩ := h
  exact ⟨row, step, hrow, hunc, hphase, hstep, hrun, rfl⟩

theorem bindWorkspace_ok {token : Token} {repository storage : String} {out : Unit}
    (h : bindWorkspace env owner key token repository storage db = .ok (db', out)) :
    db'.tasks = db.tasks ∧ db'.steps = db.steps ∧ db'.resets = db.resets := by
  simp only [bindWorkspace, bind_eq_ok] at h
  obtain ⟨-, -, h⟩ := h
  cases hw : db.workspaces (owner, key) with
  | none =>
    simp only [hw, bind_eq_ok, pure_eq_ok, Prod.mk.injEq] at h
    obtain ⟨-, -, rfl, -⟩ := h
    exact ⟨rfl, rfl, rfl⟩
  | some w =>
    simp only [hw, pure_eq_ok, Prod.mk.injEq, and_true] at h
    subst h
    exact ⟨rfl, rfl, rfl⟩

/-! ### The change of one row -/

/-- A write under one key changes the row of that key only. -/
theorem set_cases {R : Option TaskRow → Option TaskRow → Prop} (hR : ∀ r, R r r) {r : TaskRow}
    {k : TaskKey} (h : R (db.tasks k) (some r)) (k' : TaskKey) :
    R (db.tasks k') ((db.tasks.set k r) k') := by
  by_cases hk : k' = k
  · subst hk; simpa using h
  · rw [Table.set_of_ne _ _ _ hk]; exact hR _

/-- An update under one key changes the row of that key only, and only if it is selected. -/
theorem update_cases {R : Option TaskRow → Option TaskRow → Prop} (hR : ∀ r, R r r) {k : TaskKey}
    {p : TaskRow → Bool} {f : TaskRow → TaskRow}
    (h : ∀ row, p row = true → R (some row) (some (f row))) (k' : TaskKey) :
    R (db.tasks k') ((db.tasks.update k p f) k') := by
  rcases db.tasks.update_cases k p f k' with hs | ⟨row, -, hrow, hp, hs⟩
  · rw [hs]; exact hR _
  · rw [hs, hrow]; exact h row hp

theorem claim_workerStep {goal : String} {messages : List Message} {episode : Option ℕ}
    {criteria : Option Criteria} {t₁ t₂ : Time} {out : Claimed} (h₁ : t ≤ t₁) (h₂ : t₁ ≤ t₂)
    (h₂' : t₂ ≤ t')
    (h : claim env owner key goal messages episode criteria u t₁ t₂ db = .ok (db', out))
    (k : TaskKey) : WorkerStep u t t' (db.tasks k) (db'.tasks k) := by
  rcases claim_ok h with ⟨row, -, -, hdb, -⟩ | ⟨hrow, -, rfl⟩ |
    ⟨row, hrow, hopen, hfree, hphase, -, rfl⟩ |
    ⟨row, hrow, hopen, hfree, hphase, hsus, hunc, hrec, -, rfl⟩
  · rw [hdb]; exact .same _
  · exact set_cases .same (hrow ▸ .inserted goal messages episode criteria (h₁.trans h₂) h₂') k
  · exact set_cases .same (hrow ▸ .marked row h₁ (h₂.trans h₂') hopen hfree hphase) k
  · exact set_cases .same
      (hrow ▸ .claimed row h₁ h₂ h₂' hopen hfree hphase hsus hunc hrec) k

theorem renew_workerStep {token : Token} {t₁ t₂ : Time} (h₁ : t₁ ≤ t₂) (h₂ : t₂ ≤ t')
    (k : TaskKey) :
    WorkerStep u t t' (db.tasks k) ((renew owner key token t₁ t₂ db).1.tasks k) :=
  update_cases .same (fun row hp => .renewed row token h₁ h₂ hp) k

theorem checkpoint_workerStep {token : Token} {phase : Phase} {data : Checkpoint}
    {step : Option StepRecord} {t₁ : Time} {out : Unit} (h₁ : t ≤ t₁) (h₁' : t₁ ≤ t')
    (h : checkpoint env owner key token phase data step t₁ db = .ok (db', out)) (k : TaskKey) :
    WorkerStep u t t' (db.tasks k) (db'.tasks k) := by
  obtain ⟨-, rfl⟩ := checkpoint_ok h
  exact update_cases .same (fun row hp => .saved row token h₁ h₁' hp phase data) k

theorem finish_workerStep {token : Token} {state : TaskState} {reply : Option String} {t₁ : Time}
    {out : Unit} (h₁ : t ≤ t₁) (h₁' : t₁ ≤ t')
    (h : finish env owner key token state reply t₁ db = .ok (db', out)) (k : TaskKey) :
    WorkerStep u t t' (db.tasks k) (db'.tasks k) := by
  obtain ⟨-, rfl⟩ := finish_ok h
  exact update_cases .same (fun row hp => .finished row token h₁ h₁' hp state reply) k

theorem markUncertain_workerStep {t₁ : Time} (h₁ : t₁ ≤ t') (k : TaskKey) :
    WorkerStep u t t' (db.tasks k) ((markUncertain owner key t₁ db).tasks k) :=
  update_cases .same (fun row hp => .lapsed row h₁ hp) k

theorem bindWorkspace_workerStep {token : Token} {repository storage : String} {out : Unit}
    (h : bindWorkspace env owner key token repository storage db = .ok (db', out))
    (k : TaskKey) : WorkerStep u t t' (db.tasks k) (db'.tasks k) := by
  rw [(bindWorkspace_ok h).1]; exact .same _

theorem answer_humanStep {text : String} {out : Unit}
    (h : answer env owner key text db = .ok (db', out)) (k : TaskKey) :
    HumanStep (db.tasks k) (db'.tasks k) := by
  obtain ⟨row, call, hrow, hsus, hcall, rfl⟩ := answer_ok h
  exact set_cases .same (hrow ▸ .answered row call text hsus hcall) k

theorem resolve_humanStep {callId text : String} {out : Unit}
    (h : resolve env owner key callId text db = .ok (db', out)) (k : TaskKey) :
    HumanStep (db.tasks k) (db'.tasks k) := by
  obtain ⟨row, step, hrow, hunc, hphase, -, -, rfl⟩ := resolve_ok h
  exact set_cases .same (hrow ▸ .resolved row callId text hunc hphase) k

theorem cancel_humanStep (k : TaskKey) :
    HumanStep (db.tasks k) ((cancel owner key db).1.tasks k) :=
  update_cases .same (fun row hp => .stopped row "Task cancelled" (by simpa using hp)) k

theorem cancelSession_humanStep {t₁ : Time} (k : TaskKey) :
    HumanStep (db.tasks k) ((cancelSession owner t₁ db).tasks k) := by
  rcases db.tasks.updateWhere_cases (stop "Session cleared")
      (fun k row => k.1 = owner && !row.state.terminal) k with hs | ⟨row, hrow, hp, hs⟩
  · simp only [cancelSession]; rw [hs]; exact .same _
  · simp only [cancelSession]
    rw [hs, hrow]
    rw [Bool.and_eq_true] at hp
    exact .stopped row "Session cleared" (by simpa using hp.2)

end TaskStore

end PythonAI
