import Mathlib.Logic.Relation
import PythonAI.Temporal.Chain
import PythonAI.Temporal.Submissions

/-!
# Human waits

A human step is created together with a row that waits for the answer to the suspended call.
`Decisions.answer` takes an answer in one transaction, and `StepStore.human` consumes it, or lets
the wait expire, in another one, called by whom and when it may.

* `Stage` : the life of a wait, and `Wait.At` : what the tables hold at each stage of it
* `StepStore.human_cases` and `Decisions.answer_cases` : what the two operations do
* `Wait.At.step` : **an operation leaves the stage of a wait or takes it to a next one**
* `Sys.one_outcome` : **a human wait has one answer at most and one outcome**
-/

namespace PythonAI

open Library

namespace Temporal

/-! ### The two operations -/

namespace StepStore

variable {env : Access} {c : Caller} {l : Ledger} {cursor : Cursor} {u u' : Token}
  {t t₁ t₂ : Time} {seen db db' : Db} {task task' : TaskRow} {answer : HumanAnswer} {kind : Kind}

/-- The task of a wait that expired. -/
def lapsed (task : TaskRow) : TaskRow :=
  { task with state := .failed, reply := some "Error: Human answer wait expired" }

/-- The task of a wait whose answer was consumed. -/
def resumed (task : TaskRow) (call text : String) : TaskRow :=
  { task with
    state := .pending
    phase := .toolDone
    checkpoint := TaskStore.answered task.checkpoint call text
    reply := none }

/-- A wait is over because it expired, or because it was answered in time. -/
theorem consume_ok {state : AnswerState} (h : consume answer task t = .ok (kind, task', state)) :
    (answer.expires ≤ t ∧ kind = .finalize ∧ task' = lapsed task ∧ state = .expired) ∨
      (t < answer.expires ∧ answer.state = .answered ∧ state = .consumed ∧
        ∃ call, task.checkpoint.suspendedToolCallId = some call ∧
          task' = resumed task call (answer.answer.getD "") ∧
          nextKind .toolDone task'.checkpoint = .ok kind) := by
  unfold consume at h
  split_ifs at h with hlate hanswered
  · cases h
    exact .inl ⟨hlate, rfl, rfl, rfl⟩
  · simp only [bind_eq_ok, require_eq_ok, pure_eq_ok, Prod.mk.injEq] at h
    obtain ⟨call, hcall, next, hnext, rfl, rfl, rfl⟩ := h
    exact .inr ⟨not_le.1 hlate, hanswered, rfl, call, hcall, rfl, hnext⟩

/-- The step that follows a wait is no wait. -/
theorem consume_kind {state : AnswerState} (h : consume answer task t = .ok (kind, task', state)) :
    kind ≠ .human := by
  rcases consume_ok h with ⟨-, rfl, -⟩ | ⟨-, -, -, call, -, -, hnext⟩
  · nofun
  · rw [nextKind] at hnext
    cases hnext
    split_ifs <;> nofun

/-- `_commit` of a running step, for a next step that waits for nobody. -/
theorem commitRow_running {run : StepRun} {fence : Option FenceId} {out : Cursor}
    (h : commitRow env c l cursor fence kind task u t seen db = .ok (db', out))
    (hrun : db.stepRuns (cursor.submission, cursor.revision) = some run)
    (hrunning : run.status = .running) (hkind : kind ≠ .human) :
    ∃ ref, out = ⟨cursor.submission, cursor.revision + 1, kind, ref⟩ ∧
      db' = { db with
        artifacts := l.store db.artifacts ref
        stepRuns := advance db.stepRuns cursor out fence } := by
  simp only [commitRow, bind_eq_ok, if_neg hkind] at h
  obtain ⟨run', hrow, h⟩ := h
  obtain ⟨-, hrow, -⟩ := stepRow_ok hrow
  rw [hrun] at hrow; cases hrow
  rw [if_neg (by rw [hrunning]; nofun)] at h
  simp only [bind_eq_ok, pure_eq_ok, Prod.mk.injEq] at h
  obtain ⟨-, -, -, -, -, -, value, -, ⟨db₁, ref⟩, hput, db₂, hdb₂, -, -, rfl, rfl⟩ := h
  obtain ⟨rfl, rfl⟩ := put_ok hput
  cases hdb₂
  exact ⟨_, rfl, rfl⟩

/-- The step of a cursor is completed, the wait of it gets the given state, and the task becomes
`task'`. -/
structure Resolved (l : Ledger) (cursor : Cursor) (u : FenceId) (run : StepRun) (kind : Kind)
    (task' : TaskRow) (state : AnswerState) (db db' : Db) : Prop where
  /-- the tables of `TaskStore` -/
  base : db'.base = { db.base with tasks := db.base.tasks.set l.taskKey task' }
  /-- the submissions -/
  submissions : db'.submissions = db.submissions
  /-- the answers -/
  answers : db'.answers = db.answers.update (cursor.submission, cursor.revision)
    (fun _ => true) fun answer => { answer with state := state }
  /-- the steps -/
  steps : ∃ ref, db'.stepRuns = advance
    (db.stepRuns.set (cursor.submission, cursor.revision)
      { run with status := .running, fence := some u })
    cursor ⟨cursor.submission, cursor.revision + 1, kind, ref⟩ (some u)

/-- **Inversion of `human`**, with the row of the answer. -/
theorem human_cases {out : Cursor × Time}
    (h : human env c l cursor u u' t₁ t₂ db = .ok (db', out)) :
    cursor.nextKind = .human ∧ cursor.submission = l.key ∧ Ledger.InScope c l false db ∧
    ∃ run, stepRow db cursor = .ok run ∧
      ((run.status = .completed ∧ db' = db) ∨
        run.status ≠ .completed ∧ ∃ answer task,
          db.answers (cursor.submission, cursor.revision) = some answer ∧
          db.task l.taskKey = some task ∧ task.state = .suspended ∧
          ((answer.state = .waiting ∧ t₁ < answer.expires ∧ db' = db) ∨
            ¬(answer.state = .waiting ∧ t₁ < answer.expires) ∧
              ∃ kind task' state, consume answer task t₂ = .ok (kind, task', state) ∧
                Resolved l cursor u run kind task' state db db')) := by
  simp only [human, bind_eq_ok, ensure_eq_ok, decide_eq_true_eq] at h
  obtain ⟨-, hkind, x, hcursor, -, -, run, hrun, h⟩ := h
  obtain ⟨hkey, hscope⟩ := checkCursor_ok hcursor
  refine ⟨hkind, hkey, hscope, run, hrun, ?_⟩
  split_ifs at h with hdone
  · simp only [bind_eq_ok, pure_eq_ok, Prod.mk.injEq] at h
    obtain ⟨-, -, rfl, -⟩ := h
    exact .inl ⟨hdone, rfl⟩
  · simp only [bind_eq_ok, require_eq_ok, ensure_eq_ok, Bool.and_eq_true, decide_eq_true_eq] at h
    obtain ⟨answer, hanswer, task, htask, -, ⟨⟨hsus, -⟩, -⟩, h⟩ := h
    refine .inr ⟨hdone, answer, task, hanswer, htask, hsus, ?_⟩
    split_ifs at h with hwait
    · simp only [pure_eq_ok, Prod.mk.injEq] at h
      exact .inl ⟨hwait.1, hwait.2, h.1.symm⟩
    · simp only [bind_eq_ok, pure_eq_ok, Prod.mk.injEq] at h
      obtain ⟨⟨kind, task', state⟩, hconsume, -, -, ⟨db₂, result⟩, hc, rfl, -⟩ := h
      obtain ⟨ref, rfl, rfl⟩ := commitRow_running hc (Table.set_same _ _ _) rfl
        (consume_kind hconsume)
      exact .inr ⟨hwait, kind, task', state, hconsume, rfl, rfl, rfl, ref, rfl⟩

end StepStore

/-- **Inversion of `Decisions.answer`.**  The answer is already there, or it is written to a row
that waits. -/
theorem Decisions.answer_cases {env : Access} {key : SubmissionId} {owner : Owner}
    {callId text : String} {revision : ℕ} {t : Time} {db db' : Db} {x : Unit}
    (h : Decisions.answer env key owner callId text revision t db = .ok (db', x)) :
    ∃ wait, db.answers (key, revision) = some wait ∧ wait.callId = callId ∧
      (((wait.state = .answered ∨ wait.state = .consumed) ∧ wait.answer = some text ∧ db' = db) ∨
        (wait.state = .waiting ∧ t < wait.expires ∧
          db' = { db with
            answers := db.answers.set (key, revision) { wait with
              answer := some text
              state := .answered
              delivery := .pending } })) := by
  simp only [Decisions.answer, bind_eq_ok, require_eq_ok, Option.filter_eq_some_iff,
    decide_eq_true_eq] at h
  obtain ⟨-, -, row, -, engine, -, -, -, -, -, -, -, task, -, wait, ⟨hwait, hcall⟩, h⟩ := h
  refine ⟨wait, hwait, hcall, ?_⟩
  split_ifs at h with hsame
  · simp only [pure_eq_ok, Prod.mk.injEq] at h
    simp only [Bool.and_eq_true, Bool.or_eq_true, decide_eq_true_eq] at hsame
    exact .inl ⟨hsame.1, hsame.2, h.1.symm⟩
  · simp only [bind_eq_ok, ensure_eq_ok, Bool.and_eq_true, decide_eq_true_eq, pure_eq_ok,
      Prod.mk.injEq] at h
    obtain ⟨-, ⟨⟨hstate, htime⟩, -⟩, -, -, rfl, -⟩ := h
    exact .inr ⟨hstate, htime, rfl⟩

/-! ### The life of a wait -/

/-- How far a wait is. -/
inductive Stage
  /-- nobody answered -/
  | waiting
  /-- an answer was accepted -/
  | answered (text : String)
  /-- the answer was given to the task -/
  | consumed (text : String)
  /-- the wait expired, perhaps with an accepted answer -/
  | expired (text : Option String)
  deriving DecidableEq, Repr

namespace Stage

/-- The answer that was accepted. -/
def accepted : Stage → Option String
  | waiting => none
  | answered text | consumed text => some text
  | expired text => text

/-- The state of the row. -/
def state : Stage → AnswerState
  | waiting => .waiting
  | answered _ => .answered
  | consumed _ => .consumed
  | expired _ => .expired

/-- The wait is over. -/
def resolved : Stage → Bool
  | consumed _ | expired _ => true
  | _ => false

/-- The row of the wait, which was `answer` at first. -/
def row (answer : HumanAnswer) (st : Stage) : HumanAnswer :=
  { answer with
    answer := st.accepted
    state := st.state
    delivery := if st.accepted.isSome then .pending else answer.delivery }

/-- The stages that follow a stage. -/
inductive Next : Stage → Stage → Prop
  | accept (text : String) : Next waiting (answered text)
  | consume (text : String) : Next (answered text) (consumed text)
  | expire : Next waiting (expired none)
  | miss (text : String) : Next (answered text) (expired (some text))

variable {st st' : Stage} {text : String}

/-- A stage is determined by its row. -/
theorem row_injective {answer : HumanAnswer} (h : st.row answer = st'.row answer) : st = st' := by
  have haccepted : st.accepted = st'.accepted := congrArg HumanAnswer.answer h
  have hstate : st.state = st'.state := congrArg HumanAnswer.state h
  cases st <;> cases st' <;> simp_all [accepted, state]

/-- An accepted answer stays. -/
theorem Next.accepted (h : Next st st') (ht : st.accepted = some text) :
    st'.accepted = some text := by
  cases h with
  | accept | expire => cases ht
  | consume | miss => exact ht

/-- A wait that is over stays so. -/
theorem Next.unresolved (h : Next st st') : st.resolved = false := by
  cases h <;> rfl

theorem accepted_of_reaches (h : Relation.ReflTransGen Next st st') (ht : st.accepted = some text) :
    st'.accepted = some text := by
  induction h with
  | refl => exact ht
  | tail _ hnext ih => exact hnext.accepted ih

theorem eq_of_reaches (h : Relation.ReflTransGen Next st st') (hst : st.resolved = true) :
    st' = st := by
  induction h with
  | refl => rfl
  | tail _ hnext ih =>
    subst ih
    rw [hnext.unresolved] at hst; cases hst

end Stage

/-- A human step that waits: its row and its task at the time it is created. -/
structure Wait where
  /-- the submission -/
  submission : SubmissionId
  /-- the revision of the step -/
  revision : ℕ
  /-- the task -/
  taskKey : TaskKey
  /-- the step -/
  run : StepRun
  /-- the row of the task -/
  task : TaskRow
  /-- the row of the wait -/
  answer : HumanAnswer
  /-- the step is a human one -/
  human : run.nextKind = .human
  /-- the step is not completed -/
  opened : run.status ≠ .completed
  /-- nobody answered -/
  fresh : Stage.waiting.row answer = answer
  /-- the task is suspended on the call -/
  suspended : task.state = .suspended ∧
    task.checkpoint.suspendedToolCallId = some answer.callId

namespace Wait

variable (w : Wait) {st st' : Stage} {db db' : Db} {s s' : Sys} {o : Op} {ops : List Op}

/-- The key of the step and of the row. -/
def key : SubmissionId × ℕ := (w.submission, w.revision)

/-- The row of the task at a stage. -/
def taskAt : Stage → TaskRow
  | .waiting | .answered _ => w.task
  | .consumed text => StepStore.resumed w.task w.answer.callId text
  | .expired _ => StepStore.lapsed w.task

/-- The step is completed, and the next one, of the given kind, is ready. -/
def Followed (db : Db) (kind : Kind) : Prop :=
  ∃ fence ref,
    db.stepRuns w.key = some { w.run with
      status := .completed
      fence := fence
      output := some ⟨w.submission, w.revision + 1, kind, ref⟩ } ∧
    db.stepRuns (w.submission, w.revision + 1) = some (StepStore.newRun kind ref)

/-- The steps at a stage. -/
def StepsAt (db : Db) : Stage → Prop
  | .waiting | .answered _ => db.stepRuns w.key = some w.run
  | .consumed text => ∃ kind,
    nextKind .toolDone (w.taskAt (.consumed text)).checkpoint = .ok kind ∧ w.Followed db kind
  | .expired _ => w.Followed db .finalize

/-- **The wait is at a stage.** -/
structure At (db : Db) (st : Stage) : Prop where
  /-- the submission is there -/
  submission : ∃ row, db.submissions w.submission = some row ∧ row.taskKey = w.taskKey
  /-- the row of the wait -/
  answer : db.answers w.key = some (st.row w.answer)
  /-- the row of the task -/
  task : db.task w.taskKey = some (w.taskAt st)
  /-- the steps -/
  steps : w.StepsAt db st

variable {w}

theorem At.unique (h : w.At db st) (h' : w.At db st') : st = st' :=
  Stage.row_injective (Option.some.inj (h.answer.symm.trans h'.answer))

/-- The stage depends on the tables only. -/
theorem At.frame (h : w.At db st) (hsub : db'.submissions = db.submissions)
    (hanswer : db'.answers w.key = db.answers w.key)
    (htask : db'.task w.taskKey = db.task w.taskKey)
    (hruns : ∀ r, db'.stepRuns (w.submission, r) = db.stepRuns (w.submission, r)) :
    w.At db' st where
  submission := by
    rw [hsub]
    exact h.submission
  answer := hanswer.trans h.answer
  task := htask.trans h.task
  steps := by
    have hsteps := h.steps
    have hfollowed : ∀ kind, w.Followed db kind → w.Followed db' kind := by
      rintro kind ⟨fence, ref, hrun, hnext⟩
      exact ⟨fence, ref, (hruns _).trans hrun, (hruns _).trans hnext⟩
    cases st with
    | waiting | answered => exact (hruns _).trans hsteps
    | consumed text =>
      obtain ⟨kind, hkind, hfol⟩ := hsteps
      exact ⟨kind, hkind, hfollowed kind hfol⟩
    | expired => exact hfollowed _ hsteps

end Wait

/-! ### The steps of a wait -/

theorem StepStore.Resolved.stepRuns {l : Ledger} {cursor : Cursor} {u : FenceId} {run : StepRun}
    {kind : Kind} {task' : TaskRow} {state : AnswerState} {db db' : Db}
    (h : StepStore.Resolved l cursor u run kind task' state db db') :
    ∃ ref, ∀ key r, db'.stepRuns (key, r) =
      (if key = cursor.submission then
        Function.update (Function.update (fun r => db.stepRuns (key, r)) (cursor.revision + 1)
          (some (StepStore.newRun kind ref))) cursor.revision
          (some { run with
            status := .completed
            fence := some u
            output := some ⟨cursor.submission, cursor.revision + 1, kind, ref⟩ })
      else fun r => db.stepRuns (key, r)) r := by
  obtain ⟨ref, hruns⟩ := h.steps
  refine ⟨ref, fun key r => ?_⟩
  rw [hruns]
  exact congrFun (advance_steps db.stepRuns cursor run kind ref (rfl : (some u).isSome = true) key) r

namespace Wait

section

variable {w : Wait} {st st' : Stage} {db db' : Db} {s s' : Sys} {env : Access} {c : Caller}
  {l : Ledger} {cursor : Cursor} {u u' : Token} {t t₁ t₂ : Time}

/-- An answer to another wait leaves the stage as it is; an answer to the wait is the accepted one,
or it is accepted. -/
theorem At.answered {key : SubmissionId} {owner : Owner} {callId text : String} {revision : ℕ}
    {x : Unit} (h : w.At db st)
    (hok : Decisions.answer env key owner callId text revision t db = .ok (db', x)) :
    ((key, revision) ≠ w.key ∧ w.At db' st) ∨
      (key, revision) = w.key ∧ ((st.accepted = some text ∧ db' = db) ∨
        (st = .waiting ∧ w.At db' (.answered text))) := by
  obtain ⟨wait, hwait, -, hcase⟩ := Decisions.answer_cases hok
  by_cases hkey : (key, revision) = w.key
  · refine .inr ⟨hkey, ?_⟩
    rw [hkey, h.answer] at hwait
    obtain rfl := Option.some.inj hwait
    rcases hcase with ⟨-, htext, rfl⟩ | ⟨hstate, -, rfl⟩
    · exact .inl ⟨htext, rfl⟩
    · have hst : st = .waiting := by
        cases st <;> first | rfl | cases hstate
      subst hst
      refine .inr ⟨rfl, ⟨h.submission, ?_, h.task, h.steps⟩⟩
      rw [hkey]
      exact Table.set_same _ _ _
  · refine .inl ⟨hkey, ?_⟩
    rcases hcase with ⟨-, -, rfl⟩ | ⟨-, -, rfl⟩
    · exact h
    · exact h.frame rfl (Table.set_of_ne _ _ _ (Ne.symm hkey)) rfl fun _ => rfl

/-- The step of the wait and the one after it, when the wait is over. -/
theorem followed {kind : Kind} {task' : TaskRow} {state : AnswerState}
    (h : StepStore.Resolved l cursor u w.run kind task' state db db')
    (hsub : cursor.submission = w.submission) (hrev : cursor.revision = w.revision) :
    w.Followed db' kind := by
  obtain ⟨ref, hruns⟩ := h.stepRuns
  refine ⟨some u, ref, ?_, ?_⟩
  · rw [key, hruns, if_pos hsub.symm, ← hrev, Function.update_self, hsub]
  · rw [hruns, if_pos hsub.symm, hrev, Function.update_of_ne (Nat.succ_ne_self _),
      Function.update_self]

/-- The ledger of the submission of the wait is the one of its task. -/
theorem At.taskKey (h : w.At db st) {active : Bool} (hscope : Ledger.InScope c l active db)
    (hkey : w.submission = l.key) : l.taskKey = w.taskKey := by
  obtain ⟨row, hrow, htask⟩ := h.submission
  obtain ⟨row', hrow', htask', -⟩ := hscope.submission
  rw [← hkey, hrow] at hrow'
  obtain rfl := Option.some.inj hrow'
  exact htask'.symm.trans htask

/-- A probe of the wait reports that it goes on, or ends it. -/
theorem At.probed {out : Cursor × Time} (h : w.At db st) (hst : st.resolved = false)
    (hok : StepStore.human env c l cursor u u' t₁ t₂ db = .ok (db', out))
    (hcursor : (cursor.submission, cursor.revision) = w.key) :
    (st = .waiting ∧ t₁ < w.answer.expires ∧ db' = db) ∨
      ¬(st = .waiting ∧ t₁ < w.answer.expires) ∧
        ∃ st', st.Next st' ∧ st'.resolved = true ∧ w.At db' st' := by
  obtain ⟨-, hkey, hscope, run, hrun, hcase⟩ := StepStore.human_cases hok
  obtain ⟨hsub, hrev⟩ := Prod.mk.inj hcursor
  have htaskKey := h.taskKey hscope (hsub.symm.trans hkey)
  have hopen : db.stepRuns w.key = some w.run ∧ w.taskAt st = w.task := by
    have hsteps := h.steps
    cases st with
    | waiting | answered => exact ⟨hsteps, rfl⟩
    | consumed | expired => cases hst
  obtain rfl : w.run = run := by
    have hrow := (StepStore.stepRow_ok hrun).2.1
    rw [hcursor, hopen.1] at hrow
    exact Option.some.inj hrow
  rcases hcase with ⟨hdone, -⟩ | ⟨-, answer, task, hanswer, htask, -, hcase⟩
  · exact absurd hdone w.opened
  rw [hcursor, h.answer] at hanswer
  obtain rfl := Option.some.inj hanswer
  rw [htaskKey, h.task, hopen.2] at htask
  obtain rfl := Option.some.inj htask
  have hstate : (st.row w.answer).state = .waiting ↔ st = .waiting := by
    cases st <;> simp [Stage.row, Stage.state]
  rw [hstate] at hcase
  refine hcase.imp id ?_
  rintro ⟨hwait, kind, task', state, hconsume, hres⟩
  refine ⟨hwait, ?_⟩
  have hfollowed := followed hres hsub hrev
  -- The row keeps its answer, and the task becomes `task'`.
  have hat : ∀ st' : Stage, st'.accepted = st.accepted → st'.state = state → w.taskAt st' = task' →
      w.StepsAt db' st' → w.At db' st' := by
    intro st' haccepted hstate' htask' hsteps
    refine ⟨?_, ?_, ?_, hsteps⟩
    · rw [hres.submissions]
      exact h.submission
    · rw [hres.answers, hcursor, Table.update_same, h.answer, Option.map_some, Stage.row, Stage.row,
        haccepted, hstate']
      rfl
    · rw [Db.task, hres.base, htaskKey, htask']
      exact Table.set_same _ _ _
  rcases StepStore.consume_ok hconsume with ⟨-, rfl, rfl, rfl⟩ |
    ⟨-, hanswered, rfl, call, hcall, rfl, hnext⟩
  · cases st with
    | waiting => exact ⟨_, .expire, rfl, hat (.expired none) rfl rfl rfl hfollowed⟩
    | answered text => exact ⟨_, .miss text, rfl, hat (.expired (some text)) rfl rfl rfl hfollowed⟩
    | consumed | expired => cases hst
  · cases st with
    | answered text =>
      obtain rfl := Option.some.inj (w.suspended.2.symm.trans hcall)
      exact ⟨_, .consume text, rfl, hat (.consumed text) rfl rfl rfl ⟨kind, hnext, hfollowed⟩⟩
    | waiting | expired => cases hanswered
    | consumed => cases hst

/-- Only one step of a submission is open. -/
theorem Linear.eq_of_open {key : SubmissionId} {n r : ℕ} {run : StepRun} (h : Linear db key n)
    (hrun : db.stepRuns (key, r) = some run) (hopen : run.status ≠ .completed) : r = n := by
  have hle : r ≤ n := (h.range r).1 (by rw [hrun]; rfl)
  by_contra hne
  obtain ⟨run', -, hrun', -, hdone, -⟩ := h.below r (by omega)
  rw [hrun] at hrun'
  obtain rfl := Option.some.inj hrun'
  exact hopen hdone

/-- A probe of another step leaves the stage as it is, and a wait that is over is left alone. -/
theorem At.other {out : Cursor × Time} (hs : Chained s) (hi : Indexed s) (h : w.At s.db st)
    (hok : StepStore.human env c l cursor u u' t₁ t₂ s.db = .ok (db', out))
    (hother : (cursor.submission, cursor.revision) ≠ w.key ∨ st.resolved = true) :
    w.At db' st := by
  obtain ⟨-, hkey, hscope, run, hrun, hcase⟩ := StepStore.human_cases hok
  have hrow := (StepStore.stepRow_ok hrun).2.1
  rcases hcase with ⟨-, rfl⟩ | ⟨hopen, answer, task, -, htask, hsus, hcase⟩
  · exact h
  by_cases hsub : cursor.submission = w.submission
  · -- The task is suspended, so that the wait is open, but another step is open.
    rw [h.taskKey hscope (hsub.symm.trans hkey), h.task] at htask
    obtain rfl := Option.some.inj htask
    have hrev : cursor.revision = w.revision := by
      have hw : s.db.stepRuns (w.submission, w.revision) = some w.run := by
        have hsteps := h.steps
        cases st with
        | waiting | answered => exact hsteps
        | consumed | expired => cases hsus
      rcases hs.linear w.submission with hnone | ⟨n, hn⟩
      · rw [hnone] at hw
        cases hw
      · rw [hsub] at hrow
        exact (Linear.eq_of_open hn hrow hopen).trans (Linear.eq_of_open hn hw w.opened).symm
    rcases hother with hne | hres
    · exact absurd (Prod.ext hsub hrev) hne
    · cases st with
      | waiting | answered => cases hres
      | consumed | expired => cases hsus
  · rcases hcase with ⟨-, -, rfl⟩ | ⟨-, kind, task', state, -, hres⟩
    · exact h
    have htaskKey : w.taskKey ≠ l.taskKey := by
      intro heq
      obtain ⟨row, hrow, htask'⟩ := h.submission
      obtain ⟨row', hrow', htask'', -⟩ := hscope.submission
      have hname := hi.named _ row hrow
      rw [htask', heq, ← htask'', hi.named _ row' hrow'] at hname
      exact hsub (hkey.trans (Option.some.inj hname))
    obtain ⟨ref, hruns⟩ := hres.stepRuns
    refine h.frame hres.submissions ?_ ?_ fun r => ?_
    · rw [hres.answers]
      exact Table.update_of_ne _ _ _ _ fun heq => hsub (congrArg Prod.fst heq).symm
    · rw [Db.task, hres.base]
      exact Table.set_of_ne _ _ _ htaskKey
    · rw [hruns, if_neg (Ne.symm hsub)]

end

end Wait

/-! ### Runs -/

/-- The operation answers or probes a wait. -/
def Op.onWait : Op → Bool
  | answer .. | human .. => true
  | _ => false

namespace Wait

variable {w : Wait} {st : Stage} {s : Sys} {o : Op} {ops : List Op} {text : String}

/-- The operation gives the wait an answer, and is not refused. -/
def Takes (w : Wait) (s : Sys) (o : Op) (text : String) : Prop :=
  ∃ env owner callId t, o = .answer env w.submission owner callId text w.revision t ∧
    ∃ db', o.attempt s.uuids s.db = .ok db'

/-- The operation probes the wait at `t₁`, and is not refused. -/
def Probes (w : Wait) (s : Sys) (o : Op) (t₁ : Time) : Prop :=
  ∃ env c l cursor t₂, o = .human env c l cursor t₁ t₂ ∧
    (cursor.submission, cursor.revision) = w.key ∧ ∃ db', o.attempt s.uuids s.db = .ok db'

theorem after_of_ok {db' : Db} (h : o.attempt s.uuids s.db = .ok db') : (s.after o).db = db' := by
  show commit s.db (o.attempt s.uuids s.db) = db'
  rw [h]
  rfl

/-- **An operation leaves the stage of a wait, or takes it to a next one.** -/
theorem At.step (hs : Chained s) (hi : Indexed s) (h : w.At s.db st) (ho : o.onWait = true) :
    ∃ st', Relation.ReflTransGen Stage.Next st st' ∧ w.At (s.after o).db st' := by
  show ∃ st', _ ∧ w.At (commit s.db (o.attempt s.uuids s.db)) st'
  refine commit_of (P := fun db : Db => ∃ st', Relation.ReflTransGen Stage.Next st st' ∧ w.At db st')
    ⟨st, .refl, h⟩ fun db' hok => ?_
  cases o with
  | answer env key owner callId text revision t =>
    obtain ⟨x, hok⟩ := outcome_eq_ok.1 hok
    rcases h.answered hok with ⟨-, h'⟩ | ⟨-, ⟨-, rfl⟩ | ⟨rfl, h'⟩⟩
    · exact ⟨st, .refl, h'⟩
    · exact ⟨st, .refl, h⟩
    · exact ⟨_, .single (.accept text), h'⟩
  | human env c l cursor t₁ t₂ =>
    obtain ⟨out, hok⟩ := outcome_eq_ok.1 hok
    by_cases hother : (cursor.submission, cursor.revision) ≠ w.key ∨ st.resolved = true
    · exact ⟨st, .refl, h.other hs hi hok hother⟩
    · rw [not_or, not_not, Bool.not_eq_true] at hother
      rcases h.probed hother.2 hok hother.1 with ⟨-, -, rfl⟩ | ⟨-, st', hnext, -, h'⟩
      · exact ⟨st, .refl, h⟩
      · exact ⟨st', .single hnext, h'⟩
  | _ => cases ho

/-- A run takes a wait through its stages. -/
theorem At.runs (h : Sys.lts.Reachable Sys.Initial s) (hw : w.At s.db st)
    (hops : ∀ o ∈ ops, o.onWait = true) :
    ∃ st', Relation.ReflTransGen Stage.Next st st' ∧ w.At (s.runs ops).db st' := by
  induction ops generalizing s st with
  | nil => exact ⟨st, .refl, hw⟩
  | cons o ops ih =>
    obtain ⟨st₁, hreach, h₁⟩ := hw.step (chained_reachable h) (indexed_reachable h)
      (hops o List.mem_cons_self)
    obtain ⟨st', hreach', h'⟩ := ih (h.step (Sys.step_after s o)) h₁ fun o' ho' =>
      hops o' (List.mem_cons_of_mem o ho')
    exact ⟨st', hreach.trans hreach', h'⟩

/-- An answer that is not refused is the accepted one afterwards; if it was before, nothing
changes. -/
theorem At.taken (h : w.At s.db st) (ht : w.Takes s o text) :
    (st.accepted = some text ∧ (s.after o).db = s.db) ∨
      (st = .waiting ∧ w.At (s.after o).db (.answered text)) := by
  obtain ⟨env, owner, callId, t, rfl, db', hok⟩ := ht
  rw [after_of_ok hok]
  obtain ⟨x, hok⟩ := outcome_eq_ok.1 hok
  rcases h.answered hok with ⟨hne, -⟩ | ⟨-, hcase⟩
  · exact absurd rfl hne
  · exact hcase

/-- A probe that is not refused ends a wait that was answered or has expired. -/
theorem At.ended {t₁ : Time} (h : w.At s.db st) (hst : st.resolved = false) (hp : w.Probes s o t₁)
    (hlate : st ≠ .waiting ∨ w.answer.expires ≤ t₁) :
    ∃ st', st'.resolved = true ∧ w.At (s.after o).db st' := by
  obtain ⟨env, c, l, cursor, t₂, rfl, hcursor, db', hok⟩ := hp
  rw [after_of_ok hok]
  obtain ⟨out, hok⟩ := outcome_eq_ok.1 hok
  rcases h.probed hst hok hcursor with ⟨hwait, htime, -⟩ | ⟨-, st', -, hres, h'⟩
  · rcases hlate with hne | hle
    · exact absurd hwait hne
    · exact absurd htime (not_lt.2 hle)
  · exact ⟨st', hres, h'⟩

end Wait

theorem Sys.runs_append (s : Sys) (pre post : List Op) :
    s.runs (pre ++ post) = (s.runs pre).runs post :=
  List.foldl_append ..

/-- **A human wait has one answer at most and one outcome.**  From a reachable state in which a wait
is open, whatever answers are given to any waits and whatever waits are probed, by whom and at what
times: the wait is at one of its stages.  Each answer to it that was not refused is the accepted
one, and changed nothing if it was accepted before.  When the wait is over, its stage stays.  A
probe that is not refused ends it if it was answered or has expired. -/
theorem Sys.one_outcome {s : Sys} (h : Sys.lts.Reachable Sys.Initial s) (w : Wait)
    (hw : w.At s.db .waiting) {ops : List Op} (hops : ∀ o ∈ ops, o.onWait = true) :
    ∃ st, Relation.ReflTransGen Stage.Next .waiting st ∧ w.At (s.runs ops).db st ∧
      ∀ pre o post, ops = pre ++ o :: post →
        (∀ text, w.Takes (s.runs pre) o text → st.accepted = some text ∧
          ∀ st₁, w.At (s.runs pre).db st₁ → st₁.accepted = some text →
            ((s.runs pre).after o).db = (s.runs pre).db) ∧
        (∀ st₁, w.At (s.runs pre).db st₁ → st₁.resolved = true → st = st₁) ∧
        ∀ t₁, w.Probes (s.runs pre) o t₁ →
          (¬ w.At (s.runs pre).db .waiting ∨ w.answer.expires ≤ t₁) → st.resolved = true := by
  obtain ⟨st, hreach, hst⟩ := Wait.At.runs h hw hops
  refine ⟨st, hreach, hst, ?_⟩
  rintro pre o post rfl
  have hpre : ∀ o ∈ pre, o.onWait = true := fun o' ho' => hops o' (List.mem_append_left _ ho')
  obtain ⟨st₁, -, h₁⟩ := Wait.At.runs h hw hpre
  have hr₁ := h.run (Sys.run_runs s pre)
  have hr₂ := hr₁.step (Sys.step_after _ o)
  -- What holds after `o` goes on to the end.
  have hlater : ∀ st₂, w.At ((s.runs pre).after o).db st₂ →
      Relation.ReflTransGen Stage.Next st₂ st := by
    intro st₂ h₂
    have hpost : ∀ o' ∈ post, o'.onWait = true := fun o' ho' =>
      hops o' (List.mem_append_right _ (List.mem_cons_of_mem _ ho'))
    obtain ⟨st', hreach', h'⟩ := h₂.runs hr₂ hpost
    rw [Sys.runs_append] at hst
    rwa [hst.unique h']
  have hover : ∀ st₁, w.At (s.runs pre).db st₁ → st₁.resolved = true → st = st₁ := by
    intro st₁ h₁ hres
    obtain ⟨st₂, hreach₂, h₂⟩ := h₁.step (chained_reachable hr₁) (indexed_reachable hr₁)
      (hops o (List.mem_append_right _ List.mem_cons_self))
    exact Stage.eq_of_reaches (hreach₂.trans (hlater st₂ h₂)) hres
  refine ⟨fun text ht => ⟨?_, fun st' h' hacc => ?_⟩, hover, fun t₁ hp hlate => ?_⟩
  · rcases h₁.taken ht with ⟨hacc, hsame⟩ | ⟨-, h₂⟩
    · exact Stage.accepted_of_reaches (hlater st₁ (hsame ▸ h₁)) hacc
    · exact Stage.accepted_of_reaches (hlater _ h₂) rfl
  · rcases h'.taken ht with ⟨-, hsame⟩ | ⟨rfl, -⟩
    · exact hsame
    · cases hacc
  · cases hres : st₁.resolved with
    | true => rw [hover st₁ h₁ hres, hres]
    | false =>
      obtain ⟨st₂, hres₂, h₂⟩ := h₁.ended hres hp
        (hlate.imp (fun hne heq => hne (heq ▸ h₁)) id)
      rw [Stage.eq_of_reaches (hlater st₂ h₂) hres₂, hres₂]

/-! ### A run -/

namespace Sample

/-- The submission is one that may wait for humans. -/
def askSettings : Settings := ⟨"localhost:7233", "default", .human⟩

/-- The checkpoint of a task that asks. -/
def asking : Checkpoint := { messages := [input], suspendedToolCallId := some "c" }

/-- The first step of a task suspends it on a question. -/
def asked : List Op :=
  [.bind {} "o" "t" (some .temporal) (.ok .temporal),
    .submit {} "o" "t" [input] context "assistant" askSettings (.ok { deadline := 1000 }) (.ok ())
      {},
    .bootstrapClaim {} 2 askSettings,
    .bootstrap {} caller ledger 2,
    .claimStep {} caller ledger cursor,
    .task (.claim {} "o" "t" "go" [] none none 0 0),
    .task (.checkpoint {} "o" "t" 10 .waitingUser asking none 1),
    .task (.finish {} "o" "t" 10 .suspended none 1),
    .commit {} caller ledger cursor (some 8) .human 2]

/-- The row of the task that asks. -/
def askingTask : TaskRow :=
  { goal := "go", criteria := {}, state := .suspended, phase := .waitingUser
    checkpoint := asking, attempts := 1 }

/-- The wait. -/
def wait : Wait where
  submission := 2
  revision := 1
  taskKey := ("o", "t")
  run := StepStore.newRun .human ⟨16, .snapshot ⟨.waitingUser, asking, .suspended, none⟩⟩
  task := askingTask
  answer := { callId := "c", expires := 302 }
  human := rfl
  opened h := by cases h
  fresh := rfl
  suspended := ⟨rfl, rfl⟩

/-- Two answers and a repetition of the first one, between them a probe. -/
def answers : List Op :=
  [.answer {} 2 "o" "c" "yes" 1 5,
    .human {} caller ledger (wait.run.cursor 2 1) 6 6,
    .answer {} 2 "o" "c" "no" 1 7,
    .answer {} 2 "o" "c" "yes" 1 8]

theorem wait_at : wait.At (start.runs asked).db .waiting :=
  have hrun : (start.runs asked).db.stepRuns wait.key = some wait.run := by decide
  ⟨⟨_, rfl, by decide⟩, by decide, by decide, hrun⟩

end Sample

/-- A task that asks is answered once: the probe gives it the first answer, the second answer is
refused, and the repetition of the first one changes nothing. -/
theorem Sys.one_outcome_asked :
    Sample.wait.At ((Sample.start.runs Sample.asked).runs Sample.answers).db (.consumed "yes") := by
  obtain ⟨st, -, hst, -⟩ := Sys.one_outcome (Sample.reachable Sample.asked) Sample.wait
    Sample.wait_at (by decide : ∀ o ∈ Sample.answers, o.onWait = true)
  have hrow : ((Sample.start.runs Sample.asked).runs Sample.answers).db.answers Sample.wait.key =
      some (Stage.row Sample.wait.answer (.consumed "yes")) := by decide
  rw [Stage.row_injective (Option.some.inj (hst.answer.symm.trans hrow))] at hst
  exact hst

end Temporal

end PythonAI
