import PythonAI.Library.Text
import PythonAI.Tasks.Allowance
import PythonAI.Tasks.Resume

/-!
# Answers to a suspended task

`dispatch_task_input` takes an input that is no command for the answer to a suspended task.  It
appends the answer to the messages of the checkpoint, and after it, if there are attachments, a user
message with these.  `durable_invoke` takes the answer from the last message.

* `TaskStore.list` : the tasks among which the suspended one is looked for;
* `Durable.answer_resumes_iff` : **an answer that the store admits resumes its task exactly if no
  attachments accompany it** and the task is the first suspended one of the list.

The profile, the budget and the episode, of which `resume_agent_turn` takes care, are left out.
-/

namespace PythonAI

open Library

/-! ### `dispatch_task_input` -/

/-- `command.startswith('/')`, where `command` is the first word of the text. -/
def isCommand (text : String) : Bool := (text.toList.dropWhile isSpace).head? = some '/'

/-- An uploaded file, as `attachment_content_parts` renders it. -/
structure Attachment where
  /-- the text of its parts -/
  content : String
  deriving DecidableEq, Repr

/-- `build_user_message`. -/
def buildUserMessage (userInput : String) (attachments : List Attachment) : Message where
  role := "user"
  content := "\n".intercalate (userInput :: attachments.map (·.content))

/-- The goal that `durable_invoke` reads in its messages. -/
def goalOf (messages : List Message) : String :=
  let content := ((messages.reverse.find? (·.role = "user")).map (·.content)).getD ""
  String.ofList (content.toList.take 16000)

/-- `EXPIRED`. -/
def expired : String :=
  "先前任務已超過等待回答的期限，不能續跑。請以新訊息重新提出要求；舊任務額度不會重設。"

/-- What `retire_expired_wait` finds outside the task table. -/
structure WaitEnv where
  /-- `task_budgets.deadline` of a task of the owner -/
  deadline : TaskId → Option Time := fun _ => none
  /-- the task of the new request -/
  incoming : Option TaskId := none
  /-- the task of the active budget -/
  inherited : Option TaskKey := none
  /-- the task is bound to Temporal -/
  temporal : TaskId → Bool := fun _ => false

/-- `retire_expired_wait`: the row as it was, if the wait is retired. -/
def retireExpiredWait (env : Access) (wait : WaitEnv) (owner : Owner) (key : TaskId) (t : Time)
    (db : TaskDb) : Except Error (TaskDb × Option TaskRow) := do
  env.ownerActive
  match (db.tasks (owner, key)).filter (·.state = .suspended),
      (wait.deadline key).filter (· ≤ t) with
  | some row, some _ =>
    let incoming ← require (wait.incoming.filter fun k => k ≠ "" && k ≠ key) (.recovery expired)
    ensure (wait.inherited.all (· = (owner, incoming))) (.recovery expired)
    ensure (row.phase = .waitingUser && !row.leased t)
      (.busy "待答任務仍有執行程序或未確認狀態，請先確認停止。")
    ensure (!wait.temporal key)
      (.recovery "原生工作流程的待答期限已過；請先取消原任務，再以新訊息提出要求。")
    ensure (db.tasks (owner, incoming)).isNone (.recovery expired)
    let row' := TaskStore.stop s!"Error: {expired}" row
    pure ({ db with tasks := db.tasks.set (owner, key) row' }, some row)
  | _, _ => pure (db, none)

/-- What becomes of an input. -/
inductive Dispatched
  /-- it is a command -/
  | command
  /-- `None`: it is a new request -/
  | request
  /-- it is refused with a reply -/
  | reply (text : String)
  /-- `resume_agent_turn` is called for the task -/
  | resume (key : TaskId) (args : Durable.Args)
  deriving DecidableEq

/-- The messages with which an answer resumes the task. -/
def answerMessages (row : TaskRow) (call text : String) (attachments : List Attachment) :
    List Message :=
  row.checkpoint.messages ++ [.tool call text] ++
    if attachments = [] then []
    else [buildUserMessage "Attached files for this answer" attachments]

/-- The arguments with which an answer resumes the task. -/
def answerArgs (row : TaskRow) (call text : String) (attachments : List Attachment) :
    Durable.Args where
  resume := true
  goal := goalOf (answerMessages row call text attachments)
  messages := answerMessages row call text attachments

/-- `TaskStore.list`, of the tasks of the owner with the times of their last updates. -/
def TaskStore.list (rows : List (TaskId × Time)) : List TaskId :=
  ((rows.mergeSort fun row row' => row'.2 ≤ row.2).take 20).map Prod.fst

/-- `dispatch_task_input` at `t`; `rows` are the tasks of the owner with the times of their last
updates. -/
def dispatchTaskInput (env : Access) (wait : WaitEnv) (rows : List (TaskId × Time)) (owner : Owner)
    (text : String) (attachments : List Attachment) (t : Time) (db : TaskDb) :
    Except Error (TaskDb × Dispatched) :=
  if isCommand text then do
    ensure attachments.isEmpty
      (.value "Attachments cannot accompany transport control commands")
    pure (db, .command)
  else
    match (TaskStore.list rows).find? fun key =>
      db.tasks.selects (owner, key) (·.state = .suspended) with
    | none => pure (db, .request)
    | some key => do
      let row ← require (db.tasks (owner, key)) (.missing key)
      match retireExpiredWait env wait owner key t db with
      | .error (.busy message) | .error (.recovery message) =>
        pure (db, .reply s!"Error: {message}")
      | .error e => .error e
      | .ok (db', some _) => pure (db', .request)
      | .ok (_, none) => do
        let call ← require row.checkpoint.suspendedToolCallId (.missing "suspended_tool_call_id")
        pure (db, .resume key (answerArgs row call text attachments))

variable {env : Access} {wait : WaitEnv} {rows : List (TaskId × Time)} {k : TaskKey}
  {text call : String} {attachments : List Attachment} {db : TaskDb} {row : TaskRow} {t : Time}

/-- What is known of a suspended task that an answer is for. -/
structure Awaits (wait : WaitEnv) (k : TaskKey) (t : Time) (row : TaskRow) (call : String)
    (db : TaskDb) : Prop where
  /-- the row -/
  found : db.tasks k = some row
  /-- it is suspended -/
  state : row.state = .suspended
  /-- the call that waits for the answer -/
  asks : row.checkpoint.suspendedToolCallId = some call
  /-- the wait has not expired -/
  waits : ∀ d, wait.deadline k.2 = some d → t < d

/-- The task is among the 20 tasks that were updated last, and of these none that was updated after
it is suspended. -/
def Newest (rows : List (TaskId × Time)) (k : TaskKey) (db : TaskDb) : Prop :=
  ∃ newer older, TaskStore.list rows = newer ++ k.2 :: older ∧
    ∀ key ∈ newer, db.tasks.selects (k.1, key) (·.state = .suspended) = false

/-- It is the task that `dispatch_task_input` finds. -/
theorem newest_iff (h : Awaits wait k t row call db) : Newest rows k db ↔
    ((TaskStore.list rows).find? fun key => db.tasks.selects (k.1, key) (·.state = .suspended)) =
      some k.2 := by
  have hsuspended : db.tasks.selects (k.1, k.2) (·.state = .suspended) = true := by
    simp [Table.selects, h.found, h.state]
  simp [List.find?_eq_some_iff_append, hsuspended, Newest]

theorem dispatch_answer (h : Awaits wait k t row call db) (hnewest : Newest rows k db)
    (htext : isCommand text = false) (hactive : env.active = true) :
    dispatchTaskInput env wait rows k.1 text attachments t db =
      .ok (db, .resume k.2 (answerArgs row call text attachments)) := by
  have hnone : (wait.deadline k.2).filter (· ≤ t) = none := by
    cases hd : wait.deadline k.2 with
    | none => rfl
    | some d => simp [Option.filter, h.waits d hd]
  have hretire : retireExpiredWait env wait k.1 k.2 t db = .ok (db, none) := by
    rw [retireExpiredWait, Access.ownerActive, hactive, hnone]
    cases (db.tasks (k.1, k.2)).filter (·.state = .suspended) <;> rfl
  have hrow : db.tasks (k.1, k.2) = some row := h.found
  simp only [dispatchTaskInput, htext, (newest_iff h).1 hnewest, hrow, hretire, Bool.false_eq_true,
    if_false]
  change (require row.checkpoint.suspendedToolCallId _ >>= _) = _
  rw [h.asks]
  rfl

/-- The task that is resumed is the one that was found, and its owner is active. -/
theorem dispatch_resume {db' : TaskDb} {owner : Owner} {key : TaskId} {args : Durable.Args}
    (hok : dispatchTaskInput env wait rows owner text attachments t db =
      .ok (db', .resume key args)) :
    ((TaskStore.list rows).find? fun key =>
      db.tasks.selects (owner, key) (·.state = .suspended)) = some key ∧ env.active = true := by
  unfold dispatchTaskInput at hok
  split_ifs at hok
  · simp only [bind_eq_ok, pure_eq_ok, Prod.mk.injEq] at hok
    obtain ⟨-, -, -, h⟩ := hok
    cases h
  · split at hok
    case h_1 => cases hok
    case h_2 found hfound =>
      simp only [bind_eq_ok] at hok
      obtain ⟨row, -, hok⟩ := hok
      split at hok
      case h_5 hretire =>
        simp only [bind_eq_ok, pure_eq_ok, Prod.mk.injEq] at hok
        obtain ⟨call, -, -, h⟩ := hok
        cases h
        refine ⟨hfound, ?_⟩
        simp only [retireExpiredWait, Access.ownerActive, bind_eq_ok, ensure_eq_ok] at hretire
        obtain ⟨-, hactive, -⟩ := hretire
        exact hactive
      all_goals cases hok

namespace Durable

variable {env' : Access} {episode : Option ℕ} {s s' : Sys} {i : ℕ} {a : Args} {t₁ t₂ : Time}

/-- The steps of a call of `durable_invoke` that resumes a suspended task, up to where the agent
runs: the answer is saved at `t`, the lease is tested at `t₁` and granted at `t₂`. -/
def resumingActs (i : ℕ) (a : Args) (env env' : Access) (episode : Option ℕ) (t t₁ t₂ : Time) :
    List (ℕ × Act × Time) :=
  [(i, .get a, t), (i, .answer env, t), (i, .reread, t), (i, .claim env' episode {} t₁ t₂, t₂),
    (i, .load, t₂)]

/-- The call resumes the task with the answer: the answer is the one message that is appended to the
checkpoint, and the agent runs with the messages of the checkpoint and the attachments after them. -/
def Resumes (k : TaskKey) (s : Sys) (acts : List (ℕ × Act × Time)) (i : ℕ) (row : TaskRow)
    (call text : String) (attachments : List Attachment) : Prop :=
  ∃ s' w row', s.acts? k (fun _ _ => true) acts = some s' ∧ s'.pcs i = .working w .agent ∧
    s'.base.db.tasks k = some row' ∧
    row'.checkpoint.messages = row.checkpoint.messages ++ [.tool call text] ∧
    w.messages = answerMessages row call text attachments

/-- What the store demands of an answer to the row and of the claim that follows, whatever comes
with the answer. -/
structure Takes (env env' : Access) (k : TaskKey) (row : TaskRow) (t₁ : Time) : Prop where
  /-- the owner is active, and the answer is within 1 MiB -/
  answer : env.active = true ∧ env.fits = true
  /-- the task belongs to the backend, and there is room -/
  room : env.claimBackend = .ok () ∧ env.room = true
  /-- the key is well formed, the owner is active and the task belongs to the backend -/
  claim : TaskSys.Admits env' k
  /-- no call holds the task -/
  free : row.leased t₁ = false
  /-- the task may be taken over once more -/
  allowance : row.recoveries < recoveryLimit

/-- The row with the answer. -/
def answeredRow (row : TaskRow) (call text : String) : TaskRow :=
  { row with
    state := .pending
    phase := .toolDone
    checkpoint := TaskStore.answered row.checkpoint call text
    reply := none }

theorem answer_eq_ok {db' : TaskDb} (hrow : db.tasks k = some row) (hs : row.state = .suspended)
    (hcall : row.checkpoint.suspendedToolCallId = some call) :
    TaskStore.answer env k.1 k.2 text db = .ok (db', ()) ↔
      env.fits = true ∧ env.claimBackend = .ok () ∧ env.room = true ∧
      db' = { db with tasks := db.tasks.set k (answeredRow row call text) } := by
  have hfound : (db.tasks (k.1, k.2)).filter (·.state = .suspended) = some row := by
    change (db.tasks k).filter _ = _
    rw [hrow, Option.filter_some, if_pos (by simpa using hs)]
  simp only [TaskStore.answer, TaskStore.capacity, bind_eq_ok, ensure_eq_ok, require_eq_ok, hfound,
    Option.some.injEq, exists_eq_left', hcall]
  constructor
  · rintro ⟨_, hfits, _, hback, _, hroom, h⟩
    cases h
    exact ⟨hfits, hback, hroom, rfl⟩
  · rintro ⟨hfits, hback, hroom, rfl⟩
    exact ⟨(), hfits, (), hback, (), hroom, rfl⟩

/-- A claim of the answered row. -/
theorem claim_answered {u v : Token} {goal : String} {messages : List Message} {db' : TaskDb}
    (hrow : db.tasks k = some (answeredRow row call text)) :
    TaskStore.claim env k.1 k.2 goal messages episode none u t₁ t₂ db = .ok (db', .token v) ↔
      TaskSys.Admits env k ∧ row.leased t₁ = false ∧ row.recoveries < recoveryLimit ∧ v = u ∧
      db' = { db with
        tasks := db.tasks.set k (TaskStore.takeOver u t₂ 0 (answeredRow row call text)) } := by
  have hfound : db.tasks (k.1, k.2) = some (answeredRow row call text) := hrow
  constructor
  · intro h
    simp only [TaskStore.claim, Access.ownerActive, bind_eq_ok, ensure_eq_ok] at h
    obtain ⟨_, hkey, _, hactive, _, hback, h⟩ := h
    have hphase : (answeredRow row call text).phase.started = false := rfl
    have hterm : (answeredRow row call text).state.terminal = false := rfl
    have hopen : ¬ ((answeredRow row call text).state = .suspended ∨
        (answeredRow row call text).state = .uncertain) := by
      rintro (h | h) <;> cases h
    simp only [hfound, hterm, hphase, hopen, Bool.false_eq_true, if_false] at h
    by_cases hleased : (answeredRow row call text).leased t₁ = true
    · rw [if_pos hleased] at h
      cases h
    · rw [if_neg hleased] at h
      by_cases hlimit : recoveryLimit ≤ (answeredRow row call text).recoveries
      · rw [if_pos hlimit] at h
        cases h
      · rw [if_neg hlimit] at h
        cases h
        exact ⟨⟨hkey, hactive, hback⟩, Bool.eq_false_iff.2 hleased, Nat.not_le.1 hlimit, rfl, rfl⟩
  · rintro ⟨hadmits, hfree, hlt, rfl, rfl⟩
    have hleased : (answeredRow row call text).leased t₁ = false := hfree
    simp only [TaskStore.claim, hadmits.key, ensure_true, Access.ownerActive, hadmits.active,
      hadmits.backend, hfound, hleased]
    simp [answeredRow, TaskState.terminal, Phase.started, Nat.not_le.2 hlt, TaskStore.recovery]

/-! ### The steps of the call -/

variable {acts : List (ℕ × Act × Time)} {act : Act} {c : Call} {pc : Pc}

theorem acts_cons : s.acts? k (fun _ _ => true) ((i, act, t) :: acts) =
    (s.act? k i act t).bind fun s' => s'.acts? k (fun _ _ => true) acts := rfl

/-- A step that is no operation of the store. -/
theorem act_plain (hnext : act.next k s.base.uuids s.base.db (s.pcs i) = some pc)
    (hcall : act.call k (s.pcs i) = none) : s.act? k i act t =
      some ⟨s.base, Function.update s.pcs i pc, s.skillRuns + act.runs (s.pcs i)⟩ := by
  rw [Sys.act?, hnext, Option.bind_some, hcall]

/-- A step that is an operation of the store. -/
theorem act_call (hnext : act.next k s.base.uuids s.base.db (s.pcs i) = some pc)
    (hcall : act.call k (s.pcs i) = some c) (hnow : s.base.now ≤ t)
    (hclock : c.clocked s.base.now t) : s.act? k i act t =
      some ⟨s.base.after c t, Function.update s.pcs i pc, s.skillRuns + act.runs (s.pcs i)⟩ := by
  rw [Sys.act?, hnext, Option.bind_some, hcall]
  exact if_pos ⟨hnow, hclock⟩

theorem act_stuck (hnext : act.next k s.base.uuids s.base.db (s.pcs i) = none) :
    s.act? k i act t = none := by
  rw [Sys.act?, hnext]
  rfl

/-- The state after the answer is saved. -/
def answeredSys (s : Sys) (k : TaskKey) (i : ℕ) (a : Args) (env : Access) (text : String) (t : Time) :
    Sys :=
  ⟨s.base.after (.answer env k.1 k.2 text) t, Function.update s.pcs i (.answered a), s.skillRuns⟩

theorem next_answer (env : Access) (u : Token) (db : TaskDb) (hpc : s.pcs i = .answering a text) :
    Act.next k u db (s.pcs i) (.answer env) =
      match TaskStore.answer env k.1 k.2 text db with
      | .ok _ => some (.answered a)
      | .error _ => some .done := by
  rw [hpc]
  rfl

theorem acts_answer (hpc : s.pcs i = .answering a text) (hrow : s.base.db.tasks k = some row)
    (hs : row.state = .suspended) (hcall : row.checkpoint.suspendedToolCallId = some call)
    (hnow : s.base.now ≤ t) :
    s.acts? k (fun _ _ => true) ((i, .answer env, t) :: (i, .reread, t) :: acts) = some s' ↔
      env.fits = true ∧ env.claimBackend = .ok () ∧ env.room = true ∧
      (answeredSys s k i a env text t).acts? k (fun _ _ => true) ((i, .reread, t) :: acts) =
        some s' := by
  have hop : Act.call k (s.pcs i) (.answer env) = some (.answer env k.1 k.2 text) := by rw [hpc]; rfl
  have hnext := next_answer (k := k) env s.base.uuids s.base.db hpc
  rw [acts_cons]
  cases h : TaskStore.answer env k.1 k.2 text s.base.db with
  | ok r =>
    obtain ⟨hfits, hback, hroom, -⟩ := (answer_eq_ok hrow hs hcall).1 h
    rw [h] at hnext
    rw [act_call hnext hop hnow trivial, Option.bind_some]
    have hruns : s.skillRuns + Act.runs (s.pcs i) (.answer env) = s.skillRuns := by rw [hpc]; rfl
    rw [hruns]
    exact ⟨fun h => ⟨hfits, hback, hroom, h⟩, fun h => h.2.2.2⟩
  | error e =>
    rw [h] at hnext
    rw [act_call hnext hop hnow trivial, Option.bind_some, acts_cons, act_stuck]
    · constructor
      · intro h; cases h
      · rintro ⟨hfits, hback, hroom, -⟩
        rw [(answer_eq_ok hrow hs hcall).2 ⟨hfits, hback, hroom, rfl⟩] at h
        cases h
    · simp only [Function.update_self]
      rfl

/-- What the worker has when the agent runs. -/
def resumedWorker (a : Args) (u : Token) (row : TaskRow) : Worker :=
  ⟨a, u, some (row.checkpoint, row.phase), row.checkpoint.messages⟩

/-- The state when the agent runs. -/
def resumedSys (s : Sys) (k : TaskKey) (i : ℕ) (a : Args) (row : TaskRow) (t₂ : Time) : Sys where
  base :=
    ⟨{ s.base.db with tasks := s.base.db.tasks.set k (TaskStore.takeOver s.base.uuids t₂ 0 row) },
      t₂, s.base.uuids + 1⟩
  pcs := Function.update s.pcs i (.working (resumedWorker a s.base.uuids row) .agent)
  skillRuns := s.skillRuns

theorem entry_answered {data : Checkpoint} (hskill : a.skill = false) :
    entry a (some (data, .toolDone)) = .agent := by
  simp [entry, hskill]

theorem next_claim (env : Access) (episode : Option ℕ) (t₁ t₂ : Time) (u : Token) (db : TaskDb)
    (hpc : s.pcs i = .read a (some row)) :
    Act.next k u db (s.pcs i) (.claim env episode {} t₁ t₂) =
      match TaskStore.claim env k.1 k.2 a.goal a.messages episode none u t₁ t₂ db with
      | .ok (_, .token token) => some (.claimed a token true (db.tasks k))
      | .ok (_, .finished) => some (.returning a)
      | .ok (_, .refused _) => some .done
      | .error _ => some .done := by
  rw [hpc]
  rfl

theorem acts_claim (hpc : s.pcs i = .read a (some (answeredRow row call text)))
    (hskill : a.skill = false) (hrow : s.base.db.tasks k = some (answeredRow row call text))
    (hnow : s.base.now ≤ t₁) (hle : t₁ ≤ t₂) :
    s.acts? k (fun _ _ => true) [(i, .claim env' episode {} t₁ t₂, t₂), (i, .load, t₂)] = some s' ↔
      TaskSys.Admits env' k ∧ row.leased t₁ = false ∧ row.recoveries < recoveryLimit ∧
      s' = resumedSys s k i a (answeredRow row call text) t₂ := by
  have hop : Act.call k (s.pcs i) (.claim env' episode {} t₁ t₂) =
      some (.claim env' k.1 k.2 a.goal a.messages episode none t₁ t₂) := by rw [hpc]; rfl
  have hruns : s.skillRuns + Act.runs (s.pcs i) (.claim env' episode {} t₁ t₂) = s.skillRuns := by
    rw [hpc]
    rfl
  have hnext := next_claim (k := k) env' episode t₁ t₂ s.base.uuids s.base.db hpc
  have hclock : Call.clocked s.base.now t₂
      (.claim env' k.1 k.2 a.goal a.messages episode none t₁ t₂) := ⟨hnow, hle, le_rfl⟩
  have hnow' := hnow.trans hle
  -- a call that got no token cannot go on
  have hrefused : (∀ v db', TaskStore.claim env' k.1 k.2 a.goal a.messages episode none s.base.uuids
      t₁ t₂ s.base.db ≠ .ok (db', .token v)) →
      ¬ (TaskSys.Admits env' k ∧ row.leased t₁ = false ∧ row.recoveries < recoveryLimit ∧
        s' = resumedSys s k i a (answeredRow row call text) t₂) := by
    rintro hne ⟨hadmits, hfree, hlt, -⟩
    exact hne _ _ ((claim_answered hrow).2 ⟨hadmits, hfree, hlt, rfl, rfl⟩)
  have hstuck : ∀ {pc : Pc}, Act.next k s.base.uuids s.base.db (s.pcs i)
      (.claim env' episode {} t₁ t₂) = some pc → (∀ u db, Act.next k u db pc .load = none) →
      s.acts? k (fun _ _ => true) [(i, .claim env' episode {} t₁ t₂, t₂), (i, .load, t₂)] =
        none := by
    intro pc hpc' hload
    rw [acts_cons, act_call hpc' hop hnow' hclock, Option.bind_some, acts_cons, act_stuck]
    · rfl
    · simp only [Function.update_self]
      exact hload _ _
  cases h : TaskStore.claim env' k.1 k.2 a.goal a.messages episode none s.base.uuids t₁ t₂
    s.base.db with
  | error e =>
    rw [h] at hnext hrefused
    rw [hstuck hnext fun _ _ => rfl]
    exact ⟨(fun h => by cases h), fun hr => absurd hr (hrefused fun _ _ h => by cases h)⟩
  | ok r =>
    obtain ⟨db', claimed⟩ := r
    cases claimed with
    | finished =>
      rw [h] at hnext hrefused
      rw [hstuck hnext fun _ _ => rfl]
      exact ⟨(fun h => by cases h), fun hr => absurd hr (hrefused fun _ _ h => by cases h)⟩
    | refused e =>
      rw [h] at hnext hrefused
      rw [hstuck hnext fun _ _ => rfl]
      exact ⟨(fun h => by cases h), fun hr => absurd hr (hrefused fun _ _ h => by cases h)⟩
    | token v =>
      obtain ⟨hadmits, hfree, hlt, rfl, rfl⟩ := (claim_answered hrow).1 h
      rw [h] at hnext
      have hbase : s.base.after (.claim env' k.1 k.2 a.goal a.messages episode none t₁ t₂) t₂ =
          (resumedSys s k i a (answeredRow row call text) t₂).base := by
        rw [TaskSys.after, Call.perform, h, settle_ok]
        rfl
      have hload : Act.next k (s.base.uuids + 1)
          (resumedSys s k i a (answeredRow row call text) t₂).base.db
          (.claimed a s.base.uuids true (s.base.db.tasks k)) .load =
          some (.working (resumedWorker a s.base.uuids (answeredRow row call text))
            (entry a (some ((answeredRow row call text).checkpoint, .toolDone)))) := by
        simp only [Act.next, resumedSys, Table.set_same]
        rfl
      rw [entry_answered hskill] at hload
      let s₁ : Sys := ⟨(resumedSys s k i a (answeredRow row call text) t₂).base,
        Function.update s.pcs i (.claimed a s.base.uuids true (s.base.db.tasks k)), s.skillRuns⟩
      have hpc₁ : s₁.pcs i = .claimed a s.base.uuids true (s.base.db.tasks k) :=
        Function.update_self ..
      have hlast : s₁.act? k i .load t₂ =
          some (resumedSys s k i a (answeredRow row call text) t₂) := by
        rw [act_plain (by rw [hpc₁]; exact hload) (by rw [hpc₁]; rfl), hpc₁, Function.update_idem]
        rfl
      rw [acts_cons, act_call hnext hop hnow' hclock, Option.bind_some, hruns, hbase, acts_cons,
        hlast, Option.bind_some]
      constructor
      · intro hs'
        cases hs'
        exact ⟨hadmits, hfree, hlt, rfl⟩
      · rintro ⟨-, -, -, rfl⟩
        rfl

/-- Only the last message is looked at. -/
theorem afterGet_answer (hs : row.state = .suspended)
    (hcall : row.checkpoint.suspendedToolCallId = some call) :
    afterGet (answerArgs row call text attachments) (some row) =
      if attachments = [] then .answering (answerArgs row call text attachments) text else .done := by
  have hresume : (answerArgs row call text attachments).resume = true := rfl
  by_cases hatt : attachments = []
  · have hlast : (answerArgs row call text attachments).messages.getLast? =
        some (.tool call text) := by simp [answerArgs, answerMessages, hatt]
    rw [if_pos hatt]
    simp only [afterGet, hresume, hlast, hs, hcall, Message.tool, decide_true, Bool.and_true,
      and_self, if_true]
  · have hlast : (answerArgs row call text attachments).messages.getLast? =
        some (buildUserMessage "Attached files for this answer" attachments) := by
      simp [answerArgs, answerMessages, hatt]
    have hrole : (buildUserMessage "Attached files for this answer" attachments).role ≠ "tool" :=
      show "user" ≠ "tool" by decide
    rw [if_neg hatt]
    simp only [afterGet, hresume, hlast, hs, hrole, decide_true, Bool.and_true, if_true, false_and,
      if_false]

/-- The state after the answered task is read again. -/
def rereadSys (s : Sys) (k : TaskKey) (i : ℕ) (a : Args) (env : Access) (row : TaskRow)
    (call text : String) (t : Time) : Sys :=
  ⟨s.base.after (.answer env k.1 k.2 text) t,
    Function.update s.pcs i (.read a (some (answeredRow row call text))), s.skillRuns⟩

/-- The answer is saved, and the task is claimed. -/
theorem acts_answering (hpc : s.pcs i = .answering a text) (hskill : a.skill = false)
    (hrow : s.base.db.tasks k = some row) (hs : row.state = .suspended)
    (hcall : row.checkpoint.suspendedToolCallId = some call)
    (hnow : s.base.now ≤ t) (hle : t ≤ t₁) (hle' : t₁ ≤ t₂) :
    s.acts? k (fun _ _ => true) [(i, .answer env, t), (i, .reread, t),
        (i, .claim env' episode {} t₁ t₂, t₂), (i, .load, t₂)] = some s' ↔
      env.fits = true ∧ (env.claimBackend = .ok () ∧ env.room = true) ∧
      TaskSys.Admits env' k ∧ row.leased t₁ = false ∧ row.recoveries < recoveryLimit ∧
      s' = resumedSys (rereadSys s k i a env row call text t) k i a (answeredRow row call text)
        t₂ := by
  rw [acts_answer hpc hrow hs hcall hnow]
  have hclaim : env.fits = true → env.claimBackend = .ok () → env.room = true →
      ((answeredSys s k i a env text t).acts? k (fun _ _ => true) [(i, .reread, t),
          (i, .claim env' episode {} t₁ t₂, t₂), (i, .load, t₂)] = some s' ↔
        TaskSys.Admits env' k ∧ row.leased t₁ = false ∧ row.recoveries < recoveryLimit ∧
        s' = resumedSys (rereadSys s k i a env row call text t) k i a (answeredRow row call text)
          t₂) := by
    intro hfits hback hroom
    have hanswer : TaskStore.answer env k.1 k.2 text s.base.db = .ok _ :=
      (answer_eq_ok hrow hs hcall).2 ⟨hfits, hback, hroom, rfl⟩
    have hdb : (answeredSys s k i a env text t).base.db.tasks k =
        some (answeredRow row call text) := by
      simp only [answeredSys, TaskSys.after, Call.perform, hanswer, settle_ok]
      exact Table.set_same ..
    have hreread : (answeredSys s k i a env text t).act? k i .reread t =
        some (rereadSys s k i a env row call text t) := by
      have hpc' : (answeredSys s k i a env text t).pcs i = .answered a := Function.update_self ..
      have hnext : Act.next k (answeredSys s k i a env text t).base.uuids
          (answeredSys s k i a env text t).base.db ((answeredSys s k i a env text t).pcs i)
          .reread = some (.read a (some (answeredRow row call text))) := by
        rw [hpc', Act.next, hdb]
      rw [act_plain hnext (by rw [hpc']; rfl), hpc']
      simp only [answeredSys, rereadSys, Function.update_idem]
      rfl
    rw [acts_cons, hreread, Option.bind_some]
    exact acts_claim (Function.update_self ..) hskill hdb hle hle'
  constructor
  · rintro ⟨hfits, hback, hroom, hacts⟩
    exact ⟨hfits, ⟨hback, hroom⟩, (hclaim hfits hback hroom).1 hacts⟩
  · rintro ⟨hfits, ⟨hback, hroom⟩, hrest⟩
    exact ⟨hfits, hback, hroom, (hclaim hfits hback hroom).2 hrest⟩

/-- The first step. -/
theorem act_get (text : String) (attachments : List Attachment)
    (h : Awaits wait k t row call s.base.db) (hidle : s.pcs i = .idle) :
    s.act? k i (.get (answerArgs row call text attachments)) t = some ⟨s.base,
      Function.update s.pcs i (if attachments = [] then
        .answering (answerArgs row call text attachments) text else .done), s.skillRuns⟩ := by
  have hget : Act.next k s.base.uuids s.base.db (s.pcs i)
      (.get (answerArgs row call text attachments)) =
      some (afterGet (answerArgs row call text attachments) (some row)) := by
    rw [hidle, ← h.found]
    rfl
  rw [afterGet_answer h.state h.asks] at hget
  rw [act_plain hget (by rw [hidle]; rfl), hidle]
  rfl

theorem acts_resuming (h : Awaits wait k t row call s.base.db) (hidle : s.pcs i = .idle)
    (hnow : s.base.now ≤ t) (hle : t ≤ t₁) (hle' : t₁ ≤ t₂) :
    s.acts? k (fun _ _ => true) (resumingActs i (answerArgs row call text attachments) env env'
        episode t t₁ t₂) = some s' ↔
      attachments = [] ∧ env.fits = true ∧ (env.claimBackend = .ok () ∧ env.room = true) ∧
      TaskSys.Admits env' k ∧ row.leased t₁ = false ∧ row.recoveries < recoveryLimit ∧
      s' = resumedSys (rereadSys s k i (answerArgs row call text attachments) env row call text t)
        k i (answerArgs row call text attachments) (answeredRow row call text) t₂ := by
  have hget := act_get text attachments h hidle
  by_cases hatt : attachments = []
  · rw [if_pos hatt] at hget
    let s₁ : Sys := ⟨s.base, Function.update s.pcs i
      (.answering (answerArgs row call text attachments) text), s.skillRuns⟩
    have hreread : rereadSys s₁ k i (answerArgs row call text attachments) env row call text t =
        rereadSys s k i (answerArgs row call text attachments) env row call text t := by
      simp only [rereadSys, s₁, Function.update_idem]
    have hpc₁ : s₁.pcs i = .answering (answerArgs row call text attachments) text :=
      Function.update_self ..
    have hskill : (answerArgs row call text attachments).skill = false := rfl
    rw [resumingActs, acts_cons, hget, Option.bind_some,
      acts_answering (s := s₁) hpc₁ hskill h.found h.state h.asks hnow hle hle', hreread]
    exact ⟨fun hr => ⟨hatt, hr⟩, fun hr => hr.2⟩
  · rw [if_neg hatt] at hget
    rw [resumingActs, acts_cons, hget, Option.bind_some, acts_cons,
      act_stuck (by simp only [Function.update_self]; rfl)]
    exact ⟨nofun, fun hr => absurd hr.1 hatt⟩

/-- **An answer resumes its task exactly if no attachments accompany it**, the task is the newest of
those that are suspended and the store takes the answer.  With attachments the last message is not
the answer, and `durable_invoke` raises. -/
theorem answer_resumes_iff (h : Awaits wait k t row call s.base.db)
    (htext : isCommand text = false) (hidle : s.pcs i = .idle) (hnow : s.base.now ≤ t)
    (hle : t ≤ t₁) (hle' : t₁ ≤ t₂) :
    (∃ a, dispatchTaskInput env wait rows k.1 text attachments t s.base.db =
        .ok (s.base.db, .resume k.2 a) ∧
      Resumes k s (resumingActs i a env env' episode t t₁ t₂) i row call text attachments) ↔
    attachments = [] ∧ Newest rows k s.base.db ∧ Takes env env' k row t₁ := by
  constructor
  · rintro ⟨a, hdispatch, s', w, row', hacts, -⟩
    obtain ⟨hfound, hactive⟩ := dispatch_resume hdispatch
    have hnewest := (newest_iff h).2 hfound
    rw [dispatch_answer h hnewest htext hactive] at hdispatch
    cases hdispatch
    obtain ⟨hatt, hfits, hroom, hadmits, hfree, hlt, -⟩ :=
      (acts_resuming h hidle hnow hle hle').1 hacts
    exact ⟨hatt, hnewest, ⟨hactive, hfits⟩, hroom, hadmits, hfree, hlt⟩
  · rintro ⟨hatt, hnewest, ⟨hactive, hfits⟩, hroom, hadmits, hfree, hlt⟩
    refine ⟨_, dispatch_answer h hnewest htext hactive, _, _, _,
      (acts_resuming h hidle hnow hle hle').2 ⟨hatt, hfits, hroom, hadmits, hfree, hlt, rfl⟩,
      Function.update_self .., Table.set_same .., rfl, ?_⟩
    simp only [answerMessages, hatt, if_true, List.append_nil]
    rfl

namespace Sample

/-- The task. -/
def key : TaskKey := ("owner", "task")

/-- The messages when the question is asked. -/
def asked : List Message :=
  [{ role := "user", content := "goal" }, { role := "assistant", content := "", toolCalls := ["ask"] }]

/-- A call that asks a question. -/
def asking : List (ℕ × Act × Time) :=
  [(0, .get { goal := "goal", messages := asked.take 1 }, 0), (0, .claim {} none {} 0 0, 0),
    (0, .load, 0), (0, .suspend asked "ask" "Which file?", 0), (0, .handle, 0), (0, .park {} 1, 1),
    (0, .finish {} 2, 2)]

/-- The task that waits for the answer. -/
def waiting : TaskRow where
  goal := "goal"
  criteria := {}
  state := .suspended
  phase := .waitingUser
  checkpoint := { messages := asked, suspendedToolCallId := some "ask" }
  reply := some "Which file?"
  attempts := 1

/-- A file. -/
def file : Attachment := ⟨"Uploaded text file: note.txt (text/plain, 2 bytes).\n\nhi"⟩

theorem waits : ∃ s : Sys, (lts key).Reachable Initial s ∧ s.pcs 1 = .idle ∧ s.base.now = 2 ∧
    Awaits {} key 3 waiting "ask" s.base.db := by
  have h : (Sys.init.acts? key (fun _ _ => true) asking).map
      (fun s => (s.pcs 1, s.base.now, s.base.db.tasks key)) = some (.idle, 2, some waiting) := by
    decide
  obtain ⟨s, hs, hrest⟩ := Option.map_eq_some_iff.1 h
  simp only [Prod.mk.injEq] at hrest
  obtain ⟨hpc, hnow, hrow⟩ := hrest
  exact ⟨s, .run (.of_init initial_init) (run_of_acts? hs).of_restrict, hpc, hnow, hrow, rfl, rfl,
    nofun⟩

/-- The tasks of the owner. -/
def updates : List (TaskId × Time) := [("task", 2)]

theorem newest (db : TaskDb) : Newest updates key db :=
  ⟨[], [], by simp [TaskStore.list, updates, key], nofun⟩

end Sample

/-- An answer without attachments resumes the task. -/
theorem answer_resumes_waiting : ∃ s : Sys, (lts Sample.key).Reachable Initial s ∧
    ∃ a, dispatchTaskInput {} {} Sample.updates "owner" "note.txt" [] 3 s.base.db =
        .ok (s.base.db, .resume "task" a) ∧
      Resumes Sample.key s (resumingActs 1 a {} {} none 3 3 3) 1 Sample.waiting "ask" "note.txt"
        [] := by
  obtain ⟨s, hs, hidle, hnow, hwaits⟩ := Sample.waits
  refine ⟨s, hs, (answer_resumes_iff hwaits (by decide) hidle (by rw [hnow]; decide) le_rfl
    le_rfl).2 ⟨rfl, Sample.newest _, ⟨rfl, rfl⟩, ⟨rfl, rfl⟩, ⟨by decide, rfl, rfl⟩, rfl, by decide⟩⟩

/-- The same answer with a file is refused, and the task stays as it is. -/
theorem answer_refused : ∃ s : Sys, (lts Sample.key).Reachable Initial s ∧
    Awaits {} Sample.key 3 Sample.waiting "ask" s.base.db ∧
    ∃ a, dispatchTaskInput {} {} Sample.updates "owner" "note.txt" [Sample.file] 3 s.base.db =
        .ok (s.base.db, .resume "task" a) ∧
      (s.act? Sample.key 1 (.get a) 3).map (fun s' => (s'.pcs 1, s'.base)) =
        some (.done, s.base) ∧
      ¬ Resumes Sample.key s (resumingActs 1 a {} {} none 3 3 3) 1 Sample.waiting "ask" "note.txt"
        [Sample.file] := by
  obtain ⟨s, hs, hidle, hnow, hwaits⟩ := Sample.waits
  have hdispatch : dispatchTaskInput {} {} Sample.updates Sample.key.1 "note.txt" [Sample.file] 3
      s.base.db = .ok (s.base.db, .resume "task"
        (answerArgs Sample.waiting "ask" "note.txt" [Sample.file])) :=
    dispatch_answer hwaits (Sample.newest _) (by decide) rfl
  refine ⟨s, hs, hwaits, _, hdispatch, ?_, ?_⟩
  · rw [act_get _ _ hwaits hidle, Option.map_some]
    simp only [Function.update_self]
    rfl
  · rintro ⟨s', w, row', hacts, -⟩
    have hnil := ((acts_resuming hwaits hidle (by rw [hnow]; decide) le_rfl le_rfl).1 hacts).1
    cases hnil

end Durable

end PythonAI
