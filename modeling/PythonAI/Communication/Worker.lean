import PythonAI.Communication.Calls
import PythonAI.Library.Lts
import PythonAI.Tasks.Calls

/-!
# `CommunicationWorker`

A worker process has a poller, which runs `process_next`, and the threads that run
`background_run`.  Any number of processes share the transport database and the task database;
every process moves one step at a time, a step performs at most one operation, and between two
steps anybody may call anything.  The durable run inside the command runner is a sequence of calls
of `TaskStore`; what it returns, or raises, is arbitrary.

* `Poller` : `_process_next`, with `recover_tasks` and the control commands;
* `Pc` : `background_run`;
* `Host.lts` : the processes, one step at a time.
-/

namespace PythonAI

open Library

namespace Communication

namespace Worker

/-- What a step does to the databases. -/
inductive Effect
  /-- an operation of `CommunicationStore` -/
  | store (o : Op)
  /-- an operation of `TaskStore` -/
  | task (call : Call)
  /-- `claim_delivery` -/
  | claim (id : DeliveryKey) (t₁ t₂ : Time)
  /-- `finish_delivery` -/
  | finish (id : DeliveryKey) (sent : Bool) (error : Option String)

/-- What `_send_reply` reads outside the database. -/
structure Reply where
  /-- `os.environ` -/
  env : Environment := fun _ => none
  /-- `reply_context` -/
  context : String := "{}"
  /-- `event_key` -/
  event : Option String := none
  /-- the clock -/
  time : Time := 0

/-- `queue_delivery`, as `_send_reply` calls it. -/
def Reply.queue (r : Reply) (c : Command) (text : String) (isError : Bool) : Op :=
  .queueDelivery r.env c text r.context isError false (.ok ()) r.event r.time

/-- The outcome of that call. -/
def Reply.outcome (r : Reply) (c : Command) (text : String) (isError : Bool) (db : Db) :
    Except Error (Db × DeliveryKey) :=
  queueDelivery r.env c text r.context isError false (.ok ()) r.event r.time db

/-- `str(error)`. -/
def errorText : Error → String
  | .value m | .missing m | .permission m | .interrupted m | .runtime m | .capacity m | .busy m
  | .recovery m | .uncertain m | .exhausted m | .integrity m | .type m
  | .overflow m => m

/-! ### `background_run` -/

/-- A question that a message was read to answer. -/
structure Question where
  /-- the suspended job -/
  id : CommandId
  /-- its saved state -/
  state : Saved
  /-- its suspended call -/
  call : String
  /-- which question of the job it is -/
  number : ℕ
  deriving DecidableEq, Repr

/-- What an agent turn returns. -/
inductive Turn
  /-- a reply -/
  | reply (text : String)
  /-- a question to the human -/
  | suspended (state : Saved) (call reply : String)
  deriving DecidableEq, Repr

/-- Where a thread stands in `background_run`; `c` is its own command, `target` the one it runs. -/
inductive Pc
  /-- it loads the attachments -/
  | started (c : Command) (q : Option Question)
  /-- it takes the suspended job -/
  | loaded (c : Command) (q : Question)
  /-- it completes its own command -/
  | taken (c : Command) (q : Question)
  /-- it reads the command of the suspended job -/
  | forwarded (c : Command) (q : Question)
  /-- it is inside the command runner -/
  | running (target : Command) (messages : Option (List Message))
  /-- it reads the state of the conversation -/
  | returned (target : Command) (turn : Turn)
  /-- the conversation is not active: it completes the command -/
  | closing (target : Command)
  /-- it queues the receipt of a deletion -/
  | receipting (target : Command)
  /-- it reads whether the command is cancelled -/
  | checking (target : Command) (turn : Turn)
  /-- it reports the outcome -/
  | reporting (target : Command) (turn : Turn)
  /-- it sends a reply, or the text of an error -/
  | replying (target : Command) (text : String) (isError : Bool)
  /-- it handles an exception, which was raised before or after the outcome was reported -/
  | failing (target : Command) (error : String) (reported : Bool)
  /-- it has ended -/
  | done
  deriving DecidableEq, Repr

/-- A step of a thread. -/
inductive ThreadAct
  /-- the next statement -/
  | go
  /-- the command runner returns -/
  | turn (turn : Turn)
  /-- it replies -/
  | notify (r : Reply)
  /-- it queues the receipt `text`; `minimal` is the outcome of the checks on it -/
  | receipt (r : Reply) (text : String) (minimal : Except Error Unit)
  /-- the next statement raises -/
  | fault (error : String)

namespace Pc

/-- The messages a suspended job is resumed with. -/
def resumed (c : Command) (q : Question) : List Message :=
  q.state.messages ++ [.tool q.call (strip c.text)]

/-- The operation of a step. -/
def effect (db : Db) : Pc → ThreadAct → Option Effect
  | loaded _ q, .go => some (.store (.markCommandRunning q.id))
  | taken c _, .go => some (.store (.completeCommand c.id "Forwarded to suspended job"))
  | closing target, .go => some (.store (.completeCommand target.id ""))
  | receipting target, .receipt r text minimal =>
    some (.store (.queueDelivery r.env target text "{}" false true minimal none r.time))
  | reporting target (.reply text), .go => some (.store (.completeCommand target.id text))
  | reporting target (.suspended state call _), .go =>
    some (.store (.suspendCommand target.id state call))
  | replying target text isError, .notify r =>
    if db.lifecycle target = .active then some (.store (r.queue target text isError)) else none
  | failing target error _, .go => some (.store (.failCommand target.id error))
  | _, _ => none

/-- The thread after a step. -/
def next (db : Db) : Pc → ThreadAct → Pc
  | started c none, .go => running c none
  | started c (some q), .go => loaded c q
  | loaded c q, .go => if (markCommandRunning q.id db).2 then taken c q else running c none
  | taken c q, .go => forwarded c q
  | forwarded c q, .go =>
    match db.job q.id with
    | some j => running j.command (some (resumed c q))
    | none => running c none
  | running target _, .turn turn => returned target turn
  | returned target turn, .go =>
    if db.lifecycle target = .active then checking target turn else closing target
  | closing target, .go => if cleanupControl target.text then receipting target else done
  | receipting target, .receipt r text minimal =>
    match queueDelivery r.env target text "{}" false true minimal none r.time db with
    | .error (.capacity message) => failing target message true
    | _ => done
  | checking target turn, .go =>
    if isCancelRequested target.id db then reporting target (.reply "Task cancelled")
    else reporting target turn
  | reporting target (.reply text), .go => replying target text false
  | reporting target (.suspended _ _ reply), .go => replying target reply false
  | replying target text isError, .notify r =>
    if db.lifecycle target = .active then
      match r.outcome target text isError db with
      | .ok _ => done
      | .error e => if isError then done else failing target (errorText e) true
    else done
  | failing target error _, .go => replying target ("Command failed: " ++ error) true
  -- an exception while a suspended job is taken is swallowed: the command itself is run
  | loaded c _, .fault _ | taken c _, .fault _ | forwarded c _, .fault _ => running c none
  | started c _, .fault error => failing c error false
  | running target _, .fault error | returned target _, .fault error | closing target, .fault error
  | checking target _, .fault error | reporting target _, .fault error => failing target error false
  | receipting target, .fault error | replying target _ false, .fault error =>
    failing target error true
  | replying _ _ true, .fault _ | failing .., .fault _ => done
  | pc, _ => pc

end Pc

/-- A thread of a process. -/
structure Thread where
  /-- the process -/
  worker : ℕ
  /-- where it stands -/
  pc : Pc
  deriving DecidableEq, Repr

/-! ### `_process_next` -/

/-- Where a poller stands in `_process_next`. -/
inductive Poller
  /-- it is outside -/
  | idle
  /-- in `recover_tasks`: the commands that are still to be looked at -/
  | recovering (rest : List Command)
  /-- the task of `c` is terminal: it reports that, or cancels the command first -/
  | ending (c : Command) (state : TaskState) (reply : String) (rest : List Command)
  /-- it completes the command it has cancelled -/
  | completing (c : Command) (reply : String) (rest : List Command)
  /-- the task may have had effects: it marks the task -/
  | doubting (c : Command) (rest : List Command)
  /-- and then the command -/
  | requiring (c : Command) (rest : List Command)
  /-- the task is suspended: it suspends the command -/
  | suspending (c : Command) (state : Saved) (call reply : String) (rest : List Command)
  /-- the task can be resumed: it returns the command to `pending` -/
  | resetting (c : Command) (rest : List Command)
  /-- it replies, and goes on with `recover_tasks` or leaves -/
  | replying (c : Command) (text : String) (rest : Option (List Command))
  /-- it has listed a pending command -/
  | picked (c : Command)
  /-- it has taken it -/
  | marked (c : Command)
  /-- it performs a control command -/
  | ordered (c : Command) (orders : List Effect) (reply : String)

/-- A step of a poller. -/
inductive PollAct
  /-- it enters, and lists the commands to recover -/
  | recover
  /-- it reads the task of the next one -/
  | inspect (t : Time)
  /-- it writes what it has found -/
  | write (t : Time)
  /-- it replies -/
  | notify (r : Reply)
  /-- it lists the pending commands; `limit` is `AGENT_TASK_CONCURRENCY` -/
  | pick (limit : ℕ)
  /-- it takes the command -/
  | take
  /-- it performs the command or starts a thread; `resolved` is the job that `/cancel` names -/
  | dispatch (resolved : Option CommandId) (result : String) (t : Time)
  /-- the next operation of a control command -/
  | order
  /-- the next statement raises -/
  | abort

/-- `text.split()[0]`, if there is one. -/
def firstWord (text : String) : String := (words text).head?.getD ""

/-- The commands that are reachable while the worker is busy. -/
def reachableWords : List String :=
  ["/status", "/cancel", "/clear", "/reset", "/approvals", "/approve", "/deny", "/agents", "/tasks",
    "/steps", "/budget", "/cancel-task", "/delivery", "/session-delete", "/workspace",
    "/new-session"]

/-- `human_command` takes the text. -/
def humanCommand (text : String) : Bool := firstWord text ∈ ["/approve", "/deny", "/approvals"]

/-- What a control command does; `none` is an ordinary command. -/
def orders (owner : Command → Owner) (c : Command) (resolved : Option CommandId) (result : String)
    (t : Time) : Option (List Effect) :=
  let text := strip c.text
  let completed : Effect := .store (.completeCommand c.id result)
  if humanCommand text then some [completed]
  else if startsWith "/status" text then some [completed]
  else if text = "/clear" || text = "/reset" then
    some [.task (.cancelSession (owner c) t), .store (.cancelSession c),
      .store (.clearSuspendedCommand c.conversation (some c)), completed]
  else if startsWith "/cancel" text then
    some ((resolved.map fun id => Effect.store (.cancelCommand id (some c))).toList ++ [completed])
  else none

/-- What `recover_tasks` makes of the task of `c`, at time `t`. -/
def inspected (c : Command) (rest : List Command) (t : Time) : Option TaskRow → Poller
  | none => .recovering rest
  | some row =>
    if row.leased t then .recovering rest
    else if row.state.terminal then
      .ending c row.state ((row.reply.filter (· ≠ "")).getD "Task ended without a reply") rest
    else if row.phase.started || row.state = .uncertain then .doubting c rest
    else if row.state = .suspended then
      match row.checkpoint.suspendedToolCallId with
      | some call => .suspending c ⟨row.checkpoint.messages, row.episode⟩ call
          ((row.reply.filter (· ≠ "")).getD "Human input is required") rest
      | none => .idle
    else .resetting c rest

/-! ### The processes -/

/-- The databases and the processes. -/
structure Host where
  /-- the transport database -/
  db : Db
  /-- the task database -/
  tasks : TaskDb
  /-- the next token of `TaskStore` -/
  uuids : Token
  /-- the pollers -/
  pollers : ℕ → Poller
  /-- the threads that were started -/
  threads : List Thread
  /-- how often each job was suspended or returned to `pending` -/
  numbers : CommandId → ℕ
  /-- the questions that a thread took to answer them -/
  answers : List Question

/-- A step. -/
inductive Act
  /-- anybody calls `CommunicationStore` -/
  | op (o : Op)
  /-- a command runner, or anybody else, calls `TaskStore` -/
  | task (call : Call)
  /-- a worker claims a delivery -/
  | claim (id : DeliveryKey) (t₁ t₂ : Time)
  /-- a worker finishes a delivery -/
  | finish (id : DeliveryKey) (sent : Bool) (error : Option String)
  /-- the poller of the process `w` moves -/
  | poll (w : ℕ) (a : PollAct)
  /-- the thread `i` moves -/
  | run (i : ℕ) (a : ThreadAct)
  /-- the process `w` dies -/
  | crash (w : ℕ)

namespace Host

variable (owner : Command → Owner)

/-- The operation of a step of a poller. -/
def pollEffect (h : Host) : Poller → PollAct → Option Effect
  | .ending c state reply _, .write _ =>
    match state with
    | .failed => some (.store (.failCommand c.id reply))
    | .cancelled => some (.store (.cancelCommand c.id none))
    | _ => some (.store (.completeCommand c.id reply))
  | .completing c reply _, .write _ => some (.store (.completeCommand c.id reply))
  | .doubting c _, .write t => some (.task (.markUncertain (owner c) c.id t))
  | .requiring c _, .write _ => some (.store (.setRecoveryState c.id .recoveryRequired))
  | .suspending c state call _ _, .write _ => some (.store (.suspendCommand c.id state call))
  | .resetting c _, .write _ => some (.store (.setRecoveryState c.id .pending))
  | .replying c text _, .notify r =>
    if h.db.lifecycle c = .active then some (.store (r.queue c text false)) else none
  | .picked c, .take => some (.store (.markCommandRunning c.id))
  | .ordered _ (e :: _) _, .order => some e
  | _, _ => none

/-- `_threads` of the process `w` has reached the limit. -/
def busy (h : Host) (w limit : ℕ) : Bool :=
  limit ≤ (h.threads.filter fun th => th.worker = w && th.pc ≠ .done).length

/-- The command that the process `w` runs next. -/
def nextPending (h : Host) (w limit : ℕ) : Option Command :=
  if h.busy w limit then
    ((pendingCommands 64 h.db).filter fun c => firstWord c.text ∈ reachableWords).head?
  else (pendingCommands 1 h.db).head?

/-- What follows a reply of the poller. -/
def proceed : Option (List Command) → Poller
  | some rest => .recovering rest
  | none => .idle

/-- The poller of the process `w` after a step. -/
def pollNext (h : Host) (w : ℕ) : Poller → PollAct → Poller
  | .idle, .recover => .recovering (recoverableCommands h.db)
  | .recovering (c :: rest), .inspect t => inspected c rest t (h.tasks.tasks (owner c, c.id))
  | .ending c state reply rest, .write _ =>
    if state = .cancelled then .completing c reply rest else .replying c reply (some rest)
  | .completing c reply rest, .write _ => .replying c reply (some rest)
  | .doubting c rest, .write _ => .requiring c rest
  | .requiring _ rest, .write _ => .recovering rest
  | .suspending c _ _ reply rest, .write _ => .replying c reply (some rest)
  | .resetting _ rest, .write _ => .recovering rest
  | .replying c text rest, .notify r =>
    if h.db.lifecycle c = .active then
      match r.outcome c text false h.db with
      | .ok _ => proceed rest
      | .error _ => .idle
    else proceed rest
  | .recovering [], .pick limit =>
    match h.nextPending w limit with
    | some c => .picked c
    | none => .idle
  | .picked c, .take => if (markCommandRunning c.id h.db).2 then .marked c else .idle
  | .marked c, .dispatch resolved result t =>
    match orders owner c resolved result t with
    | some os => .ordered c os result
    | none => .idle
  | .ordered c (_ :: os) reply, .order => .ordered c os reply
  | .ordered c [] reply, .order => .replying c reply none
  | _, .abort => .idle
  | p, _ => p

/-- The question that the message `c` answers, if there is one. -/
def question (h : Host) (c : Command) : Option Question :=
  if startsWith "/" (strip c.text) then none
  else (getSuspendedCommand c.conversation (some c) h.db).map fun x =>
    ⟨x.1, x.2.1, x.2.2, h.numbers x.1⟩

/-- The thread that a step of a poller starts. -/
def starts (h : Host) : Poller → PollAct → Option Pc
  | .marked c, .dispatch resolved result t =>
    match orders owner c resolved result t with
    | some _ => none
    | none => some (.started c (h.question c))
  | _, _ => none

/-- The operation of a step. -/
def effect (h : Host) : Act → Option Effect
  | .op o => some (.store o)
  | .task call => some (.task call)
  | .claim id t₁ t₂ => some (.claim id t₁ t₂)
  | .finish id sent error => some (.finish id sent error)
  | .poll w a => h.pollEffect owner (h.pollers w) a
  | .run i a => (h.threads[i]?).bind fun th => th.pc.effect h.db a
  | .crash _ => none

/-- The transport database after an operation. -/
def storeAfter (db : Db) : Option Effect → Db
  | some (.store o) => o.perform db
  | some (.claim id t₁ t₂) => (claimDelivery id t₁ t₂ db).1
  | some (.finish id sent error) => finishDelivery id (if sent then .sent else .uncertain) error db
  | _ => db

/-- The task database after an operation. -/
def tasksAfter (u : Token) (db : TaskDb) : Option Effect → TaskDb
  | some (.task call) => call.perform u db
  | _ => db

/-- The pollers after a step. -/
def pollersAfter (h : Host) : Act → ℕ → Poller
  | .poll w a => Function.update h.pollers w (h.pollNext owner w (h.pollers w) a)
  | .crash w => Function.update h.pollers w .idle
  | _ => h.pollers

/-- The threads after a step. -/
def threadsAfter (h : Host) : Act → List Thread
  | .poll w a => h.threads ++ ((h.starts owner (h.pollers w) a).map fun pc => ⟨w, pc⟩).toList
  | .run i a => h.threads.modify i fun th => { th with pc := th.pc.next h.db a }
  | .crash w => h.threads.map fun th => if th.worker = w then { th with pc := .done } else th
  | _ => h.threads

/-- The job that an operation suspends, or returns to a state in which it can be taken. -/
def renewed (db : Db) : Option Effect → Option CommandId
  | some (.store (.suspendCommand id _ _)) =>
    if (db.job id).any fun j => suspendable id j && db.lifecycle j.command = .active then some id
    else none
  | some (.store (.setRecoveryState id state)) =>
    if (state = .pending || state = .suspended) &&
        (db.job id).any fun j => j.status = .running || j.status = .recoveryRequired then some id
    else none
  | _ => none

/-- The question that a step takes to answer it. -/
def takes (h : Host) : Act → Option Question
  | .run i .go =>
    match h.threads[i]? with
    | some ⟨_, .loaded _ q⟩ => if (markCommandRunning q.id h.db).2 then some q else none
    | _ => none
  | _ => none

/-- The state after a step; a step that does not apply changes nothing. -/
def act (h : Host) (a : Act) : Host where
  db := storeAfter h.db (h.effect owner a)
  tasks := tasksAfter h.uuids h.tasks (h.effect owner a)
  uuids := h.uuids + 1
  pollers := h.pollersAfter owner a
  threads := h.threadsAfter owner a
  numbers := fun id =>
    if renewed h.db (h.effect owner a) = some id then h.numbers id + 1 else h.numbers id
  answers := h.answers ++ (h.takes a).toList

/-- One step at a time; `owner` is `task_owner`. -/
def lts : Lts Host Act where
  step h a h' := h' = h.act owner a

/-- New databases, and no process inside `process_next`. -/
structure Initial (h : Host) : Prop where
  /-- the transport database -/
  db : h.db = .empty
  /-- the task database -/
  tasks : h.tasks = .empty
  /-- the pollers -/
  pollers : ∀ w, h.pollers w = .idle
  /-- the threads -/
  threads : h.threads = []
  /-- nothing was taken -/
  answers : h.answers = []

end Host

end Worker

end Communication

end PythonAI
