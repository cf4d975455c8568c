import PythonAI.Scheduling.Routes

/-!
# `NotificationDispatcher`: sending the notifications

A notification is claimed by a row of `schedule_notification_delivery`, which is inserted unless
there is one; the same insertion cancels the notifications of a job that is disabled.  The platform
send comes after the claim, in no transaction; its result is written only over `sending`, under the
token of the claim, and a dispatcher marks the rows whose sender is lost.

* `Desk.lts` : any number of dispatchers beside the calls of `SchedulerStore`;
* `Told` : what a call of `SchedulerStore` does to the jobs and the notifications;
* `Desk.step_delivery` : **what a step does to a delivery.**
-/

namespace PythonAI

open Library

namespace Scheduling

/-! ### Rows -/

/-- `schedule_notification_delivery.status`. -/
inductive DeliveryStatus
  | sending | sent | uncertain | cancelled
  deriving DecidableEq, Repr

/-- A row of `schedule_notification_delivery`. -/
structure Delivery where
  status : DeliveryStatus
  token : Option Token := none
  expires : Time := 0
  errorType : Option String := none
  completed : Option Time := none
  deriving DecidableEq, Repr

/-- A row that `dispatch_once` selects: the notification, with the context of its job. -/
structure Selected where
  /-- `n.*` -/
  note : Notification
  /-- `j.context` -/
  context : String
  deriving DecidableEq, Repr

/-- `OutboundMessage`. -/
structure Outbound where
  platform : String
  /-- `conversation_id` -/
  conversation : String
  text : String
  deriving DecidableEq, Repr

/-- `schedule_notifications.state`. -/
def Outcome.text : Outcome → String
  | completed => "completed"
  | failed => "failed"
  | waiting => "waiting"
  | needsInput => "needs_input"
  | uncertain => "uncertain"
  | cancelled => "cancelled"
  | erasing => "erasing"

/-- The one message of a notification. -/
def Notification.text (n : Notification) : String :=
  cut 1800 ("排程通知 [" ++ n.state.text ++ "]\n" ++ n.output)

/-- The deliveries of a database. -/
abbrev Deliveries := Table Token Delivery

namespace Deliveries

/-- `status='uncertain'` where the sender is lost. -/
def expire (t : Time) (deliveries : Deliveries) : Deliveries :=
  deliveries.updateWhere (fun _ x => x.status = .sending && x.expires < t)
    fun x => { x with status := .uncertain, errorType := some "LostDeliveryWorker" }

/-- The insertion that `disable` makes for the notifications of the job. -/
def cancel (key : JobId) (owner : Owner) (db : Db) (deliveries : Deliveries) : Deliveries :=
  deliveries.offer
    ((db.notifications.filter fun n => n.job = key && n.owner = owner).map Notification.id)
    ⟨.cancelled, none, 0, none, none⟩

/-- The result of the send with the token. -/
def report (id token : Token) (error : Option String) (t : Time) (deliveries : Deliveries) :
    Deliveries :=
  deliveries.update id (fun x => x.token = some token && x.status = .sending) fun x =>
    { x with
      status := if error.isNone then .sent else .uncertain
      errorType := error
      completed := some t }

end Deliveries

/-- The notifications without a delivery, with the contexts of their jobs. -/
def pending (db : Db) (deliveries : Deliveries) : List Selected :=
  (db.notifications.filter fun n => (deliveries n.id).isNone).filterMap fun n =>
    (db.jobs n.job).map fun row => ⟨n, row.context⟩

section

variable (json : Json)

/-- The row comes from a conversation on a platform with an adapter. -/
def Dispatcher.reaches (d : Dispatcher) (x : Selected) : Bool :=
  (json.loads x.context).any fun scope =>
    scope.lookup "source" = some (some "communication") &&
      ((scope.lookup "identity").join.bind (splitFirst ':')).any (·.1 ∈ d.adapters)

/-- The first transaction of `dispatch_once`; a context that is no JSON raises. -/
def Dispatcher.select (d : Dispatcher) (t : Time) (db : Db) (deliveries : Deliveries) :
    Option (Deliveries × List Selected) :=
  let deliveries := deliveries.expire t
  let rows := pending db deliveries
  if rows.any fun x => (json.loads x.context).isNone then none
  else some (deliveries, (rows.filter (d.reaches json)).take 100)

end

/-! ### The processes -/

/-- Where `dispatch_once` is in its loop. -/
inductive Stage
  /-- before the next row -/
  | next
  /-- the row is claimed -/
  | claimed (x : Selected) (token : Token) (platform conversation : String)
  /-- the message is sent -/
  | sending (x : Selected) (token : Token)
  deriving DecidableEq, Repr

/-- A process in `dispatch_once`. -/
structure Process where
  /-- its dispatcher -/
  dispatcher : Dispatcher
  /-- the selected rows that are left -/
  rows : List Selected
  /-- its place in the loop -/
  stage : Stage := .next
  sent : ℕ := 0

/-- The scheduler with the deliveries and the processes that send. -/
structure Desk where
  /-- the scheduler -/
  sys : Sys
  /-- `schedule_notification_delivery` -/
  deliveries : Deliveries
  /-- the processes in `dispatch_once` -/
  processes : Table ℕ Process
  /-- the platform sends that were started, with the notifications they are for -/
  sends : List (Token × Outbound)

/-- One step of the system. -/
inductive DeskAct
  /-- a call of `SchedulerStore` -/
  | call (c : Call)
  /-- the process `p` enters `dispatch_once`, at time `t` -/
  | select (p : ℕ) (d : Dispatcher) (t : Time)
  /-- the process claims the next row -/
  | claim (p : ℕ) (t : Time)
  /-- the process starts the platform send -/
  | send (p : ℕ)
  /-- the send has returned, or raised an error of this type -/
  | report (p : ℕ) (error : Option String) (t : Time)
  /-- the process leaves `dispatch_once`, or is lost -/
  | stop (p : ℕ)

namespace Desk

variable (json : Json)

/-- The process goes on as `x`. -/
def put (s : Desk) (p : ℕ) (x : Process) : Desk := { s with processes := s.processes.set p x }

/-- The process is gone. -/
def drop (s : Desk) (p : ℕ) : Desk := { s with processes := s.processes.erase p }

/-- A random id is handed out. -/
def tick (s : Desk) : Desk := { s with sys := { s.sys with uuids := s.sys.uuids + 1 } }

/-- `INSERT OR IGNORE` of the delivery of the notification, under the next random id. -/
def insert (s : Desk) (id : Token) (status : DeliveryStatus) (t : Time) : Desk :=
  { s.tick with
    deliveries := s.deliveries.offer [id] ⟨status, some s.sys.uuids, t + 60, none, none⟩ }

/-- The selection. -/
def select (p : ℕ) (d : Dispatcher) (t : Time) (s : Desk) : Option Desk :=
  if (s.processes p).isSome || d.adapters = [] then none
  else match d.select json t s.sys.db s.deliveries with
    | none => some s
    | some (deliveries, rows) => some (put { s with deliveries := deliveries } p ⟨d, rows, .next, 0⟩)

/-- The claim of the next row. -/
def claim (p : ℕ) (t : Time) (s : Desk) : Option Desk :=
  match s.processes p with
  | some ⟨d, x :: rows, .next, n⟩ =>
    match d.route json x.note.owner x.context with
    | .error .skipped => some (s.put p ⟨d, rows, .next, n⟩)
    | .error .raised => some (s.drop p)
    | .error .refused => some ((s.insert x.note.id .cancelled t).put p ⟨d, rows, .next, n⟩)
    | .ok (platform, conversation) =>
      if (s.deliveries x.note.id).isNone then
        some ((s.insert x.note.id .sending t).put p
          ⟨d, rows, .claimed x s.sys.uuids platform conversation, n⟩)
      else some (s.tick.put p ⟨d, rows, .next, n⟩)
  | _ => none

/-- The start of the platform send. -/
def send (p : ℕ) (s : Desk) : Option Desk :=
  match s.processes p with
  | some ⟨d, rows, .claimed x token platform conversation, n⟩ =>
    some (put { s with sends := s.sends ++ [(x.note.id, ⟨platform, conversation, x.note.text⟩)] } p
      ⟨d, rows, .sending x token, n⟩)
  | _ => none

/-- The result of the platform send. -/
def report (p : ℕ) (error : Option String) (t : Time) (s : Desk) : Option Desk :=
  match s.processes p with
  | some ⟨d, rows, .sending x token, n⟩ =>
    some (put { s with deliveries := s.deliveries.report x.note.id token error t } p
      ⟨d, rows, .next, if error.isNone then n + 1 else n⟩)
  | _ => none

/-- The step of a process. -/
def act (s : Desk) : DeskAct → Option Desk
  | .call _ => none
  | .select p d t => s.select json p d t
  | .claim p t => s.claim json p t
  | .send p => s.send p
  | .report p error t => s.report p error t
  | .stop p => some (s.drop p)

/-- The deliveries after a call of `SchedulerStore`: a job that is disabled cancels those of its
notifications. -/
def called (s : Desk) : Call → Deliveries
  | .disable key owner =>
    if s.sys.db.jobs.selects key (Store.owned owner) then s.deliveries.cancel key owner s.sys.db
    else s.deliveries
  | _ => s.deliveries

/-- Any number of dispatchers, beside any calls of `SchedulerStore`. -/
def lts (cal : Calendar) : Lts Desk DeskAct where
  step s a s' :=
    (∃ c sys, a = .call c ∧ (Sys.lts cal).step s.sys c sys ∧
      s' = { s with sys := sys, deliveries := s.called c }) ∨ s.act json a = some s'

/-- No delivery and no dispatcher yet; a notification belongs to the owner of its job. -/
structure Initial (s : Desk) : Prop where
  /-- no delivery -/
  deliveries : s.deliveries = .empty
  /-- no process -/
  processes : s.processes = .empty
  /-- nothing was sent -/
  sends : s.sends = []
  /-- the notifications -/
  notes : ∀ n ∈ s.sys.db.notifications, ∃ row, s.sys.db.jobs n.job = some row ∧ row.owner = n.owner

end Desk

end Scheduling

end PythonAI
