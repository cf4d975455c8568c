import PythonAI.Library.Records
import PythonAI.Library.Text
import PythonAI.Limits
import PythonAI.Tasks.Types

/-!
# Communication: the rows of the transport database

A message that a chat platform delivers becomes a job (`agent_command_jobs`) of a conversation
session (`comm_session_states`); what is sent back to the platform is a delivery
(`comm_deliveries`), and a delivery with a durable event key is recorded in `comm_event_keys`.

The columns that no modelled function reads are left out, and with them the tables of the messages
and of the attachments; a digest is represented by the text it is the digest of.
-/

namespace PythonAI

open Library

namespace Communication

/-- `agent_command_jobs.command_id`. -/
abbrev CommandId := String

/-- `agent_command_jobs.status`. -/
inductive Status
  | pending | running | suspended | recoveryRequired | completed | failed | cancelRequested
  | cancelled | deleted
  deriving DecidableEq, Repr

/-- A cancellation is recorded. -/
def Status.marked : Status → Bool
  | cancelRequested | cancelled => true
  | _ => false

/-- `comm_session_states.state`. -/
inductive Lifecycle
  | active | deleting | deleted
  deriving DecidableEq, Repr

/-- The key of `comm_session_states`. -/
structure Scope where
  platform : String
  sender : String
  project : String
  session : String
  deriving DecidableEq, Repr

/-- The key of `comm_session_heads`. -/
structure Head where
  platform : String
  sender : String
  conversation : String
  project : String
  deriving DecidableEq, Repr

/-- `AgentCommand`. -/
structure Command where
  /-- `command_id` -/
  id : CommandId
  platform : String
  /-- `conversation_id` -/
  conversation : String
  /-- `sender_id` -/
  sender : String
  text : String
  project : String := "default"
  session : String := ""
  /-- `source_message_id` -/
  source : Option ℕ := none
  deriving DecidableEq, Repr

/-- `command.session or platform:conversation`. -/
def Command.sessionName (c : Command) : String :=
  if c.session = "" then c.platform ++ ":" ++ c.conversation else c.session

/-- The session state that `lifecycle_state` reads. -/
def Command.scope (c : Command) : Scope := ⟨c.platform, c.sender, c.project, c.sessionName⟩

/-- `agent_command_jobs.state`: what a suspended job continues from. -/
structure Saved where
  messages : List Message
  /-- `episode_id` -/
  episode : Option ℕ := none
  deriving DecidableEq, Repr

/-- A row of `agent_command_jobs`. -/
structure Job where
  /-- the columns of the command -/
  command : Command
  status : Status := .pending
  attempts : ℕ := 0
  resultText : Option String := none
  lastError : Option String := none
  state : Option Saved := none
  /-- `suspended_tool_call_id` -/
  callId : Option String := none
  deliveryReady : Bool := true
  deriving DecidableEq, Repr

/-- The primary key of a job. -/
def Job.id (j : Job) : CommandId := j.command.id

/-- `WHERE platform=? AND sender_id=? AND project=? AND session=?`. -/
def Job.within (s : Scope) (j : Job) : Bool :=
  j.command.platform = s.platform && j.command.sender = s.sender &&
    j.command.project = s.project && j.command.session = s.session

/-- `comm_deliveries.id`: a delivery is named by its content, or by a durable event. -/
inductive DeliveryKey
  /-- `command:outbound:digest` or `command:error:digest` -/
  | content (command : CommandId) (isError : Bool) (text : String)
  /-- `command:temporal:event` -/
  | event (command : CommandId) (key : String)
  deriving DecidableEq, Repr

/-- `comm_deliveries.state`. -/
inductive DeliveryState
  | pending | sending | sent | uncertain | deleted
  deriving DecidableEq, Repr

/-- A row of `comm_deliveries`. -/
structure Delivery where
  id : DeliveryKey
  platform : String
  conversation : String
  sender : String
  project : String
  session : String
  text : String
  replyContext : String
  state : DeliveryState := .pending
  lease : Option Time := none
  error : Option String := none
  expires : Time
  /-- `cleanup_receipt` -/
  receipt : Bool := false
  deriving DecidableEq, Repr

/-- The session of a delivery. -/
def Delivery.scope (d : Delivery) : Scope := ⟨d.platform, d.sender, d.project, d.session⟩

/-- What the fingerprint of a durable event covers. -/
structure Fingerprint where
  text : String
  platform : String
  /-- `sender_id` -/
  sender : String
  /-- `conversation_id` -/
  conversation : String
  project : String
  session : String
  isError : Bool
  deriving DecidableEq, Repr

/-- A row of `comm_event_keys`. -/
structure EventKey where
  id : DeliveryKey
  digest : Fingerprint
  deriving DecidableEq, Repr

/-- The transport database. -/
structure Db where
  /-- `agent_command_jobs`, in the order of their ids -/
  jobs : List Job
  /-- `comm_session_states` -/
  states : Table Scope Lifecycle
  /-- `comm_session_heads` -/
  heads : Table Head String
  /-- `comm_deliveries` -/
  deliveries : List Delivery
  /-- `comm_event_keys` -/
  eventKeys : List EventKey

/-- The database `CommunicationStore` creates. -/
def Db.empty : Db := ⟨[], .empty, .empty, [], []⟩

/-- The row of a job. -/
def Db.job (db : Db) (id : CommandId) : Option Job := Records.find Job.id id db.jobs

/-- The row of a delivery. -/
def Db.delivery (db : Db) (id : DeliveryKey) : Option Delivery :=
  Records.find Delivery.id id db.deliveries

/-- `lifecycle_state`. -/
def Db.lifecycle (db : Db) (c : Command) : Lifecycle := (db.states c.scope).getD .active

/-- An update of the jobs that satisfy `p`. -/
def Db.updateJobs (db : Db) (p : Job → Bool) (f : Job → Job) : Db :=
  { db with jobs := db.jobs.map fun j => if p j then f j else j }

/-- An update of the deliveries that satisfy `p`. -/
def Db.updateDeliveries (db : Db) (p : Delivery → Bool) (f : Delivery → Delivery) : Db :=
  { db with deliveries := db.deliveries.map fun d => if p d then f d else d }

/-! ### Texts -/

/-- `text.startswith(prefix)`. -/
def startsWith (start s : String) : Bool := start.toList.isPrefixOf s.toList

/-- The rest of the text after `start`, if the text starts with it. -/
def after (start s : String) : Option String :=
  if startsWith start s then some (String.ofList (s.toList.drop start.length)) else none

/-- `/session-delete (confirm|status|resume) [0-9a-f]{32}`. -/
def recoveryControl (text : String) : Bool :=
  ["confirm", "status", "resume"].any fun verb =>
    (after ("/session-delete " ++ verb ++ " ") (strip text)).any (isHex 32)

/-- `cleanup_control`. -/
def cleanupControl (text : String) : Bool :=
  strip text = "/session-delete preview" || recoveryControl text

/-- `/cancel \S{1,256}`. -/
def cancellation (text : String) : Bool :=
  (after "/cancel " (strip text)).any fun id =>
    id ≠ "" && id.length ≤ 256 && !id.toList.any isSpace

end Communication

end PythonAI
