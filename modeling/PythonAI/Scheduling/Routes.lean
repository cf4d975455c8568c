import PythonAI.Communication.Sessions
import PythonAI.Library.Text
import PythonAI.Scheduling.Calls

/-!
# Where the notifications of a schedule go

A job keeps the context of the turn that created it as a text.  `NotificationDispatcher.route` reads
the platform and the conversation back from the session in that text; the transport composes the
session, from the platform and the conversation, or from a random id after `/new-session`.

* `Dispatcher.route` : the platform and the conversation, or why there are none;
* `Dispatcher.route_turn` : **a notification finds the conversation of its turn iff the turn runs in
  the first session of the conversation**, where the adapters take it;
* `reports_to_creator` : **so it is in every history in which no message of the conversation opens
  another session**;
* `reports_elsewhere` : after `/new-session` it is not.
-/

namespace PythonAI

open Library

namespace Scheduling

/-! ### The dispatcher -/

/-- The platforms of the adapters. -/
def platforms : List String := ["telegram", "discord", "line"]

/-- `NotificationDispatcher`. -/
structure Dispatcher where
  /-- the adapters it is given: the name and the `platform` of each -/
  given : List (String × Option String)
  /-- `allowed_senders` -/
  allowed : Option (List String) := none
  /-- `get_user_role` -/
  role : String → String

/-- Why a notification has no route. -/
inductive Refusal
  /-- `None`: the platform has no adapter -/
  | skipped
  /-- `False`: the target is not one the sender may use -/
  | refused
  /-- an exception leaves `route` -/
  | raised
  deriving DecidableEq, Repr

/-- `task_owner`. -/
def taskOwner (json : Json) (source identity project session : Option String) : Owner :=
  json.array [source, identity, project, session]

/-- The two parts of `text.split(':', 1)`. -/
def splitTwo (text : Option String) : Except Refusal (String × String) := do
  let text ← require text .raised
  require (splitFirst ':' text) .refused

namespace Dispatcher

variable (d : Dispatcher) (json : Json)

/-- `self.adapters`. -/
def adapters : List String :=
  (d.given.filter fun a => a.1 ∈ platforms && a.2 = some a.1).map (·.1)

/-- `route`, of a row with the owner and the context. -/
def route (owner : Owner) (context : String) : Except Refusal (String × String) := do
  let scope ← require (json.loads context) .refused
  let identity ← require (scope.lookup "identity") .refused
  let session ← require (scope.lookup "session") .refused
  let (platform, sender) ← splitTwo identity
  let (sessionPlatform, conversation) ← splitTwo session
  let source ← require (scope.lookup "source") .refused
  let project ← require (scope.lookup "project") .refused
  ensure (source = some "communication" && taskOwner json source identity project session = owner &&
    platform = sessionPlatform) .refused
  ensure (platform ∈ d.adapters) .skipped
  ensure (sender ≠ "" && conversation ≠ "" && conversation.length ≤ 512 && sender.length ≤ 512)
    .refused
  ensure (d.allowed.all (identity.getD "" ∈ ·)) .refused
  ensure (d.role (identity.getD "") = "admin") .refused
  pure (platform, conversation)

end Dispatcher

/-! ### The turn that creates a job -/

/-- A turn of a conversation: its command, and what else its context saves. -/
structure Turn where
  /-- the command -/
  command : Communication.Command
  conversation : String := ""
  lifecycleOwner : Option String := none
  workspace : String
  /-- `current_role()` -/
  role : String := "admin"

namespace Turn

variable (t : Turn) (json : Json)

/-- `identity`. -/
def identity : String := t.command.platform ++ ":" ++ t.command.sender

/-- The scope that `add_job` saves. -/
def scope : Fields :=
  [("source", some "communication"), ("identity", some t.identity),
    ("project", some t.command.project), ("session", some t.command.sessionName),
    ("conversation", some t.conversation), ("lifecycle_owner", t.lifecycleOwner),
    ("workspace", some t.workspace)]

/-- The context of the turn, for `add_job`. -/
def caller : Caller where
  owner := taskOwner json (some "communication") (some t.identity) (some t.command.project)
    (some t.command.sessionName)
  context := json.dumps t.scope
  role := t.role

end Turn

namespace Dispatcher

/-- The sender of the command may be notified. -/
def Admits (d : Dispatcher) (c : Communication.Command) : Prop :=
  d.allowed.all (c.platform ++ ":" ++ c.sender ∈ ·) = true ∧
    d.role (c.platform ++ ":" ++ c.sender) = "admin"

/-- There is an adapter for the platform, and the names of the sender and of the conversation fit
it. -/
structure Takes (d : Dispatcher) (platform sender conversation : String) : Prop where
  /-- the adapter -/
  adapter : platform ∈ d.adapters
  /-- the sender -/
  sender : sender ≠ "" ∧ sender.length ≤ 512
  /-- the conversation -/
  conversation : conversation ≠ "" ∧ conversation.length ≤ 512

/-- There is an adapter for the conversation of the command. -/
def Delivers (d : Dispatcher) (c : Communication.Command) : Prop :=
  d.Takes c.platform c.sender c.conversation

/-- The notifications of the job go where the reply of the turn goes. -/
def Reports (d : Dispatcher) (json : Json) (t : Turn) (row : Job) : Prop :=
  d.route json row.owner row.context = .ok (t.command.platform, t.command.conversation)

variable {d : Dispatcher} {json : Json} {t : Turn}

/-- The name of a platform with an adapter has no colon. -/
theorem adapter_plain {platform : String} (h : platform ∈ d.adapters) :
    ':' ∉ platform.toList := by
  obtain ⟨a, ha, rfl⟩ := List.mem_map.1 h
  have hmem := (List.mem_filter.1 ha).2
  simp only [platforms, Bool.and_eq_true, decide_eq_true_eq, List.mem_cons, List.not_mem_nil,
    or_false] at hmem
  rcases hmem.1 with h | h | h <;> rw [h] <;> decide

/-- The route of the notifications of a job: the conversation that its session names. -/
theorem route_ok_iff (hadmits : d.Admits t.command) {conversation : String} :
    d.route json (t.caller json).owner (t.caller json).context =
        .ok (t.command.platform, conversation) ↔
      d.Takes t.command.platform t.command.sender conversation ∧
        t.command.sessionName = t.command.platform ++ ":" ++ conversation := by
  have hcolon : String.singleton ':' = ":" := rfl
  simp only [route, Turn.caller, json.loads_dumps, bind_eq_ok, require_eq_ok, ensure_eq_ok,
    pure_eq_ok, splitTwo, Prod.mk.injEq, Bool.and_eq_true, decide_eq_true_eq]
  constructor
  · rintro ⟨_, hscope, _, hidentity, _, hsession, ⟨platform, sender⟩, ⟨identity, rfl, hi⟩,
      ⟨platform', conversation'⟩, ⟨session, rfl, hs⟩, -, -, -, -, -, ⟨-, rfl⟩, -, hadapter, -,
      ⟨⟨⟨hsender, hconversation⟩, hlong⟩, hlong'⟩, -, -, -, -, rfl, rfl⟩
    cases hscope
    cases hidentity
    cases hsession
    rw [splitFirst_eq_some, hcolon] at hi hs
    have hsame : t.command.sender = sender :=
      String.append_right_inj (t.command.platform ++ ":") |>.1 hi.1
    subst hsame
    exact ⟨⟨hadapter, ⟨hsender, hlong'⟩, hconversation, hlong⟩, hs.1⟩
  · rintro ⟨hd, hs⟩
    have hplain := adapter_plain hd.adapter
    refine ⟨_, rfl, _, rfl, _, rfl, (t.command.platform, t.command.sender),
      ⟨_, rfl, splitFirst_eq_some.2 ⟨rfl, hplain⟩⟩, (t.command.platform, conversation),
      ⟨_, rfl, splitFirst_eq_some.2 ⟨hs, hplain⟩⟩, _, rfl, _, rfl, (),
      ⟨⟨rfl, decide_eq_true rfl⟩, rfl⟩, (), hd.adapter, (), ⟨⟨⟨hd.sender.1, hd.conversation.1⟩, hd.conversation.2⟩, hd.sender.2⟩, (),
      hadmits.1, (), hadmits.2, rfl, rfl⟩

/-- **A notification finds the conversation of its turn iff the turn runs in the first session of
the conversation.** -/
theorem route_turn (hadmits : d.Admits t.command) :
    d.route json (t.caller json).owner (t.caller json).context =
        .ok (t.command.platform, t.command.conversation) ↔
      d.Delivers t.command ∧ t.command.sessionName = t.command.head.first :=
  route_ok_iff hadmits

end Dispatcher

section

variable (json : Json) (d : Dispatcher)

/-- Every job that the turn adds is reported to the conversation iff `p`. -/
def ReportedIff (t : Turn) (p : Prop) : Prop :=
  d.Admits t.command → ∀ cal spec room key now db db' id,
    Store.addJob cal spec (t.caller json) room key now db = .ok (db', id) →
      ∃ row, db'.jobs id = some row ∧ (d.Reports json t row ↔ p)

variable {json d}

theorem reportedIff {t : Turn} {p : Prop}
    (hp : t.command.sessionName = t.command.head.first → (d.Delivers t.command ↔ p))
    (hn : t.command.sessionName ≠ t.command.head.first → ¬ p) : ReportedIff json d t p := by
  intro hadmits cal spec room key now db db' id h
  simp only [Store.addJob, bind_eq_ok, pure_eq_ok, Prod.mk.injEq] at h
  obtain ⟨-, -, due, -, -, -, -, -, rfl, rfl⟩ := h
  refine ⟨newJob spec (t.caller json) due, (Table.set_apply _ _ _ _).trans (if_pos rfl), ?_⟩
  have hroute : d.route json (t.caller json).owner (t.caller json).context =
      .ok (t.command.platform, t.command.conversation) ↔
        d.Delivers t.command ∧ t.command.sessionName = t.command.head.first :=
    d.route_turn hadmits
  refine hroute.trans ?_
  by_cases hs : t.command.sessionName = t.command.head.first
  · rw [← hp hs]
    exact ⟨And.left, fun hd => ⟨hd, hs⟩⟩
  · exact ⟨fun h => absurd h.2 hs, fun h => absurd h (hn hs)⟩

end

/-- **A schedule reports to the conversation that created it as long as the conversation is in its
first session**: in every run in which no message opens another session or is bound to one; and at
each message, iff it is filed under that session. -/
theorem reports_to_creator (json : Json) (d : Dispatcher) :
    (∀ loads h s, ((Communication.Intake.lts loads).restrict
        (Communication.Intake.Call.Stays h)).Reachable (· = .empty) s →
      ∀ id j, s.db.job id = some j → j.command.head = h → ∀ t : Turn, t.command = j.command →
        ReportedIff json d t (d.Delivers t.command)) ∧
    ∀ m b recovery u db db' session,
      Communication.incomingSession m (.ok b) recovery u db = .ok (db', session) →
      ∀ t : Turn, t.command = { m.command with session := session } →
        ReportedIff json d t (d.Delivers t.command ∧ m.Keeps b recovery db) := by
  constructor
  · intro loads h s hr id j hj hhead t ht
    have hfirst := (Communication.Intake.First.of_run hr).jobs id j hj hhead
    have hname : t.command.sessionName = t.command.head.first := by
      rw [ht, Communication.sessionName_eq_first, hhead]
      exact hfirst
    exact reportedIff (fun _ => .rfl) fun hne => absurd hname hne
  · intro m b recovery u db db' session h t ht
    obtain ⟨b', -, hb, hsession, -⟩ := Communication.incomingSession_ok h
    cases hb
    have hkeeps : t.command.sessionName = t.command.head.first ↔ m.Keeps b recovery db := by
      rw [Communication.sessionName_eq_first, ← Communication.sessionOf_first (u := u), ht, hsession]
      rfl
    exact reportedIff (fun hs => ⟨fun hd => ⟨hd, hkeeps.1 hs⟩, And.left⟩)
      fun hne hp => hne (hkeeps.2 hp.2)

namespace Sample

/-- A message of alice in the chat `42`. -/
def chat (id text : String) : Communication.Intake.Message :=
  { platform := "telegram", id := id, conversation := "42", sender := "alice", text := text }

/-- A dispatcher with one adapter, for which everybody is an admin. -/
def telegram : Dispatcher where
  given := [("telegram", some "telegram")]
  role _ := "admin"

/-- The turn of a request of alice in the session. -/
def request (session : String) : Turn where
  command := { (chat "2" "remind me").command (some 2) with session := session }
  workspace := "/work"

/-- A `/new-session` and a request come in. -/
def messages : List Communication.Intake.Call :=
  [.ingest {} (chat "1" "/new-session") none "7f", .ingest {} (chat "2" "remind me") none "80"]

/-- The transport after these messages. -/
def renewed : Communication.Intake.Store :=
  messages.foldl (Communication.Intake.Call.perform fun _ => .ok []) .empty

/-- The job that the turn adds. -/
def reminder (t : Turn) : Except Error (Db × JobId) :=
  Store.addJob cal
    { name := "tea", cron := "0 17 * * *", jobType := .agent, payload := "\x7b\x7d" } (t.caller .plain)
    true 0 0 .empty

end Sample

/-- **After `/new-session` a notification goes to a conversation that does not exist.** -/
theorem reports_elsewhere :
    (Communication.Intake.lts fun _ => .ok []).Run .empty Sample.messages Sample.renewed ∧
      (∃ j, Sample.renewed.db.job "telegram:2" = some j ∧
        j.command = (Sample.request "telegram:42:7f").command) ∧
      ∃ db row, Sample.reminder (Sample.request "telegram:42:7f") = .ok (db, 0) ∧
        db.jobs 0 = some row ∧
        Sample.telegram.route .plain row.owner row.context = .ok ("telegram", "42:7f") ∧
        ¬ Sample.telegram.Reports .plain (Sample.request "telegram:42:7f") row := by
  have hroute : Sample.telegram.route .plain
      ((Sample.request "telegram:42:7f").caller .plain).owner
      ((Sample.request "telegram:42:7f").caller .plain).context = .ok ("telegram", "42:7f") :=
    (Dispatcher.route_ok_iff ⟨rfl, rfl⟩).2
      ⟨⟨by decide, ⟨by decide, by decide⟩, by decide, by decide⟩, rfl⟩
  refine ⟨.cons rfl (.cons rfl (.nil _)), ⟨_, rfl, by decide⟩, _, _, rfl, rfl, hroute,
    fun h => ?_⟩
  have hsame := hroute.symm.trans h
  exact absurd hsame (by simp [Sample.request, Sample.chat, Communication.Intake.Message.command])

end Scheduling

end PythonAI
