import PythonAI.Library.Txn
import PythonAI.Memory.Types

/-!
# `MemoryStore`: episodes and procedures

`finish_episode` reads the status of the episode in one connection and writes it in another one:
`resolve` is what it writes for what it has read.  `process_procedure_candidate` is split in the
same way, into its reads and its writes.  A matcher of procedures is a parameter.
-/

namespace PythonAI

open Library

namespace Memory

namespace MemoryStore

/-! ### Episodes -/

/-- `start_episode`. -/
def startEpisode (db : Db) : Db × ℕ :=
  let id := db.episodes.length + 1
  ({ db with episodes := db.episodes ++ [{ id := id }] }, id)

/-- `finish_episode`: the status that is written, when the status `existing` was read. -/
def resolve (status : Status) (existing : Option Status) : Status :=
  let status := if status = .completed then .verifiedCompleted else status
  match existing with
  | none => status
  | some read => if status = .verifiedCompleted ∧ read.negative then read else status

/-- The `UPDATE` of `finish_episode`. -/
def writeEpisode (id : ℕ) (status : Status) (summary : Option String) (episodes : List Episode) :
    List Episode :=
  episodes.map fun e =>
    if e.id = id ∧ e.status ≠ .deleted then { e with status := status, summary := summary } else e

/-- The insertion of an event. -/
def insertEvent (episode : ℕ) (type : String) (role content : Option String) (metadata : Metadata)
    (db : Db) : Db :=
  { db with events :=
      db.events ++ [⟨db.events.length + 1, episode, type, role, content, metadata⟩] }

/-- `add_event`. -/
def addEvent (episode : ℕ) (type : String) (role content : Option String) (metadata : Metadata)
    (db : Db) : Except Error (Db × ℕ) := do
  ensure ((db.episode episode).map Episode.status ≠ some .deleted)
    (.permission "Deleted conversation episode cannot receive new content")
  pure (insertEvent episode type role content metadata db, db.events.length + 1)

/-- `episode_events`. -/
def episodeEvents (episode : ℕ) (db : Db) : List EpisodeEvent :=
  db.events.filter fun e => e.episode = episode

/-- The status that `finalize_temporal` writes over the status `old`. -/
def finalStatus (state : String) (old : Status) : Status :=
  if old.negative then old else if state = "failed" then .failed else .verifiedCompleted

/-- `finalize_temporal`. -/
def finalizeTemporal (key : String) (episode : ℕ) (reply state : String) (review : Bool)
    (db : Db) : Except Error (Db × Option ℕ) := do
  match Records.find Finalization.key key db.finalizations with
  | some old =>
    ensure (old.fingerprint = (episode, reply, state, review) && old.episode = episode)
      (.value "Finalization key reused with different result")
    pure (db, old.job)
  | none =>
    let row ← require ((db.episode episode).filter fun e => e.status ≠ .deleted)
      (.permission "Finalization episode is missing or deleted")
    let status := finalStatus state row.status
    let db := insertEvent episode "message" (some "assistant") (some reply)
      { finalization := some key } db
    let db := { db with episodes := db.episodes.map fun e : Episode =>
      if e.id = episode then { e with status := status } else e }
    let job := if review then some (db.jobs.length + 1) else none
    let jobs := job.toList.map fun id =>
      { id := id, type := "memory_review", episode := some episode, finalization := some key }
    pure ({ db with
      jobs := db.jobs ++ jobs
      finalizations := db.finalizations ++
        [⟨key, episode, (episode, reply, state, review), job⟩] }, job)

/-- `erase_memory`, for one episode. -/
def eraseMemory (episode : ℕ) (db : Db) : Db :=
  { db with
    episodes := db.episodes.map fun e =>
      if e.id = episode then { e with status := .deleted, summary := some "" } else e
    events := db.events.map fun e =>
      if e.episode = episode then { e with content := some "", metadata := {} } else e
    jobs := db.jobs.map fun j =>
      if j.episode = some episode then
        { j with status := .cancelled, finalization := none, lastError := some "" }
      else j }

/-! ### Procedures -/

/-- A procedure comes before another one in `active_procedures`. -/
def before (p q : Procedure) : Bool :=
  if p.confidence ≠ q.confidence then q.confidence < p.confidence
  else if p.successCount ≠ q.successCount then q.successCount < p.successCount
  else if p.updated ≠ q.updated then q.updated < p.updated
  else q.id ≤ p.id

/-- `active_procedures`. -/
def activeProcedures (taskType : String) (db : Db) : List Procedure :=
  (db.procedures.filter fun p => p.archived = none && p.taskType = taskType).mergeSort before

/-- `add_procedure`, with the default counts, at `t`. -/
def addProcedure (taskType contextPattern : String) (steps : List String) (episode : ℕ)
    (confidence : ℚ) (t : Time) (db : Db) : Db × ℕ :=
  let id := db.procedures.length + 1
  ({ db with procedures := db.procedures ++
      [{ id := id, taskType := taskType, contextPattern := contextPattern, steps := steps
         confidence := confidence, successCount := 1, failureCount := 0, sourceEpisode := episode
         updated := t, lastSuccess := some t }] }, id)

/-- `record_procedure_result` of a success, at `t`. -/
def recordProcedureResult (id : ℕ) (t : Time) (db : Db) : Db :=
  { db with procedures := db.procedures.map fun p =>
      if p.id = id then
        { p with successCount := p.successCount + 1, updated := t, lastSuccess := some t }
      else p }

end MemoryStore

/-! ### `process_procedure_candidate` -/

/-- `ProcedureCandidate`. -/
structure ProcedureCandidate where
  taskType : String
  contextPattern : String
  steps : List String
  deriving DecidableEq, Repr

/-- `candidate_memory_kinds`. -/
def candidateMemoryKinds (candidate : EpisodeEvent) : List String :=
  let kind : Option String :=
    if candidate.type = "memory_review_candidate" then
      some (candidate.metadata.memoryKind.getD "none")
    else match candidate.metadata.preservation with
      | some (true, kind) => some (kind.getD "none")
      | _ => none
  match kind with
  | none => []
  | some kind =>
    if kind = "both" then ["semantic", "procedure"]
    else if kind ∈ ["semantic", "procedure", "forgetting"] then [kind]
    else []

/-- `review_candidate_events`. -/
def reviewCandidateEvents (events : List EpisodeEvent) : List EpisodeEvent :=
  events.filter fun e =>
    e.type ∈ ["memory_review_candidate", "working_memory_preservation_candidate"]

/-- `step.split(" ", 1)[0]`. -/
def firstWord (step : String) : String := String.ofList (step.toList.takeWhile (· ≠ ' '))

/-- The procedure of the tool calls of an episode, if there is any. -/
def procedureOf (events : List EpisodeEvent) : Option ProcedureCandidate :=
  match events.filter fun e => e.type = "tool_call" with
  | [] => none
  | call :: calls =>
    let steps := (call :: calls).map fun e =>
      e.metadata.name.getD "tool" ++ " " ++ e.metadata.arguments.getD "\x7b\x7d"
    some ⟨call.metadata.name.getD "tool_workflow", "; ".intercalate (steps.map firstWord), steps⟩

/-- The reason of a rejection. -/
def rejection (status : Status) : String :=
  "Episode status is " ++ status.text ++
    "; only verified_completed episodes can be saved as procedural memory."

/-- What `process_procedure_candidate` goes on with, for the status that it has read. -/
inductive Verdict
  /-- the rejection is recorded -/
  | rejects (metadata : Metadata)
  /-- there is no tool call -/
  | leaves
  /-- the procedure is looked up -/
  | learns (procedure : ProcedureCandidate) (confidence : ℚ)
  deriving DecidableEq

/-- `process_procedure_candidate`, from the read of the status on. -/
def judge (status : Option Status) (events : List EpisodeEvent) (candidate : EpisodeEvent) :
    Verdict :=
  match status.filter Status.negative with
  | some status => .rejects
    { memoryKind := some "procedure", action := some "rejected"
      reason := some (rejection status) }
  | none =>
    match procedureOf events with
    | none => .leaves
    | some procedure => .learns procedure (candidate.metadata.confidence.getD (1 / 2))

/-- `process_procedure_candidate`: the procedure `matched` is reinforced, or a new one is created;
the second component is what is recorded. -/
def learn (episode : ℕ) (procedure : ProcedureCandidate) (confidence : ℚ) (matched : Option ℕ)
    (t : Time) (db : Db) : Db × Metadata :=
  match matched with
  | some id => (MemoryStore.recordProcedureResult id t db,
    { memoryKind := some "procedure", procedureId := some id, action := some "merged" })
  | none =>
    let (db, id) := MemoryStore.addProcedure procedure.taskType procedure.contextPattern
      procedure.steps episode confidence t db
    (db, { memoryKind := some "procedure", procedureId := some id, action := some "created" })

end Memory

end PythonAI
