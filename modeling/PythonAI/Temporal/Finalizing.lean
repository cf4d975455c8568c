import PythonAI.Memory.Episodes
import PythonAI.Temporal.Settled

/-!
# A submission is finalized once

`finalize` ends a submission in two databases with three transactions: the memory database gets the
final message and the review job of the episode, the journal gets the final event, and the marker
of the finalization is completed.  Whoever finds the marker pending starts again, and derives what
is recorded from the row of the submission.

* `Host.lts` : the operations of the backend and any number of calls of `finalize`, each
  transaction one step, with crashes between them;
* `Once` : there is at most one final message, review job and final event, all of them carry the
  reply and the state in which the submission ended, and a completed marker says that all of them
  are there;
* `Host.finalized_once` : **every submission is finalized once, and no call is refused because an
  earlier one recorded something else**.
-/

namespace PythonAI

open Library

namespace Temporal

namespace Finalizing

/-! ### `finalize` -/

/-- The payload of the final event. -/
structure EndPayload where
  text : String
  /-- `episode_id` -/
  episode : Option ℕ
  taskState : SubmissionState
  suspended : Bool := false
  failed : Bool
  interrupted : Bool
  emotion : String := "neutral"
  action : String := "none"
  /-- `task_id` -/
  task : TaskId
  /-- `temporal_event_id`: a digest is represented by the value it is the digest of -/
  event : SubmissionId × String
  deriving DecidableEq, Repr

/-- Encodings. -/
structure Texts where
  /-- `digest([row['id'], VERSION])` -/
  digest : SubmissionId → String
  /-- digests do not collide -/
  injective : Function.Injective digest
  /-- `canonical` of the payload of the final event -/
  canonical : EndPayload → String

/-- The states with a result. -/
def answered (state : SubmissionState) : Bool := state = .completed || state = .failed

/-- `result['reply']`. -/
def resultReply (row : Submission) : Except Error String :=
  if answered row.state then
    match row.result with
    | some (.reply text _) => .ok text
    | some (.error _) => .error (.missing "reply")
    | none => .error (.type "the JSON object must be str, bytes or bytearray, not NoneType")
  else if row.state = .cancelled then .ok "Task cancelled"
  else .ok "Error: Task execution uncertain; inspect status before recovery."

/-- `binding`. -/
def binding (row : Submission) : Except Error (Option Publication) := do
  ensure (row.scope.context.publication.all fun p => p.memoryDb.isNone || p.episode.isSome)
    (.value "Invalid publication memory reference")
  pure row.scope.context.publication

/-- The start of `finalize`, in a scope that may be refused: it goes on with a publication. -/
def opens (key : SubmissionId) (row : Submission) (scope : Except Error Unit) (db : Db) :
    Except Error (Option Publication) := do
  let metadata ← binding row
  if !eventStates true row.state || db.finalizations key = some true then pure none
  else match metadata with
    | none => pure none
    | some p =>
      scope
      pure (some p)

/-- The transaction in the memory database, at a path that may be refused; with the reply. -/
def record (F : Texts) (key : SubmissionId) (row : Submission) (p : Publication)
    (path : Except Error Unit) (memory : Memory.Db) : Except Error (Memory.Db × String) := do
  let reply ← resultReply row
  if p.memoryDb.isNone then pure (memory, reply)
  else
    path
    let episode ← require p.episode (.value "Invalid publication memory reference")
    let (memory, _) ← Memory.MemoryStore.finalizeTemporal (F.digest key) episode reply
      (if row.state = .completed then "completed" else "failed")
      (p.review && answered row.state) memory
    pure (memory, reply)

/-- The payload of the final event. -/
def payload (key : SubmissionId) (task : TaskId) (state : SubmissionState) (p : Publication)
    (reply : String) : EndPayload where
  text := reply
  episode := p.episode
  taskState := state
  failed := state = .failed || state = .uncertain
  interrupted := state = .cancelled
  task := task
  event := (key, finalKey)

/-- The append of the final event. -/
def finalAppend (F : Texts) (env : Access) (c : Caller) (key : SubmissionId) (row : Submission)
    (p : Publication) (reply : String) : Op :=
  .append env c key row finalKey "end" (F.canonical (payload key row.task row.state p reply)) true
    (.ok ())

/-- Where a call of `finalize` is. -/
inductive Pc
  /-- it has its row -/
  | start
  /-- it has found something to do -/
  | opened (p : Publication)
  /-- the memory database has its message -/
  | recorded (p : Publication) (reply : String)
  /-- the journal has its event -/
  | appended
  deriving DecidableEq, Repr

/-- A call of `finalize`. -/
structure Finalizer where
  /-- `row['id']` -/
  key : SubmissionId
  /-- `row`, as it was read -/
  row : Submission
  /-- where it is -/
  pc : Pc
  deriving DecidableEq, Repr

/-! ### Any number of calls -/

/-- The backend, the memory database and the calls of `finalize`. -/
structure Host where
  /-- the task database -/
  base : Sys
  /-- the memory database -/
  memory : Memory.Db
  /-- the calls -/
  finalizers : ℕ → Option Finalizer

/-- A step. -/
inductive Act
  /-- an operation of the backend -/
  | op (o : Op)
  /-- `publish` writes the deliveries of the journal of a submission -/
  | deliver (key : SubmissionId) (f : Event → Delivery)
  /-- another operation of the memory database leaves `memory` -/
  | others (memory : Memory.Db)
  /-- the call `n` starts with the row of a submission -/
  | read (n : ℕ) (key : SubmissionId)
  /-- it looks whether there is something to do -/
  | opens (n : ℕ) (scope : Except Error Unit)
  /-- it commits in the memory database -/
  | record (n : ℕ) (path : Except Error Unit)
  /-- it appends the final event -/
  | append (n : ℕ) (env : Access) (c : Caller)
  /-- it completes the marker -/
  | complete (n : ℕ)
  /-- it ends, or its process crashes -/
  | stop (n : ℕ)

/-- The operations other than those of `finalize` and of an erasure. -/
def ordinary : Op → Prop
  | .append _ _ _ _ eventKey _ _ terminal _ => terminal = false ∧ eventKey ≠ finalKey
  | .finalized _ | .erase .. => False
  | _ => True

/-- The final message of an event, with the key it was recorded under. -/
def messageOf (e : Memory.EpisodeEvent) :
    Option (String × ℕ × String × Option String × Option String) :=
  e.metadata.finalization.map (·, e.episode, e.type, e.role, e.content)

/-- The review of a job, with the key it was recorded under. -/
def reviewOf (j : Memory.Job) : Option (String × Option ℕ × String) :=
  j.finalization.map (·, j.episode, j.type)

/-- What the other operations of the memory database leave. -/
structure Others (db db' : Memory.Db) : Prop where
  /-- `temporal_episode_finalizations` -/
  finalizations : db'.finalizations = db.finalizations
  /-- the final messages -/
  messages : db'.events.filterMap messageOf = db.events.filterMap messageOf
  /-- the review jobs -/
  reviews : db'.jobs.filterMap reviewOf = db.jobs.filterMap reviewOf

namespace Host

/-- The call `n` goes on as `x`. -/
def put (h : Host) (n : ℕ) (x : Option Finalizer) : Host :=
  { h with finalizers := Function.update h.finalizers n x }

/-- The call `n` goes on at `pc`. -/
def goes (h : Host) (n : ℕ) (f : Finalizer) (pc : Pc) : Host := h.put n (some { f with pc := pc })

/-- What `opens` leaves. -/
def opened (h : Host) (n : ℕ) (f : Finalizer) : Except Error (Option Publication) → Host
  | .ok (some p) => h.goes n f (.opened p)
  | _ => h.put n none

/-- What `record` leaves. -/
def recorded (h : Host) (n : ℕ) (f : Finalizer) (p : Publication) :
    Except Error (Memory.Db × String) → Host
  | .ok (memory, reply) => { h with memory := memory }.goes n f (.recorded p reply)
  | .error _ => h.put n none

/-- What the append `o` leaves. -/
def appended (h : Host) (n : ℕ) (f : Finalizer) (o : Op) : Except Error Db → Host
  | .ok _ => { h with base := h.base.after o }.goes n f .appended
  | .error _ => h.put n none

/-- The deliveries of a journal are written. -/
def delivered (h : Host) (key : SubmissionId) (f : Event → Delivery) : Host :=
  let events := (h.base.db.events key).map fun e => { e with delivery := f e }
  { h with base := { h.base with
      db := { h.base.db with events := Function.update h.base.db.events key events } } }

/-- What a step does. -/
def Step (F : Texts) (h : Host) (a : Act) (h' : Host) : Prop :=
  match a with
  | .op o => ordinary o ∧ h' = { h with base := h.base.after o }
  | .deliver key f => h' = h.delivered key f
  | .others memory => Others h.memory memory ∧ h' = { h with memory := memory }
  | .read n key => ∃ row, h.finalizers n = none ∧ h.base.db.submissions key = some row ∧
      h' = h.put n (some ⟨key, row, .start⟩)
  | .opens n scope => ∃ f, h.finalizers n = some f ∧ f.pc = .start ∧
      h' = h.opened n f (opens f.key f.row scope h.base.db)
  | .record n path => ∃ f p, h.finalizers n = some f ∧ f.pc = .opened p ∧
      h' = h.recorded n f p (record F f.key f.row p path h.memory)
  | .append n env c => ∃ f p reply, h.finalizers n = some f ∧ f.pc = .recorded p reply ∧
      let o := finalAppend F env c f.key f.row p reply
      h' = h.appended n f o (o.attempt h.base.uuids h.base.db)
  | .complete n => ∃ f, h.finalizers n = some f ∧ f.pc = .appended ∧
      h' = { h with base := h.base.after (.finalized f.key) }.put n none
  | .stop n => h' = h.put n none

/-- One step at a time. -/
def lts (F : Texts) : Lts Host Act where
  step := Step F

/-- A new task database, a memory database without a finalization, and no call. -/
structure Initial (h : Host) : Prop where
  /-- the task database -/
  base : h.base.Initial
  /-- `temporal_episode_finalizations` -/
  finalizations : h.memory.finalizations = []
  /-- the messages -/
  messages : h.memory.events.filterMap messageOf = []
  /-- the jobs -/
  reviews : h.memory.jobs.filterMap reviewOf = []
  /-- the calls -/
  finalizers : ∀ n, h.finalizers n = none

end Host

/-! ### What is recorded -/

/-- What `finalize` records of a submission that has ended. -/
structure Final where
  /-- `task_id` -/
  task : TaskId
  state : SubmissionState
  publication : Publication
  /-- the reply -/
  reply : String
  deriving DecidableEq, Repr

/-- What `finalize` records of the submission, if it has ended with a reply. -/
def finalOf (row : Submission) : Option Final :=
  match row.scope.context.publication, resultReply row with
  | some p, .ok reply =>
    if eventStates true row.state then some ⟨row.task, row.state, p, reply⟩ else none
  | _, _ => none

/-- The submission has ended, and `x` is what is recorded of it. -/
def Ended (db : Db) (key : SubmissionId) (x : Final) : Prop :=
  ∃ row, db.submissions key = some row ∧ finalOf row = some x

namespace Final

variable (x : Final)

/-- The payload of the final event. -/
def payload (key : SubmissionId) : EndPayload :=
  Finalizing.payload key x.task x.state x.publication x.reply

/-- The review is asked for. -/
def review : Bool := x.publication.review && answered x.state

/-- The row of `temporal_episode_finalizations` of the episode `episode`. -/
def row (key : String) (episode : ℕ) (job : Option ℕ) : Memory.Finalization :=
  ⟨key, episode,
    (episode, x.reply, if x.state = .completed then "completed" else "failed", x.review), job⟩

end Final

/-- **What is there of a finalization**, in both databases. -/
structure Once (F : Texts) (h : Host) (key : SubmissionId) : Prop where
  /-- at most one message -/
  message : (h.memory.events.filter
    fun e => e.metadata.finalization = some (F.digest key)).length ≤ 1
  /-- which carries the reply, in the episode of the submission -/
  carries : ∀ e ∈ h.memory.events, e.metadata.finalization = some (F.digest key) →
    ∃ x, Ended h.base.db key x ∧ x.publication.episode = some e.episode ∧ e.type = "message" ∧
      e.role = some "assistant" ∧ e.content = some x.reply
  /-- at most one review job -/
  review : (h.memory.jobs.filter fun j => j.finalization = some (F.digest key)).length ≤ 1
  /-- of that episode, where one is asked for -/
  reviews : ∀ j ∈ h.memory.jobs, j.finalization = some (F.digest key) →
    ∃ x, Ended h.base.db key x ∧ x.publication.episode = j.episode ∧ j.type = "memory_review" ∧
      x.review = true
  /-- the memory database has the reply and the state -/
  records : ∀ r ∈ h.memory.finalizations, r.key = F.digest key → ∃ x episode,
    Ended h.base.db key x ∧ x.publication.episode = some episode ∧
      r = x.row (F.digest key) episode r.job
  /-- at most one final event -/
  event : ((h.base.db.events key).filter fun e => e.key = finalKey).length ≤ 1
  /-- which carries the reply and the state -/
  ends : ∀ e ∈ h.base.db.events key, e.key = finalKey →
    ∃ x, Ended h.base.db key x ∧ e.kind = "end" ∧ e.payload = F.canonical (x.payload key)
  /-- a completed marker says that all of them are there -/
  complete : h.base.db.finalizations key = some true → ∃ x, Ended h.base.db key x ∧
    (∃ e ∈ h.base.db.events key, e.key = finalKey) ∧
    (x.publication.memoryDb.isSome →
      (∃ e ∈ h.memory.events, e.metadata.finalization = some (F.digest key)) ∧
      (x.review = true → ∃ j ∈ h.memory.jobs, j.finalization = some (F.digest key)))

/-- No call is told that an earlier one recorded something else. -/
structure NeverRefused (F : Texts) (h : Host) : Prop where
  /-- by the memory database -/
  record : ∀ n f p, h.finalizers n = some f → f.pc = .opened p →
    record F f.key f.row p (.ok ()) h.memory ≠
      .error (.value "Finalization key reused with different result")
  /-- by the journal -/
  append : ∀ n f p reply env c, h.finalizers n = some f → f.pc = .recorded p reply →
    (finalAppend F env c f.key f.row p reply).attempt h.base.uuids h.base.db ≠
      .error (.value "Event key reused with different content")

/-! ### A submission that has ended -/

section

variable {F : Texts} {h h' : Host} {db : Db} {key : SubmissionId} {row row' : Submission}
  {x x' : Final} {p : Publication} {reply : String}

theorem finalOf_eq (h : finalOf row = some x) :
    row.scope.context.publication = some x.publication ∧ resultReply row = .ok x.reply ∧
      eventStates true row.state = true ∧ row.task = x.task ∧ row.state = x.state := by
  unfold finalOf at h
  split at h
  case h_1 p reply hp hreply =>
    split_ifs at h with hstate
    cases h
    exact ⟨hp, hreply, hstate, rfl, rfl⟩
  case h_2 => cases h

theorem finalOf_of (hp : row.scope.context.publication = some p)
    (hreply : resultReply row = .ok reply) (hstate : eventStates true row.state = true) :
    finalOf row = some ⟨row.task, row.state, p, reply⟩ := by
  unfold finalOf
  rw [hp, hreply]
  exact if_pos hstate

/-- **What is recorded of a submission that has ended does not change.** -/
theorem finalOf_step {o : Op} (hst : RowStep o row row') (ho : o.erases = false)
    (h : finalOf row = some x) : finalOf row' = some x := by
  obtain ⟨hp, hreply, hstate, htask, hx⟩ := finalOf_eq h
  rcases hst.unchanged (eventStates_ended hstate) with hsame | ⟨herases, -⟩
  · have hr : resultReply row' = resultReply row := by
      unfold resultReply
      rw [hsame.state, hsame.result]
    have hkey : row'.task = row.task := congrArg Prod.snd hst.kept.taskKey
    have hnow : finalOf row' = some ⟨row'.task, row'.state, x.publication, x.reply⟩ :=
      finalOf_of (by rw [hst.kept.scope]; exact hp) (hr.trans hreply)
        (by rw [hsame.state]; exact hstate)
    rw [hnow, hkey, hsame.state, htask, hx]
  · rw [ho] at herases; cases herases

theorem Ended.unique (hx : Ended db key x) (hx' : Ended db key x') : x = x' := by
  obtain ⟨row, hrow, hx⟩ := hx
  obtain ⟨row', hrow', hx'⟩ := hx'
  cases hrow.symm.trans hrow'
  exact Option.some.inj (hx.symm.trans hx')

/-! ### The invariant -/

/-- What holds of a call of `finalize`. -/
def Goes (F : Texts) (h : Host) (key : SubmissionId) (row : Submission) : Pc → Prop
  | .start => True
  | .opened p => row.scope.context.publication = some p ∧ eventStates true row.state = true
  | .recorded p reply => finalOf row = some ⟨row.task, row.state, p, reply⟩ ∧
      (p.memoryDb.isSome → ∃ r ∈ h.memory.finalizations, r.key = F.digest key)
  | .appended => ∃ x, finalOf row = some x ∧
      (x.publication.memoryDb.isSome → ∃ r ∈ h.memory.finalizations, r.key = F.digest key) ∧
      finalKey ∈ (h.base.db.events key).map Event.key

/-- What holds of a call of `finalize`. -/
structure Holds (F : Texts) (h : Host) (f : Finalizer) : Prop where
  /-- what it records is what the submission has ended with -/
  row : ∃ row, h.base.db.submissions f.key = some row ∧
    ∀ x, finalOf f.row = some x → finalOf row = some x
  /-- it has done what comes before -/
  goes : Goes F h f.key f.row f.pc

/-- What holds in every run. -/
structure Inv (F : Texts) (h : Host) : Prop where
  /-- the submissions are indexed -/
  indexed : Indexed h.base
  /-- a key is in a journal once -/
  nodup : ∀ key, ((h.base.db.events key).map Event.key).Nodup
  /-- a final event is of a submission that has ended -/
  event : ∀ key, ∀ e ∈ h.base.db.events key, e.key = finalKey →
    ∃ x, Ended h.base.db key x ∧ e.kind = "end" ∧ e.payload = F.canonical (x.payload key)
  /-- a key is finalized once in the memory database -/
  keys : (h.memory.finalizations.map Memory.Finalization.key).Nodup
  /-- a finalization is of a submission that has ended -/
  record : ∀ r ∈ h.memory.finalizations, ∃ key x episode, Ended h.base.db key x ∧
    x.publication.episode = some episode ∧ r = x.row (F.digest key) episode r.job
  /-- each finalization wrote one message -/
  messages : h.memory.events.filterMap messageOf = h.memory.finalizations.map fun r =>
    (r.key, r.episode, "message", some "assistant", some r.fingerprint.2.1)
  /-- and a job where a review was asked for -/
  reviews : h.memory.jobs.filterMap reviewOf = h.memory.finalizations.filterMap fun r =>
    if r.fingerprint.2.2.2 then some (r.key, some r.episode, "memory_review") else none
  /-- a completed marker is of a submission whose call was through -/
  complete : ∀ key, h.base.db.finalizations key = some true → ∃ x, Ended h.base.db key x ∧
    finalKey ∈ (h.base.db.events key).map Event.key ∧
    (x.publication.memoryDb.isSome → ∃ r ∈ h.memory.finalizations, r.key = F.digest key)
  /-- the calls -/
  holds : ∀ n f, h.finalizers n = some f → Holds F h f

/-! ### What the calls depend on -/

/-- What a step leaves of the state that a call depends on. -/
structure Grows (h h' : Host) : Prop where
  /-- a submission that has ended stays as it is -/
  submissions : ∀ key row, h.base.db.submissions key = some row →
    ∃ row', h'.base.db.submissions key = some row' ∧
      ∀ x, finalOf row = some x → finalOf row' = some x
  /-- the journals grow -/
  keys : ∀ key k, k ∈ (h.base.db.events key).map Event.key →
    k ∈ (h'.base.db.events key).map Event.key
  /-- the memory database grows -/
  memory : ∀ r ∈ h.memory.finalizations, r ∈ h'.memory.finalizations

theorem Ended.grows (hx : Ended h.base.db key x) (hg : Grows h h') : Ended h'.base.db key x := by
  obtain ⟨row, hrow, hx⟩ := hx
  obtain ⟨row', hrow', hsame⟩ := hg.submissions key row hrow
  exact ⟨row', hrow', hsame x hx⟩

theorem Grows.recorded (hg : Grows h h')
    (hr : ∃ r ∈ h.memory.finalizations, r.key = F.digest key) :
    ∃ r ∈ h'.memory.finalizations, r.key = F.digest key := by
  obtain ⟨r, hr, hk⟩ := hr
  exact ⟨r, hg.memory r hr, hk⟩

theorem Holds.grows {f : Finalizer} (hf : Holds F h f) (hg : Grows h h') : Holds F h' f := by
  obtain ⟨row, hrow, hsame⟩ := hf.row
  obtain ⟨row', hrow', hsame'⟩ := hg.submissions f.key row hrow
  refine ⟨⟨row', hrow', fun x hx => hsame' x (hsame x hx)⟩, ?_⟩
  have hgoes := hf.goes
  cases hpc : f.pc with
  | start => trivial
  | opened p => rwa [hpc] at hgoes
  | recorded p reply =>
    rw [hpc] at hgoes
    exact ⟨hgoes.1, fun hp => hg.recorded (hgoes.2 hp)⟩
  | appended =>
    rw [hpc] at hgoes
    obtain ⟨x, hx, hmemory, hkey⟩ := hgoes
    exact ⟨x, hx, fun hp => hg.recorded (hmemory hp), hg.keys f.key _ hkey⟩

/-- What a call has found its submission to end with. -/
theorem Holds.ended {f : Finalizer} (hf : Holds F h f) (hx : finalOf f.row = some x) :
    Ended h.base.db f.key x := by
  obtain ⟨row, hrow, hsame⟩ := hf.row
  exact ⟨row, hrow, hsame x hx⟩

theorem Grows.put (h : Host) (n : ℕ) (f : Option Finalizer) : Grows h (h.put n f) :=
  ⟨fun _ row hrow => ⟨row, hrow, fun _ hx => hx⟩, fun _ _ hk => hk, fun _ hr => hr⟩

/-- One call goes on. -/
theorem Inv.put (hi : Inv F h) {n : ℕ} {f : Option Finalizer}
    (hf : ∀ g, f = some g → Holds F h g) : Inv F (h.put n f) := by
  refine ⟨hi.indexed, hi.nodup, hi.event, hi.keys, hi.record, hi.messages, hi.reviews,
    hi.complete, fun m g hg => ?_⟩
  replace hg : Function.update h.finalizers n f m = some g := hg
  by_cases hm : m = n
  · subst hm
    rw [Function.update_self] at hg
    exact (hf g hg).grows (.put h m f)
  · rw [Function.update_of_ne hm] at hg
    exact (hi.holds m g hg).grows (.put h n f)

theorem Inv.drop (hi : Inv F h) (n : ℕ) : Inv F (h.put n none) :=
  hi.put fun _ hf => by cases hf

/-! ### The task database goes on -/

/-- What the operation adds to a journal is the final event of a submission that has ended, if it
has its key. -/
def AddsFinal (F : Texts) (o : Op) (db : Db) : Prop :=
  ∀ key e, Adds o db key e → e.key = finalKey →
    ∃ x, Ended db key x ∧ e.kind = "end" ∧ e.payload = F.canonical (x.payload key)

/-- The marker that the operation completes is of a submission whose call is through. -/
def Completes (F : Texts) (o : Op) (h : Host) : Prop :=
  ∀ key, o = .finalized key → ∃ x, Ended h.base.db key x ∧
    finalKey ∈ (h.base.db.events key).map Event.key ∧
    (x.publication.memoryDb.isSome → ∃ r ∈ h.memory.finalizations, r.key = F.digest key)

theorem Grows.op (hi : Inv F h) {o : Op} (ho : o.erases = false) :
    Grows h { h with base := h.base.after o } := by
  refine ⟨fun key row hrow => ?_, fun key k hk => ?_, fun _ hr => hr⟩
  · obtain ⟨row', hrow', hstep⟩ := hi.indexed.moved (Sys.step_after h.base o) hrow
    exact ⟨row', hrow', fun x hx => finalOf_step hstep ho hx⟩
  · show k ∈ ((h.base.after o).db.events key).map Event.key
    cases Sys.publishes h.base o with
    | intends hevents | finalized _ _ hevents => rw [hevents]; exact hk
    | adds key' e hadds hevents =>
      rw [hevents]
      by_cases hkey : key = key'
      · subst hkey
        rw [Function.update_self, List.map_append]
        exact List.mem_append_left _ hk
      · rw [Function.update_of_ne hkey]
        exact hk

/-- An operation of the backend. -/
theorem Inv.op (hi : Inv F h) {o : Op} (ho : o.erases = false) (hadds : AddsFinal F o h.base.db)
    (hcomplete : Completes F o h) : Inv F { h with base := h.base.after o } := by
  have hg : Grows h { h with base := h.base.after o } := .op hi ho
  have hended : ∀ key x, Ended h.base.db key x → Ended (h.base.after o).db key x :=
    fun key x hx => hx.grows hg
  have hthrough : ∀ key, (∃ x, Ended h.base.db key x ∧
      finalKey ∈ (h.base.db.events key).map Event.key ∧
      (x.publication.memoryDb.isSome → ∃ r ∈ h.memory.finalizations, r.key = F.digest key)) →
      ∃ x, Ended (h.base.after o).db key x ∧
        finalKey ∈ ((h.base.after o).db.events key).map Event.key ∧
        (x.publication.memoryDb.isSome → ∃ r ∈ h.memory.finalizations, r.key = F.digest key) := by
    rintro key ⟨x, hx, hkey, hmemory⟩
    exact ⟨x, hended key x hx, hg.keys key _ hkey, hmemory⟩
  refine ⟨hi.indexed.step (Sys.step_after h.base o), fun key => ?_, fun key e he hk => ?_, hi.keys,
    fun r hr => ?_, hi.messages, hi.reviews, fun key hdone => ?_,
    fun n f hf => (hi.holds n f hf).grows hg⟩
  · show (((h.base.after o).db.events key).map Event.key).Nodup
    cases Sys.publishes h.base o with
    | intends hevents | finalized _ _ hevents => rw [hevents]; exact hi.nodup key
    | adds key' e hadd hevents =>
      rw [hevents]
      by_cases hkey : key = key'
      · subst hkey
        rw [Function.update_self, List.map_append]
        refine List.Nodup.append (hi.nodup key) (List.nodup_singleton _)
          (List.disjoint_singleton.2 fun hmem => ?_)
        obtain ⟨e', he', hk⟩ := List.mem_map.1 hmem
        cases hadd with
        | intro _ _ _ _ _ _ _ _ _ hnew => exact hnew e' he' hk
      · rw [Function.update_of_ne hkey]
        exact hi.nodup key
  · replace he : e ∈ (h.base.after o).db.events key := he
    have hold : (∃ x, Ended h.base.db key x ∧ e.kind = "end" ∧
        e.payload = F.canonical (x.payload key)) → ∃ x, Ended (h.base.after o).db key x ∧
        e.kind = "end" ∧ e.payload = F.canonical (x.payload key) := by
      rintro ⟨x, hx, hsame⟩
      exact ⟨x, hended key x hx, hsame⟩
    cases Sys.publishes h.base o with
    | intends hevents | finalized _ _ hevents =>
      exact hold (hi.event key e (hevents ▸ he) hk)
    | adds key' e' hadd hevents =>
      rw [hevents] at he
      by_cases hkey : key = key'
      · subst hkey
        rw [Function.update_self, List.mem_append] at he
        rcases he with he | he
        · exact hold (hi.event key e he hk)
        · cases List.mem_singleton.1 he
          exact hold (hadds key e hadd hk)
      · rw [Function.update_of_ne hkey] at he
        exact hold (hi.event key e he hk)
  · obtain ⟨key, x, episode, hx, hrest⟩ := hi.record r hr
    exact ⟨key, x, episode, hended key x hx, hrest⟩
  · refine hthrough key ?_
    replace hdone : (h.base.after o).db.finalizations key = some true := hdone
    cases Sys.publishes h.base o with
    | intends _ hfinal =>
      rcases hfinal key with hsame | ⟨-, hpending⟩
      · exact hi.complete key (hsame ▸ hdone)
      · rw [hpending] at hdone; cases hdone
    | adds _ _ _ _ _ hfinal => exact hi.complete key (hfinal ▸ hdone)
    | finalized key' ho' _ hfinal =>
      by_cases hkey : key = key'
      · exact hcomplete key (hkey ▸ ho')
      · exact hi.complete key (hfinal key hkey ▸ hdone)

/-! ### The deliveries and the memory database -/

theorem delivered_keys (h : Host) (key : SubmissionId) (f : Event → Delivery) (k : SubmissionId) :
    ((h.delivered key f).base.db.events k).map Event.key = (h.base.db.events k).map Event.key := by
  show (Function.update h.base.db.events key _ k).map Event.key = _
  by_cases hk : k = key
  · subst hk
    rw [Function.update_self, List.map_map]
    rfl
  · rw [Function.update_of_ne hk]

theorem delivered_mem {f : Event → Delivery} {k : SubmissionId} {e : Event}
    (he : e ∈ (h.delivered key f).base.db.events k) :
    ∃ e₀ ∈ h.base.db.events k, e.key = e₀.key ∧ e.kind = e₀.kind ∧ e.payload = e₀.payload := by
  replace he : e ∈ Function.update h.base.db.events key _ k := he
  by_cases hk : k = key
  · subst hk
    rw [Function.update_self] at he
    obtain ⟨e₀, he₀, rfl⟩ := List.mem_map.1 he
    exact ⟨e₀, he₀, rfl, rfl, rfl⟩
  · rw [Function.update_of_ne hk] at he
    exact ⟨e, he, rfl, rfl, rfl⟩

/-- The deliveries of a journal are written. -/
theorem Inv.deliver (hi : Inv F h) (key : SubmissionId) (f : Event → Delivery) :
    Inv F (h.delivered key f) := by
  have hg : Grows h (h.delivered key f) :=
    ⟨fun _ row hrow => ⟨row, hrow, fun _ hx => hx⟩,
      fun k _ hk => by rw [delivered_keys]; exact hk, fun _ hr => hr⟩
  refine ⟨⟨hi.indexed.named, hi.indexed.names, hi.indexed.drawn⟩, fun k => ?_, fun k e he hk => ?_,
    hi.keys, hi.record, hi.messages, hi.reviews, fun k hdone => ?_,
    fun n g hn => (hi.holds n g hn).grows hg⟩
  · rw [delivered_keys]
    exact hi.nodup k
  · obtain ⟨e₀, he₀, hkey, hkind, hpayload⟩ := delivered_mem he
    rw [hkind, hpayload]
    exact hi.event k e₀ he₀ (hkey ▸ hk)
  · rw [delivered_keys]
    exact hi.complete k hdone

theorem Grows.stored {memory : Memory.Db}
    (hsub : ∀ r ∈ h.memory.finalizations, r ∈ memory.finalizations) :
    Grows h { h with memory := memory } :=
  ⟨fun _ row hrow => ⟨row, hrow, fun _ hx => hx⟩, fun _ _ hk => hk, hsub⟩

/-- Another operation of the memory database. -/
theorem Inv.others (hi : Inv F h) {memory : Memory.Db} (ho : Others h.memory memory) :
    Inv F { h with memory := memory } := by
  have hg : Grows h { h with memory := memory } := .stored fun r hr => ho.finalizations.symm ▸ hr
  refine ⟨hi.indexed, hi.nodup, hi.event, ?_, fun r hr => ?_, ?_, ?_, fun key hdone => ?_,
    fun n f hf => (hi.holds n f hf).grows hg⟩
  · rw [ho.finalizations]
    exact hi.keys
  · exact hi.record r (ho.finalizations ▸ hr)
  · rw [ho.messages, ho.finalizations]
    exact hi.messages
  · rw [ho.reviews, ho.finalizations]
    exact hi.reviews
  · obtain ⟨x, hx, hkey, hmemory⟩ := hi.complete key hdone
    exact ⟨x, hx, hkey, fun hp => hg.recorded (hmemory hp)⟩

/-! ### A call records its message -/

/-- **Inversion of `record`.** -/
theorem record_ok {path : Except Error Unit} {memory memory' : Memory.Db}
    (hok : record F key row p path memory = .ok (memory', reply)) :
    resultReply row = .ok reply ∧ (p.memoryDb = none ∧ memory' = memory ∨
      ∃ episode job, p.episode = some episode ∧
        Memory.MemoryStore.finalizeTemporal (F.digest key) episode reply
          (if row.state = .completed then "completed" else "failed")
          (p.review && answered row.state) memory = .ok (memory', job)) := by
  unfold record at hok
  obtain ⟨reply', hreply, hok⟩ := bind_eq_ok.1 hok
  by_cases hnone : p.memoryDb.isNone = true
  · rw [if_pos hnone] at hok
    cases hok
    exact ⟨hreply, .inl ⟨Option.isNone_iff_eq_none.1 hnone, rfl⟩⟩
  · rw [if_neg hnone] at hok
    obtain ⟨-, -, hok⟩ := bind_eq_ok.1 hok
    obtain ⟨episode, hepisode, hok⟩ := bind_eq_ok.1 hok
    obtain ⟨⟨db, job⟩, hfinal, hok⟩ := bind_eq_ok.1 hok
    cases hok
    exact ⟨hreply, .inr ⟨episode, job, require_eq_ok.1 hepisode, hfinal⟩⟩

/-- What a finalization of an ended submission writes keeps the invariant. -/
theorem Inv.finalized (hi : Inv F h) {episode : ℕ} {job : Option ℕ} {memory : Memory.Db}
    (hx : Ended h.base.db key x) (hepisode : x.publication.episode = some episode)
    (hok : Memory.MemoryStore.finalizeTemporal (F.digest key) episode x.reply
      (if x.state = .completed then "completed" else "failed") x.review h.memory =
        .ok (memory, job)) :
    Inv F { h with memory := memory } ∧ ∃ r ∈ memory.finalizations, r.key = F.digest key := by
  rcases Memory.finalize_ok hok with ⟨rfl, old, hold, -⟩ | ⟨row, hnew, -, -, hjob, rfl⟩
  · exact ⟨hi, old, Records.mem_of_find hold, Records.key_of_find hold⟩
  · have hfresh : ∀ r ∈ h.memory.finalizations, r.key ≠ F.digest key := fun r hr =>
      by simpa using List.find?_eq_none.1 hnew r hr
    have hmem : ∀ r ∈ h.memory.finalizations,
        r ∈ h.memory.finalizations ++ [x.row (F.digest key) episode job] :=
      fun r hr => List.mem_append_left _ hr
    refine ⟨⟨hi.indexed, hi.nodup, hi.event, ?_, fun r hr => ?_, ?_, ?_, fun k hdone => ?_,
      fun n f hf => (hi.holds n f hf).grows (.stored hmem)⟩,
      _, List.mem_append_right _ List.mem_cons_self, rfl⟩
    · rw [List.map_append]
      refine List.Nodup.append hi.keys (List.nodup_singleton _)
        (List.disjoint_singleton.2 fun hmem => ?_)
      obtain ⟨r, hr, hk⟩ := List.mem_map.1 hmem
      exact hfresh r hr hk
    · rcases List.mem_append.1 hr with hr | hr
      · exact hi.record r hr
      · cases List.mem_singleton.1 hr
        exact ⟨key, x, episode, hx, hepisode, rfl⟩
    · show (h.memory.events ++ [_]).filterMap messageOf = _
      rw [List.filterMap_append, hi.messages, List.map_append]
      rfl
    · show (h.memory.jobs ++ job.toList.map _).filterMap reviewOf = _
      rw [List.filterMap_append, hi.reviews, List.filterMap_append]
      cases hreview : x.review with
      | false =>
        rw [hjob, hreview]
        rfl
      | true =>
        rw [hjob, hreview]
        rfl
    · obtain ⟨y, hy, hkey, hmemory⟩ := hi.complete k hdone
      refine ⟨y, hy, hkey, fun hp => ?_⟩
      obtain ⟨r, hr, hk⟩ := hmemory hp
      exact ⟨r, hmem r hr, hk⟩

/-- A call commits in the memory database. -/
theorem Inv.recorded (hi : Inv F h) {n : ℕ} {f : Finalizer} (hn : h.finalizers n = some f)
    (hpc : f.pc = .opened p) (path : Except Error Unit) :
    Inv F (h.recorded n f p (Finalizing.record F f.key f.row p path h.memory)) := by
  have hf := hi.holds n f hn
  have hgoes := hf.goes
  rw [hpc] at hgoes
  cases hok : Finalizing.record F f.key f.row p path h.memory with
  | error e => exact hi.drop n
  | ok out =>
    obtain ⟨memory, reply⟩ := out
    obtain ⟨hreply, hrest⟩ := record_ok hok
    have hx := finalOf_of hgoes.1 hreply hgoes.2
    rcases hrest with ⟨hnone, rfl⟩ | ⟨episode, job, hepisode, hfinal⟩
    · refine hi.put fun g hg => ?_
      cases hg
      exact ⟨hf.row, hx, fun hsome => by rw [hnone] at hsome; cases hsome⟩
    · obtain ⟨hi', hr⟩ := hi.finalized (hf.ended hx) hepisode hfinal
      refine hi'.put fun g hg => ?_
      cases hg
      exact ⟨hf.row, hx, fun _ => hr⟩

/-! ### A call appends the final event -/

theorem ordinary_op {o : Op} (ho : ordinary o) :
    o.erases = false ∧ AddsFinal F o h.base.db ∧ Completes F o h := by
  refine ⟨?_, fun key e hadds hkey => ?_, fun key hfinal => ?_⟩
  · cases o <;> first | rfl | exact absurd ho id
  · cases hadds with
    | intro => exact absurd hkey ho.2
  · subst hfinal
    exact absurd ho id

theorem finalAppend_adds {env : Access} {c : Caller} (hx : finalOf row = some x)
    (hended : Ended db key x) :
    AddsFinal F (finalAppend F env c key row x.publication x.reply) db := by
  intro k e hadds _
  cases hadds with
  | intro =>
    obtain ⟨-, -, -, htask, hstate⟩ := finalOf_eq hx
    exact ⟨x, hended, rfl, by rw [Final.payload, htask, hstate]⟩

theorem finalAppend_added {env : Access} {c : Caller} {u : Token} {db' : Db}
    (hok : (finalAppend F env c key row p reply).attempt u db = .ok db') :
    finalKey ∈ (db'.events key).map Event.key := by
  obtain ⟨out, hok⟩ := outcome_eq_ok.1 hok
  obtain ⟨-, ⟨rfl, e, he, hkey, -⟩ | ⟨-, target, -, rfl⟩⟩ := append_journal hok
  · exact List.mem_map.2 ⟨e, he, hkey⟩
  · show finalKey ∈ (Function.update db.events key _ key).map Event.key
    rw [Function.update_self, List.map_append]
    exact List.mem_append_right _ (List.mem_singleton_self _)

theorem finalAppend_ne {env : Access} {c : Caller} {k : SubmissionId} :
    finalAppend F env c key row p reply ≠ .finalized k := by
  intro h
  cases h

/-- A call appends the final event. -/
theorem Inv.appended (hi : Inv F h) {n : ℕ} {f : Finalizer} (hn : h.finalizers n = some f)
    (hpc : f.pc = .recorded p reply) (env : Access) (c : Caller) :
    let o := finalAppend F env c f.key f.row p reply
    Inv F (h.appended n f o (o.attempt h.base.uuids h.base.db)) := by
  intro o
  have hf := hi.holds n f hn
  have hgoes := hf.goes
  rw [hpc] at hgoes
  obtain ⟨hx, hmemory⟩ := hgoes
  cases hok : o.attempt h.base.uuids h.base.db with
  | error e => exact hi.drop n
  | ok db' =>
    have ho : o.erases = false := rfl
    have hi' : Inv F { h with base := h.base.after o } :=
      hi.op ho (finalAppend_adds hx (hf.ended hx)) fun key he => absurd he finalAppend_ne
    refine hi'.put fun g hg => ?_
    cases hg
    have hgrown : Holds F { h with base := h.base.after o } f := hf.grows (.op hi ho)
    have hdb : (h.base.after o).db = db' := congrArg (commit h.base.db) hok
    refine ⟨hgrown.row, _, hx, hmemory, ?_⟩
    show finalKey ∈ ((h.base.after o).db.events f.key).map Event.key
    rw [hdb]
    exact finalAppend_added hok

/-- A call completes its marker. -/
theorem Inv.completed (hi : Inv F h) {n : ℕ} {f : Finalizer} (hn : h.finalizers n = some f)
    (hpc : f.pc = .appended) : Inv F { h with base := h.base.after (.finalized f.key) } := by
  have hf := hi.holds n f hn
  have hgoes := hf.goes
  rw [hpc] at hgoes
  obtain ⟨x, hx, hmemory, hkey⟩ := hgoes
  refine hi.op rfl (fun _ _ hadds => nomatch hadds) fun key he => ?_
  cases he
  exact ⟨x, hf.ended hx, hkey, hmemory⟩

/-! ### Every run -/

theorem opens_ok {scope : Except Error Unit} (hok : opens key row scope db = .ok (some p)) :
    row.scope.context.publication = some p ∧ eventStates true row.state = true := by
  unfold opens binding at hok
  obtain ⟨metadata, hbinding, hok⟩ := bind_eq_ok.1 hok
  obtain ⟨-, -, hbinding⟩ := bind_eq_ok.1 hbinding
  cases hbinding
  split_ifs at hok with hdone
  · cases hok
  · split at hok
    · cases hok
    · rename_i q hq
      obtain ⟨-, -, hok⟩ := bind_eq_ok.1 hok
      cases hok
      refine ⟨hq, ?_⟩
      cases hstate : eventStates true row.state with
      | true => rfl
      | false => rw [hstate] at hdone; exact absurd rfl hdone

/-- **Every step keeps the invariant.** -/
theorem Inv.step (hi : Inv F h) {a : Act} (hst : (Host.lts F).step h a h') : Inv F h' := by
  cases a with
  | op o =>
    obtain ⟨ho, rfl⟩ := hst
    obtain ⟨herases, hadds, hcomplete⟩ := ordinary_op (F := F) (h := h) ho
    exact hi.op herases hadds hcomplete
  | deliver key f =>
    cases hst
    exact hi.deliver key f
  | others memory =>
    obtain ⟨ho, rfl⟩ := hst
    exact hi.others ho
  | read n key =>
    obtain ⟨row, -, hrow, rfl⟩ := hst
    refine hi.put fun g hg => ?_
    cases hg
    exact ⟨⟨row, hrow, fun _ hx => hx⟩, trivial⟩
  | opens n scope =>
    obtain ⟨f, hn, -, rfl⟩ := hst
    cases hok : opens f.key f.row scope h.base.db with
    | error e => exact hi.drop n
    | ok found =>
      cases found with
      | none => exact hi.drop n
      | some p =>
        refine hi.put fun g hg => ?_
        cases hg
        exact ⟨(hi.holds n f hn).row, opens_ok hok⟩
  | record n path =>
    obtain ⟨f, p, hn, hpc, rfl⟩ := hst
    exact hi.recorded hn hpc path
  | append n env c =>
    obtain ⟨f, p, reply, hn, hpc, rfl⟩ := hst
    exact hi.appended hn hpc env c
  | complete n =>
    obtain ⟨f, hn, hpc, rfl⟩ := hst
    exact (hi.completed hn hpc).drop n
  | stop n =>
    cases hst
    exact hi.drop n

theorem Inv.initial (h₀ : h.Initial) : Inv F h := by
  have hsubs : ∀ key, h.base.db.events key = [] ∧ h.base.db.finalizations key = none := by
    obtain ⟨host, hdb⟩ := h₀.base
    intro key
    rw [hdb]
    exact ⟨rfl, rfl⟩
  refine ⟨.initial h₀.base, fun key => ?_, fun key e he => ?_, ?_, fun r hr => ?_, ?_, ?_,
    fun key hdone => ?_, fun n f hn => ?_⟩
  · rw [(hsubs key).1]
    exact List.nodup_nil
  · rw [(hsubs key).1] at he
    exact absurd he List.not_mem_nil
  · rw [h₀.finalizations]
    exact List.nodup_nil
  · rw [h₀.finalizations] at hr
    exact absurd hr List.not_mem_nil
  · rw [h₀.messages, h₀.finalizations]
    rfl
  · rw [h₀.reviews, h₀.finalizations]
    rfl
  · rw [(hsubs key).2] at hdone
    cases hdone
  · rw [h₀.finalizers n] at hn
    cases hn

/-! ### Results -/

theorem Inv.single (hi : Inv F h) (k : String) :
    (h.memory.finalizations.countP fun r => r.key = k) ≤ 1 := by
  have hcount := List.nodup_iff_count_le_one.1 hi.keys k
  rw [List.count_eq_countP, List.countP_map] at hcount
  refine le_trans (le_of_eq (List.countP_congr fun r _ => ?_)) hcount
  simp

theorem Inv.message_le_one (hi : Inv F h) (k : String) :
    (h.memory.events.filter fun e => e.metadata.finalization = some k).length ≤ 1 := by
  have hcount := congrArg (List.countP fun x => decide (x.1 = k)) hi.messages
  rw [List.countP_filterMap, List.countP_map] at hcount
  rw [← List.countP_eq_length_filter]
  refine le_trans (le_of_eq ?_) (hi.single k)
  refine Eq.trans (List.countP_congr fun e _ => ?_) hcount
  cases hf : e.metadata.finalization <;> simp [messageOf, hf]

theorem Inv.review_le_one (hi : Inv F h) (k : String) :
    (h.memory.jobs.filter fun j => j.finalization = some k).length ≤ 1 := by
  have hcount := congrArg (List.countP fun x => decide (x.1 = k)) hi.reviews
  rw [List.countP_filterMap, List.countP_filterMap] at hcount
  rw [← List.countP_eq_length_filter]
  have hjobs : (h.memory.jobs.countP fun j => j.finalization = some k) = _ :=
    Eq.trans (List.countP_congr fun j _ => by
      cases hf : j.finalization <;> simp [reviewOf, hf]) hcount
  rw [hjobs]
  refine le_trans (List.countP_mono_left fun r _ hr => ?_) (hi.single k)
  split_ifs at hr with hreview
  · simpa using hr
  · cases hr

/-- A final message comes from a finalization. -/
theorem Inv.of_message (hi : Inv F h) {e : Memory.EpisodeEvent} (he : e ∈ h.memory.events)
    {k : String} (hk : e.metadata.finalization = some k) :
    ∃ r ∈ h.memory.finalizations, r.key = k ∧ r.episode = e.episode ∧ e.type = "message" ∧
      e.role = some "assistant" ∧ e.content = some r.fingerprint.2.1 := by
  have hmem : (k, e.episode, e.type, e.role, e.content) ∈ h.memory.events.filterMap messageOf :=
    List.mem_filterMap.2 ⟨e, he, by rw [messageOf, hk]; rfl⟩
  rw [hi.messages] at hmem
  obtain ⟨r, hr, heq⟩ := List.mem_map.1 hmem
  simp only [Prod.mk.injEq] at heq
  obtain ⟨hkey, hepisode, htype, hrole, hcontent⟩ := heq
  exact ⟨r, hr, hkey, hepisode, htype.symm, hrole.symm, hcontent.symm⟩

theorem Inv.has_message (hi : Inv F h) {r : Memory.Finalization}
    (hr : r ∈ h.memory.finalizations) :
    ∃ e ∈ h.memory.events, e.metadata.finalization = some r.key := by
  have hmem := List.mem_map_of_mem (f := fun r : Memory.Finalization =>
    (r.key, r.episode, "message", some "assistant", some r.fingerprint.2.1)) hr
  rw [← hi.messages] at hmem
  obtain ⟨e, he, heq⟩ := List.mem_filterMap.1 hmem
  refine ⟨e, he, ?_⟩
  obtain ⟨k, hk, hpair⟩ := Option.map_eq_some_iff.1 heq
  rw [hk, (Prod.mk.inj hpair).1]

/-- A review job comes from a finalization with a review. -/
theorem Inv.of_review (hi : Inv F h) {j : Memory.Job} (hj : j ∈ h.memory.jobs) {k : String}
    (hk : j.finalization = some k) :
    ∃ r ∈ h.memory.finalizations, r.key = k ∧ r.fingerprint.2.2.2 = true ∧
      some r.episode = j.episode ∧ j.type = "memory_review" := by
  have hmem : (k, j.episode, j.type) ∈ h.memory.jobs.filterMap reviewOf :=
    List.mem_filterMap.2 ⟨j, hj, by rw [reviewOf, hk]; rfl⟩
  rw [hi.reviews] at hmem
  obtain ⟨r, hr, heq⟩ := List.mem_filterMap.1 hmem
  split_ifs at heq with hreview
  · simp only [Option.some.injEq, Prod.mk.injEq] at heq
    obtain ⟨hkey, hepisode, htype⟩ := heq
    exact ⟨r, hr, hkey, hreview, hepisode, htype.symm⟩

theorem Inv.has_review (hi : Inv F h) {r : Memory.Finalization}
    (hr : r ∈ h.memory.finalizations) (hreview : r.fingerprint.2.2.2 = true) :
    ∃ j ∈ h.memory.jobs, j.finalization = some r.key := by
  have hmem : (r.key, some r.episode, "memory_review") ∈ h.memory.jobs.filterMap reviewOf := by
    rw [hi.reviews]
    exact List.mem_filterMap.2 ⟨r, hr, if_pos hreview⟩
  obtain ⟨j, hj, heq⟩ := List.mem_filterMap.1 hmem
  refine ⟨j, hj, ?_⟩
  obtain ⟨k, hk, hpair⟩ := Option.map_eq_some_iff.1 heq
  rw [hk, (Prod.mk.inj hpair).1]

/-- The finalization under the key of a submission is what the submission has ended with. -/
theorem Inv.records (hi : Inv F h) {r : Memory.Finalization} (hr : r ∈ h.memory.finalizations)
    (hk : r.key = F.digest key) : ∃ x episode, Ended h.base.db key x ∧
      x.publication.episode = some episode ∧ r = x.row (F.digest key) episode r.job := by
  obtain ⟨k, x, episode, hx, hepisode, hrow⟩ := hi.record r hr
  have hsame : key = k := F.injective (hk.symm.trans (congrArg Memory.Finalization.key hrow))
  subst hsame
  exact ⟨x, episode, hx, hepisode, hrow⟩

theorem Inv.once (hi : Inv F h) (key : SubmissionId) : Once F h key := by
  refine ⟨hi.message_le_one _, fun e he hk => ?_, hi.review_le_one _, fun j hj hk => ?_,
    fun r hr hk => hi.records hr hk, ?_, hi.event key, fun hdone => ?_⟩
  · obtain ⟨r, hr, hkey, hepisode, htype, hrole, hcontent⟩ := hi.of_message he hk
    obtain ⟨x, episode, hx, hep, hrow⟩ := hi.records hr hkey
    rw [hrow] at hepisode hcontent
    exact ⟨x, hx, hep.trans (congrArg some hepisode), htype, hrole, hcontent⟩
  · obtain ⟨r, hr, hkey, hreview, hepisode, htype⟩ := hi.of_review hj hk
    obtain ⟨x, episode, hx, hep, hrow⟩ := hi.records hr hkey
    rw [hrow] at hepisode hreview
    exact ⟨x, hx, hep.trans hepisode, htype, hreview⟩
  · have hcount := List.nodup_iff_count_le_one.1 (hi.nodup key) finalKey
    rw [List.count_eq_countP, List.countP_map, List.countP_eq_length_filter] at hcount
    refine le_trans (le_of_eq (congrArg List.length (List.filter_congr fun e _ => ?_))) hcount
    rw [Bool.eq_iff_iff]
    simp
  · obtain ⟨x, hx, hkey, hmemory⟩ := hi.complete key hdone
    obtain ⟨e, he, hfinal⟩ := List.mem_map.1 hkey
    refine ⟨x, hx, ⟨e, he, hfinal⟩, fun hp => ?_⟩
    obtain ⟨r, hr, hk⟩ := hmemory hp
    refine ⟨hk ▸ hi.has_message hr, fun hreview => hk ▸ hi.has_review hr ?_⟩
    obtain ⟨x', episode, hx', -, hrow⟩ := hi.records hr hk
    rw [hrow, ← hx.unique hx']
    exact hreview

theorem append_reused {env : Access} {c : Caller} {eventKey kind payload : String}
    {budget : Except Error Unit}
    (h : append env c key row eventKey kind payload true budget db =
      .error (.value "Event key reused with different content")) :
    ∃ old ∈ db.events key, old.key = eventKey ∧ ¬ (old.kind = kind ∧ old.payload = payload) := by
  simp only [append, Access.ownerActive, bind_eq_error, ensure_eq_error, require_eq_error,
    if_true, reduceCtorEq, and_false, false_or, Error.value.injEq, String.reduceEq] at h
  obtain ⟨-, -, -, -, -, -, -, -, -, -, -, -, -, -, now, -, task, -, -, -, h⟩ := h
  split at h
  next old hold =>
    refine ⟨old, List.mem_of_find?_eq_some hold, by simpa using List.find?_some hold, ?_⟩
    rcases bind_eq_error.1 h with h | ⟨_, -, h⟩
    · simpa using (ensure_eq_error.1 h).1
    · cases h
  next hnone =>
    rcases bind_eq_error.1 h with h | ⟨_, -, h⟩
    · cases (ensure_eq_error.1 h).2
    · rcases bind_eq_error.1 h with h | ⟨_, -, h⟩
      · cases (require_eq_error.1 h).2
      · cases h

theorem resultReply_error {e : Error} (h : resultReply row = .error e) (text : String) :
    e ≠ .value text := by
  unfold resultReply at h
  split_ifs at h
  split at h
  all_goals cases h
  all_goals intro he; cases he

theorem finalizeTemporal_reused {k : String} {episode : ℕ} {reply state : String} {review : Bool}
    {memory : Memory.Db}
    (h : Memory.MemoryStore.finalizeTemporal k episode reply state review memory =
      .error (.value "Finalization key reused with different result")) :
    ∃ old ∈ memory.finalizations, old.key = k ∧
      ¬ (old.fingerprint = (episode, reply, state, review) ∧ old.episode = episode) := by
  unfold Memory.MemoryStore.finalizeTemporal at h
  split at h
  next old hold =>
    refine ⟨old, Records.mem_of_find hold, Records.key_of_find hold, ?_⟩
    rcases bind_eq_error.1 h with h | ⟨_, -, h⟩
    · simpa using (ensure_eq_error.1 h).1
    · cases h
  next hnone =>
    rcases bind_eq_error.1 h with h | ⟨_, -, h⟩
    · cases (require_eq_error.1 h).2
    · cases h

/-- **No call is told that an earlier one recorded something else.** -/
theorem Inv.never (hi : Inv F h) : NeverRefused F h := by
  refine ⟨fun n f p hn hpc herr => ?_, fun n f p reply env c hn hpc herr => ?_⟩
  · have hf := hi.holds n f hn
    have hgoes := hf.goes
    rw [hpc] at hgoes
    rcases bind_eq_error.1 herr with herr | ⟨reply, hreply, herr⟩
    · exact resultReply_error herr _ rfl
    · by_cases hnone : p.memoryDb.isNone = true
      · rw [if_pos hnone] at herr
        cases herr
      · rw [if_neg hnone] at herr
        rcases bind_eq_error.1 herr with herr | ⟨_, -, herr⟩
        · cases herr
        · rcases bind_eq_error.1 herr with herr | ⟨episode, hepisode, herr⟩
          · exact absurd (Error.value.inj (require_eq_error.1 herr).2) (by decide)
          · rcases bind_eq_error.1 herr with herr | ⟨_, -, herr⟩
            · obtain ⟨old, hold, hk, hother⟩ := finalizeTemporal_reused herr
              obtain ⟨x, ep, hx, hep, hrow⟩ := hi.records hold hk
              have hsame := hx.unique (hf.ended (finalOf_of hgoes.1 hreply hgoes.2))
              subst hsame
              cases hep.symm.trans (require_eq_ok.1 hepisode)
              rw [hrow] at hother
              exact hother ⟨rfl, rfl⟩
            · cases herr
  · have hf := hi.holds n f hn
    have hgoes := hf.goes
    rw [hpc] at hgoes
    obtain ⟨old, hold, hk, hother⟩ := append_reused (outcome_eq_error.1 herr)
    obtain ⟨x, hx, hkind, hpayload⟩ := hi.event f.key old hold hk
    have hsame := hx.unique (hf.ended hgoes.1)
    subst hsame
    exact hother ⟨hkind, hpayload⟩

namespace Host

/-- **Every submission is finalized once**, and no call is refused because an earlier one recorded
something else. -/
theorem finalized_once (hr : (lts F).Reachable Initial h) :
    (∀ key, Once F h key) ∧ NeverRefused F h := by
  have hi : Inv F h := hr.invariant (I := Inv F) (fun _ h₀ => .initial h₀) fun _ _ _ hi hst =>
    hi.step hst
  exact ⟨hi.once, hi.never⟩

end Host

end

/-! ### Two calls at the same time -/

namespace Sample

/-- Encodings. -/
def texts : Texts where
  digest n := String.ofList (List.replicate n 'a')
  injective m n h := by simpa using congrArg String.length h
  canonical p := p.text

/-- The publication of the submission. -/
def publication : Publication := { episode := some 1, memoryDb := some "m", review := true }

/-- The input of the submission. -/
def input : Message := { role := "user", content := "go" }

/-- The context of the submission. -/
def context : Context := { workspace := "w", publication := some publication }

/-- The operations of the submission. -/
def opening : List Op :=
  [.bind {} "o" "t" (some .temporal) (.ok .temporal),
    .submit {} "o" "t" [input] context "assistant" ⟨"a", "s", .bridge⟩ (.ok { deadline := 9 })
      (.ok ()) {},
    .claim {} 2 ⟨"a", "s", .bridge⟩,
    .finish {} 2 (some 4) .completed (.reply "done" [])]

/-- The submission, when it has ended. -/
def row : Submission :=
  { owner := "o", task := "t", scope := ⟨input, context, "assistant"⟩, input := [input]
    address := "a", space := "s", queue := queueFor "h" .bridge, state := .completed
    fence := some 4, result := some (.reply "done" []) }

/-- The caller of `append`. -/
def caller : Caller :=
  { owner := "o", task := some "t", workspace := some "w", configured := "w" }

/-- A new task database, and an episode. -/
def start : Host := ⟨⟨.empty "h", 0⟩, { episodes := [{ id := 1 }] }, fun _ => none⟩

/-- The submission has ended. -/
def ended : Host := { start with base := start.base.runs opening }

/-- The call `n` opens. -/
def opensAt (h : Host) (n : ℕ) : Host :=
  h.opened n ⟨2, row, .start⟩ (opens 2 row (.ok ()) h.base.db)

/-- The call `n` records. -/
def recordsAt (h : Host) (n : ℕ) : Host :=
  h.recorded n ⟨2, row, .opened publication⟩ publication
    (record texts 2 row publication (.ok ()) h.memory)

/-- The call `n` appends. -/
def appendsAt (h : Host) (n : ℕ) : Host :=
  let o := finalAppend texts {} caller 2 row publication "done"
  h.appended n ⟨2, row, .recorded publication "done"⟩ o (o.attempt h.base.uuids h.base.db)

/-- The call `n` completes. -/
def completesAt (h : Host) (n : ℕ) : Host :=
  { h with base := h.base.after (.finalized 2) }.put n none

/-- Both calls have found the submission. -/
def opened : Host :=
  opensAt (opensAt ((ended.put 0 (some ⟨2, row, .start⟩)).put 1 (some ⟨2, row, .start⟩)) 0) 1

/-- Both calls have recorded. -/
def recorded : Host := recordsAt (recordsAt opened 0) 1

/-- Both calls have appended. -/
def appended : Host := appendsAt (appendsAt recorded 0) 1

/-- Both calls are through. -/
def finished : Host := completesAt (completesAt appended 0) 1

/-- The states that are reached. -/
abbrev Reached (h : Host) : Prop := (Host.lts texts).Reachable Host.Initial h

theorem ops_reached {h : Host} (hr : Reached h) (os : List Op) (hos : ∀ o ∈ os, ordinary o) :
    Reached { h with base := h.base.runs os } := by
  induction os generalizing h with
  | nil => exact hr
  | cons o os ih =>
    exact ih (hr.step (l := .op o) ⟨hos o List.mem_cons_self, rfl⟩)
      fun o' ho => hos o' (List.mem_cons_of_mem _ ho)

theorem ended_reached : Reached ended := by
  refine ops_reached (.of_init ⟨⟨"h", rfl⟩, rfl, rfl, rfl, fun _ => rfl⟩) opening fun o ho => ?_
  simp only [opening, List.mem_cons, List.not_mem_nil, or_false] at ho
  rcases ho with rfl | rfl | rfl | rfl <;> trivial

theorem opensAt_reached {h : Host} {n : ℕ} (hr : Reached h)
    (hn : h.finalizers n = some ⟨2, row, .start⟩) : Reached (opensAt h n) :=
  hr.step (l := .opens n (.ok ())) ⟨_, hn, rfl, rfl⟩

theorem recordsAt_reached {h : Host} {n : ℕ} (hr : Reached h)
    (hn : h.finalizers n = some ⟨2, row, .opened publication⟩) : Reached (recordsAt h n) :=
  hr.step (l := .record n (.ok ())) ⟨_, _, hn, rfl, rfl⟩

theorem appendsAt_reached {h : Host} {n : ℕ} (hr : Reached h)
    (hn : h.finalizers n = some ⟨2, row, .recorded publication "done"⟩) :
    Reached (appendsAt h n) :=
  hr.step (l := .append n {} caller) ⟨_, _, _, hn, rfl, rfl⟩

theorem completesAt_reached {h : Host} {n : ℕ} (hr : Reached h)
    (hn : h.finalizers n = some ⟨2, row, .appended⟩) : Reached (completesAt h n) :=
  hr.step (l := .complete n) ⟨_, hn, rfl, rfl⟩

theorem finished_reached : Reached finished := by
  have hread : Reached (ended.put 0 (some ⟨2, row, .start⟩)) :=
    ended_reached.step (l := .read 0 2) ⟨row, rfl, by decide, rfl⟩
  have hread' : Reached ((ended.put 0 (some ⟨2, row, .start⟩)).put 1 (some ⟨2, row, .start⟩)) :=
    hread.step (l := .read 1 2) ⟨row, by decide, by decide, rfl⟩
  have hopened : Reached opened :=
    opensAt_reached (opensAt_reached hread' (by decide)) (by decide)
  have hrecorded : Reached recorded :=
    recordsAt_reached (recordsAt_reached hopened (by decide)) (by decide)
  have happended : Reached appended :=
    appendsAt_reached (appendsAt_reached hrecorded (by decide)) (by decide)
  exact completesAt_reached (completesAt_reached happended (by decide)) (by decide)

end Sample

/-- Two calls finalize a submission at the same time: there is one message, one review job and one
final event, and the marker is completed. -/
theorem Host.finalized_once_sample :
    ((∀ key, Once Sample.texts Sample.finished key) ∧ NeverRefused Sample.texts Sample.finished) ∧
      Sample.finished.memory.events.map (·.content) = [some "done"] ∧
      Sample.finished.memory.jobs.map (·.type) = ["memory_review"] ∧
      (Sample.finished.base.db.events 2).map (·.key) = [finalKey] ∧
      Sample.finished.base.db.finalizations 2 = some true :=
  ⟨Host.finalized_once Sample.finished_reached, by decide, by decide,
    by decide, by decide⟩

end Finalizing

end Temporal

end PythonAI
