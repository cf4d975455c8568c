import PythonAI.Library.Lts
import PythonAI.Memory.Store

/-!
# The verdict of an episode

Turns and background reviews write the status of an episode, each with `finish_episode`; managed
turns use `finalize_temporal`.  A step is one transaction of one thread.

* `Host.lts` : the steps of the turns and of the reviews;
* `Host.change`, `Host.goes` : what a step does to the episodes, and to the threads;
* `Host.verdict_final` : **a negative verdict is final** in the runs in which no call of
  `finish_episode` writes a status that is not negative over a negative one;
* `Host.verdict_lost` : a run in which a suspended turn stores `running` over `failed`.
-/

namespace PythonAI

open Library

namespace Memory

/-- Who calls `finish_episode`. -/
inductive Writer
  | turn | review
  deriving DecidableEq, Repr

/-- Where a thread is. -/
inductive Call
  /-- `finish_episode` has read the status -/
  | finishing (writer : Writer) (episode : ℕ) (status : Status) (summary : Option String)
      (existing : Option Status)
  /-- a review has read the events of the episode -/
  | reviewing (episode : ℕ) (events : List EpisodeEvent)
  /-- a procedure is to be looked up -/
  | learning (episode : ℕ) (events : List EpisodeEvent) (procedure : ProcedureCandidate)
      (confidence : ℚ)
  /-- `active_procedures` has returned `procedures` to the matcher -/
  | matching (episode : ℕ) (events : List EpisodeEvent) (procedure : ProcedureCandidate)
      (confidence : ℚ) (procedures : List Procedure)
  /-- the result is to be recorded -/
  | recording (episode : ℕ) (events : List EpisodeEvent) (metadata : Metadata)
  deriving DecidableEq

/-- The memory database with its threads. -/
structure Host where
  /-- the database -/
  db : Db
  /-- the threads -/
  calls : ℕ → Option Call := fun _ => none
  /-- the episodes as they are without the writes of the reviews -/
  turned : List Episode

/-- A step. -/
inductive Act
  /-- `start_episode` -/
  | startEpisode
  /-- `add_event` -/
  | addEvent (episode : ℕ) (type : String) (role content : Option String) (metadata : Metadata)
  /-- the thread `c` calls `finish_episode`, which reads the status -/
  | finish (c : ℕ) (writer : Writer) (episode : ℕ) (status : Status) (summary : Option String)
  /-- `finish_episode` writes the status -/
  | write (c : ℕ)
  /-- `finalize_temporal` -/
  | finalize (key : String) (episode : ℕ) (reply state : String) (review : Bool)
  /-- the episode is erased -/
  | erase (episode : ℕ)
  /-- a review reads the events of the episode -/
  | review (c episode : ℕ)
  /-- `process_procedure_candidate` reads the status -/
  | judge (c : ℕ) (candidate : EpisodeEvent)
  /-- it reads the procedures -/
  | lookup (c : ℕ)
  /-- it writes the procedure, with the answer of the matcher -/
  | save (c : ℕ) (matched : Option ℕ) (t : Time)
  /-- it records the result -/
  | record (c : ℕ)
  /-- the thread ends -/
  | stop (c : ℕ)

namespace Host

variable (h : Host)

/-- The thread `c` goes on at `x`. -/
def put (c : ℕ) (x : Option Call) : Host := { h with calls := Function.update h.calls c x }

/-- The status of an episode. -/
def status (episode : ℕ) : Option Status := (h.db.episode episode).map Episode.status

/-- The `UPDATE` of `finish_episode`. -/
def written (writer : Writer) (episode : ℕ) (status : Status) (summary : Option String) : Host :=
  { h with
    db := { h.db with episodes := MemoryStore.writeEpisode episode status summary h.db.episodes }
    turned := match writer with
      | .turn => MemoryStore.writeEpisode episode status summary h.turned
      | .review => h.turned }

/-- What a thread goes on with after a verdict. -/
def judged (episode : ℕ) (events : List EpisodeEvent) : Verdict → Call
  | .rejects metadata => .recording episode events metadata
  | .leaves => .reviewing episode events
  | .learns procedure confidence => .learning episode events procedure confidence

/-- What a step does. -/
def Step (a : Act) (h' : Host) : Prop :=
  match a with
  | .startEpisode => h' = { h with
      db := (MemoryStore.startEpisode h.db).1
      turned := h.turned ++ [{ id := h.db.episodes.length + 1 }] }
  | .addEvent episode type role content metadata =>
    h' = { h with db := settle h.db (MemoryStore.addEvent episode type role content metadata h.db) }
  | .finish c writer episode status summary =>
    (h.calls c = none ∨ ∃ events, h.calls c = some (.reviewing episode events)) ∧
      -- A review ends with the default arguments.
      (writer = .review → status = .verifiedCompleted ∧ summary = none) ∧
      h' = h.put c (some (.finishing writer episode status summary (h.status episode)))
  | .write c => ∃ writer episode status summary existing,
      h.calls c = some (.finishing writer episode status summary existing) ∧
      h' = (h.written writer episode (MemoryStore.resolve status existing) summary).put c none
  | .finalize key episode reply state review =>
    match MemoryStore.finalizeTemporal key episode reply state review h.db with
    | .error _ => h' = h
    | .ok (db, _) => h' = { h with
        db := db
        turned := if db.finalizations = h.db.finalizations then h.turned
          else h.turned.map fun e =>
            if e.id = episode then { e with status := MemoryStore.finalStatus state e.status }
            else e }
  | .erase episode => h' = { h with
      db := MemoryStore.eraseMemory episode h.db
      turned := h.turned.map fun e =>
        if e.id = episode then { e with status := .deleted, summary := some "" } else e }
  | .review c episode => h.calls c = none ∧
      h' = h.put c (some (.reviewing episode (MemoryStore.episodeEvents episode h.db)))
  | .judge c candidate => ∃ episode events, h.calls c = some (.reviewing episode events) ∧
      candidate ∈ reviewCandidateEvents events ∧ "procedure" ∈ candidateMemoryKinds candidate ∧
      h' = h.put c (some (judged episode events (judge (h.status episode) events candidate)))
  | .lookup c => ∃ episode events procedure confidence,
      h.calls c = some (.learning episode events procedure confidence) ∧
      h' = h.put c (some (.matching episode events procedure confidence
        (MemoryStore.activeProcedures procedure.taskType h.db)))
  | .save c matched t => ∃ episode events procedure confidence procedures,
      h.calls c = some (.matching episode events procedure confidence procedures) ∧
      h' = { h with db := (learn episode procedure confidence matched t h.db).1 }.put c
        (some (.recording episode events (learn episode procedure confidence matched t h.db).2))
  | .record c => ∃ episode events metadata,
      h.calls c = some (.recording episode events metadata) ∧
      h' = { h with db := settle h.db (MemoryStore.addEvent episode "memory_review_result" none
        none metadata h.db) }.put c (some (.reviewing episode events))
  | .stop c => h' = h.put c none

/-- One step at a time. -/
def lts : Lts Host Act where
  step := Step

/-- New tables, and no thread. -/
structure Initial : Prop where
  /-- the database -/
  db : h.db = {}
  /-- the episodes of the turns -/
  turned : h.turned = []
  /-- the threads -/
  calls : ∀ c, h.calls c = none

end Host

/-! ### What a step does -/

section

variable {db db' : Db} {key : String} {episode : ℕ} {reply state : String} {review : Bool}
  {job : Option ℕ}

/-- What `finalize_temporal` does: it finds its key, or writes everything at once. -/
theorem finalize_ok
    (h : MemoryStore.finalizeTemporal key episode reply state review db = .ok (db', job)) :
    (db' = db ∧ ∃ old, Records.find Finalization.key key db.finalizations = some old ∧
      old.fingerprint = (episode, reply, state, review) ∧ old.job = job) ∨
    ∃ row, Records.find Finalization.key key db.finalizations = none ∧
      db.episode episode = some row ∧ row.status ≠ .deleted ∧
      (job = if review then some (db.jobs.length + 1) else none) ∧
      db' = { MemoryStore.insertEvent episode "message" (some "assistant") (some reply)
          { finalization := some key } db with
        episodes := db.episodes.map fun e : Episode =>
          if e.id = episode then { e with status := MemoryStore.finalStatus state row.status }
          else e
        jobs := db.jobs ++ job.toList.map fun id =>
          { id := id, type := "memory_review", episode := some episode, finalization := some key }
        finalizations := db.finalizations ++
          [⟨key, episode, (episode, reply, state, review), job⟩] } := by
  unfold MemoryStore.finalizeTemporal at h
  split at h
  · rename_i old hold
    simp only [bind_eq_ok, ensure_eq_ok, pure_eq_ok, Prod.mk.injEq, Bool.and_eq_true,
      decide_eq_true_eq] at h
    obtain ⟨-, ⟨hsame, -⟩, rfl, rfl⟩ := h
    exact .inl ⟨rfl, old, hold, hsame, rfl⟩
  · rename_i hnone
    simp only [bind_eq_ok, require_eq_ok, pure_eq_ok, Prod.mk.injEq] at h
    obtain ⟨row, hrow, rfl, rfl⟩ := h
    rw [Option.filter_eq_some_iff] at hrow
    exact .inr ⟨row, hnone, hrow.1, by simpa using hrow.2, rfl, rfl⟩

end

namespace Host

variable {h h' : Host} {a : Act}

/-- What a step does to the episodes. -/
inductive Change (h : Host) (a : Act) (h' : Host) : Prop
  /-- nothing -/
  | same (he : h'.db.episodes = h.db.episodes) (ht : h'.turned = h.turned)
  /-- a new one starts -/
  | started (he : h'.db.episodes = h.db.episodes ++ [{ id := h.db.episodes.length + 1 }])
      (ht : h'.turned = h.turned ++ [{ id := h.db.episodes.length + 1 }])
  /-- a status is written -/
  | written (c : ℕ) (writer : Writer) (episode : ℕ) (status : Status) (summary : Option String)
      (existing : Option Status) (ha : a = .write c)
      (hc : h.calls c = some (.finishing writer episode status summary existing))
      (he : h'.db.episodes = MemoryStore.writeEpisode episode
        (MemoryStore.resolve status existing) summary h.db.episodes)
      (ht : h'.turned = (h.written writer episode (MemoryStore.resolve status existing)
        summary).turned)
  /-- an episode is finalized -/
  | finalized (key : String) (episode : ℕ) (reply state : String) (review : Bool) (row : Episode)
      (ha : a = .finalize key episode reply state review) (hrow : h.db.episode episode = some row)
      (hlive : row.status ≠ .deleted)
      (he : h'.db.episodes = h.db.episodes.map fun e : Episode =>
        if e.id = episode then { e with status := MemoryStore.finalStatus state row.status } else e)
      (ht : h'.turned = h.turned.map fun e : Episode =>
        if e.id = episode then { e with status := MemoryStore.finalStatus state e.status } else e)
  /-- an episode is erased -/
  | erased (episode : ℕ) (ha : a = .erase episode)
      (he : h'.db.episodes = h.db.episodes.map fun e : Episode =>
        if e.id = episode then { e with status := .deleted, summary := some "" } else e)
      (ht : h'.turned = h.turned.map fun e : Episode =>
        if e.id = episode then { e with status := .deleted, summary := some "" } else e)

theorem addEvent_episodes (db : Db) (episode : ℕ) (type : String) (role content : Option String)
    (metadata : Metadata) :
    (settle db (MemoryStore.addEvent episode type role content metadata db)).episodes =
      db.episodes ∧
    (settle db (MemoryStore.addEvent episode type role content metadata db)).procedures =
      db.procedures := by
  refine settle_of (P := fun db' : Db => db'.episodes = db.episodes ∧
    db'.procedures = db.procedures) ⟨rfl, rfl⟩ fun db' n hok => ?_
  simp only [MemoryStore.addEvent, bind_eq_ok, ensure_eq_ok, pure_eq_ok, Prod.mk.injEq] at hok
  obtain ⟨-, -, rfl, -⟩ := hok
  exact ⟨rfl, rfl⟩

theorem learn_episodes (db : Db) (episode : ℕ) (procedure : ProcedureCandidate) (confidence : ℚ)
    (matched : Option ℕ) (t : Time) :
    (learn episode procedure confidence matched t db).1.episodes = db.episodes := by
  cases matched <;> rfl

theorem change (hst : lts.step h a h') : Change h a h' := by
  cases a with
  | startEpisode =>
    obtain rfl := hst
    exact .started rfl rfl
  | addEvent episode type role content metadata =>
    obtain rfl := hst
    exact .same (addEvent_episodes ..).1 rfl
  | finish c writer episode status summary =>
    obtain ⟨-, -, rfl⟩ := hst
    exact .same rfl rfl
  | write c =>
    obtain ⟨writer, episode, status, summary, existing, hc, rfl⟩ := hst
    exact .written c writer episode status summary existing rfl hc rfl rfl
  | finalize key episode reply state review =>
    simp only [lts, Step] at hst
    split at hst
    · subst hst
      exact .same rfl rfl
    · rename_i db job hok
      subst hst
      rcases finalize_ok hok with ⟨rfl, -⟩ | ⟨row, -, hrow, hlive, -, rfl⟩
      · exact .same rfl (if_pos rfl)
      · exact .finalized key episode reply state review row rfl hrow hlive rfl
          (if_neg fun heq => absurd (congrArg List.length heq) (by simp))
  | erase episode =>
    obtain rfl := hst
    exact .erased episode rfl rfl rfl
  | review c episode =>
    obtain ⟨-, rfl⟩ := hst
    exact .same rfl rfl
  | judge c candidate =>
    obtain ⟨episode, events, -, -, -, rfl⟩ := hst
    exact .same rfl rfl
  | lookup c =>
    obtain ⟨episode, events, procedure, confidence, -, rfl⟩ := hst
    exact .same rfl rfl
  | save c matched t =>
    obtain ⟨episode, events, procedure, confidence, procedures, -, rfl⟩ := hst
    exact .same (learn_episodes ..) rfl
  | record c =>
    obtain ⟨episode, events, metadata, -, rfl⟩ := hst
    exact .same (addEvent_episodes ..).1 rfl
  | stop c =>
    obtain rfl := hst
    exact .same rfl rfl

/-! ### Where a thread is -/

theorem put_calls {c d : ℕ} {x : Option Call} {y : Call} (hd : (h.put c x).calls d = some y) :
    d = c ∧ x = some y ∨ d ≠ c ∧ h.calls d = some y := by
  by_cases hdc : d = c
  · subst hdc
    exact .inl ⟨rfl, by simpa [put] using hd⟩
  · exact .inr ⟨hdc, by simpa [put, Function.update_of_ne hdc] using hd⟩

/-- Where a thread `c` is after a step. -/
inductive Goes (h : Host) (a : Act) (c : ℕ) : Call → Prop
  /-- where it was -/
  | stays (x : Call) (hc : h.calls c = some x) : Goes h a c x
  /-- `finish_episode` has read the status -/
  | reads (writer : Writer) (episode : ℕ) (status : Status) (summary : Option String)
      (hdefault : writer = .review → status = .verifiedCompleted ∧ summary = none) :
      Goes h a c (.finishing writer episode status summary (h.status episode))
  /-- a review goes on -/
  | reviews (episode : ℕ) (events : List EpisodeEvent) : Goes h a c (.reviewing episode events)
  /-- it has read the status -/
  | judges (episode : ℕ) (events : List EpisodeEvent) (candidate : EpisodeEvent)
      (ha : a = .judge c candidate) (hc : h.calls c = some (.reviewing episode events)) :
      Goes h a c (judged episode events (judge (h.status episode) events candidate))
  /-- it has read the procedures -/
  | looks (episode : ℕ) (events : List EpisodeEvent) (procedure : ProcedureCandidate)
      (confidence : ℚ) (procedures : List Procedure)
      (hc : h.calls c = some (.learning episode events procedure confidence)) :
      Goes h a c (.matching episode events procedure confidence procedures)
  /-- it has a result -/
  | records (episode : ℕ) (events : List EpisodeEvent) (metadata : Metadata) :
      Goes h a c (.recording episode events metadata)

theorem goes (hst : lts.step h a h') {d : ℕ} {y : Call} (hd : h'.calls d = some y) :
    Goes h a d y := by
  cases a with
  | startEpisode | addEvent | erase =>
    obtain rfl := hst
    exact .stays y hd
  | finalize key episode reply state review =>
    simp only [lts, Step] at hst
    split at hst <;> exact .stays y (by rwa [hst] at hd)
  | finish c writer episode status summary =>
    obtain ⟨-, hdefault, rfl⟩ := hst
    rcases put_calls hd with ⟨rfl, hy⟩ | ⟨-, hd⟩
    · cases hy
      exact .reads writer episode status summary hdefault
    · exact .stays y hd
  | write c =>
    obtain ⟨_, _, _, _, _, -, rfl⟩ := hst
    rcases put_calls hd with ⟨-, hy⟩ | ⟨-, hd⟩
    · cases hy
    · exact .stays y hd
  | review c episode =>
    obtain ⟨-, rfl⟩ := hst
    rcases put_calls hd with ⟨rfl, hy⟩ | ⟨-, hd⟩
    · cases hy
      exact .reviews ..
    · exact .stays y hd
  | judge c candidate =>
    obtain ⟨episode, events, hc, -, -, rfl⟩ := hst
    rcases put_calls hd with ⟨rfl, hy⟩ | ⟨-, hd⟩
    · cases hy
      exact .judges episode events candidate rfl hc
    · exact .stays y hd
  | lookup c =>
    obtain ⟨episode, events, procedure, confidence, hc, rfl⟩ := hst
    rcases put_calls hd with ⟨rfl, hy⟩ | ⟨-, hd⟩
    · cases hy
      exact .looks episode events procedure confidence _ hc
    · exact .stays y hd
  | save c matched t =>
    obtain ⟨_, _, _, _, _, -, rfl⟩ := hst
    rcases put_calls hd with ⟨rfl, hy⟩ | ⟨-, hd⟩
    · cases hy
      exact .records ..
    · exact .stays y hd
  | record c =>
    obtain ⟨_, _, _, -, rfl⟩ := hst
    rcases put_calls hd with ⟨rfl, hy⟩ | ⟨-, hd⟩
    · cases hy
      exact .reviews ..
    · exact .stays y hd
  | stop c =>
    obtain rfl := hst
    rcases put_calls hd with ⟨-, hy⟩ | ⟨-, hd⟩
    · cases hy
    · exact .stays y hd

/-! ### Every run -/

/-- The episodes are numbered in the order of their start. -/
def Numbered (h : Host) : Prop :=
  h.db.episodes.map Episode.id = List.range' 1 h.db.episodes.length

theorem Numbered.nodup (hn : h.Numbered) : (h.db.episodes.map Episode.id).Nodup := by
  rw [hn]
  exact List.nodup_range'

theorem Numbered.le (hn : h.Numbered) {e : Episode} (he : e ∈ h.db.episodes) :
    e.id ≤ h.db.episodes.length := by
  have hmem : e.id ∈ h.db.episodes.map Episode.id := List.mem_map_of_mem he
  rw [hn, List.mem_range'_1] at hmem
  omega

/-- An episode is the row that is found under its number. -/
theorem Numbered.episode (hn : h.Numbered) {e : Episode} (he : e ∈ h.db.episodes) :
    h.db.episode e.id = some e := Records.find_of_mem hn.nodup he

theorem Numbered.rewrite {f : Episode → Episode} (hn : h.Numbered) (hf : ∀ e, (f e).id = e.id)
    (he : h'.db.episodes = h.db.episodes.map f) : h'.Numbered := by
  rw [Numbered, he, List.length_map, Records.map_key fun e _ => hf e]
  exact hn

theorem Numbered.step (hn : h.Numbered) (hst : lts.step h a h') : h'.Numbered := by
  cases change hst with
  | same he ht => rwa [Numbered, he]
  | started he ht =>
    rw [Numbered, he, List.map_append, hn, List.length_append, List.length_singleton,
      List.range'_concat]
    simp [Nat.add_comm]
  | written c writer episode status summary existing ha hc he ht =>
    exact hn.rewrite (fun e => by split_ifs <;> rfl) he
  | finalized key episode reply state review row ha hrow hlive he ht =>
    exact hn.rewrite (fun e => by split_ifs <;> rfl) he
  | erased episode ha he ht => exact hn.rewrite (fun e => by split_ifs <;> rfl) he

theorem Initial.numbered (hi : h.Initial) : h.Numbered := by
  rw [Numbered, hi.db]
  rfl

theorem numbered (hr : lts.Reachable Initial h) : h.Numbered :=
  hr.invariant (fun _ hi => hi.numbered) fun _ _ _ hn hst => hn.step hst

/-! ### A negative verdict -/

/-- A call of `finish_episode` that writes over a negative verdict has a negative status, or it has
a success and has read a negative verdict. -/
def Lasting (h : Host) : Act → Prop
  | .write c => ∀ writer episode status summary existing,
    h.calls c = some (.finishing writer episode status summary existing) →
      (∃ verdict, h.status episode = some verdict ∧ verdict.negative) →
        status.negative ∨ (status = .verifiedCompleted ∨ status = .completed) ∧
          ∃ read, existing = some read ∧ read.negative
  | _ => True

/-- The episode has a negative verdict, or it is erased. -/
def Judged (h : Host) (id : ℕ) : Prop :=
  id ≤ h.db.episodes.length ∧
    ∀ e ∈ h.db.episodes, e.id = id → e.status.negative ∨ e.status = .deleted

theorem resolve_negative {status : Status} {existing : Option Status} (hs : status.negative ∨
    (status = .verifiedCompleted ∨ status = .completed) ∧
      ∃ read, existing = some read ∧ read.negative) :
    (MemoryStore.resolve status existing).negative := by
  rcases hs with hneg | ⟨rfl | rfl, read, rfl, hread⟩
  · cases status with
    | rejected | needsReview | failed => cases existing <;> rfl
    | running | verifiedCompleted | completed | deleted | other => cases hneg
  · simp [MemoryStore.resolve, hread]
  · simp [MemoryStore.resolve, hread]

theorem Judged.step {id : ℕ} (hn : h.Numbered) (hj : h.Judged id) (hst : lts.step h a h')
    (hl : h.Lasting a) : h'.Judged id := by
  obtain ⟨hle, hj⟩ := hj
  cases change hst with
  | same he ht =>
    rw [Judged, he]
    exact ⟨hle, hj⟩
  | started he ht =>
    rw [Judged, he]
    refine ⟨by rw [List.length_append]; omega, fun e hmem hid => ?_⟩
    rcases List.mem_append.1 hmem with hmem | hmem
    · exact hj e hmem hid
    · rw [List.mem_singleton.1 hmem] at hid
      simp only at hid
      omega
  | written c writer episode status summary existing ha hc he ht =>
    rw [Judged, he, MemoryStore.writeEpisode, List.length_map]
    refine ⟨hle, fun e hmem hid => ?_⟩
    obtain ⟨x, hx, rfl⟩ := List.mem_map.1 hmem
    split_ifs at hid ⊢ with hwrite
    · obtain ⟨rfl, hlive⟩ := hwrite
      subst ha
      have hneg := (hj x hx hid).resolve_right hlive
      refine .inl (resolve_negative
        (hl writer x.id status summary existing hc ⟨x.status, ?_, hneg⟩))
      rw [Host.status, hn.episode hx]
      rfl
    · exact hj x hx hid
  | finalized key episode reply state review row ha hrow hlive he ht =>
    rw [Judged, he, List.length_map]
    refine ⟨hle, fun e hmem hid => ?_⟩
    obtain ⟨x, hx, rfl⟩ := List.mem_map.1 hmem
    split_ifs at hid ⊢ with hmine
    · obtain rfl : x = row := by
        rw [← hmine, hn.episode hx] at hrow
        exact Option.some.inj hrow
      have hneg := (hj x hx hid).resolve_right hlive
      refine .inl ?_
      show (MemoryStore.finalStatus state x.status).negative = true
      rw [MemoryStore.finalStatus, if_pos hneg]
      exact hneg
    · exact hj x hx hid
  | erased episode ha he ht =>
    rw [Judged, he, List.length_map]
    refine ⟨hle, fun e hmem hid => ?_⟩
    obtain ⟨x, hx, rfl⟩ := List.mem_map.1 hmem
    split_ifs at hid ⊢
    · exact .inr rfl
    · exact hj x hx hid

/-- **A negative verdict is final** in the runs in which every call of `finish_episode` that writes
over a negative verdict has a negative status, or has a success and has read a negative verdict:
the episode is never verified again. -/
theorem verdict_final {ls : List Act} (hr : (lts.restrict Lasting).Reachable Initial h)
    (hrun : (lts.restrict Lasting).Run h ls h') {e e' : Episode} (he : e ∈ h.db.episodes)
    (hneg : e.status.negative) (he' : e' ∈ h'.db.episodes) (hid : e'.id = e.id) :
    e'.status ≠ .verifiedCompleted := by
  have hn : h.Numbered := hr.invariant (fun _ hi => hi.numbered) fun _ _ _ hn hst => hn.step hst.1
  have hj : h.Judged e.id := ⟨hn.le he, fun x hx hxe => by
    obtain rfl : x = e := List.inj_on_of_nodup_map hn.nodup hx he hxe
    exact .inl hneg⟩
  have hj' := hrun.preserves_under (I := Numbered) (P := (·.Judged e.id))
    (fun _ _ _ hn hst => hn.step hst.1) (fun _ _ _ hn hj hst => hj.step hn hst.1 hst.2) hn hj
  rcases hj'.2 e' he' hid with hneg' | hdel
  · intro hver
    rw [hver] at hneg'
    cases hneg'
  · rw [hdel]
    nofun

namespace Sample

/-- An empty memory database. -/
def empty : Host := { db := {}, turned := [] }

/-- A turn has started. -/
def started : Host :=
  { empty with
    db := (MemoryStore.startEpisode empty.db).1
    turned := empty.turned ++ [{ id := empty.db.episodes.length + 1 }] }

/-- The status of the first episode has been read. -/
def reads (writer : Writer) (status : Status) (h : Host) : Host :=
  h.put 0 (some (.finishing writer 1 status none (h.status 1)))

/-- The status of the first episode has been read and written. -/
def closes (writer : Writer) (status : Status) (h : Host) : Host :=
  ((reads writer status h).written writer 1 (MemoryStore.resolve status (h.status 1)) none).put 0
    none

theorem empty_initial : empty.Initial := ⟨rfl, rfl, fun _ => rfl⟩

theorem started_reachable : lts.Reachable Initial started :=
  (Lts.Reachable.of_init empty_initial).step (l := .startEpisode) rfl

theorem closes_run (writer : Writer) (status : Status) {h : Host} (hc : h.calls 0 = none)
    (hw : writer = .review → status = .verifiedCompleted) :
    lts.Run h [.finish 0 writer 1 status none, .write 0] (closes writer status h) :=
  .cons ⟨.inl hc, fun hr => ⟨hw hr, rfl⟩, rfl⟩ (.single ⟨writer, 1, status, none, h.status 1,
    by simp [put], rfl⟩)

end Sample

/-- A turn fails, and a later one that completes the episode leaves it failed. -/
theorem verdict_final_sample : (⟨1, .failed, none⟩ : Episode).status ≠ .verifiedCompleted := by
  set failed : Host := Sample.closes .turn .failed Sample.started with hfailed
  have hstarted : (lts.restrict Lasting).Reachable Initial Sample.started :=
    (Lts.Reachable.of_init Sample.empty_initial).step (l := .startEpisode) ⟨rfl, trivial⟩
  have hrun : ∀ {status h}, h.calls 0 = none →
      (Sample.reads .turn status h).Lasting (.write 0) →
      (lts.restrict Lasting).Run h [.finish 0 .turn 1 status none, .write 0]
        (Sample.closes .turn status h) := fun {status h} hc hl =>
    .cons ⟨⟨.inl hc, nofun, rfl⟩, trivial⟩ (.single ⟨⟨.turn, 1, status, none, h.status 1,
      by simp [put], rfl⟩, hl⟩)
  have hfirst : (Sample.reads .turn .failed Sample.started).Lasting (.write 0) := by
    rintro writer episode status summary existing hc -
    obtain ⟨-, -, rfl, -⟩ : Writer.turn = writer ∧ 1 = episode ∧ Status.failed = status ∧ _ := by
      simpa [Sample.reads, put] using hc
    exact .inl rfl
  have hsecond : (Sample.reads .turn .completed failed).Lasting (.write 0) := by
    rintro writer episode status summary existing hc -
    obtain ⟨-, -, rfl, -, hread⟩ : Writer.turn = writer ∧ 1 = episode ∧
        Status.completed = status ∧ none = summary ∧ failed.status 1 = existing := by
      simpa [Sample.reads, put] using hc
    exact .inr ⟨.inr rfl, .failed, hread ▸ by decide, rfl⟩
  exact verdict_final (hstarted.run (hrun rfl hfirst)) (hrun (by decide) hsecond)
    (e := ⟨1, .failed, none⟩) (by decide) rfl (by decide) rfl

/-- The turn fails, a resumed turn is suspended, and the next one completes the episode. -/
theorem verdict_lost : ∃ h h' ls, lts.Reachable Initial h ∧ lts.Run h ls h' ∧
    ∃ e ∈ h.db.episodes, e.status.negative ∧
      ∃ e' ∈ h'.db.episodes, e'.id = e.id ∧ e'.status = .verifiedCompleted := by
  refine ⟨Sample.closes .turn .failed Sample.started,
    Sample.closes .turn .completed (Sample.closes .turn .running
      (Sample.closes .turn .failed Sample.started)), _,
    Sample.started_reachable.run (Sample.closes_run .turn .failed rfl nofun),
    (Sample.closes_run .turn .running (by decide) nofun).append
      (Sample.closes_run .turn .completed (by decide) nofun), ⟨1, .failed, none⟩,
    by decide, rfl, ⟨1, .verifiedCompleted, none⟩, by decide, rfl, rfl⟩

end Host

end Memory

end PythonAI
