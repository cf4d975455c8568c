import PythonAI.Communication.Calls
import PythonAI.Library.Lts

/-!
# What the calls do to a job

`Shift` lists what a call can do to the row of one job, with the condition under which it does; the
facts about the status of a job, over any sequence of calls, are derived from it.

* `Op.shift` : every call does one of them to every job;
* `Op.advances` : the state of a session only moves on, from active to deleting to deleted;
* `Db.Withdrawn` : a cancellation is recorded, or the job was erased with its session;
* `calls_cancellation` : **a recorded cancellation wins**, whatever is called afterwards.
-/

namespace PythonAI

open Library

namespace Communication

/-- What the call `o` does to the row `j` of a job whose session is in the state `l`. -/
inductive Shift (l : Lifecycle) (o : Op) (j : Job) : Job → Prop
  /-- nothing -/
  | kept : Shift l o j j
  /-- the job may be listed -/
  | released : Shift l o j { j with deliveryReady := true }
  /-- recovery puts a started job into another state -/
  | recovered (s : Status) (ho : o = .setRecoveryState j.id s)
      (hs : j.status = .running ∨ j.status = .recoveryRequired) : Shift l o j { j with status := s }
  /-- a waiting job is taken -/
  | marked (ho : o = .markCommandRunning j.id) (hs : j.status = .pending ∨ j.status = .suspended) :
      Shift l o j { j with status := .running, attempts := j.attempts + 1 }
  /-- a result is reported -/
  | completed (result : String) (ho : o = .completeCommand j.id result) (hl : l = .active) :
      Shift l o j
        { j with
          status := reported j.status .completed, resultText := some result, lastError := none }
  /-- a failure is reported -/
  | failed (error : String) (ho : o = .failCommand j.id error) (hl : l = .active) :
      Shift l o j { j with status := reported j.status .failed, lastError := some error }
  /-- a result or a failure is reported while the session is deleted -/
  | dropped (ho : (∃ result, o = .completeCommand j.id result) ∨ ∃ error, o = .failCommand j.id error)
      (hl : l = .deleting) :
      Shift l o j
        { j with
          status := .cancelled, resultText := some "", lastError := none, state := none
          callId := none }
  /-- the job is cancelled -/
  | cancelled (owner : Option Command) (ho : o = .cancelCommand j.id owner)
      (hs : j.status = .pending ∨ j.status = .running ∨ j.status = .suspended) :
      Shift l o j { j with status := if j.status = .running then .cancelRequested else .cancelled }
  /-- the session of the job is cancelled -/
  | cleared (owner : Command) (ho : o = .cancelSession owner)
      (hs : j.status = .pending ∨ j.status = .running ∨ j.status = .cancelRequested ∨
        j.status = .suspended) :
      Shift l o j
        { j with
          status := if j.status = .running || j.status = .cancelRequested then .cancelRequested
            else .cancelled
          state := none, callId := none }
  /-- a question is stored -/
  | suspended (state : Saved) (call : String) (ho : o = .suspendCommand j.id state call)
      (hl : l = .active) (hs : j.status = .pending ∨ j.status = .running) :
      Shift l o j { j with status := .suspended, state := some state, callId := some call }
  /-- a question is dropped -/
  | forgotten (conversation : String) (owner : Option Command)
      (ho : o = .clearSuspendedCommand conversation owner) (hs : j.status = .suspended) :
      Shift l o j { j with status := .cancelled, state := none, callId := none }
  /-- the session is erased -/
  | erased (s : Scope) (t : Time) (ho : o = .eraseSession s t) (hs : j.within s = true) :
      Shift l o j
        { j with
          command := { j.command with text := "" }
          resultText := some "", lastError := none, state := none, callId := none
          status := .deleted }

section

variable {db db' : Db} {o : Op} {id : CommandId} {j : Job} {l : Lifecycle}

/-! ### Rows -/

theorem id_of_job (h : db.job id = some j) : j.id = id := Records.key_of_find h

/-- The row of a job after an update. -/
theorem job_updateJobs {p : Job → Bool} {f : Job → Job} (hf : ∀ j, (f j).id = j.id)
    (h : db.job id = some j) :
    (db.updateJobs p f).job id = some (if p j then f j else j) := by
  show Records.find Job.id id (db.jobs.map fun j => if p j then f j else j) = _
  rw [Records.find_map fun j _ => ?_, show Records.find Job.id id db.jobs = some j from h]
  · rfl
  · split_ifs
    · exact hf j
    · rfl

/-- What a call does to one job: its row is shifted. -/
def Shifts (o : Op) (db db' : Db) (id : CommandId) : Prop :=
  ∀ j, db.job id = some j → ∃ j', db'.job id = some j' ∧ Shift (db.lifecycle j.command) o j j'

theorem Shifts.of_same (hjobs : db'.jobs = db.jobs) : Shifts o db db' id := fun j hj =>
  ⟨j, by rw [Db.job, hjobs]; exact hj, .kept⟩

/-- An update shifts every row it selects. -/
theorem Shifts.of_update {p : Job → Bool} {f : Job → Job}
    (hjobs : db'.jobs = (db.updateJobs p f).jobs) (hf : ∀ j, (f j).id = j.id)
    (hshift : ∀ j, db.job id = some j → p j = true → Shift (db.lifecycle j.command) o j (f j)) :
    Shifts o db db' id := fun j hj => by
  refine ⟨if p j then f j else j, ?_, ?_⟩
  · rw [Db.job, hjobs]
    exact job_updateJobs hf hj
  · by_cases hp : p j = true
    · rw [if_pos hp]
      exact hshift j hj hp
    · rw [if_neg hp]
      exact .kept

theorem addJob_shifts {duplicate : String} {m : Inbound} {bound : Except Error (Option String)}
    {recovery : Option String} {u : String} {new : Bool}
    (h : addJob duplicate m bound recovery u db = .ok (db', new)) : Shifts o db db' id := by
  rcases addJob_ok h with rfl | ⟨b, session, heads, -, -, -, rfl⟩
  · exact .of_same rfl
  · exact fun j hj => ⟨j, Records.find_append_of_some hj, .kept⟩

/-- What a report does to the job that it is about. -/
theorem updateCommand_shifts {id' : CommandId} {status : Status} {result error : Option String}
    (hactive : ∀ j : Job, j.id = id' → db.lifecycle j.command = .active →
      Shift .active o j
        { j with
          status := reported j.status status, resultText := result.or j.resultText
          lastError := error })
    (hdeleting : ∀ j : Job, j.id = id' → Shift .deleting o j
        { j with
          status := .cancelled, resultText := some "", lastError := none, state := none
          callId := none }) :
    Shifts o db (updateCommand id' status result error db) id := by
  have hself : ∀ j, db.job id = some j → j.id = id' → db.job id' = some j := fun j hj hid => by
    rw [← hid, id_of_job hj]
    exact hj
  unfold updateCommand
  split
  · next hl =>
    split_ifs
    · refine .of_update rfl (fun _ => rfl) fun j hj hp => ?_
      have hid : j.id = id' := of_decide_eq_true hp
      rw [hself j hj hid] at hl
      have hdel : db.lifecycle j.command = .deleting := Option.some.inj hl
      rw [hdel]
      exact hdeleting j hid
    · exact .of_same rfl
  · exact .of_same rfl
  · next hl hl' =>
    refine .of_update rfl (fun _ => rfl) fun j hj hp => ?_
    have hid : j.id = id' := of_decide_eq_true hp
    have hactive' : db.lifecycle j.command = .active := by
      rw [hself j hj hid] at hl hl'
      cases h : db.lifecycle j.command with
      | active => rfl
      | deleting => exact absurd (congrArg some h) hl
      | deleted => exact absurd (congrArg some h) hl'
    rw [hactive']
    exact hactive j hid hactive'

/-- A guard on the state of the session of a job. -/
theorem lifecycle_of_guard {p : Job → Bool} {id' : CommandId} (hj : db.job id = some j)
    (hid : j.id = id') (h : ¬ (db.job id').any p = true) : p j = false := by
  rw [← hid, id_of_job hj, hj] at h
  simpa using h

/-- **What a call does to a job.** -/
theorem Op.shift (o : Op) (db : Db) (id : CommandId) : Shifts o db (o.perform db) id := by
  refine commit_of (P := fun db' => Shifts o db db' id) (.of_same rfl) fun db' h => ?_
  cases o with
  | ingest m recovery u =>
    obtain ⟨new, h⟩ := outcome_eq_ok.1 h
    exact addJob_shifts h
  | enqueue m bound recovery u =>
    obtain ⟨new, h⟩ := outcome_eq_ok.1 h
    exact addJob_shifts h
  | release sources =>
    cases h
    exact .of_update rfl (fun _ => rfl) fun j _ _ => .released
  | setRecoveryState id' state =>
    cases h
    refine .of_update rfl (fun _ => rfl) fun j _ hp => ?_
    simp only [Bool.and_eq_true, Bool.or_eq_true, decide_eq_true_eq] at hp
    exact .recovered state (by rw [hp.1]) hp.2
  | markCommandRunning id' =>
    cases h
    unfold Communication.markCommandRunning
    split_ifs
    · exact .of_same rfl
    · refine .of_update rfl (fun _ => rfl) fun j _ hp => ?_
      simp only [markable, Bool.and_eq_true, Bool.or_eq_true, decide_eq_true_eq] at hp
      exact .marked (by rw [hp.1]) hp.2
  | completeCommand id' result =>
    cases h
    refine updateCommand_shifts (fun j hid _ => ?_) fun j hid => ?_
    · exact .completed result (by rw [hid]) rfl
    · exact .dropped (.inl ⟨result, by rw [hid]⟩) rfl
  | failCommand id' error =>
    cases h
    refine updateCommand_shifts (fun j hid _ => ?_) fun j hid => ?_
    · exact .failed error (by rw [hid]) rfl
    · exact .dropped (.inr ⟨error, by rw [hid]⟩) rfl
  | cancelCommand id' owner =>
    cases h
    refine .of_update rfl (fun _ => rfl) fun j _ hp => ?_
    simp only [cancellable, Bool.and_eq_true, Bool.or_eq_true, decide_eq_true_eq] at hp
    exact .cancelled owner (by rw [hp.1.1]) (or_assoc.1 hp.2)
  | cancelSession owner =>
    cases h
    refine .of_update rfl (fun _ => rfl) fun j _ hp => ?_
    simp only [Bool.and_eq_true, Bool.or_eq_true, decide_eq_true_eq] at hp
    exact .cleared owner rfl (by rw [← or_assoc, ← or_assoc]; exact hp.2)
  | suspendCommand id' state call =>
    cases h
    unfold Communication.suspendCommand
    split_ifs with hg
    · exact .of_same rfl
    · refine .of_update rfl (fun _ => rfl) fun j hj hp => ?_
      simp only [suspendable, Bool.and_eq_true, Bool.or_eq_true, decide_eq_true_eq] at hp
      have hl := lifecycle_of_guard hj hp.1 hg
      simp only [ne_eq, decide_not, Bool.not_eq_false', decide_eq_true_eq] at hl
      exact .suspended state call (by rw [hp.1]) hl hp.2
  | clearSuspendedCommand conversation owner =>
    cases h
    refine .of_update rfl (fun _ => rfl) fun j _ hp => ?_
    simp only [suspendedIn, Bool.and_eq_true, decide_eq_true_eq] at hp
    exact .forgotten conversation owner rfl hp.2
  | eraseSession s t =>
    obtain ⟨u, h⟩ := outcome_eq_ok.1 h
    simp only [Communication.eraseSession, bind_eq_ok, pure_eq_ok, Prod.mk.injEq] at h
    obtain ⟨-, -, rfl, -⟩ := h
    exact .of_update (p := (·.within s)) rfl (fun _ => rfl) fun j _ hp =>
      .erased s t rfl hp
  | queueDelivery env c text context isError receipt minimal event t =>
    obtain ⟨key, h⟩ := outcome_eq_ok.1 h
    exact .of_same (queueDelivery_frame h).1
  | beginSessionDeletion | cleanupExpired =>
    cases h
    exact .of_same rfl

/-! ### Sessions -/

/-- The order of the states of a session. -/
def Lifecycle.rank : Lifecycle → ℕ
  | active => 0
  | deleting => 1
  | deleted => 2

theorem Lifecycle.eq_deleted {l : Lifecycle} (h : Lifecycle.rank .deleted ≤ l.rank) :
    l = .deleted := by
  cases l
  · exact absurd h (by decide)
  · exact absurd h (by decide)
  · rfl

/-- The states of the sessions move on, and none is removed. -/
def Advances (t t' : Table Scope Lifecycle) : Prop :=
  ∀ s l, t s = some l → ∃ l', t' s = some l' ∧ l.rank ≤ l'.rank

theorem Advances.refl (t : Table Scope Lifecycle) : Advances t t := fun _ l h => ⟨l, h, le_rfl⟩

theorem addJob_advances {duplicate : String} {m : Inbound}
    {bound : Except Error (Option String)} {recovery : Option String} {u : String} {new : Bool}
    (h : addJob duplicate m bound recovery u db = .ok (db', new)) :
    Advances db.states db'.states := by
  rcases addJob_ok h with rfl | ⟨b, session, heads, -, -, -, rfl⟩
  · exact .refl _
  · exact fun s l hs => ⟨l, admitted_of_some hs, le_rfl⟩

/-- A statement that moves the state of one session. -/
theorem Advances.update {t : Table Scope Lifecycle} {s : Scope} {p : Lifecycle → Bool}
    {l₁ : Lifecycle} (h : ∀ l, p l = true → l.rank ≤ l₁.rank) :
    Advances t (t.update s p fun _ => l₁) := fun s' l hl => by
  rw [Table.update_apply, hl]
  by_cases hs : s' = s ∧ p l = true
  · exact ⟨l₁, by rw [Option.map_some, if_pos hs], h l hs.2⟩
  · exact ⟨l, by rw [Option.map_some, if_neg hs], le_rfl⟩

theorem updateCommand_states {status : Status} {result error : Option String} :
    (updateCommand id status result error db).states = db.states := by
  unfold updateCommand
  split
  · split_ifs <;> rfl
  · rfl
  · rfl

/-- **The state of a session only moves on.** -/
theorem Op.advances (o : Op) (db : Db) : Advances db.states (o.perform db).states := by
  refine commit_of (P := fun db' : Db => Advances db.states db'.states) (.refl _) fun db' h => ?_
  cases o with
  | ingest m recovery u =>
    obtain ⟨new, h⟩ := outcome_eq_ok.1 h
    exact addJob_advances h
  | enqueue m bound recovery u =>
    obtain ⟨new, h⟩ := outcome_eq_ok.1 h
    exact addJob_advances h
  | markCommandRunning id =>
    cases h
    unfold Communication.markCommandRunning
    split_ifs <;> exact .refl _
  | completeCommand id result =>
    cases h
    rw [Communication.completeCommand, updateCommand_states]
    exact .refl _
  | failCommand id error =>
    cases h
    rw [Communication.failCommand, updateCommand_states]
    exact .refl _
  | suspendCommand id state call =>
    cases h
    unfold Communication.suspendCommand
    split_ifs <;> exact .refl _
  | beginSessionDeletion s t =>
    cases h
    exact .update fun l hl => by rw [of_decide_eq_true hl]; decide
  | eraseSession s t =>
    obtain ⟨u, h⟩ := outcome_eq_ok.1 h
    simp only [Communication.eraseSession, bind_eq_ok, pure_eq_ok, Prod.mk.injEq] at h
    obtain ⟨-, -, rfl, -⟩ := h
    exact .update fun l _ => by cases l <;> decide
  | queueDelivery env c text context isError receipt minimal event t =>
    obtain ⟨key, h⟩ := outcome_eq_ok.1 h
    rw [(queueDelivery_frame h).2.1]
    exact .refl _
  | release | setRecoveryState | cancelCommand | cancelSession | clearSuspendedCommand
  | cleanupExpired =>
    cases h
    exact .refl _

/-- The sessions of the jobs and of the heads are named, and those of the jobs have a state. -/
structure Db.Filed (db : Db) : Prop where
  /-- the jobs -/
  session : ∀ id j, db.job id = some j → j.command.session ≠ ""
  /-- the heads -/
  heads : ∀ k s, db.heads k = some s → s ≠ ""
  /-- the states -/
  state : ∀ id j, db.job id = some j → (db.states j.command.scope).isSome

/-- A call does not change whose a job is, and never its session. -/
theorem Shift.session {j' : Job} (h : Shift l o j j') :
    j'.command.session = j.command.session ∧ j'.command.scope = j.command.scope := by
  cases h <;> exact ⟨rfl, rfl⟩

/-- A message is filed under a named session. -/
theorem sessionOf_ne {m : Inbound} {bound recovery : Option String} {u : String}
    (h : ∀ k s, db.heads k = some s → s ≠ "") : sessionOf m bound recovery u db ≠ "" := by
  have hcolon : ∀ a b : String, a ++ ":" ++ b ≠ "" := fun a b he => by
    have hlen := congrArg String.length he
    simp at hlen
  have hfilter : ∀ (x : Option String) s, x.filter (· ≠ "") = some s → s ≠ "" := fun x s hs => by
    simpa using (Option.filter_eq_some_iff.1 hs).2
  simp only [sessionOf]
  split
  · next s hs => exact hfilter _ s hs
  · split_ifs
    · exact hcolon _ _
    · cases hr : recovery.filter (· ≠ "") with
      | some s => exact hfilter _ s hr
      | none =>
        cases hh : db.heads ⟨m.command.platform, m.command.sender, m.command.conversation,
            m.command.project⟩ with
        | some s => exact h _ s hh
        | none => exact hcolon _ _

/-- What a call adds: a new job is pending, its session is named and has a state. -/
theorem addJob_files {duplicate : String} {m : Inbound} {bound : Except Error (Option String)}
    {recovery : Option String} {u : String} {new : Bool} (hf : db.Filed)
    (h : addJob duplicate m bound recovery u db = .ok (db', new)) :
    db'.Filed ∧ ∀ id j, db.job id = none → db'.job id = some j → j.status = .pending := by
  rcases addJob_ok h with rfl | ⟨b, session, heads, hsession, hheads, hnone, rfl⟩
  · exact ⟨hf, fun id j hn hj => by rw [hn] at hj; cases hj⟩
  · have hne : session ≠ "" := hsession ▸ sessionOf_ne hf.heads
    have hrow : ∀ id j, Records.find Job.id id (db.jobs ++
        [{ command := { m.command with session := session }
           deliveryReady := m.command.platform ≠ "discord" }]) = some j →
        db.job id = some j ∨ j.command = { m.command with session := session } ∧
          j.status = .pending := fun id j hj => by
      rw [Records.find_append] at hj
      cases ho : Records.find Job.id id db.jobs with
      | some j₀ =>
        rw [ho, Option.some_or] at hj
        exact .inl (ho.trans hj)
      | none =>
        rw [ho, Option.none_or] at hj
        have hmem := Records.mem_of_find hj
        rw [List.mem_singleton.1 hmem]
        exact .inr ⟨rfl, rfl⟩
    refine ⟨⟨fun id j hj => ?_, fun k s hs => ?_, fun id j hj => ?_⟩, fun id j hn hj => ?_⟩
    · rcases hrow id j hj with hj | ⟨hc, -⟩
      · exact hf.session id j hj
      · rw [hc]
        exact hne
    · rcases hheads k s hs with hs | rfl
      · exact hf.heads k s hs
      · exact hne
    · rcases hrow id j hj with hj | ⟨hc, -⟩
      · obtain ⟨l, hl⟩ := Option.isSome_iff_exists.1 (hf.state id j hj)
        exact Option.isSome_iff_exists.2 ⟨l, admitted_of_some hl⟩
      · have hscope : j.command.scope =
            ⟨m.command.platform, m.command.sender, m.command.project, session⟩ := by
          rw [hc, Command.scope, Command.sessionName, if_neg hne]
        rw [hscope]
        exact admitted_isSome _
    · rcases hrow id j hj with hj | ⟨-, hp⟩
      · rw [hn] at hj
        cases hj
      · exact hp

/-- The jobs are rewritten in place, and the heads are kept. -/
def InPlace (db db' : Db) : Prop :=
  (∃ f : Job → Job, (∀ j, (f j).id = j.id) ∧ db'.jobs = db.jobs.map f) ∧ db'.heads = db.heads

theorem InPlace.of_same (hjobs : db'.jobs = db.jobs) (hheads : db'.heads = db.heads) :
    InPlace db db' := ⟨⟨id, fun _ => rfl, by rw [hjobs, List.map_id]⟩, hheads⟩

theorem InPlace.of_update {p : Job → Bool} {f : Job → Job}
    (hjobs : db'.jobs = (db.updateJobs p f).jobs) (hf : ∀ j, (f j).id = j.id)
    (hheads : db'.heads = db.heads) : InPlace db db' := by
  refine ⟨⟨fun j => if p j then f j else j, fun j => ?_, hjobs⟩, hheads⟩
  show (if p j then f j else j).id = j.id
  split_ifs
  · exact hf j
  · rfl

theorem updateCommand_inPlace {status : Status} {result error : Option String} :
    InPlace db (updateCommand id status result error db) := by
  unfold updateCommand
  split
  · split_ifs
    · exact .of_update rfl (fun _ => rfl) rfl
    · exact .of_same rfl rfl
  · exact .of_same rfl rfl
  · exact .of_update rfl (fun _ => rfl) rfl

/-- Where no job is added, a job that was not there is not there afterwards. -/
theorem InPlace.job_none (h : InPlace db db') (hn : db.job id = none) : db'.job id = none := by
  obtain ⟨⟨f, hid, hjobs⟩, -⟩ := h
  rw [Db.job, hjobs, Records.find_map fun j _ => hid j,
    show Records.find Job.id id db.jobs = none from hn]
  rfl

/-- Every other call keeps what is filed. -/
theorem InPlace.files (h : InPlace db db') (hshift : ∀ id, Shifts o db db' id)
    (hadv : Advances db.states db'.states) (hf : db.Filed) :
    db'.Filed ∧ ∀ id j, db.job id = none → db'.job id = some j → j.status = .pending := by
  have hnone : ∀ id, db.job id = none → db'.job id = none := fun id hn => h.job_none hn
  obtain ⟨⟨f, hid, hjobs⟩, hheads⟩ := h
  have hold : ∀ id j', db'.job id = some j' → ∃ j, db.job id = some j ∧
      j'.command.session = j.command.session ∧ j'.command.scope = j.command.scope :=
    fun id j' hj' => by
      cases hj : db.job id with
      | none =>
        rw [hnone id hj] at hj'
        cases hj'
      | some j =>
        obtain ⟨j'', hj'', hs⟩ := hshift id j hj
        rw [hj'] at hj''
        cases hj''
        exact ⟨j, rfl, hs.session⟩
  refine ⟨⟨fun id j' hj' => ?_, fun k s hs => hf.heads k s (hheads ▸ hs), fun id j' hj' => ?_⟩,
    fun id j hn hj => by rw [hnone id hn] at hj; cases hj⟩
  · obtain ⟨j, hj, hs, -⟩ := hold id j' hj'
    rw [hs]
    exact hf.session id j hj
  · obtain ⟨j, hj, -, hs⟩ := hold id j' hj'
    obtain ⟨l, hl⟩ := Option.isSome_iff_exists.1 (hf.state id j hj)
    obtain ⟨l', hl', -⟩ := hadv _ l hl
    rw [hs]
    exact Option.isSome_iff_exists.2 ⟨l', hl'⟩

/-- The call may add a job. -/
def Op.adds : Op → Bool
  | ingest .. | enqueue .. => true
  | _ => false

/-- A call adds a job, or rewrites the jobs in place. -/
theorem Op.adds_or_inPlace (o : Op) (db : Db) :
    (o.adds = true ∧ ∃ duplicate m bound recovery u new db',
      addJob duplicate m bound recovery u db = .ok (db', new) ∧ o.perform db = db') ∨
      InPlace db (o.perform db) := by
  unfold Op.perform
  cases hok : o.attempt db with
  | error e => exact .inr (.of_same rfl rfl)
  | ok db' =>
    cases o with
    | ingest m recovery u =>
      obtain ⟨new, h⟩ := outcome_eq_ok.1 hok
      exact .inl ⟨rfl, _, m, _, recovery, u, new, db', h, rfl⟩
    | enqueue m bound recovery u =>
      obtain ⟨new, h⟩ := outcome_eq_ok.1 hok
      exact .inl ⟨rfl, _, m, bound, recovery, u, new, db', h, rfl⟩
    | markCommandRunning id =>
      cases hok
      unfold Communication.markCommandRunning
      split_ifs
      · exact .inr (.of_same rfl rfl)
      · exact .inr (.of_update rfl (fun _ => rfl) rfl)
    | completeCommand id result =>
      cases hok
      exact .inr updateCommand_inPlace
    | failCommand id error =>
      cases hok
      exact .inr updateCommand_inPlace
    | suspendCommand id state call =>
      cases hok
      unfold Communication.suspendCommand
      split_ifs
      · exact .inr (.of_same rfl rfl)
      · exact .inr (.of_update rfl (fun _ => rfl) rfl)
    | eraseSession s t =>
      obtain ⟨u, h⟩ := outcome_eq_ok.1 hok
      simp only [Communication.eraseSession, bind_eq_ok, pure_eq_ok, Prod.mk.injEq] at h
      obtain ⟨-, -, rfl, -⟩ := h
      exact .inr (.of_update (p := (·.within s)) rfl (fun _ => rfl) rfl)
    | queueDelivery env c text context isError receipt minimal event t =>
      obtain ⟨key, h⟩ := outcome_eq_ok.1 hok
      exact .inr (.of_same (queueDelivery_frame h).1 (queueDelivery_frame h).2.2)
    | release | setRecoveryState | cancelCommand | cancelSession | clearSuspendedCommand =>
      cases hok
      exact .inr (.of_update rfl (fun _ => rfl) rfl)
    | beginSessionDeletion | cleanupExpired =>
      cases hok
      exact .inr (.of_same rfl rfl)

/-- **What is filed after a call**: a job that was not there is pending. -/
theorem Op.files (o : Op) (hf : db.Filed) :
    (o.perform db).Filed ∧
      ∀ id j, db.job id = none → (o.perform db).job id = some j → j.status = .pending := by
  rcases o.adds_or_inPlace db with ⟨-, duplicate, m, bound, recovery, u, new, db', h, heq⟩ | h
  · rw [heq]
    exact addJob_files hf h
  · exact h.files (fun id => o.shift db id) (o.advances db) hf

/-- The ids of the jobs stay distinct. -/
theorem Op.distinct (o : Op) (hd : (db.jobs.map Job.id).Nodup) :
    ((o.perform db).jobs.map Job.id).Nodup := by
  rcases o.adds_or_inPlace db with ⟨-, duplicate, m, bound, recovery, u, new, db', h, heq⟩ |
    ⟨⟨f, hid, hjobs⟩, -⟩
  · rw [heq]
    rcases addJob_ok h with rfl | ⟨b, session, heads, -, -, hnone, rfl⟩
    · exact hd
    · refine Records.nodup_append hd fun j hj hid => ?_
      obtain ⟨j', hj'⟩ := Records.find_isSome Job.id hj
      rw [hid] at hj'
      cases hnone.symm.trans hj'
  · rw [hjobs, Records.map_key fun j _ => hid j]
    exact hd

/-! ### A recorded cancellation -/

/-- A marked job that a call shifts is still marked, or its session is erased. -/
theorem Shift.of_marked {j' : Job} (h : Shift l o j j') (hm : j.status.marked = true) :
    (j'.status = j.status ∨ j'.status = .cancelled) ∨
      j'.status = .deleted ∧ ∃ s t, o = .eraseSession s t ∧ j.within s = true := by
  have hno : ∀ s, s.marked = false → j.status ≠ s := fun s hs he => by
    rw [he, hs] at hm
    cases hm
  cases h with
  | kept | released => exact .inl (.inl rfl)
  | recovered s _ hs => rcases hs with hs | hs <;> exact absurd hs (hno _ rfl)
  | marked _ hs => rcases hs with hs | hs <;> exact absurd hs (hno _ rfl)
  | completed result =>
    refine .inl (.inr ?_)
    show reported j.status .completed = .cancelled
    rw [reported, hm]
    rfl
  | failed error =>
    refine .inl (.inr ?_)
    show reported j.status .failed = .cancelled
    rw [reported, hm]
    rfl
  | dropped => exact .inl (.inr rfl)
  | cancelled owner _ hs => rcases hs with hs | hs | hs <;> exact absurd hs (hno _ rfl)
  | cleared owner _ hs =>
    rcases hs with hs | hs | hs | hs
    · exact absurd hs (hno _ rfl)
    · exact absurd hs (hno _ rfl)
    · refine .inl (.inl ?_)
      simp [hs]
    · exact absurd hs (hno _ rfl)
  | suspended _ _ _ _ hs => rcases hs with hs | hs <;> exact absurd hs (hno _ rfl)
  | forgotten _ _ _ hs => exact absurd hs (hno _ rfl)
  | erased s t ho hs => exact .inr ⟨rfl, s, t, ho, hs⟩

theorem scope_of_within {s : Scope} (hw : j.within s = true) (hs : j.command.session ≠ "") :
    j.command.scope = s := by
  simp only [Job.within, Bool.and_eq_true, decide_eq_true_eq] at hw
  obtain ⟨⟨⟨h₁, h₂⟩, h₃⟩, h₄⟩ := hw
  rw [Command.scope, Command.sessionName, if_neg hs, h₁, h₂, h₃, h₄]

/-- An erasure does nothing, or leaves the session deleted. -/
theorem erase_cases (s : Scope) (t : Time) (hs : (db.states s).isSome) :
    (Op.eraseSession s t).perform db = db ∨
      ((Op.eraseSession s t).perform db).states s = some .deleted := by
  unfold Op.perform
  cases hok : (Op.eraseSession s t).attempt db with
  | error e => exact .inl rfl
  | ok db' =>
    obtain ⟨u, h⟩ := outcome_eq_ok.1 hok
    simp only [eraseSession, bind_eq_ok, pure_eq_ok, Prod.mk.injEq] at h
    obtain ⟨-, -, rfl, -⟩ := h
    refine .inr ?_
    obtain ⟨l, hl⟩ := Option.isSome_iff_exists.1 hs
    show (db.states.update s (fun _ => true) fun _ => Lifecycle.deleted) s = _
    rw [Table.update_same, hl]
    rfl

/-- The status of the job satisfies `P`, or the job was erased with its session. -/
def Db.StaysIn (db : Db) (id : CommandId) (P : Status → Prop) : Prop :=
  ∃ j, db.job id = some j ∧
    (P j.status ∨ j.status = .deleted ∧ db.states j.command.scope = some .deleted)

/-- A set of marked statuses that holds `cancelled` is never left, but by an erasure. -/
theorem Db.StaysIn.step {P : Status → Prop} (hP : ∀ s, P s → s.marked = true)
    (hc : P .cancelled) (hf : db.Filed) (h : db.StaysIn id P) (o : Op) :
    (o.perform db).StaysIn id P := by
  obtain ⟨j, hj, h⟩ := h
  obtain ⟨j', hj', hs⟩ := o.shift db id j hj
  refine ⟨j', hj', ?_⟩
  rcases h with hp | ⟨hdel, hstate⟩
  · rcases hs.of_marked (hP _ hp) with (heq | heq) | ⟨heq, s, t, rfl, hw⟩
    · exact .inl (heq ▸ hp)
    · exact .inl (heq ▸ hc)
    · have hscope := scope_of_within hw (hf.session id j hj)
      have hsome : (db.states s).isSome := hscope ▸ hf.state id j hj
      rcases erase_cases s t hsome with hsame | hdone
      · rw [hsame, hj] at hj'
        cases hj'
        rw [heq] at hp
        exact absurd (hP _ hp) (by decide)
      · refine .inr ⟨heq, ?_⟩
        rw [hs.session.2, hscope]
        exact hdone
  · refine .inr ⟨?_, ?_⟩
    · have hl : db.lifecycle j.command = .deleted := by
        rw [Db.lifecycle, hstate]
        rfl
      rw [hl] at hs
      cases hs with
      | kept | released => exact hdel
      | recovered _ _ h => rw [hdel] at h; rcases h with h | h <;> cases h
      | marked _ h => rw [hdel] at h; rcases h with h | h <;> cases h
      | completed _ _ h => cases h
      | failed _ _ h => cases h
      | dropped _ h => cases h
      | cancelled _ _ h => rw [hdel] at h; rcases h with h | h | h <;> cases h
      | cleared _ _ h => rw [hdel] at h; rcases h with h | h | h | h <;> cases h
      | suspended _ _ _ h => cases h
      | forgotten _ _ _ h => rw [hdel] at h; cases h
      | erased => rfl
    · obtain ⟨l', hl', hrank⟩ := o.advances db _ _ hstate
      rw [hs.session.2, hl', Lifecycle.eq_deleted hrank]

end

/-! ### Any sequence of calls -/

/-- One call at a time, by any processes. -/
def calls : Lts Db Op where
  step db o db' := db' = o.perform db

/-- What is filed in every reachable database. -/
theorem calls_filed {db : Db} (hr : calls.Reachable (· = Db.empty) db) : db.Filed := by
  refine hr.invariant (fun _ h₀ => ?_) fun db o db' hf hst => hst ▸ (o.files hf).1
  rw [h₀]
  exact ⟨fun id j hj => (nomatch hj), fun k s hs => (nomatch hs), fun id j hj => (nomatch hj)⟩

/-- **A recorded cancellation wins.**  A job that is cancelled, or is to be cancelled, stays so
until it is erased with its session, whatever is called; and a cancelled job never is to be
cancelled again. -/
theorem calls_cancellation {db db' : Db} {os : List Op} {id : CommandId} {j : Job}
    (hr : calls.Reachable (· = Db.empty) db) (hrun : calls.Run db os db')
    (hj : db.job id = some j) (hm : j.status = .cancelRequested ∨ j.status = .cancelled) :
    ∃ j', db'.job id = some j' ∧
      (j'.status = .cancelRequested ∨ j'.status = .cancelled ∨ j'.status = .deleted) ∧
      (j.status = .cancelled → j'.status ≠ .cancelRequested) := by
  have hkeeps : ∀ P : Status → Prop, (∀ s, P s → s.marked = true) → P .cancelled → P j.status →
      db'.StaysIn id P := fun P hP hc hp =>
    hrun.preserves_under (I := Db.Filed) (P := fun db => db.StaysIn id P)
      (fun _ o _ hf hst => hst ▸ (o.files hf).1) (fun _ o _ hf h hst => hst ▸ h.step hP hc hf o)
      (calls_filed hr) ⟨j, hj, .inl hp⟩
  obtain ⟨j', hj', hstay⟩ := hkeeps (fun s => s = .cancelRequested ∨ s = .cancelled)
    (fun s hs => by rcases hs with rfl | rfl <;> rfl) (.inr rfl) hm
  refine ⟨j', hj', ?_, fun hcancelled hreq => ?_⟩
  · rcases hstay with (h | h) | ⟨h, -⟩
    · exact .inl h
    · exact .inr (.inl h)
    · exact .inr (.inr h)
  · obtain ⟨j'', hj'', hstay'⟩ := hkeeps (· = .cancelled) (fun s hs => by rw [hs]; rfl) rfl hcancelled
    rw [hj'] at hj''
    cases hj''
    rcases hstay' with h | ⟨h, -⟩ <;> rw [hreq] at h <;> cases h

/-- A message arrives, and its job is taken and cancelled. -/
def sampleCalls : List Op :=
  [.ingest { command := ⟨"t:1", "t", "chat", "ann", "hi", "default", "", none⟩ } none "",
    .markCommandRunning "t:1", .cancelCommand "t:1" none]

theorem calls_foldl (os : List Op) (db : Db) : calls.Run db os (os.foldl Op.perform db) := by
  induction os generalizing db with
  | nil => exact .nil db
  | cons o os ih => exact .cons rfl (ih (o.perform db))

theorem calls_cancellation_sample :
    ∃ j', ((Op.completeCommand "t:1" "done").perform (sampleCalls.foldl Op.perform .empty)).job
        "t:1" = some j' ∧
      (j'.status = .cancelRequested ∨ j'.status = .cancelled ∨ j'.status = .deleted) := by
  obtain ⟨j, hj, hm⟩ : ∃ j, (sampleCalls.foldl Op.perform .empty).job "t:1" = some j ∧
      (j.status = .cancelRequested ∨ j.status = .cancelled) := by
    refine ⟨_, Option.some_get (by decide) |>.symm, ?_⟩
    decide
  obtain ⟨j', hj', hstay, -⟩ := calls_cancellation ⟨_, sampleCalls, rfl, calls_foldl _ _⟩
    (.single rfl) hj hm
  exact ⟨j', hj', hstay⟩

end Communication

end PythonAI
