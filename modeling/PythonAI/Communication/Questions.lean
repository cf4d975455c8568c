import PythonAI.Communication.Live

/-!
# Questions and their answers

The poller reads the suspended job and its saved state, and a thread takes the job later; only the
status of the job is tested then.  The `numbers` count how often a job was suspended, or returned to
`pending`, so a question that was read is the stored one as long as the job has its number.

* `renewed_of_shift` : a job waits with another question only after such a step;
* `Worker.Host.Current` : no thread takes a job that was renewed since its question was read;
* `Worker.Host.answered_current` : **an answer goes to the question it was read for**, and a
  question gets at most one, in the runs whose steps are all current;
* `Worker.Host.answered_stale` : a run in which two messages answer one question, the second one
  after the job has asked another.
-/

namespace PythonAI

open Library

namespace Communication

namespace Worker

/-- Which question of which job it is. -/
def Question.key (q : Question) : CommandId × ℕ := (q.id, q.number)

/-- The question of a thread that has not taken the suspended job. -/
def Pc.reads : Pc → Option Question
  | started _ q => q
  | loaded _ q => some q
  | _ => none

theorem Pc.reads_started (c : Command) (q : Option Question) : (started c q).reads = q := rfl

/-- The question of a thread that has taken the suspended job. -/
def Pc.took : Pc → Option Question
  | taken _ q | forwarded _ q => some q
  | _ => none

/-- The messages that a thread resumes a job with. -/
def Pc.resumes : Pc → Option (Command × List Message)
  | running target (some messages) => some (target, messages)
  | _ => none

namespace Host

variable {owner : Command → Owner} {h h' : Host} {a : Act} {id : CommandId} {j j' : Job} {db : Db}
  {o : Op} {pc : Pc} {x : ThreadAct} {q : Question} {n : ℕ} {c : Command}
  {P : Status → Option Saved → Option String → Prop}

/-- When a thread takes a suspended job, the job was neither suspended nor returned to `pending`
since its question was read. -/
def Current (h : Host) (a : Act) : Bool := (h.takes a).all fun q => q.number = h.numbers q.id

/-! ### Renewals -/

/-- A job waits as it did before a call, or the call renews it. -/
theorem renewed_of_shift (hj : db.job id = some j) (hs : Shift (db.lifecycle j.command) o j j')
    (hw : j'.status = .pending ∨ j'.status = .suspended) :
    (j'.status = j.status ∧ j'.state = j.state ∧ j'.callId = j.callId) ∨
      renewed db (some (.store o)) = some id := by
  have hid := id_of_job hj
  have hreport : ∀ s, s = .completed ∨ s = .failed →
      ¬ (reported j.status s = .pending ∨ reported j.status s = .suspended) := fun s hs' => by
    unfold reported
    rcases hs' with rfl | rfl <;> split_ifs <;> exact not_or.2 ⟨nofun, nofun⟩
  cases hs with
  | kept | released => exact .inl ⟨rfl, rfl, rfl⟩
  | recovered s ho hs =>
    refine .inr ?_
    rw [ho, hid, renewed, hj, if_pos]
    simpa [hw] using hs
  | suspended s k ho hl hs =>
    refine .inr ?_
    rw [ho, hid, renewed, hj, if_pos]
    simpa [suspendable, hid, hl] using hs
  | completed => exact absurd hw (hreport _ (.inl rfl))
  | failed => exact absurd hw (hreport _ (.inr rfl))
  | marked | dropped | forgotten | erased => rcases hw with hw | hw <;> cases hw
  | cancelled =>
    change (if j.status = .running then Status.cancelRequested else .cancelled) = _ ∨
      (if j.status = .running then Status.cancelRequested else .cancelled) = _ at hw
    split_ifs at hw <;> rcases hw with hw | hw <;> cases hw
  | cleared =>
    change (if j.status = .running || j.status = .cancelRequested then Status.cancelRequested
      else .cancelled) = _ ∨ (if j.status = .running || j.status = .cancelRequested then
      Status.cancelRequested else .cancelled) = _ at hw
    split_ifs at hw <;> rcases hw with hw | hw <;> cases hw

/-- A step renews a job, or the job waits as it did before. -/
theorem number_step (hst : (lts owner).step h a h') (hj : h.db.job id = some j) :
    ∃ j', h'.db.job id = some j' ∧ (h.numbers id < h'.numbers id ∨
      h'.numbers id = h.numbers id ∧ ((j'.status = .pending ∨ j'.status = .suspended) →
        j'.status = j.status ∧ j'.state = j.state ∧ j'.callId = j.callId)) := by
  have hnumbers : h'.numbers id =
      if renewed h.db (h.effect owner a) = some id then h.numbers id + 1 else h.numbers id := by
    rw [hst]
    rfl
  obtain ⟨j', hj', hshift⟩ := storeAfter_shift (e := h.effect owner a) hj
  refine ⟨j', by rw [step_db hst, hj'], ?_⟩
  by_cases hr : renewed h.db (h.effect owner a) = some id
  · rw [if_pos hr] at hnumbers
    exact .inl (by omega)
  · rw [if_neg hr] at hnumbers
    refine .inr ⟨hnumbers, fun hw => ?_⟩
    rcases hshift with rfl | ⟨o, he, hshift⟩
    · exact ⟨rfl, rfl, rfl⟩
    · rcases renewed_of_shift hj hshift hw with hsame | hr'
      · exact hsame
      · rw [he] at hr
        exact absurd hr' hr

/-- The job `id` was renewed since it had the number `n`, or `P` holds of it whenever it waits. -/
def Since (h : Host) (id : CommandId) (n : ℕ)
    (P : Status → Option Saved → Option String → Prop) : Prop :=
  ∃ j, h.db.job id = some j ∧ n ≤ h.numbers id ∧
    (n = h.numbers id → j.status = .pending ∨ j.status = .suspended → P j.status j.state j.callId)

theorem Since.step (hs : h.Since id n P) (hst : (lts owner).step h a h') : h'.Since id n P := by
  obtain ⟨j, hj, hle, hP⟩ := hs
  obtain ⟨j', hj', hlt | ⟨heq, hsame⟩⟩ := number_step hst hj
  · exact ⟨j', hj', by omega, fun hn => by omega⟩
  · refine ⟨j', hj', by omega, fun hn hw => ?_⟩
    obtain ⟨hstatus, hstate, hcall⟩ := hsame hw
    rw [hstatus, hstate, hcall]
    exact hP (by omega) (hstatus ▸ hw)

/-! ### Threads -/

/-- The question of a thread is the one it started with. -/
theorem next_reads (hr : (pc.next db x).reads = some q) : pc.reads = some q := by
  unfold Pc.next at hr
  split at hr
  case h_3 => split_ifs at hr <;> cases hr
  case h_5 => split at hr <;> cases hr
  case h_7 | h_10 => split_ifs at hr <;> cases hr
  case h_8 => split_ifs at hr <;> cases hr
  case h_9 => split at hr <;> cases hr
  case h_13 => split_ifs at hr <;> first | cases hr | (split at hr <;> cases hr)
  all_goals first
    | exact hr
    | cases hr

/-- A thread that has taken the job of a question has just taken it, or had. -/
theorem next_took (ht : (pc.next db x).took = some q) :
    pc.took = some q ∨
      ∃ c, pc = .loaded c q ∧ x = .go ∧ (markCommandRunning q.id db).2 = true := by
  unfold Pc.next at ht
  split at ht
  case h_3 c q' =>
    split_ifs at ht with hm
    · cases ht
      exact .inr ⟨c, rfl, rfl, hm⟩
    · cases ht
  case h_5 => split at ht <;> cases ht
  case h_7 | h_10 => split_ifs at ht <;> cases ht
  case h_8 => split_ifs at ht <;> cases ht
  case h_9 => split at ht <;> cases ht
  case h_13 => split_ifs at ht <;> first | cases ht | (split at ht <;> cases ht)
  all_goals first
    | exact .inl ht
    | cases ht

/-- A thread resumes a job with the messages of the question it has taken it for. -/
theorem next_resumes {target : Command} {messages : List Message}
    (hr : (pc.next db x).resumes = some (target, messages)) :
    pc.resumes = some (target, messages) ∨
      ∃ c q, pc.took = some q ∧ target.id = q.id ∧ messages = Pc.resumed c q := by
  unfold Pc.next at hr
  split at hr
  case h_3 => split_ifs at hr <;> cases hr
  case h_5 c q' =>
    split at hr
    · next j hj =>
      cases hr
      exact .inr ⟨c, q', rfl, id_of_job hj, rfl⟩
    · cases hr
  case h_7 | h_10 => split_ifs at hr <;> cases hr
  case h_8 => split_ifs at hr <;> cases hr
  case h_9 => split at hr <;> cases hr
  case h_13 => split_ifs at hr <;> first | cases hr | (split at hr <;> cases hr)
  all_goals first
    | exact .inl hr
    | cases hr

/-- A step that takes the job of a question. -/
theorem takes_eq (ht : h.takes a = some q) : ∃ i w c, a = .run i .go ∧
    h.threads[i]? = some ⟨w, .loaded c q⟩ ∧ (markCommandRunning q.id h.db).2 = true := by
  unfold takes at ht
  split at ht
  · next i =>
    split at ht
    · next w c q' hth =>
      split_ifs at ht with hm
      cases ht
      exact ⟨i, w, c, rfl, hth, hm⟩
    · cases ht
  · cases ht

/-- A job that can be marked waits. -/
theorem waits_of_mark (hm : (markCommandRunning id db).2 = true) :
    ∃ j, db.job id = some j ∧ (j.status = .pending ∨ j.status = .suspended) := by
  unfold markCommandRunning at hm
  split_ifs at hm
  obtain ⟨j, hj, hmark⟩ := (Option.any_eq_true _ _).1 hm
  simp only [markable, Bool.and_eq_true, Bool.or_eq_true, decide_eq_true_eq] at hmark
  exact ⟨j, hj, hmark.2⟩

/-! ### The invariant -/

/-- The row of a job that waits for an answer to the question `q`. -/
def Stored (q : Question) (s : Status) (state : Option Saved) (call : Option String) : Prop :=
  s = .suspended ∧ state = some q.state ∧ call = some q.call

/-- What holds in the runs whose steps are current. -/
structure Asked (h : Host) : Prop where
  /-- the ids of the jobs are distinct -/
  distinct : (h.db.jobs.map Job.id).Nodup
  /-- a question that a thread is to answer is stored, or its job was renewed -/
  read : ∀ th ∈ h.threads, ∀ q, th.pc.reads = some q → h.Since q.id q.number (Stored q)
  /-- the job of an answered question does not wait, or it was renewed -/
  answered : ∀ q ∈ h.answers, h.Since q.id q.number fun _ _ _ => False
  /-- a question is answered once -/
  once : (h.answers.map Question.key).Nodup
  /-- the jobs are taken for the questions that are answered -/
  took : ∀ th ∈ h.threads, ∀ q, th.pc.took = some q → q ∈ h.answers
  /-- and resumed with their messages -/
  resumes : ∀ th ∈ h.threads, ∀ target messages, th.pc.resumes = some (target, messages) →
    ∃ c q, target.id = q.id ∧ messages = Pc.resumed c q ∧ q ∈ h.answers

/-- The question that a poller reads is stored. -/
theorem question_since (hd : (h.db.jobs.map Job.id).Nodup) (hq : h.question c = some q) :
    h.Since q.id q.number (Stored q) := by
  unfold question at hq
  split_ifs at hq
  obtain ⟨⟨id, state, call⟩, hget, rfl⟩ := Option.map_eq_some_iff.1 hq
  simp only [getSuspendedCommand, Option.bind_eq_bind, Option.bind_eq_some_iff, Option.pure_def,
    Option.some.injEq, Prod.mk.injEq] at hget
  obtain ⟨j, hfind, state', hstate, call', hcall, rfl, rfl, rfl⟩ := hget
  have hmem : j ∈ h.db.jobs := List.mem_reverse.1 (List.mem_of_find?_eq_some hfind)
  have hs := List.find?_some hfind
  simp only [suspendedIn, Bool.and_eq_true, decide_eq_true_eq] at hs
  exact ⟨j, Records.find_of_mem hd hmem, le_rfl, fun _ _ =>
    ⟨hs.2, hstate, (Option.filter_eq_some_iff.1 hcall).1⟩⟩

theorem answers_step (hst : (lts owner).step h a h') :
    h'.answers = h.answers ++ (h.takes a).toList := by
  rw [hst]
  rfl

theorem mem_answers (hst : (lts owner).step h a h') :
    q ∈ h'.answers ↔ q ∈ h.answers ∨ h.takes a = some q := by
  rw [answers_step hst, List.mem_append, Option.mem_toList]

/-- A job that is taken for a current question is the one whose question was read. -/
theorem Asked.stored (ha : h.Asked) (hc : h.Current a = true) (ht : h.takes a = some q) :
    q.number = h.numbers q.id ∧
      ∃ j, h.db.job q.id = some j ∧ Stored q j.status j.state j.callId := by
  rw [Current, ht] at hc
  have hnumber : q.number = h.numbers q.id := of_decide_eq_true hc
  obtain ⟨i, w, c, rfl, hth, hm⟩ := takes_eq ht
  obtain ⟨j, hj, -, hstored⟩ := ha.read _ (List.mem_of_getElem? hth) q rfl
  obtain ⟨j', hj', hw⟩ := waits_of_mark hm
  rw [hj] at hj'
  cases hj'
  exact ⟨hnumber, j, hj, hstored hnumber hw⟩

/-- The question of a job that is taken was not answered. -/
theorem Asked.fresh (ha : h.Asked) (hc : h.Current a = true) (ht : h.takes a = some q) :
    q.key ∉ h.answers.map Question.key := fun hmem => by
  obtain ⟨q', hmem, hkey⟩ := List.mem_map.1 hmem
  obtain ⟨hid, hnumber'⟩ := Prod.mk.inj hkey
  obtain ⟨hnumber, -⟩ := ha.stored hc ht
  obtain ⟨i, w, c, rfl, hth, hm⟩ := takes_eq ht
  obtain ⟨j, hj, -, hnone⟩ := ha.answered q' hmem
  rw [hid, hnumber'] at hnone
  rw [hid] at hj
  obtain ⟨j', hj', hw⟩ := waits_of_mark hm
  rw [hj] at hj'
  cases hj'
  exact hnone hnumber hw

/-- A job that was taken for a question does not wait, or it was renewed. -/
theorem since_taken (hst : (lts owner).step h a h') (hnumber : q.number = h.numbers q.id)
    (ht : h.takes a = some q) : h'.Since q.id q.number fun _ _ _ => False := by
  obtain ⟨i, w, c, rfl, hth, hm⟩ := takes_eq ht
  have heffect : h.effect owner (.run i .go) = some (.store (.markCommandRunning q.id)) := by
    rw [effect, hth]
    rfl
  have hdb : h'.db = (markCommandRunning q.id h.db).1 := by
    rw [step_db hst, heffect]
    rfl
  have hnumbers : h'.numbers q.id = h.numbers q.id := by
    have hact : h'.numbers q.id = if renewed h.db (h.effect owner (.run i .go)) = some q.id then
        h.numbers q.id + 1 else h.numbers q.id := by
      rw [hst]
      rfl
    rw [hact, heffect, if_neg (fun h => by cases h)]
  obtain ⟨j, hj, hp, hs⟩ := taken_of_mark hm
  refine ⟨j, hdb ▸ hj, by omega, fun _ hw => ?_⟩
  rcases hw with hw | hw
  · exact hp hw
  · exact hs hw

theorem Asked.step_read (ha : h.Asked) (hst : (lts owner).step h a h') {th : Thread}
    (hth : th ∈ h'.threads) (hq : th.pc.reads = some q) :
    h'.Since q.id q.number (Stored q) := by
  obtain ⟨k, hk⟩ := List.mem_iff_getElem?.1 hth
  rcases threads_step hst hk with ⟨hk₀, -⟩ | ⟨x, th₀, -, hk₀, rfl⟩ |
    ⟨w, x, pc, -, hstart, rfl, -⟩ | ⟨w, -, hdone⟩
  · exact (ha.read th (List.mem_of_getElem? hk₀) q hq).step hst
  · exact (ha.read th₀ (List.mem_of_getElem? hk₀) q (next_reads hq)).step hst
  · obtain ⟨c, -, rfl, -⟩ := starts_eq hstart
    rw [Pc.reads_started] at hq
    exact (question_since ha.distinct hq).step hst
  · rw [hdone] at hq
    cases hq

theorem Asked.step_once (ha : h.Asked) (hst : (lts owner).step h a h')
    (hc : h.Current a = true) : (h'.answers.map Question.key).Nodup := by
  rw [answers_step hst]
  cases ht : h.takes a with
  | none => simpa using ha.once
  | some q =>
    rw [Option.toList_some, List.map_append, List.map_singleton]
    exact ha.once.append (List.nodup_singleton _) (List.disjoint_singleton.2 (ha.fresh hc ht))

theorem Asked.step_took (ha : h.Asked) (hst : (lts owner).step h a h') {th : Thread}
    (hth : th ∈ h'.threads) (hq : th.pc.took = some q) : q ∈ h'.answers := by
  obtain ⟨k, hk⟩ := List.mem_iff_getElem?.1 hth
  rw [mem_answers hst]
  rcases threads_step hst hk with ⟨hk₀, -⟩ | ⟨x, th₀, rfl, hk₀, rfl⟩ |
    ⟨w, x, pc, -, hstart, rfl, -⟩ | ⟨w, -, hdone⟩
  · exact .inl (ha.took th (List.mem_of_getElem? hk₀) q hq)
  · rcases next_took hq with hq | ⟨c, hpc, rfl, hm⟩
    · exact .inl (ha.took th₀ (List.mem_of_getElem? hk₀) q hq)
    · refine .inr ?_
      obtain ⟨w, pc⟩ := th₀
      change pc = _ at hpc
      subst hpc
      simp only [takes, hk₀, if_pos hm]
  · obtain ⟨c, -, rfl, -⟩ := starts_eq hstart
    cases hq
  · rw [hdone] at hq
    cases hq

theorem Asked.step_resumes (ha : h.Asked) (hst : (lts owner).step h a h') {th : Thread}
    (hth : th ∈ h'.threads) {target : Command} {messages : List Message}
    (hr : th.pc.resumes = some (target, messages)) :
    ∃ c q, target.id = q.id ∧ messages = Pc.resumed c q ∧ q ∈ h'.answers := by
  obtain ⟨k, hk⟩ := List.mem_iff_getElem?.1 hth
  have hkept : ∀ {p}, p ∈ h.answers → p ∈ h'.answers := fun hp => (mem_answers hst).2 (.inl hp)
  have hold : ∀ th₀, h.threads[k]? = some th₀ → th₀.pc.resumes = some (target, messages) →
      ∃ c q, target.id = q.id ∧ messages = Pc.resumed c q ∧ q ∈ h'.answers :=
    fun th₀ hk₀ hr => by
      obtain ⟨c, q, htarget, hmessages, hmem⟩ :=
        ha.resumes th₀ (List.mem_of_getElem? hk₀) target messages hr
      exact ⟨c, q, htarget, hmessages, hkept hmem⟩
  rcases threads_step hst hk with ⟨hk₀, -⟩ | ⟨x, th₀, -, hk₀, rfl⟩ |
    ⟨w, x, pc, -, hstart, rfl, -⟩ | ⟨w, -, hdone⟩
  · exact hold th hk₀ hr
  · rcases next_resumes hr with hr | ⟨c, q, hq, htarget, hmessages⟩
    · exact hold th₀ hk₀ hr
    · exact ⟨c, q, htarget, hmessages, hkept (ha.took th₀ (List.mem_of_getElem? hk₀) q hq)⟩
  · obtain ⟨c, -, rfl, -⟩ := starts_eq hstart
    cases hr
  · rw [hdone] at hr
    cases hr

theorem Asked.step (ha : h.Asked) (hst : (lts owner).step h a h') (hc : h.Current a = true) :
    h'.Asked := by
  refine ⟨?_, fun th hth q hq => ha.step_read hst hth hq, fun q hmem => ?_,
    ha.step_once hst hc, fun th hth q hq => ha.step_took hst hth hq,
    fun th hth target messages hr => ha.step_resumes hst hth hr⟩
  · rw [step_db hst]
    exact storeAfter_distinct ha.distinct _
  · rcases (mem_answers hst).1 hmem with hmem | ht
    · exact (ha.answered q hmem).step hst
    · exact since_taken hst (ha.stored hc ht).1 ht

theorem Initial.asked (h₀ : Initial h) : h.Asked := by
  have hthreads : ∀ th, th ∉ h.threads := fun th hth => by
    rw [h₀.threads] at hth
    cases hth
  refine ⟨?_, fun th hth => absurd hth (hthreads th), fun q hmem => ?_, ?_,
    fun th hth => absurd hth (hthreads th), fun th hth => absurd hth (hthreads th)⟩
  · rw [h₀.db]
    exact List.nodup_nil
  · rw [h₀.answers] at hmem
    cases hmem
  · rw [h₀.answers]
    exact List.nodup_nil

/-- **An answer goes to the question it was read for.**  In a run whose steps are current, the
question a thread takes a suspended job for is the one that is stored, no question is answered
twice, and what a job is resumed with is the answer to a question that was taken so. -/
theorem answered_current
    (hr : ((lts owner).restrict fun h a => h.Current a = true).Reachable Initial h) :
    (∀ a q, h.Current a = true → h.takes a = some q →
      ∃ j, h.db.job q.id = some j ∧ Stored q j.status j.state j.callId) ∧
      (h.answers.map Question.key).Nodup ∧
        ∀ th ∈ h.threads, ∀ target messages, th.pc.resumes = some (target, messages) →
          ∃ c q, target.id = q.id ∧ messages = Pc.resumed c q ∧ q ∈ h.answers := by
  have ha : h.Asked := hr.invariant (fun _ h₀ => h₀.asked) fun _ _ _ ha hst =>
    ha.step hst.1 hst.2
  exact ⟨fun a q hc ht => (ha.stored hc ht).2, ha.once, ha.resumes⟩

/-- The question that the job of the first message asks. -/
def asked : Question := ⟨"t:1", ⟨[], none⟩, "ask", 1⟩

/-- A second message is read as its answer, and its thread is about to take the job. -/
def answeringActs : List Act :=
  askedActs ++ message "t:2" "yes" :: .poll 0 .recover :: served ++ [.run 1 .go]

/-- That state. -/
def answering : Host := answeringActs.foldl (act fun _ => "") new

theorem answered_current_sample : ∃ j, answering.db.job asked.id = some j ∧
    Stored asked j.status j.state j.callId := by
  have hr : ((lts fun _ => "").restrict fun h a => h.Current a = true).Reachable Initial answering :=
    ⟨new, answeringActs, new_initial, run_meets (by decide)⟩
  exact (answered_current hr).1 (.run 1 .go) asked (by decide) (by decide)

/-- Two messages are read as answers to the same question; the first one is taken, and the job asks
another question before the thread of the second one takes it. -/
def staleActs : List Act :=
  askedActs ++ message "t:2" "yes" :: .poll 0 .recover :: served ++
    message "t:3" "no" :: .poll 0 .recover :: .poll 0 (.inspect 1000) :: served ++
    [.run 1 .go, .run 1 .go, .run 1 .go, .run 1 .go] ++ asks 1 "again" ++ [.run 2 .go]

/-- That state. -/
def stale : Host := staleActs.foldl (act fun _ => "") new

/-- The answer to the first question is applied a second time, while the job waits for another. -/
theorem answered_stale : ∃ h j, (lts fun _ => "").Reachable Initial h ∧
    h.takes (.run 2 .go) = some asked ∧ asked.key ∈ h.answers.map Question.key ∧
      h.db.job asked.id = some j ∧ j.status = .suspended ∧ j.callId = some "again" ∧
        ¬ Stored asked j.status j.state j.callId := by
  obtain ⟨j, hj, hrow⟩ := Option.map_eq_some_iff.1 (show (stale.db.job "t:1").map
    (fun j => (j.status, j.callId)) = some (.suspended, some "again") by decide)
  obtain ⟨hstatus, hcall⟩ := Prod.mk.inj hrow
  refine ⟨stale, j, ⟨new, staleActs, new_initial, run_foldl _ _⟩, by decide,
    by decide, hj, hstatus, hcall, fun hs => ?_⟩
  rw [hcall] at hs
  exact absurd hs.2.2 (by decide)

end Host

end Worker

end Communication

end PythonAI
