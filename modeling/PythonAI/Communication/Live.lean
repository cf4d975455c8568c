import PythonAI.Communication.Outcomes

/-!
# One live thread for each job

One process, without crashes: its poller runs `recover_tasks` while its threads process jobs.  A job
that a thread processes is neither pending nor suspended, so nobody else can take it.

* `Worker.Host.Spares` : `recover_tasks` finds the task of a job that a thread processes leased,
  ended, in doubt or absent, and no thread takes a job that it is about to set back;
* `Worker.Host.one_live_thread` : **a job is processed by one thread, and never set back** in those runs;
* `Worker.Host.two_live_threads` : a run in which the thread that resumes a suspended job is still waiting
  for its session when recovery suspends the job again, and a second thread takes it.
-/

namespace PythonAI

open Library

namespace Communication

/-- A call that processes other than a worker make. -/
def Op.external : Op → Bool
  | ingest .. | enqueue .. | release .. | completeCommand .. | cancelCommand .. | cancelSession ..
  | clearSuspendedCommand .. | beginSessionDeletion .. | eraseSession .. | queueDelivery ..
  | cleanupExpired .. => true
  | setRecoveryState .. | markCommandRunning .. | failCommand .. | suspendCommand .. => false

/-- The job is there, and nobody can take it. -/
def Db.Taken (db : Db) (id : CommandId) : Prop :=
  ∃ j, db.job id = some j ∧ j.status ≠ .pending ∧ j.status ≠ .suspended

/-- A call leaves a job that is taken so, but a suspension or a return to `pending`. -/
theorem Shift.taken {l : Lifecycle} {o : Op} {j j' : Job} (h : Shift l o j j')
    (hp : j.status ≠ .pending) (hs : j.status ≠ .suspended) :
    (j'.status ≠ .pending ∧ j'.status ≠ .suspended) ∨ (∃ s k, o = .suspendCommand j.id s k) ∨
      ∃ s, o = .setRecoveryState j.id s ∧ (s = .pending ∨ s = .suspended) := by
  have hreport : ∀ s, s ≠ .pending → s ≠ .suspended →
      reported j.status s ≠ .pending ∧ reported j.status s ≠ .suspended := fun s h₁ h₂ => by
    unfold reported
    split_ifs
    · exact ⟨nofun, nofun⟩
    · exact ⟨h₁, h₂⟩
  cases h with
  | kept | released => exact .inl ⟨hp, hs⟩
  | recovered s ho =>
    by_cases hback : s = .pending ∨ s = .suspended
    · exact .inr (.inr ⟨s, ho, hback⟩)
    · rw [not_or] at hback
      exact .inl hback
  | marked => exact .inl ⟨nofun, nofun⟩
  | completed => exact .inl (hreport _ nofun nofun)
  | failed => exact .inl (hreport _ nofun nofun)
  | dropped => exact .inl ⟨nofun, nofun⟩
  | cancelled =>
    refine .inl ?_
    show (if j.status = .running then Status.cancelRequested else .cancelled) ≠ _ ∧ _ ≠ _
    split_ifs <;> exact ⟨nofun, nofun⟩
  | cleared =>
    refine .inl ?_
    show (if j.status = .running || j.status = .cancelRequested then Status.cancelRequested
      else .cancelled) ≠ _ ∧ _ ≠ _
    split_ifs <;> exact ⟨nofun, nofun⟩
  | suspended s k ho => exact .inr (.inl ⟨s, k, ho⟩)
  | forgotten => exact .inl ⟨nofun, nofun⟩
  | erased => exact .inl ⟨nofun, nofun⟩

namespace Worker

/-- The jobs that a thread processes, until it has reported their outcome. -/
def Pc.holds : Pc → List CommandId
  | started c _ | loaded c _ => [c.id]
  | taken c q | forwarded c q => [c.id, q.id]
  | running target _ | returned target _ | closing target | checking target _
  | reporting target _ | failing target _ false => [target.id]
  | receipting _ | replying .. | failing _ _ true | done => []

/-- The job that an operation suspends or returns to `pending`. -/
def setsBack : Option Effect → Option CommandId
  | some (.store (.suspendCommand id _ _)) => some id
  | some (.store (.setRecoveryState id s)) =>
    if s = .pending ∨ s = .suspended then some id else none
  | _ => none

/-- The job that the poller is about to suspend or to return to `pending`. -/
def Poller.target : Poller → Option CommandId
  | .suspending c _ _ _ _ | .resetting c _ => some c.id
  | _ => none

namespace Host

variable {owner : Command → Owner} {h h' : Host} {a : Act} {id : CommandId} {j : Job} {db : Db}
  {e : Option Effect} {pc : Pc} {x : ThreadAct} {i k : ℕ} {th : Thread} {c : Command}

/-- A thread processes the job `id`. -/
def held (h : Host) (id : CommandId) : Bool := h.threads.any fun th => id ∈ th.pc.holds

/-- One process, which does not crash; other processes make only the calls they can make. -/
def Single (a : Act) : Bool :=
  match a with
  | .op o => o.external
  | .poll w _ => w = 0
  | .crash _ => false
  | .task _ | .claim .. | .finish .. | .run .. => true

/-- The task of a job is absent, leased, ended or in doubt, or it is suspended without a call. -/
def attended (t : Time) : Option TaskRow → Bool
  | none => true
  | some row => row.leased t || row.state.terminal || row.phase.started || row.state = .uncertain ||
      (row.state = .suspended && row.checkpoint.suspendedToolCallId.isNone)

variable (owner) in
/-- When recovery reads the task of a job that a thread processes, that task is attended; and no
thread takes a job that recovery is about to set back. -/
def Spares (h : Host) : Act → Bool
  | .poll w (.inspect t) =>
    match h.pollers w with
    | .recovering (c :: _) => !h.held c.id || attended t (h.tasks.tasks (owner c, c.id))
    | _ => true
  | .run i .go =>
    match h.threads[i]? with
    | some ⟨_, .loaded _ q⟩ => (h.pollers 0).target ≠ some q.id
    | _ => true
  | _ => true

/-! ### Calls and taken jobs -/

/-- A step leaves a job that is taken so, unless it sets it back. -/
theorem taken_after (ht : db.Taken id) (hb : setsBack e ≠ some id) : (storeAfter db e).Taken id := by
  obtain ⟨j, hj, hp, hs⟩ := ht
  obtain ⟨j', hj', hshift⟩ := storeAfter_shift (e := e) hj
  rcases hshift with rfl | ⟨o, rfl, hshift⟩
  · exact ⟨j', hj', hp, hs⟩
  rcases hshift.taken hp hs with hkept | ⟨s, k, rfl⟩ | ⟨s, rfl, hback⟩
  · exact ⟨j', hj', hkept⟩
  · exact absurd (congrArg some (id_of_job hj)) hb
  · refine absurd ?_ hb
    rw [setsBack, if_pos hback, id_of_job hj]

/-- A call of another process sets no job back. -/
theorem setsBack_external {o : Op} (ho : o.external = true) : setsBack (some (.store o)) = none := by
  cases o <;> first | rfl | cases ho

/-- A job that is taken cannot be marked. -/
theorem not_markable (ht : db.Taken id) : (markCommandRunning id db).2 = false := by
  obtain ⟨j, hj, hp, hs⟩ := ht
  unfold markCommandRunning
  split_ifs
  · rfl
  · rw [hj]
    simp [markable, hp, hs]

/-- A job that was marked is taken. -/
theorem taken_of_mark (hm : (markCommandRunning id db).2 = true) :
    (markCommandRunning id db).1.Taken id := by
  unfold markCommandRunning at hm ⊢
  split_ifs at hm ⊢
  obtain ⟨j, hj, hmark⟩ := (Option.any_eq_true _ _).1 hm
  refine ⟨_, job_updateJobs (fun _ => rfl) hj, ?_⟩
  rw [if_pos hmark]
  exact ⟨nofun, nofun⟩

/-! ### Threads -/

/-- What a step of a thread does to the jobs it processes. -/
theorem next_holds (pc : Pc) (x : ThreadAct) (db : Db) :
    (pc.next db x).holds ⊆ pc.holds ∨
      ∃ c q, pc = .loaded c q ∧ x = .go ∧ (markCommandRunning q.id db).2 = true ∧
        pc.next db x = .taken c q := by
  have hself : ∀ ids : List CommandId, ids ⊆ ids := List.Subset.refl
  unfold Pc.next
  split
  case h_3 c q =>
    split_ifs with hm
    · exact .inr ⟨c, q, rfl, rfl, hm, rfl⟩
    · exact .inl (hself _)
  case h_5 c q =>
    refine .inl ?_
    split
    · next j hj =>
      -- the job that is read back is the one that was taken
      have hid : j.command.id = q.id := id_of_job hj
      simp [Pc.holds, hid]
    · simp [Pc.holds]
  case h_7 | h_10 => split_ifs <;> exact .inl (hself _)
  case h_8 => split_ifs <;> exact .inl (List.nil_subset _)
  case h_9 => split <;> exact .inl (List.nil_subset _)
  case h_13 target text isError r =>
    refine .inl ?_
    split_ifs <;> try exact List.nil_subset _
    all_goals split <;> exact List.nil_subset _
  all_goals first
    | exact .inl (hself _)
    | exact .inl (List.nil_subset _)
    | exact .inl (by simp [Pc.holds])

/-- A thread sets back only the job it processes, and then it no longer does. -/
theorem effect_setsBack (hb : setsBack (pc.effect db x) = some id) :
    id ∈ pc.holds ∧ (pc.next db x).holds = [] := by
  unfold Pc.effect at hb
  split at hb
  case h_6 target state call reply =>
    cases hb
    exact ⟨List.mem_singleton_self _, rfl⟩
  case h_7 => split_ifs at hb <;> cases hb
  all_goals cases hb

/-- A poller starts a thread for an ordinary command, and leaves. -/
theorem starts_eq {p : Poller} {x : PollAct} (hs : h.starts owner p x = some pc) :
    ∃ c, p = .marked c ∧ pc = .started c (h.question c) ∧ h.pollNext owner 0 p x = .idle := by
  unfold starts at hs
  split at hs
  · next c resolved result t =>
    split at hs
    · cases hs
    · next ho =>
      cases hs
      refine ⟨c, rfl, rfl, ?_⟩
      unfold pollNext
      simp only [ho]
  · cases hs

/-- The thread `k` processes the job `id`. -/
def Holds (h : Host) (k : ℕ) (id : CommandId) : Prop :=
  ∃ th, h.threads[k]? = some th ∧ id ∈ th.pc.holds

instance (h : Host) (k : ℕ) (id : CommandId) : Decidable (h.Holds k id) :=
  decidable_of_iff ((h.threads[k]?).any fun th => id ∈ th.pc.holds) <| by
    simp only [Option.any_eq_true, decide_eq_true_eq, Holds]

theorem held_iff : h.held id = true ↔ ∃ k, h.Holds k id := by
  simp only [held, List.any_eq_true, decide_eq_true_eq, Holds, List.mem_iff_getElem?]
  exact ⟨fun ⟨th, ⟨k, hk⟩, hid⟩ => ⟨k, th, hk, hid⟩, fun ⟨k, th, hk, hid⟩ => ⟨th, ⟨k, hk⟩, hid⟩⟩

theorem not_held (hn : h.held id = false) (k : ℕ) : ¬ h.Holds k id := fun hk => by
  rw [held_iff.2 ⟨k, hk⟩] at hn
  cases hn

/-- A thread that processes a job processed it before, has just taken it, or is new. -/
theorem held_before (hst : (lts owner).step h a h') (hs : Single a = true) (hk : h'.Holds k id) :
    h.Holds k id ∨
      (∃ w c q, a = .run k .go ∧ h.threads[k]? = some ⟨w, .loaded c q⟩ ∧ q.id = id ∧
        (markCommandRunning id h.db).2 = true) ∨
      ∃ x c, a = .poll 0 x ∧ k = h.threads.length ∧ h.pollers 0 = .marked c ∧ id = c.id ∧
        h'.pollers 0 = .idle := by
  obtain ⟨th, hk, hid⟩ := hk
  rcases threads_step hst hk with ⟨hth, -⟩ | ⟨x, th₀, rfl, hth₀, rfl⟩ |
    ⟨w, x, pc, rfl, hstart, rfl, rfl⟩ | ⟨w, rfl, -⟩
  · exact .inl ⟨th, hth, hid⟩
  · change id ∈ (th₀.pc.next h.db x).holds at hid
    rcases next_holds th₀.pc x h.db with hsub | ⟨c, q, hpc, rfl, hm, hnext⟩
    · exact .inl ⟨th₀, hth₀, hsub hid⟩
    · have hcases : id = c.id ∨ id = q.id := by
        rw [hnext] at hid
        simpa [Pc.holds] using hid
      rcases hcases with rfl | rfl
      · exact .inl ⟨th₀, hth₀, by rw [hpc]; exact List.mem_singleton_self _⟩
      · refine .inr (.inl ⟨th₀.worker, c, q, rfl, ?_, rfl, hm⟩)
        rw [hth₀, ← hpc]
  · obtain rfl : w = 0 := by simpa [Single] using hs
    obtain ⟨c, hp, rfl, hidle⟩ := starts_eq hstart
    refine .inr (.inr ⟨x, c, rfl, rfl, hp, by simpa [Pc.holds] using hid, ?_⟩)
    have hpollers : h'.pollers 0 = h.pollersAfter owner (.poll 0 x) 0 := by
      rw [hst]
      rfl
    rw [hpollers, pollersAfter, Function.update_self, hidle]
  · cases hs

/-- The job that recovery is about to set back is the one whose task it has read. -/
theorem inspected_target {rest : List Command} {t : Time} {row : Option TaskRow}
    (hp : (inspected c rest t row).target = some id) : id = c.id ∧ attended t row = false := by
  rcases inspected_cases c rest t row with heq | heq | ⟨r, rfl, hl, hcases⟩
  · rw [heq] at hp
    cases hp
  · rw [heq] at hp
    cases hp
  rcases hcases with ⟨-, reply, heq⟩ | ⟨-, heq⟩ | ⟨hterm, hphase, hun, heq⟩
  · rw [heq] at hp
    cases hp
  · rw [heq] at hp
    cases hp
  have hid : id = c.id := by
    rcases heq with heq | ⟨s, call, reply, heq⟩ <;> rw [heq] at hp <;> exact (Option.some.inj hp).symm
  refine ⟨hid, ?_⟩
  by_cases hcall : r.state = .suspended ∧ r.checkpoint.suspendedToolCallId = none
  · have hidle : inspected c rest t (some r) = .idle := by
      simp [inspected, hl, hphase, hcall.1, hcall.2, TaskState.terminal]
    rw [hidle] at hp
    cases hp
  · simpa [attended, hl, hterm, hphase, hun, Option.isSome_iff_ne_none] using hcall

/-- A control command sets nothing back. -/
theorem orders_setsBack {resolved : Option CommandId} {result : String} {t : Time}
    {os : List Effect} (ho : orders owner c resolved result t = some os) {e : Effect} (he : e ∈ os) :
    setsBack (some e) = none := by
  unfold orders at ho
  simp only at ho
  split_ifs at ho <;> cases ho
  · rw [List.mem_singleton.1 he]
    rfl
  · rw [List.mem_singleton.1 he]
    rfl
  · simp only [List.mem_cons, List.not_mem_nil, or_false] at he
    rcases he with rfl | rfl | rfl | rfl <;> rfl
  · rcases List.mem_append.1 he with he | he
    · obtain ⟨cid, -, rfl⟩ := Option.map_eq_some_iff.1 (Option.mem_toList.1 he)
      rfl
    · rw [List.mem_singleton.1 he]
      rfl

/-- A poller sets back the job that it is about to set back, and no other. -/
theorem pollEffect_setsBack {p : Poller} {x : PollAct}
    (horders : ∀ c os reply, p = .ordered c os reply → ∀ e ∈ os, setsBack (some e) = none)
    (hb : setsBack (h.pollEffect owner p x) = some id) : p.target = some id := by
  unfold pollEffect at hb
  split at hb
  · split at hb <;> cases hb
  · cases hb
  · cases hb
  · cases hb
  · exact hb
  · exact hb
  · split_ifs at hb <;> cases hb
  · cases hb
  · next c e os reply =>
    rw [horders c (e :: os) reply rfl e List.mem_cons_self] at hb
    cases hb
  · cases hb

/-! ### The invariant -/

/-- What holds in the runs in which recovery spares the threads. -/
structure Live (h : Host) : Prop where
  /-- nobody can take a job that a thread processes -/
  taken : ∀ k id, h.Holds k id → h.db.Taken id
  /-- and no other thread processes it -/
  alone : ∀ i k id, h.Holds i id → h.Holds k id → i = k
  /-- the poller has taken the job that it starts a thread for -/
  marked : ∀ c, h.pollers 0 = .marked c → h.db.Taken c.id ∧ h.held c.id = false
  /-- recovery sets back no job that a thread processes -/
  spared : ∀ id, (h.pollers 0).target = some id → h.held id = false
  /-- a control command sets nothing back -/
  orders : ∀ c os reply, h.pollers 0 = .ordered c os reply → ∀ e ∈ os, setsBack (some e) = none

variable {t : Time} {rest : List Command}

/-- A step sets back the job that recovery is about to set back, or a thread sets back the job that
it has processed. -/
theorem back_cases (hl : h.Live) (hst : (lts owner).step h a h') (hs : Single a = true)
    (hb : setsBack (h.effect owner a) = some id) :
    (h.pollers 0).target = some id ∨ ∃ k x, a = .run k x ∧ h.Holds k id ∧ ¬ h'.Holds k id := by
  cases a with
  | op o => rw [effect, setsBack_external hs] at hb; cases hb
  | task | claim | finish => cases hb
  | crash => cases hs
  | poll w x =>
    obtain rfl : w = 0 := by simpa [Single] using hs
    exact .inl (pollEffect_setsBack hl.orders hb)
  | run k x =>
    rw [effect] at hb
    cases hth : h.threads[k]? with
    | none =>
      rw [hth] at hb
      cases hb
    | some th =>
      rw [hth] at hb
      obtain ⟨hid, hnext⟩ := effect_setsBack hb
      refine .inr ⟨k, x, rfl, ⟨th, hth, hid⟩, fun ⟨th', hth', hid'⟩ => ?_⟩
      have hthreads : h'.threads = h.threadsAfter owner (.run k x) := by
        rw [hst]
        rfl
      rw [hthreads, threadsAfter, List.getElem?_modify, hth] at hth'
      obtain ⟨th₀, hth₀, rfl⟩ := Option.map_eq_some_iff.1 hth'
      cases hth₀
      rw [if_pos rfl] at hid'
      change id ∈ (th.pc.next h.db x).holds at hid'
      rw [hnext] at hid'
      cases hid'

/-- A job that is taken, and that neither recovery nor its thread sets back, stays so. -/
theorem Live.kept (hl : h.Live) (hst : (lts owner).step h a h') (hs : Single a = true)
    (ht : h.db.Taken id) (htarget : (h.pollers 0).target ≠ some id)
    (hback : ∀ k, h.Holds k id → h'.Holds k id) : h'.db.Taken id := by
  rw [step_db hst]
  refine taken_after ht fun hb => ?_
  rcases back_cases hl hst hs hb with htarget' | ⟨k, x, -, hk, hk'⟩
  · exact htarget htarget'
  · exact hk' (hback k hk)

/-- The thread that a step gives a job to process. -/
def newcomer (h : Host) : Act → ℕ
  | .run k _ => k
  | _ => h.threads.length

/-- A thread that processes a job processed it before, or it is the one that the step gives the job
to, and no thread processed it. -/
theorem Live.holds_before (hl : h.Live) (hst : (lts owner).step h a h') (hs : Single a = true)
    (hk : h'.Holds k id) :
    h.Holds k id ∨ (∀ i, ¬ h.Holds i id) ∧ k = h.newcomer a := by
  rcases held_before hst hs hk with hk | ⟨w, c, q, rfl, -, -, hm⟩ | ⟨x, c, rfl, rfl, hp, rfl, -⟩
  · exact .inl hk
  · refine .inr ⟨fun i hi => ?_, rfl⟩
    rw [not_markable (hl.taken i id hi)] at hm
    cases hm
  · exact .inr ⟨not_held (hl.marked c hp).2, rfl⟩

/-- A command that the poller has taken stays taken, until it starts a thread for it. -/
theorem Live.marked_stays (hl : h.Live) (hst : (lts owner).step h a h') (hs : Single a = true)
    (hp : h.pollers 0 = .marked c) (hp' : h'.pollers 0 = .marked c) :
    h'.db.Taken c.id ∧ h'.held c.id = false := by
  obtain ⟨htaken, hheld⟩ := hl.marked c hp
  refine ⟨hl.kept hst hs htaken (fun htarget => ?_) fun i hi => absurd hi (not_held hheld i),
    Bool.eq_false_iff.2 fun hheld' => ?_⟩
  · rw [hp] at htarget
    cases htarget
  obtain ⟨k, hk⟩ := held_iff.1 hheld'
  rcases held_before hst hs hk with hk₀ | ⟨w, c', q, -, -, hid, hm⟩ | ⟨x, c', -, -, -, -, hidle⟩
  · exact not_held hheld k hk₀
  · rw [not_markable htaken] at hm
    cases hm
  · rw [hp'] at hidle
    cases hidle

theorem Live.step_taken (hl : h.Live) (hst : (lts owner).step h a h') (hs : Single a = true)
    (hk : h'.Holds k id) : h'.db.Taken id := by
  rcases held_before hst hs hk with hk₀ | ⟨w, c, q, rfl, hth, rfl, hm⟩ | ⟨x, c, rfl, -, hp, rfl, -⟩
  · refine hl.kept hst hs (hl.taken k id hk₀) (fun htarget => ?_) fun i hi => ?_
    · exact not_held (hl.spared id htarget) k hk₀
    · rwa [hl.alone i k id hi hk₀]
  · have hdb : h'.db = (markCommandRunning q.id h.db).1 := by
      rw [step_db hst, effect, hth]
      rfl
    rw [hdb]
    exact taken_of_mark hm
  · refine hl.kept hst hs (hl.marked c hp).1 (fun htarget => ?_) fun i hi => ?_
    · rw [hp] at htarget
      cases htarget
    · exact absurd hi (not_held (hl.marked c hp).2 i)

theorem Live.step_alone (hl : h.Live) (hst : (lts owner).step h a h') (hs : Single a = true)
    (hi : h'.Holds i id) (hk : h'.Holds k id) : i = k := by
  rcases hl.holds_before hst hs hi with hi₀ | ⟨hnone, rfl⟩
  · rcases hl.holds_before hst hs hk with hk₀ | ⟨hnone, -⟩
    · exact hl.alone i k id hi₀ hk₀
    · exact absurd hi₀ (hnone i)
  · rcases hl.holds_before hst hs hk with hk₀ | ⟨-, rfl⟩
    · exact absurd hk₀ (hnone k)
    · rfl

/-- The poller holds a command that it has just taken, or held it before. -/
theorem Polled.of_marked {p : Poller} {x : PollAct} (hp : Polled owner h 0 p x (.marked c)) :
    p = .marked c ∨ p = .picked c ∧ x = .take ∧ (markCommandRunning c.id h.db).2 = true := by
  generalize hq : Poller.marked c = q at hp
  cases hp with
  | inspected c' rest' t =>
    rcases inspected_cases c' rest' t (h.tasks.tasks (owner c', c'.id)) with heq | heq |
      ⟨row, -, -, ⟨-, reply, heq⟩ | ⟨-, heq⟩ | ⟨-, -, -, heq | ⟨s, call, reply, heq⟩⟩⟩ <;>
      rw [heq] at hq <;> cases hq
  | replied _ _ rest' =>
    rcases proceed_cases rest' with heq | ⟨r, heq⟩ <;> rw [heq] at hq <;> cases hq
  | taken c' hm =>
    cases hq
    exact .inr ⟨rfl, rfl, hm⟩
  | stayed => exact .inl rfl
  | _ => cases hq

/-- The poller is to set a job back, for it has just read its task, or was to before. -/
theorem Polled.of_target {p p' : Poller} {x : PollAct} (hp : Polled owner h 0 p x p')
    (ht : p'.target = some id) : p.target = some id ∨ ∃ c rest t, p = .recovering (c :: rest) ∧
      x = .inspect t ∧ id = c.id ∧ attended t (h.tasks.tasks (owner c, c.id)) = false := by
  cases hp with
  | inspected c rest t =>
    exact .inr ⟨c, rest, t, rfl, rfl, inspected_target ht⟩
  | replied _ _ rest' =>
    rcases proceed_cases rest' with heq | ⟨r, heq⟩ <;> rw [heq] at ht <;> cases ht
  | stayed => exact .inl ht
  | _ => cases ht

/-- The poller performs a control command it has begun, or has dispatched. -/
theorem Polled.of_ordered {p : Poller} {x : PollAct} {os : List Effect} {reply : String}
    (hp : Polled owner h 0 p x (.ordered c os reply)) :
    (∃ os', p = .ordered c os' reply ∧ os ⊆ os') ∨
      ∃ resolved t, orders owner c resolved reply t = some os := by
  generalize hq : Poller.ordered c os reply = q at hp
  cases hp with
  | inspected c' rest' t =>
    rcases inspected_cases c' rest' t (h.tasks.tasks (owner c', c'.id)) with heq | heq |
      ⟨row, -, -, ⟨-, reply, heq⟩ | ⟨-, heq⟩ | ⟨-, -, -, heq | ⟨s, call, reply, heq⟩⟩⟩ <;>
      rw [heq] at hq <;> cases hq
  | replied _ _ rest' =>
    rcases proceed_cases rest' with heq | ⟨r, heq⟩ <;> rw [heq] at hq <;> cases hq
  | ordered c' resolved result t os' ho =>
    cases hq
    exact .inr ⟨resolved, t, ho⟩
  | performed c' e os' reply' =>
    cases hq
    exact .inl ⟨e :: os, rfl, List.subset_cons_self ..⟩
  | stayed =>
    subst hq
    exact .inl ⟨os, rfl, List.Subset.refl _⟩
  | _ => cases hq

theorem Live.step_marked (hl : h.Live) (hst : (lts owner).step h a h') (hs : Single a = true)
    (hp' : h'.pollers 0 = .marked c) : h'.db.Taken c.id ∧ h'.held c.id = false := by
  rcases pollers_step hst 0 with heq | heq | ⟨x, rfl, hpolled⟩
  · exact hl.marked_stays hst hs (heq ▸ hp') hp'
  · rw [hp'] at heq
    cases heq
  rw [hp'] at hpolled
  rcases hpolled.of_marked with hp | ⟨hp, rfl, hm⟩
  · exact hl.marked_stays hst hs hp hp'
  · have hdb : h'.db = (markCommandRunning c.id h.db).1 := by
      rw [step_db hst, effect, hp]
      rfl
    refine ⟨hdb ▸ taken_of_mark hm, Bool.eq_false_iff.2 fun hheld => ?_⟩
    obtain ⟨k, hk⟩ := held_iff.1 hheld
    rcases held_before hst hs hk with hk₀ | ⟨w, c', q, ha, -⟩ | ⟨x, c', -, -, hp₀, -⟩
    · rw [not_markable (hl.taken k _ hk₀)] at hm
      cases hm
    · cases ha
    · rw [hp] at hp₀
      cases hp₀

theorem Live.step_spared (hl : h.Live) (hst : (lts owner).step h a h') (hs : Single a = true)
    (hc : h.Spares owner a = true) (ht : (h'.pollers 0).target = some id) : h'.held id = false := by
  refine Bool.eq_false_iff.2 fun hheld => ?_
  obtain ⟨k, hk⟩ := held_iff.1 hheld
  -- a thread that processes the job now processed it before, for nobody takes it
  have hbefore : h.Holds k id := by
    rcases held_before hst hs hk with hk₀ | ⟨w, c, q, rfl, hth, rfl, -⟩ | ⟨x, c, -, -, -, -, hidle⟩
    · exact hk₀
    · have hpoller : h'.pollers 0 = h.pollers 0 := by
        rw [hst]
        rfl
      rw [hpoller] at ht
      rw [Spares, hth] at hc
      exact absurd ht (by simpa using hc)
    · rw [hidle] at ht
      cases ht
  have hnot : (h.pollers 0).target ≠ some id := fun ht₀ => not_held (hl.spared id ht₀) k hbefore
  rcases pollers_step hst 0 with heq | heq | ⟨x, rfl, hpolled⟩
  · exact hnot (heq ▸ ht)
  · rw [heq] at ht
    cases ht
  · rcases hpolled.of_target ht with ht₀ | ⟨c, rest, t, hp, rfl, rfl, hatt⟩
    · exact hnot ht₀
    · rw [Spares, hp] at hc
      simp only [hatt, Bool.or_false, Bool.not_eq_true'] at hc
      exact not_held hc k hbefore

theorem Live.step (hl : h.Live) (hst : (lts owner).step h a h') (hs : Single a = true)
    (hc : h.Spares owner a = true) : h'.Live := by
  refine ⟨fun k id hk => hl.step_taken hst hs hk, fun i k id hi hk => hl.step_alone hst hs hi hk,
    fun c hp => hl.step_marked hst hs hp, fun id ht => hl.step_spared hst hs hc ht,
    fun c os reply hp e he => ?_⟩
  rcases pollers_step hst 0 with heq | heq | ⟨x, rfl, hpolled⟩
  · exact hl.orders c os reply (heq ▸ hp) e he
  · rw [hp] at heq
    cases heq
  · rw [hp] at hpolled
    rcases hpolled.of_ordered with ⟨os', hp₀, hsub⟩ | ⟨resolved, t, ho⟩
    · exact hl.orders c os' reply hp₀ e (hsub he)
    · exact orders_setsBack ho he

theorem Initial.live (h₀ : Initial h) : h.Live := by
  have hnone : ∀ k id, ¬ h.Holds k id := fun k id ⟨th, hth, _⟩ => by
    rw [h₀.threads] at hth
    cases hth
  refine ⟨fun k id hk => absurd hk (hnone k id), fun i k id hi => absurd hi (hnone i id),
    fun c hp => ?_, fun id ht => ?_, fun c os reply hp => ?_⟩
  · rw [h₀.pollers] at hp
    cases hp
  · rw [h₀.pollers] at ht
    cases ht
  · rw [h₀.pollers] at hp
    cases hp

/-- **One live thread for each job.**  One process, without crashes, in which recovery spares the
threads: the poller sets no job back that a thread processes, such a job is neither pending nor
suspended, so that it cannot be taken, and no second thread processes it. -/
theorem one_live_thread (hr : ((lts owner).restrict fun h a => (Single a && h.Spares owner a) = true).Reachable
    Initial h) :
    (∀ id, h.held id = true →
      (∀ x, setsBack (h.effect owner (.poll 0 x)) ≠ some id) ∧ h.db.Taken id ∧
        (markCommandRunning id h.db).2 = false) ∧
      ∀ i k id, h.Holds i id → h.Holds k id → i = k := by
  have hl : h.Live := by
    refine hr.invariant (fun _ h₀ => h₀.live) fun h a h' hl hst => ?_
    obtain ⟨hs, hc⟩ := Bool.and_eq_true_iff.1 hst.2
    exact hl.step hst.1 hs hc
  refine ⟨fun id hid => ⟨fun x hb => ?_, ?_⟩, hl.alone⟩
  · have htarget := pollEffect_setsBack hl.orders hb
    rw [hl.spared id htarget] at hid
    cases hid
  · obtain ⟨k, hk⟩ := held_iff.1 hid
    exact ⟨hl.taken k id hk, not_markable (hl.taken k id hk)⟩

/-! ### Runs -/

/-- A message of a conversation arrives. -/
def message (id : CommandId) (text : String) : Act :=
  .op (.ingest { command := ⟨id, "t", "chat", "ann", text, "default", "", none⟩ } none "")

/-- The poller takes a message, and starts a thread for it. -/
def served : List Act := [.poll 0 (.pick 4), .poll 0 .take, .poll 0 (.dispatch none "" 0)]

/-- A thread asks the human `call`, and ends. -/
def asks (i : ℕ) (call : String) : List Act :=
  [.run i (.turn (.suspended ⟨[], none⟩ call "Which?")), .run i .go, .run i .go, .run i .go,
    .run i (.notify {})]

/-- A message is processed, up to a question to the human. -/
def askedActs : List Act :=
  message "t:1" "hi" :: .poll 0 .recover :: served ++
    [.run 0 .go, .task (.claim {} "" "t:1" "hi" [] none none 0 0),
      .task (.checkpoint {} "" "t:1" 6 .waitingUser
        { messages := [], suspendedToolCallId := some "ask" } none 1),
      .task (.finish {} "" "t:1" 6 .suspended (some "Which?") 2)] ++ asks 0 "ask"

/-- The next message answers it: a thread takes the suspended job, and waits for its session. -/
def resumedActs : List Act :=
  askedActs ++ message "t:2" "yes" :: .poll 0 .recover :: served ++
    [.run 1 .go, .run 1 .go, .run 1 .go, .run 1 .go]

/-- The state in which it waits. -/
def resumed : Host := resumedActs.foldl (act fun _ => "") new

theorem one_live_thread_sample : (∀ x, setsBack (resumed.effect (fun _ => "") (.poll 0 x)) ≠ some "t:1") ∧
    resumed.db.Taken "t:1" ∧ (markCommandRunning "t:1" resumed.db).2 = false := by
  have hr : ((lts fun _ => "").restrict fun h a =>
      (Single a && h.Spares (fun _ => "") a) = true).Reachable Initial resumed :=
    ⟨new, resumedActs, new_initial, run_meets (by decide)⟩
  exact (one_live_thread hr).1 "t:1" (by decide)

/-- Recovery finds the task suspended, without a lease, and suspends the job again. -/
def suspendedActs : List Act :=
  resumedActs ++ [.poll 0 .recover, .poll 0 (.inspect 1000)]

/-- The state in which it is about to. -/
def setBack : Host := suspendedActs.foldl (act fun _ => "") new

/-- A third message is taken as the answer to the question that is being answered. -/
def twiceActs : List Act :=
  suspendedActs ++ .poll 0 (.write 1000) :: .poll 0 (.notify {}) :: message "t:3" "no" :: served ++
    [.run 2 .go, .run 2 .go]

/-- The state in which two threads process the job. -/
def twice : Host := twiceActs.foldl (act fun _ => "") new

/-- Recovery suspends a job that a thread processes, and then a second thread processes it. -/
theorem two_live_threads :
    (∃ h, ((lts fun _ => "").restrict fun _ a => Single a = true).Reachable Initial h ∧
      h.held "t:1" = true ∧ ∃ h', (lts fun _ => "").step h (.poll 0 (.write 1000)) h' ∧
        h'.held "t:1" = true ∧ (h'.db.job "t:1").map Job.status = some .suspended) ∧
    ∃ h, ((lts fun _ => "").restrict fun _ a => Single a = true).Reachable Initial h ∧
      h.Holds 1 "t:1" ∧ h.Holds 2 "t:1" := by
  refine ⟨⟨setBack, ⟨new, suspendedActs, new_initial, run_meets (by decide)⟩,
    by decide, _, rfl, by decide, by decide⟩,
    twice, ⟨new, twiceActs, new_initial, run_meets (by decide)⟩, by decide,
    by decide⟩

end Host

end Worker

end Communication

end PythonAI
