import PythonAI.Communication.Jobs
import PythonAI.Communication.Worker

/-!
# The steps of the processes and the calls

A step of a process does to the jobs and to the sessions what one call does, or nothing; so what
`Shift` says of the calls holds of the steps.  `Polled` lists the steps of a poller.
-/

namespace PythonAI

open Library

namespace Communication

theorem claimDelivery_frame {db : Db} (id : DeliveryKey) (t₁ t₂ : Time) :
    (claimDelivery id t₁ t₂ db).1.jobs = db.jobs ∧ (claimDelivery id t₁ t₂ db).1.states = db.states ∧
      (claimDelivery id t₁ t₂ db).1.heads = db.heads := by
  unfold claimDelivery
  split_ifs <;> exact ⟨rfl, rfl, rfl⟩

namespace Worker

namespace Host

variable {owner : Command → Owner} {h h' : Host} {a : Act} {id : CommandId} {j : Job}
  {e : Option Effect} {db : Db}

/-- What a step does to the jobs and the sessions: nothing, or what one call does. -/
theorem storeAfter_cases (db : Db) (e : Option Effect) :
    (∃ o, e = some (.store o) ∧ storeAfter db e = o.perform db) ∨
      (storeAfter db e).jobs = db.jobs ∧ (storeAfter db e).states = db.states ∧
        (storeAfter db e).heads = db.heads := by
  cases e with
  | none => exact .inr ⟨rfl, rfl, rfl⟩
  | some e =>
    cases e with
    | store o => exact .inl ⟨o, rfl, rfl⟩
    | task => exact .inr ⟨rfl, rfl, rfl⟩
    | claim id t₁ t₂ =>
      exact .inr (claimDelivery_frame id t₁ t₂)
    | finish id sent error => exact .inr ⟨rfl, rfl, rfl⟩

/-- What a step does to a job. -/
theorem storeAfter_shift (hj : db.job id = some j) :
    ∃ j', (storeAfter db e).job id = some j' ∧
      (j' = j ∨ ∃ o, e = some (.store o) ∧ Shift (db.lifecycle j.command) o j j') := by
  rcases storeAfter_cases db e with ⟨o, he, heq⟩ | ⟨hjobs, -, -⟩
  · obtain ⟨j', hj', hs⟩ := o.shift db id j hj
    exact ⟨j', by rw [heq, hj'], .inr ⟨o, he, hs⟩⟩
  · exact ⟨j, by rw [Db.job, hjobs]; exact hj, .inl rfl⟩

theorem storeAfter_advances (db : Db) (e : Option Effect) :
    Advances db.states (storeAfter db e).states := by
  rcases storeAfter_cases db e with ⟨o, -, heq⟩ | ⟨-, hstates, -⟩
  · rw [heq]
    exact o.advances db
  · rw [hstates]
    exact .refl _

theorem storeAfter_filed (hf : db.Filed) (e : Option Effect) :
    (storeAfter db e).Filed ∧
      ∀ id j, db.job id = none → (storeAfter db e).job id = some j → j.status = .pending := by
  rcases storeAfter_cases db e with ⟨o, -, heq⟩ | ⟨hjobs, hstates, hheads⟩
  · rw [heq]
    exact o.files hf
  · have hjob : ∀ id, (storeAfter db e).job id = db.job id := fun id => by rw [Db.job, hjobs]; rfl
    refine ⟨⟨fun id j hj => hf.session id j (hjob id ▸ hj), fun k s hs => hf.heads k s (hheads ▸ hs),
      fun id j hj => hstates ▸ hf.state id j (hjob id ▸ hj)⟩, fun id j hn hj => ?_⟩
    rw [hjob, hn] at hj
    cases hj

theorem storeAfter_distinct (hd : (db.jobs.map Job.id).Nodup) (e : Option Effect) :
    ((storeAfter db e).jobs.map Job.id).Nodup := by
  rcases storeAfter_cases db e with ⟨o, -, heq⟩ | ⟨hjobs, -, -⟩
  · rw [heq]
    exact o.distinct hd
  · rw [hjobs]
    exact hd

theorem step_db (hst : (lts owner).step h a h') :
    h'.db = storeAfter h.db (h.effect owner a) := by
  rw [hst]
  rfl

theorem filed_step (hf : h.db.Filed) (hst : (lts owner).step h a h') : h'.db.Filed := by
  rw [step_db hst]
  exact (storeAfter_filed hf _).1

theorem filed (hr : (lts owner).Reachable Initial h) : h.db.Filed := by
  refine hr.invariant (I := fun h => h.db.Filed) (fun h h₀ => ?_) fun h a h' hf hst =>
    filed_step hf hst
  rw [h₀.db]
  exact ⟨fun id j hj => (nomatch hj), fun k s hs => (nomatch hs), fun id j hj => (nomatch hj)⟩

variable (owner) in
/-- The steps `as`, taken from `h`, all meet the condition `C`. -/
def meets (C : Host → Act → Bool) : Host → List Act → Bool
  | _, [] => true
  | h, a :: as => C h a && (h.act owner a).meets C as

theorem run_meets {C : Host → Act → Bool} {as : List Act} {h : Host}
    (hC : h.meets owner C as = true) :
    ((lts owner).restrict fun h a => C h a = true).Run h as (as.foldl (act owner) h) := by
  induction as generalizing h with
  | nil => exact .nil h
  | cons a as ih =>
    rw [meets, Bool.and_eq_true] at hC
    exact .cons ⟨rfl, hC.1⟩ (ih hC.2)

theorem run_foldl (as : List Act) (h : Host) :
    (lts owner).Run h as (as.foldl (act owner) h) := by
  induction as generalizing h with
  | nil => exact .nil h
  | cons a as ih => exact .cons rfl (ih (h.act owner a))

/-- A thread after a step: it is as before, or it has moved, or it is new, or it has ended. -/
theorem threads_step (hst : (lts owner).step h a h') {k : ℕ} {th : Thread}
    (hk : h'.threads[k]? = some th) :
    (h.threads[k]? = some th ∧ ∀ x, a ≠ .run k x) ∨
      (∃ x th₀, a = .run k x ∧ h.threads[k]? = some th₀ ∧
        th = { th₀ with pc := th₀.pc.next h.db x }) ∨
      (∃ w x pc, a = .poll w x ∧ h.starts owner (h.pollers w) x = some pc ∧ th = ⟨w, pc⟩ ∧
        k = h.threads.length) ∨ ∃ w, a = .crash w ∧ th.pc = .done := by
  have hthreads : h'.threads = h.threadsAfter owner a := by
    rw [hst]
    rfl
  rw [hthreads] at hk
  cases a with
  | op | task | claim | finish => exact .inl ⟨hk, nofun⟩
  | crash w =>
    rw [threadsAfter, List.getElem?_map] at hk
    obtain ⟨th₀, hth₀, rfl⟩ := Option.map_eq_some_iff.1 hk
    by_cases hw : th₀.worker = w
    · rw [if_pos hw]
      exact .inr (.inr (.inr ⟨w, rfl, rfl⟩))
    · rw [if_neg hw]
      exact .inl ⟨hth₀, nofun⟩
  | run i x =>
    rw [threadsAfter, List.getElem?_modify] at hk
    obtain ⟨th₀, hth₀, rfl⟩ := Option.map_eq_some_iff.1 hk
    by_cases hi : i = k
    · subst hi
      rw [if_pos rfl]
      exact .inr (.inl ⟨x, th₀, rfl, hth₀, rfl⟩)
    · rw [if_neg hi]
      refine .inl ⟨hth₀, fun x' hx' => ?_⟩
      cases hx'
      exact hi rfl
  | poll w x =>
    rw [threadsAfter, List.getElem?_append] at hk
    split_ifs at hk with hlt
    · exact .inl ⟨hk, nofun⟩
    · cases hstart : h.starts owner (h.pollers w) x with
      | none =>
        rw [hstart] at hk
        cases hk
      | some pc =>
        rw [hstart, Option.map_some, Option.toList_some, List.getElem?_singleton] at hk
        split_ifs at hk with hzero
        obtain rfl := Option.some.inj hk
        exact .inr (.inr (.inl ⟨w, x, pc, rfl, hstart, rfl, by omega⟩))

/-! ### The poller -/

variable (owner) in
/-- `Polled owner h w p x p'` : the step `x` takes the poller `w` from `p` to `p'`. -/
inductive Polled (h : Host) (w : ℕ) : Poller → PollAct → Poller → Prop
  /-- it lists the jobs to recover -/
  | listed : Polled h w .idle .recover (.recovering (recoverableCommands h.db))
  /-- it reads a task -/
  | inspected (c : Command) (rest : List Command) (t : Time) :
      Polled h w (.recovering (c :: rest)) (.inspect t)
        (inspected c rest t (h.tasks.tasks (owner c, c.id)))
  /-- it cancels a job -/
  | cancelled (c : Command) (reply : String) (rest : List Command) (t : Time) :
      Polled h w (.ending c .cancelled reply rest) (.write t) (.completing c reply rest)
  /-- it reports the end of a job -/
  | ended (c : Command) (st : TaskState) (reply : String) (rest : List Command) (t : Time)
      (hs : st ≠ .cancelled) :
      Polled h w (.ending c st reply rest) (.write t) (.replying c reply (some rest))
  /-- it reports the end of the job it has cancelled -/
  | completed (c : Command) (reply : String) (rest : List Command) (t : Time) :
      Polled h w (.completing c reply rest) (.write t) (.replying c reply (some rest))
  /-- it marks a task -/
  | doubted (c : Command) (rest : List Command) (t : Time) :
      Polled h w (.doubting c rest) (.write t) (.requiring c rest)
  /-- it marks a job -/
  | required (c : Command) (rest : List Command) (t : Time) :
      Polled h w (.requiring c rest) (.write t) (.recovering rest)
  /-- it suspends a job -/
  | suspended (c : Command) (s : Saved) (call reply : String) (rest : List Command) (t : Time) :
      Polled h w (.suspending c s call reply rest) (.write t) (.replying c reply (some rest))
  /-- it returns a job to `pending` -/
  | reset (c : Command) (rest : List Command) (t : Time) :
      Polled h w (.resetting c rest) (.write t) (.recovering rest)
  /-- it has replied -/
  | replied (c : Command) (text : String) (rest : Option (List Command)) (r : Reply) :
      Polled h w (.replying c text rest) (.notify r) (proceed rest)
  /-- it lists a pending job -/
  | picked (c : Command) (limit : ℕ) (hc : h.nextPending w limit = some c) :
      Polled h w (.recovering []) (.pick limit) (.picked c)
  /-- it takes it -/
  | taken (c : Command) (hm : (markCommandRunning c.id h.db).2 = true) :
      Polled h w (.picked c) .take (.marked c)
  /-- it is a control command -/
  | ordered (c : Command) (resolved : Option CommandId) (result : String) (t : Time)
      (os : List Effect) (ho : orders owner c resolved result t = some os) :
      Polled h w (.marked c) (.dispatch resolved result t) (.ordered c os result)
  /-- an operation of a control command -/
  | performed (c : Command) (e : Effect) (os : List Effect) (reply : String) :
      Polled h w (.ordered c (e :: os) reply) .order (.ordered c os reply)
  /-- the control command is performed -/
  | finished (c : Command) (reply : String) :
      Polled h w (.ordered c [] reply) .order (.replying c reply none)
  /-- it leaves -/
  | left (p : Poller) (x : PollAct) : Polled h w p x .idle
  /-- nothing changes -/
  | stayed (p : Poller) (x : PollAct) : Polled h w p x p

theorem pollNext_polled (h : Host) (w : ℕ) (p : Poller) (x : PollAct) :
    Polled owner h w p x (h.pollNext owner w p x) := by
  unfold pollNext
  split
  · exact .listed
  · exact .inspected ..
  · split_ifs with hs
    · rw [hs]
      exact .cancelled ..
    · exact .ended _ _ _ _ _ hs
  · exact .completed ..
  · exact .doubted ..
  · exact .required ..
  · exact .suspended ..
  · exact .reset ..
  · split_ifs
    · split
      · exact .replied ..
      · exact .left ..
    · exact .replied ..
  · split
    · exact .picked _ _ ‹_›
    · exact .left ..
  · split_ifs with hm
    · exact .taken _ hm
    · exact .left ..
  · split
    · exact .ordered _ _ _ _ _ ‹_›
    · exact .left ..
  · exact .performed ..
  · exact .finished ..
  · exact .left ..
  · exact .stayed ..

/-- What a step does to a poller. -/
theorem pollers_step (hst : (lts owner).step h a h') (w : ℕ) :
    h'.pollers w = h.pollers w ∨ h'.pollers w = .idle ∨
      ∃ x, a = .poll w x ∧ Polled owner h w (h.pollers w) x (h'.pollers w) := by
  rw [hst]
  show h.pollersAfter owner a w = _ ∨ h.pollersAfter owner a w = _ ∨
    ∃ x, a = _ ∧ Polled owner h w _ x (h.pollersAfter owner a w)
  cases a with
  | poll w' x =>
    by_cases hw : w = w'
    · subst hw
      refine .inr (.inr ⟨x, rfl, ?_⟩)
      rw [pollersAfter, Function.update_self]
      exact pollNext_polled h w _ x
    · exact .inl (Function.update_of_ne hw ..)
  | crash w' =>
    by_cases hw : w = w'
    · subst hw
      exact .inr (.inl (Function.update_self ..))
    · exact .inl (Function.update_of_ne hw ..)
  | op | task | claim | finish | run => exact .inl rfl

theorem proceed_cases (rest : Option (List Command)) :
    proceed rest = .idle ∨ ∃ r, proceed rest = .recovering r := by
  cases rest with
  | none => exact .inl rfl
  | some r => exact .inr ⟨r, rfl⟩

end Host

/-- What `recover_tasks` makes of a task. -/
theorem inspected_cases (c : Command) (rest : List Command) (t : Time) (row : Option TaskRow) :
    inspected c rest t row = .recovering rest ∨ inspected c rest t row = .idle ∨
      ∃ r, row = some r ∧ r.leased t = false ∧
        ((r.state.terminal = true ∧
            ∃ reply, inspected c rest t row = .ending c r.state reply rest) ∨
          ((r.phase.started = true ∨ r.state = .uncertain) ∧
            inspected c rest t row = .doubting c rest) ∨
          (r.state.terminal = false ∧ r.phase.started = false ∧ r.state ≠ .uncertain ∧
            (inspected c rest t row = .resetting c rest ∨
              ∃ s call reply, inspected c rest t row = .suspending c s call reply rest))) := by
  cases row with
  | none => exact .inl rfl
  | some r =>
    unfold inspected
    simp only
    split_ifs with hl ht hp hs
    · exact .inl rfl
    · exact .inr (.inr ⟨r, rfl, by simpa using hl, .inl ⟨ht, _, rfl⟩⟩)
    · exact .inr (.inr ⟨r, rfl, by simpa using hl, .inr (.inl ⟨by simpa using hp, rfl⟩)⟩)
    · simp only [Bool.or_eq_true, decide_eq_true_eq, not_or] at hp
      split
      · exact .inr (.inr ⟨r, rfl, by simpa using hl, .inr (.inr ⟨by simpa using ht,
          by simpa using hp.1, hp.2, .inr ⟨_, _, _, rfl⟩⟩)⟩)
      · exact .inr (.inl rfl)
    · simp only [Bool.or_eq_true, decide_eq_true_eq, not_or] at hp
      exact .inr (.inr ⟨r, rfl, by simpa using hl, .inr (.inr ⟨by simpa using ht,
        by simpa using hp.1, hp.2, .inl rfl⟩)⟩)

end Worker

end Communication

end PythonAI
