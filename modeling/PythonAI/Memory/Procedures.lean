import PythonAI.Memory.Episodes

/-!
# Procedures are learned by reviews

A review reads the status of its episode, then looks up the procedures, and then saves one.

* `Host.learned_verified` : **procedures are learned from verified episodes only** in the runs in
  which a review reads a verdict, and the verdict stays until the procedure is saved;
* `Host.learned_running` : a run in which a procedure is learned from a suspended turn.
-/

namespace PythonAI

open Library

namespace Memory

namespace Host

variable {h h' : Host} {a : Act}

/-- The thread `c` is about to save a procedure of the episode. -/
def Learns (h : Host) (c episode : ℕ) : Prop :=
  ∃ events procedure confidence, h.calls c = some (.learning episode events procedure confidence) ∨
    ∃ procedures, h.calls c = some (.matching episode events procedure confidence procedures)

/-- A review of an episode with tool calls reads a success or a negative verdict, and no other
status is stored while a procedure of the episode is about to be saved. -/
def Steady (h : Host) : Act → Prop
  | .judge c _ => ∀ episode events, h.calls c = some (.reviewing episode events) →
    procedureOf events ≠ none →
      ∃ status, h.status episode = some status ∧ (status = .verifiedCompleted ∨ status.negative)
  | .write c => ∀ writer episode status summary existing,
    h.calls c = some (.finishing writer episode status summary existing) →
      (∃ c', h.Learns c' episode) → MemoryStore.resolve status existing = .verifiedCompleted
  | .finalize _ episode _ state _ => (∃ c', h.Learns c' episode) → state ≠ "failed"
  | .erase episode => ¬ ∃ c', h.Learns c' episode
  | _ => True

/-- A procedure that is about to be saved comes from a verified episode. -/
def Verified (h : Host) : Prop :=
  ∀ c episode, h.Learns c episode → h.status episode = some .verifiedCompleted

theorem status_map {f : Episode → Episode} (hf : ∀ e, (f e).id = e.id)
    (he : h'.db.episodes = h.db.episodes.map f) (id : ℕ) :
    h'.status id = (h.db.episode id).map fun e => (f e).status := by
  rw [status, Db.episode, he, Records.find_map fun e _ => hf e, Option.map_map]
  rfl

/-- The success of an episode stays while a procedure of it is about to be saved. -/
theorem status_stays {c episode : ℕ} (hl : h.Learns c episode)
    (hv : h.status episode = some .verifiedCompleted) (hst : lts.step h a h') (hs : h.Steady a) :
    h'.status episode = some .verifiedCompleted := by
  obtain ⟨e, hrow, hver⟩ := Option.map_eq_some_iff.1 hv
  have hid : e.id = episode := Records.key_of_find hrow
  cases change hst with
  | same he ht => rwa [status, Db.episode, he]
  | started he ht =>
    rw [status, Db.episode, he]
    rw [Db.episode] at hrow
    rw [Records.find_append_of_some hrow, Option.map_some, hver]
  | written d writer episode' status summary existing ha hc he ht =>
    rw [status_map (fun e => by split_ifs <;> rfl) he, hrow, Option.map_some]
    split_ifs with hw
    · obtain ⟨rfl, -⟩ := hw
      subst ha hid
      exact congrArg some (hs writer e.id status summary existing hc ⟨c, hl⟩)
    · exact congrArg some hver
  | finalized key episode' reply state review row ha hrow' hlive he ht =>
    rw [status_map (fun e => by split_ifs <;> rfl) he, hrow, Option.map_some]
    split_ifs with hw
    · subst ha hid
      rw [← hw, hrow] at hrow'
      cases hrow'
      have hstate : state ≠ "failed" := hs ⟨c, hw ▸ hl⟩
      simp [MemoryStore.finalStatus, hver, hstate, Status.negative]
    · exact congrArg some hver
  | erased episode' ha he ht =>
    rw [status_map (fun e => by split_ifs <;> rfl) he, hrow, Option.map_some]
    split_ifs with hw
    · subst ha hid
      exact absurd ⟨c, hw ▸ hl⟩ hs
    · exact congrArg some hver

/-- A review that reads no negative verdict and finds a tool call goes on. -/
theorem judge_learns {status : Option Status} {events : List EpisodeEvent}
    {candidate : EpisodeEvent} {procedure : ProcedureCandidate} {confidence : ℚ}
    (hj : judge status events candidate = .learns procedure confidence) :
    procedureOf events ≠ none ∧ ∀ s, status = some s → s.negative = false := by
  unfold judge at hj
  split at hj
  · cases hj
  · rename_i hnone
    split at hj
    · cases hj
    · rename_i hproc
      refine ⟨by rw [hproc]; nofun, fun s hs => ?_⟩
      subst hs
      by_contra hneg
      have := Option.filter_eq_none_iff.1 hnone s rfl
      simp only [Bool.not_eq_false] at hneg
      exact this hneg

theorem Verified.step (hv : h.Verified) (hst : lts.step h a h') (hs : h.Steady a) :
    h'.Verified := by
  have hkept : ∀ c episode, h.Learns c episode → h'.status episode = some .verifiedCompleted :=
    fun c episode hl => status_stays hl (hv c episode hl) hst hs
  intro c episode ⟨events, procedure, confidence, hl⟩
  rcases hl with hc | ⟨procedures, hc⟩
  · generalize hy : Call.learning episode events procedure confidence = y at hc
    cases goes hst hc with
    | stays _ hc => exact hkept c episode ⟨events, procedure, confidence, .inl (hy ▸ hc)⟩
    | reads | reviews | looks | records => cases hy
    | judges episode' events' candidate ha hc' =>
      cases hj : judge (h.status episode') events' candidate with
      | rejects | leaves =>
        rw [hj] at hy
        cases hy
      | learns procedure' confidence' =>
        rw [hj] at hy
        cases hy
        subst ha
        obtain ⟨hproc, hneg⟩ := judge_learns hj
        obtain ⟨status, hstatus, hver | hver⟩ := hs episode events hc' hproc
        · have hsame : h'.status episode = h.status episode := by
            obtain ⟨_, _, -, -, -, rfl⟩ := hst
            rfl
          rw [hsame, hstatus, hver]
        · rw [hneg status hstatus] at hver
          cases hver
  · generalize hy : Call.matching episode events procedure confidence procedures = y at hc
    cases goes hst hc with
    | stays _ hc =>
      exact hkept c episode ⟨events, procedure, confidence, .inr ⟨procedures, hy ▸ hc⟩⟩
    | reads | reviews | records => cases hy
    | looks episode' events' procedure' confidence' procedures' hc' =>
      cases hy
      exact hkept c episode ⟨events, procedure, confidence, .inl hc'⟩
    | judges episode' events' candidate =>
      cases hj : judge (h.status episode') events' candidate with
      | rejects | leaves | learns =>
        rw [hj] at hy
        cases hy

/-- Procedures are written by `save`. -/
theorem procedures_step (hst : lts.step h a h') : h'.db.procedures = h.db.procedures ∨
    ∃ c matched t, a = .save c matched t := by
  cases a with
  | save c matched t => exact .inr ⟨c, matched, t, rfl⟩
  | startEpisode | erase =>
    obtain rfl := hst
    exact .inl rfl
  | addEvent episode type role content metadata =>
    obtain rfl := hst
    exact .inl (addEvent_episodes ..).2
  | finish c =>
    obtain ⟨-, -, rfl⟩ := hst
    exact .inl rfl
  | write c =>
    obtain ⟨_, _, _, _, _, -, rfl⟩ := hst
    exact .inl rfl
  | finalize key episode reply state review =>
    simp only [lts, Step] at hst
    split at hst
    · exact .inl (hst ▸ rfl)
    · rename_i hok
      subst hst
      rcases finalize_ok hok with ⟨rfl, -⟩ | ⟨row, -, -, -, -, rfl⟩ <;> exact .inl rfl
  | review c =>
    obtain ⟨-, rfl⟩ := hst
    exact .inl rfl
  | judge c =>
    obtain ⟨_, _, -, -, -, rfl⟩ := hst
    exact .inl rfl
  | lookup c =>
    obtain ⟨_, _, _, _, -, rfl⟩ := hst
    exact .inl rfl
  | record c =>
    obtain ⟨_, _, _, -, rfl⟩ := hst
    exact .inl (addEvent_episodes ..).2
  | stop c =>
    obtain rfl := hst
    exact .inl rfl

theorem Initial.verified (hi : h.Initial) : h.Verified := by
  rintro c episode ⟨_, _, _, hc | ⟨_, hc⟩⟩
  · rw [hi.calls] at hc
    cases hc
  · rw [hi.calls] at hc
    cases hc

/-- **Procedures are learned from verified episodes only** in the runs in which a review of an
episode with tool calls reads a success or a negative verdict, and no other status is stored while a
procedure of the episode is about to be saved: every step that adds or changes a procedure saves one
for an episode that is verified at that moment. -/
theorem learned_verified (hr : (lts.restrict Steady).Reachable Initial h)
    (hst : lts.step h a h') (hnew : h'.db.procedures ≠ h.db.procedures) :
    ∃ c matched t episode, a = .save c matched t ∧ h.Learns c episode ∧
      h.status episode = some .verifiedCompleted := by
  have hv : h.Verified := hr.invariant (fun _ hi => hi.verified)
    fun _ _ _ hv hst => hv.step hst.1 hst.2
  obtain ⟨c, matched, t, rfl⟩ := (procedures_step hst).resolve_left hnew
  obtain ⟨episode, events, procedure, confidence, procedures, hc, -⟩ := hst
  have hl : h.Learns c episode := ⟨events, procedure, confidence, .inr ⟨procedures, hc⟩⟩
  exact ⟨c, matched, t, episode, rfl, hl, hv c episode hl⟩

namespace Sample

/-- The event of a tool call. -/
def call : EpisodeEvent := ⟨1, 1, "tool_call", none, none, { name := some "grep" }⟩

/-- The event of a candidate. -/
def candidate : EpisodeEvent :=
  ⟨2, 1, "memory_review_candidate", none, none, { memoryKind := some "procedure" }⟩

/-- The procedure of the tool call. -/
def procedure : ProcedureCandidate := ⟨"grep", "grep", ["grep \x7b\x7d"]⟩

/-- The turn has recorded the tool call. -/
def called : Host := { started with db := { started.db with events := [call] } }

/-- The turn has recorded the candidate. -/
def offered : Host := { called with db := { called.db with events := [call, candidate] } }

/-- The turn has ended with the status. -/
def ended (status : Status) : Host := closes .turn status offered

/-- A review has read the events. -/
def reviewed (status : Status) : Host :=
  (ended status).put 0 (some (.reviewing 1 [call, candidate]))

/-- It has read the status. -/
def judges (status : Status) : Host :=
  (reviewed status).put 0 (some (.learning 1 [call, candidate] procedure (1 / 2)))

/-- It has found no procedure. -/
def looked (status : Status) : Host :=
  (judges status).put 0 (some (.matching 1 [call, candidate] procedure (1 / 2) []))

/-- The procedure is saved. -/
def saved (status : Status) : Host :=
  { looked status with db := (learn 1 procedure (1 / 2) none 0 (looked status).db).1 }.put 0
    (some (.recording 1 [call, candidate] (learn 1 procedure (1 / 2) none 0 (looked status).db).2))

/-- The status that a review reads is not negative. -/
theorem judge_sample {stored : Status} (hneg : stored.negative = false) :
    judge (some stored) [call, candidate] candidate = .learns procedure (1 / 2) := by
  rw [judge, show (some stored).filter Status.negative = none by simp [Option.filter, hneg]]
  rfl

theorem reviewed_step (status : Status) : lts.step (ended status) (.review 0 1)
    (reviewed status) :=
  ⟨by simp [ended, closes, put], rfl⟩

theorem judges_step {status stored : Status} (hs : (ended status).status 1 = some stored)
    (hneg : stored.negative = false) :
    lts.step (reviewed status) (.judge 0 candidate) (judges status) := by
  refine ⟨1, [call, candidate], by simp [reviewed, put], by decide, by decide, ?_⟩
  show _ = put _ 0 (some (judged 1 _ (judge ((ended status).status 1) _ candidate)))
  rw [hs, judge_sample hneg]
  rfl

theorem looked_step (status : Status) : lts.step (judges status) (.lookup 0) (looked status) :=
  ⟨1, [call, candidate], procedure, 1 / 2, by simp [judges, put], by
    rw [show MemoryStore.activeProcedures procedure.taskType (judges status).db = [] from
      List.mergeSort_nil]
    rfl⟩

theorem saved_step (status : Status) : lts.step (looked status) (.save 0 none 0) (saved status) :=
  ⟨1, [call, candidate], procedure, 1 / 2, [], by simp [looked, put], rfl⟩

theorem called_step : lts.step started
    (.addEvent 1 "tool_call" none none { name := some "grep" }) called := rfl

theorem offered_step : lts.step called
    (.addEvent 1 "memory_review_candidate" none none { memoryKind := some "procedure" })
      offered := rfl

theorem offered_reachable : lts.Reachable Initial offered :=
  (started_reachable.step called_step).step offered_step

end Sample

/-- A procedure is learned from a suspended turn, while its episode is running. -/
theorem learned_running : ∃ h c matched t h' episode, lts.Reachable Initial h ∧
    lts.step h (.save c matched t) h' ∧ h.Learns c episode ∧
      h'.db.procedures ≠ h.db.procedures ∧ h.status episode = some .running := by
  have hstatus : (Sample.ended .running).status 1 = some .running := by decide
  have hr := (Sample.offered_reachable.run (Sample.closes_run .turn .running rfl nofun)).step
    (Sample.reviewed_step .running)
  refine ⟨Sample.looked .running, 0, none, 0, Sample.saved .running, 1,
    (hr.step (Sample.judges_step hstatus rfl)).step (Sample.looked_step .running),
    Sample.saved_step .running, ?_, by decide, by decide⟩
  exact ⟨[Sample.call, Sample.candidate], Sample.procedure, 1 / 2, .inr ⟨[], by rfl⟩⟩

/-- A procedure is learned from a completed turn. -/
theorem learned_verified_sample :
    (Sample.looked .completed).status 1 = some .verifiedCompleted := by
  have hstatus : (Sample.ended .completed).status 1 = some .verifiedCompleted := by decide
  have hstarted : (lts.restrict Steady).Reachable Initial Sample.started :=
    (Lts.Reachable.of_init Sample.empty_initial).step (l := .startEpisode) ⟨rfl, trivial⟩
  have hoffered : (lts.restrict Steady).Run Sample.started
      [.addEvent 1 "tool_call" none none { name := some "grep" },
        .addEvent 1 "memory_review_candidate" none none { memoryKind := some "procedure" }]
      Sample.offered :=
    .cons ⟨Sample.called_step, trivial⟩ (.single ⟨Sample.offered_step, trivial⟩)
  have hended : (lts.restrict Steady).Run Sample.offered
      [.finish 0 .turn 1 .completed none, .write 0] (Sample.ended .completed) := by
    refine .cons ⟨⟨.inl rfl, nofun, rfl⟩, trivial⟩ (.single ⟨⟨.turn, 1, .completed, none,
      Sample.offered.status 1, by decide, rfl⟩, ?_⟩)
    intro writer episode status summary existing hc _
    obtain ⟨-, -, rfl, -, rfl⟩ : Writer.turn = writer ∧ 1 = episode ∧ Status.completed = status ∧
        none = summary ∧ Sample.offered.status 1 = existing := by simpa [put] using hc
    decide
  have hjudges : (lts.restrict Steady).step (Sample.reviewed .completed)
      (.judge 0 Sample.candidate) (Sample.judges .completed) := by
    refine ⟨Sample.judges_step hstatus rfl, fun episode events hc _ => ?_⟩
    obtain ⟨rfl, -⟩ : 1 = episode ∧ [Sample.call, Sample.candidate] = events := by
      simpa [Sample.reviewed, put] using hc
    exact ⟨.verifiedCompleted, hstatus, .inl rfl⟩
  have hjudged := ((((hstarted.run hoffered).run hended).step
    ⟨Sample.reviewed_step .completed, trivial⟩).step hjudges).step
      ⟨Sample.looked_step .completed, trivial⟩
  obtain ⟨c, matched, t, episode, ha, hl, hver⟩ :=
    learned_verified hjudged (Sample.saved_step .completed) (by decide)
  cases ha
  obtain ⟨events, procedure, confidence, hc | ⟨procedures, hc⟩⟩ := hl
  · simp [Sample.looked, put] at hc
  · obtain rfl : 1 = episode := by
      have := hc
      simp only [Sample.looked, put, Function.update_self, Option.some.injEq,
        Call.matching.injEq] at this
      exact this.1
    exact hver

end Host

end Memory

end PythonAI
