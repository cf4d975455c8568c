import PythonAI.Memory.Episodes

/-!
# Reviews and the verdict of an episode

A review ends with a call of `finish_episode` with its default arguments.

* `Host.review_leaves` : **reviews leave the episodes as the turns set them** in the runs in which
  each review finds a verdict that it has read, and no summary;
* `Host.review_decides` : a run in which a review completes a suspended episode.
-/

namespace PythonAI

open Library

namespace Memory

namespace Host

variable {h h' : Host} {a : Act}

/-- A review that ends finds no summary, and a verdict: a negative one, which it has read, or a
success, and then it has read no negative one.  An erased episode stays as it is. -/
def Quiet (h : Host) : Act → Prop
  | .write c => ∀ episode status summary existing,
    h.calls c = some (.finishing .review episode status summary existing) →
      ∀ e ∈ h.db.episodes, e.id = episode → e.status ≠ .deleted → e.summary = none ∧
        (e.status = .verifiedCompleted ∧ (∀ read, existing = some read → read.negative = false) ∨
          e.status.negative ∧ existing = some e.status)
  | _ => True

/-- Reviews end with the default arguments. -/
def Defaults (h : Host) : Prop :=
  ∀ c episode status summary existing,
    h.calls c = some (.finishing .review episode status summary existing) →
      status = .verifiedCompleted ∧ summary = none

/-- What the end of a review leaves alone. -/
theorem resolve_same {e : Episode} {existing : Option Status} :
    (⟨e.id, MemoryStore.resolve .verifiedCompleted existing, none⟩ : Episode) = e ↔
      e.summary = none ∧
        (e.status = .verifiedCompleted ∧ (∀ read, existing = some read → read.negative = false) ∨
          e.status.negative ∧ existing = some e.status) := by
  obtain ⟨id, status, summary⟩ := e
  simp only [Episode.mk.injEq, true_and]
  rw [and_comm, eq_comm]
  refine and_congr_right fun _ => ?_
  cases existing with
  | none =>
    constructor
    · rintro rfl
      exact .inl ⟨rfl, nofun⟩
    · rintro (⟨rfl, -⟩ | ⟨-, hnone⟩)
      · rfl
      · cases hnone
  | some read =>
    by_cases hread : read.negative = true
    · have hne : read ≠ .verifiedCompleted := by
        rintro rfl
        cases hread
      simp only [MemoryStore.resolve, reduceCtorEq, if_false, true_and, if_pos hread,
        Option.some.injEq]
      constructor
      · rintro rfl
        exact .inr ⟨hread, rfl⟩
      · rintro (⟨-, hnone⟩ | ⟨-, rfl⟩)
        · rw [hnone read rfl] at hread
          cases hread
        · rfl
    · simp only [MemoryStore.resolve, reduceCtorEq, if_false, true_and, if_neg hread,
        Option.some.injEq]
      constructor
      · rintro rfl
        exact .inl ⟨rfl, fun _ hr => by rw [← hr]; simpa using hread⟩
      · rintro (⟨rfl, -⟩ | ⟨hneg, rfl⟩)
        · rfl
        · exact absurd hneg hread

/-- The end of a review leaves the episodes alone exactly in these states. -/
theorem quiet_iff (hd : h.Defaults) {c episode : ℕ} {status : Status} {summary : Option String}
    {existing : Option Status}
    (hc : h.calls c = some (.finishing .review episode status summary existing)) :
    MemoryStore.writeEpisode episode (MemoryStore.resolve status existing) summary
      h.db.episodes = h.db.episodes ↔ h.Quiet (.write c) := by
  obtain ⟨rfl, rfl⟩ := hd c episode status summary existing hc
  have hall : MemoryStore.writeEpisode episode
      (MemoryStore.resolve .verifiedCompleted existing) none h.db.episodes = h.db.episodes ↔
        ∀ e ∈ h.db.episodes, e.id = episode ∧ e.status ≠ .deleted →
          (⟨e.id, MemoryStore.resolve .verifiedCompleted existing, none⟩ : Episode) = e := by
    rw [MemoryStore.writeEpisode]
    conv_lhs => rw [← List.map_id h.db.episodes, List.map_map, List.map_eq_map_iff]
    refine forall₂_congr fun e he => ?_
    simp only [Function.comp_apply, id_eq]
    split_ifs with hw
    · simp [hw]
    · simp [hw]
  rw [hall]
  constructor
  · rintro hsame episode' status' summary' existing' hc' e he hid hlive
    rw [hc] at hc'
    cases hc'
    exact resolve_same.1 (hsame e he ⟨hid, hlive⟩)
  · intro hq e he hw
    exact resolve_same.2 (hq episode _ _ existing hc e he hw.1 hw.2)

theorem Defaults.step (hd : h.Defaults) (hst : lts.step h a h') : h'.Defaults := by
  intro c episode status summary existing hc
  generalize hy : Call.finishing .review episode status summary existing = y at hc
  cases goes hst hc with
  | stays _ hc => exact hd c episode status summary existing (hy ▸ hc)
  | reads writer episode status summary hdefault =>
    cases hy
    exact hdefault rfl
  | reviews | looks | records => cases hy
  | judges episode events candidate =>
    cases hj : judge (h.status episode) events candidate with
    | rejects | leaves | learns =>
      rw [hj] at hy
      cases hy

/-- The writes of the turns leave the same episodes. -/
theorem turned_step (hn : h.Numbered) (hd : h.Defaults) (ht : h.db.episodes = h.turned)
    (hst : lts.step h a h') (hq : h.Quiet a) : h'.db.episodes = h'.turned := by
  cases change hst with
  | same he ht' => rw [he, ht', ht]
  | started he ht' => rw [he, ht', ht]
  | written c writer episode status summary existing ha hc he ht' =>
    subst ha
    rw [he, ht']
    cases writer with
    | turn => rw [ht]; rfl
    | review => exact ((quiet_iff hd hc).2 hq).trans ht
  | finalized key episode reply state review row ha hrow hlive he ht' =>
    rw [he, ht', ← ht]
    refine List.map_congr_left fun e hmem => ?_
    split_ifs with hid
    · rw [← hid, hn.episode hmem] at hrow
      rw [Option.some.inj hrow]
    · rfl
  | erased episode ha he ht' => rw [he, ht', ht]

theorem Initial.defaults (hi : h.Initial) : h.Defaults := by
  intro c episode status summary existing hc
  rw [hi.calls] at hc
  cases hc

/-- **Reviews leave the episodes as the turns set them** in the runs in which each review that ends
finds no summary, and a verdict: a negative one that it has read, or a success after reading no
negative one.  In every other state the end of a review changes the episode. -/
theorem review_leaves (hr : (lts.restrict Quiet).Reachable Initial h) :
    h.db.episodes = h.turned ∧ ∀ c episode status summary existing h',
      h.calls c = some (.finishing .review episode status summary existing) →
        lts.step h (.write c) h' → (h'.db.episodes = h.db.episodes ↔ h.Quiet (.write c)) := by
  have hinv := hr.invariant (I := fun h => h.Numbered ∧ h.Defaults ∧ h.db.episodes = h.turned)
    (fun h hi => ⟨hi.numbered, hi.defaults, by rw [hi.db, hi.turned]⟩)
    fun _ _ _ hI hst => ⟨hI.1.step hst.1, hI.2.1.step hst.1,
      turned_step hI.1 hI.2.1 hI.2.2 hst.1 hst.2⟩
  refine ⟨hinv.2.2, fun c episode status summary existing h' hc hst => ?_⟩
  obtain ⟨_, _, _, _, _, hc', rfl⟩ := hst
  rw [hc] at hc'
  cases hc'
  exact quiet_iff hinv.2.1 hc

/-- A turn completes its episode, and the review leaves it. -/
theorem review_leaves_sample :
    (Sample.closes .review .verifiedCompleted
      (Sample.closes .turn .completed Sample.started)).db.episodes =
    (Sample.closes .review .verifiedCompleted
      (Sample.closes .turn .completed Sample.started)).turned := by
  set done : Host := Sample.closes .turn .completed Sample.started with hdone
  have hstarted : (lts.restrict Quiet).Reachable Initial Sample.started :=
    (Lts.Reachable.of_init Sample.empty_initial).step (l := .startEpisode) ⟨rfl, trivial⟩
  have hturn : (lts.restrict Quiet).Run Sample.started
      [.finish 0 .turn 1 .completed none, .write 0] done := by
    refine .cons ⟨⟨.inl rfl, nofun, rfl⟩, trivial⟩ (.single ⟨⟨.turn, 1, .completed, none,
      Sample.started.status 1, rfl, rfl⟩, fun _ _ _ _ hc => ?_⟩)
    simp [put] at hc
  have hreview : (lts.restrict Quiet).Run done
      [.finish 0 .review 1 .verifiedCompleted none, .write 0]
      (Sample.closes .review .verifiedCompleted done) := by
    refine .cons ⟨⟨.inl (rfl), fun _ => ⟨rfl, rfl⟩, rfl⟩, trivial⟩ (.single
      ⟨⟨.review, 1, .verifiedCompleted, none, done.status 1, by simp [put], rfl⟩, ?_⟩)
    intro episode status summary existing hc e he _ _
    obtain ⟨-, -, -, hread⟩ : 1 = episode ∧ Status.verifiedCompleted = status ∧
        none = summary ∧ done.status 1 = existing := by simpa [put] using hc
    obtain rfl : e = ⟨1, .verifiedCompleted, none⟩ := List.mem_singleton.1 he
    exact ⟨rfl, .inl ⟨rfl, fun read hr => by
      rw [← hread, show done.status 1 = some .verifiedCompleted by decide] at hr
      cases hr
      rfl⟩⟩
  exact (review_leaves ((hstarted.run hturn).run hreview)).1

/-- The turn is suspended, and the review completes its episode. -/
theorem review_decides : ∃ h, lts.Reachable Initial h ∧ h.db.episodes ≠ h.turned := by
  refine ⟨Sample.closes .review .verifiedCompleted (Sample.closes .turn .running Sample.started),
    (Sample.started_reachable.run (Sample.closes_run .turn .running rfl nofun)).run
      (Sample.closes_run .review .verifiedCompleted (by decide) fun _ => rfl), ?_⟩
  decide

end Host

end Memory

end PythonAI
