import PythonAI.Scheduling.Held

/-!
# A watch that stops tells its owner

`claim_due` and `complete` disable a watch when its run was lost too often, when a limit is reached
and when an observation ends it.  `complete` tells the owner unless the digest of the observation is
the last one; an enabled watch has no final last digest (`Host.Awake`), so that it does tell.

Three transactions break this (`Act.Mutes`), each with a run that ends in silence: `claim_due` stops
a watch whose due slot is reserved already, `apply` enables a watch again that its last observation
has stopped, and a late `finish` leaves its digest with a watch that is enabled on SQLite.
-/

namespace PythonAI

open Library

namespace Scheduling

/-- The states in `{'needs_input','uncertain','cancelled'}`, which stop a job. -/
def Outcome.final : Outcome → Bool
  | needsInput | uncertain | cancelled => true
  | _ => false

/-- `claim_due` gets as far as the due slot of a migrated watch, and finds it reserved. -/
def Call.Refuses (db : Db) : Call → Prop
  | claimDue key seen t₁ t₂ _ => ∃ row saved, db.jobs key = some row ∧ row.jobType = .watch ∧
      (Store.due t₁ row = true ∧ row.nextRunAt = seen ∧ db.unlocked key t₂ = true) ∧
      (db.running key = true → row.exhausted = false) ∧ db.runs.length < 10000 ∧
      db.migrations key = some saved ∧ (saved.state = .sqlite ∨ saved.state = .staged) ∧
      db.fences.length < 100000 ∧ db.fenced key seen = true
  | _ => False

/-- `claim_due`, and a `complete` whose observation does not complete the job. -/
def Call.mustTell : Call → Bool
  | claimDue .. => true
  | complete _ state .. => state ≠ .completed
  | _ => false

/-- The transaction lets a watch stop in silence, now or later. -/
def Act.Mutes (zs : Zones) (db : Db) : Act → Prop
  | call c => c.Refuses db
  | sqlite env key t => ∃ row saved db', db.jobs key = some row ∧ row.jobType = .watch ∧
      db.migrations key = some saved ∧ Migration.sqlite zs env key t db = .ok (db', ()) ∧
      (saved.restoreEnabled = true ∧ row.runCount < saved.snapshot.maxRuns) ∧
      ∃ d, row.lastDigest = some d ∧ d.state.final = true
  | finish r => ∃ row b, db.jobs r.key = some row ∧ row.jobType = .watch ∧ row.enabled = true ∧
      db.bindings r.key = some b ∧ b.cancelled = false ∧
      (∃ o ∈ db.occurrences, o.workflow = r.workflow ∧ o.state.active = true) ∧
      (Native.counted row r).1.final = true
  | _ => False

/-- No enabled watch was stopped by its last observation. -/
def Host.Awake (h : Host) : Prop :=
  ∀ k job, h.db.jobs k = some job → job.jobType = .watch → job.enabled = true →
    ∀ d, job.lastDigest = some d → d.state.final = false

variable {zs : Zones} {fm : Formats} {h h' : Host} {a : Act} {k : JobId} {t t' : Time}

namespace Store

variable {row : Job} {state : Outcome} {error text : String} {v : Verdict}

theorem disabled_of_final (hv : v.state.final = true) : disabled row v = true := by
  unfold disabled
  cases hs : v.state <;> simp [hs, Outcome.final] at hv ⊢

/-- An observation that stops a watch is final, if it does not complete it. -/
theorem final_of_disabled (hw : row.jobType = .watch) (hstate : state ≠ .completed)
    (herase : state ≠ .erasing) (hd : disabled row (verdict row state error) = true) :
    (verdict row state error).state.final = true := by
  unfold disabled verdict at hd
  unfold verdict
  by_cases hl : row.maxRuns ≤ row.runCount + 1 <;> by_cases hr : row.retryCount < 2 <;>
    cases state <;> simp [hw, hl, hr, Outcome.final] at hd hstate herase ⊢

/-- It differs from the last one, if that was not final. -/
theorem meaningful_of_final (hv : v.state.final = true)
    (hlast : ∀ d, row.lastDigest = some d → d.state.final = false) :
    meaningful row (digest v text) (v.state = .waiting) = true := by
  have hne : row.lastDigest ≠ some (digest v text) := fun h => by
    have := hlast _ h
    rw [show (digest v text).state = v.state from rfl, hv] at this
    cases this
  have hw : v.state ≠ .waiting := fun h => by
    rw [h] at hv
    cases hv
  simp [meaningful, hne, hw]

variable {db db' : Db} {key : JobId} {seen t₁ t₂ t₃ : Time} {token run note : Token}
  {out : Option Token} {job : Job}

/-- The capacities that a claim of the due slot of a migrated job needs. -/
theorem claimDue_room (hx : claimDue key seen token run note t₁ t₂ t₃ db = .ok (db', out))
    (hrow : db.jobs key = some row) (hdue : due t₁ row = true) (hseen : row.nextRunAt = seen)
    (hfree : db.unlocked key t₂ = true) (hex : db.running key = true → row.exhausted = false)
    {saved : MigrationRow} (hm : db.migrations key = some saved)
    (hst : saved.state = .sqlite ∨ saved.state = .staged) :
    db.runs.length < 10000 ∧ db.fences.length < 100000 := by
  have hlock : (db.locks key).any (fun l => decide (t₂ < l.expires)) = false := by
    simpa [Db.unlocked, Option.all_eq_true, Option.any_eq_false] using hfree
  have hmark : (if db.runs.any (·.runningOf key) then lose key db else db) = lose key db := by
    by_cases hr : db.running key = true
    · exact if_pos hr
    · exact (if_neg hr).trans (lose_of_not_running (by simpa using hr)).symm
  have hquar : ¬(db.runs.any (·.runningOf key) = true ∧
      (row.jobType ≠ .watch ∨ 2 ≤ row.retryCount)) := fun hq => by
    have := hex hq.1
    simp only [Job.exhausted, Bool.or_eq_false_iff, decide_eq_false_iff_not] at this
    exact hq.2.elim this.1 this.2
  unfold claimDue at hx
  simp only [hrow] at hx
  rw [if_neg (by simp [hdue, hseen]), if_neg (by simp [hlock]), hmark, if_neg hquar] at hx
  simp only [bind_eq_ok, ensure_eq_ok, decide_eq_true_eq] at hx
  obtain ⟨_, hruns, ⟨db₁, b⟩, hadm, -⟩ := hx
  have hm' : (lose key db).migrations key = some saved := hm
  simp only [admitLegacy, hm', if_pos hst, bind_eq_ok, ensure_eq_ok, decide_eq_true_eq] at hadm
  obtain ⟨_, hfences, -⟩ := hadm
  exact ⟨by simpa [lose] using hruns, hfences⟩

/-- A claim that stops a watch tells its owner, or it refuses the due slot. -/
theorem claimDue_told (hx : claimDue key seen token run note t₁ t₂ t₃ db = .ok (db', out))
    {job' : Job} (hj : db.jobs k = some job) (hw : job.jobType = .watch) (hon : job.enabled = true)
    (hj' : db'.jobs k = some job') (hoff : job'.enabled = false) :
    (∃ n, db'.notifications = db.notifications ++ [n] ∧ n.job = k ∧ n.owner = job.owner) ∨
      (Call.claimDue key seen t₁ t₂ t₃).Refuses db := by
  have hsame : db'.jobs k ≠ some job := fun h => by
    rw [hj'] at h
    rw [Option.some.inj h, hon] at hoff
    cases hoff
  rcases claimDue_ok hx with ⟨rfl, -⟩ | ⟨row, hrow, hdue, hseen, hfree, hcl⟩
  · exact absurd hj hsame
  by_cases hk : k = key
  swap
  · have hother : db'.rows k
        ([] ++ if out.isSome then [(⟨key, .sqlite, none⟩ : Execution)] else []) = db.rows k [] :=
      hcl.same hk
    exact absurd ((congrArg Rows.job hother).trans hj) hsame
  subst hk
  obtain rfl : row = job := Option.some.inj (hrow.symm.trans hj)
  cases hcl with
  | quarantined text hrun hex => exact .inl ⟨_, rfl, rfl, rfl⟩
  | refused db' hex hadm =>
    cases hadm with
    | repeated saved hm hst hf =>
      obtain ⟨hruns, hfences⟩ := claimDue_room hx hrow hdue hseen hfree hex hm hst
      exact .inr ⟨row, saved, hrow, hw, ⟨hdue, hseen, hfree⟩, hex, hruns, hm, hst, hfences,
        hseen ▸ hf⟩
    | elsewhere saved hm hst => exact absurd hj hsame
  | started db₁ hex hadm =>
    have hjobs : db₁.jobs = db.jobs := by cases hadm <;> rfl
    simp only [start, Table.update_same, hjobs, hj, Option.map_some, Option.some.injEq] at hj'
    rw [← hj'] at hoff
    split_ifs at hoff <;> rw [hon] at hoff <;> cases hoff

/-- A completion that stops a watch tells its owner, if the last observation did not stop it. -/
theorem complete_told {cal : Calendar} {output : String} {done : Bool}
    (hx : complete cal key token run note state output error t₁ t₂ db = .ok (db', done))
    {job' : Job} (hj : db.jobs k = some job) (hw : job.jobType = .watch) (hon : job.enabled = true)
    (hj' : db'.jobs k = some job') (hoff : job'.enabled = false) (hstate : state ≠ .completed)
    (herase : state ≠ .erasing)
    (hlast : ∀ d, job.lastDigest = some d → d.state.final = false) :
    ∃ n, db'.notifications = db.notifications ++ [n] ∧ n.job = k ∧ n.owner = job.owner := by
  have hsame : db'.jobs k ≠ some job := fun h => by
    rw [hj'] at h
    rw [Option.some.inj h, hon] at hoff
    cases hoff
  rcases complete_ok hx with ⟨-, rfl, -⟩ | ⟨row, due, extra, -, hrow, -, -, rfl, htold, -⟩
  · exact absurd hj hsame
  by_cases hk : k = key
  swap
  · exact absurd ((Table.set_of_ne _ _ _ hk).trans hj) hsame
  subst hk
  obtain rfl : row = job := Option.some.inj (hrow.symm.trans hj)
  have hdis : disabled row (verdict row state error) = true := by
    simp only [completed, Table.set_same, Option.some.injEq] at hj'
    rw [← hj'] at hoff
    simpa [advance, hon] using hoff
  obtain ⟨text, rfl⟩ := htold (meaningful_of_final (final_of_disabled hw hstate herase hdis) hlast)
  exact ⟨_, rfl, rfl, rfl⟩

end Store

namespace Host

/-- No job, no watch. -/
theorem Initial.awake (hi : h.Initial) : h.Awake := by
  intro k job hj
  rw [show h.db = .empty from hi.db] at hj
  cases hj

/-- A step that does not mute a watch leaves the enabled ones awake. -/
theorem awake_step (hwf : h.Wf) (haw : h.Awake) (hst : (lts zs fm).step h a h')
    (hno : ¬a.Mutes zs h.db) : h'.Awake := by
  intro k job' hj' hw' hon' d hd'
  have hmove := Host.move hwf hst k
  have hx : ∀ job, (h.rows k).job = some job → job.jobType = .watch → job.enabled = true →
      ∀ d, job.lastDigest = some d → d.state.final = false := haw k
  have hkept := hj'
  change (h'.rows k).job = some job' at hj'
  generalize h'.rows k = y at hmove hj'
  cases hmove with
  | same | renewed | elsewhere | synced | begun | closed | staged | activating | temporal
  | retired => exact hx job' hj' hw' hon' d hd'
  | added job _ hfresh =>
    obtain rfl := Option.some.inj hj'
    rw [hfresh.lastDigest] at hd'
    cases hd'
  | disabled | quarantined | repeated | bound | cutover | rolledBack | cuttingOver =>
    rw [← Option.some.inj hj'] at hon'
    cases hon'
  | started job _ _ _ hj =>
    obtain rfl := Option.some.inj hj'
    exact hx job hj hw' hon' d hd'
  | changed job _ _ _ _ _ hj =>
    obtain rfl := Option.some.inj hj'
    exact hx job hj hw' hon' d hd'
  | reserved job _ _ _ _ hj =>
    obtain rfl := Option.some.inj hj'
    exact hx job hj hw' hon' d hd'
  | completed job l run state text error due extra _ _ hj =>
    obtain rfl := Option.some.inj hj'
    rw [← Option.some.inj hd']
    -- A final digest stops the watch.
    by_contra hfinal
    have hdis : Store.disabled job (Store.verdict job state error) = true :=
      Store.disabled_of_final (Bool.eq_true_of_not_eq_false hfinal)
    simp [Store.advance, hdis] at hon'
  | finished job b r state digest extra hact hkey hj hb hcan hopen hstate hdigest =>
    obtain rfl := Option.some.inj hj'
    rw [← Option.some.inj hd', hdigest, hstate]
    by_contra hfinal
    subst hact
    refine hno ⟨job, b, hkey ▸ hj, hw', hon', hkey ▸ hb, hcan, ?_, by simpa using hfinal⟩
    obtain ⟨o, ho, hopen⟩ := hopen
    exact ⟨o, (List.mem_filter.1 ho).1, hopen⟩
  | sqlite job saved env t₁ due hact hj hmig =>
    obtain rfl := Option.some.inj hj'
    subst hact
    by_contra hfinal
    obtain ⟨t', -, -, -, rfl⟩ := hst
    have hdb : (h.after zs fm (.sqlite env k t₁) t').db =
      settle h.db (Act.writes (Migration.sqlite zs env k t₁ h.db) fun _ => []) := rfl
    rw [hdb] at hkept
    cases hs : Migration.sqlite zs env k t₁ h.db with
    | error e =>
      rw [hs] at hkept
      exact hfinal (haw k _ hkept hw' hon' d hd')
    | ok x =>
      simp only [Migration.restoredJob, Bool.and_eq_true, decide_eq_true_eq] at hon'
      exact hno ⟨job, saved, x.1, hj, hw', hmig, hs, hon', d, hd',
        Bool.eq_true_of_not_eq_false hfinal⟩

/-- A watch that the step stops gets a notification for its owner. -/
def Tells (h h' : Host) : Prop :=
  ∀ k job job', h.db.jobs k = some job → job.jobType = .watch → job.enabled = true →
    h'.db.jobs k = some job' → job'.enabled = false →
    ∃ n, h'.db.notifications = h.db.notifications ++ [n] ∧ n.job = k ∧ n.owner = job.owner

/-- Without a muting step every enabled watch is awake. -/
theorem awake_reachable
    (hr : ((lts zs fm).restrict fun h a => ¬a.Mutes zs h.db).Reachable Initial h) : h.Wf ∧ h.Awake :=
  hr.invariant (I := fun h => h.Wf ∧ h.Awake) (fun _ hi => ⟨hi.wf, hi.awake⟩)
    fun _ _ _ hI hst => ⟨hI.1.step hst.1, awake_step hI.1 hI.2 hst.1 hst.2⟩

/-- **A watch never stops silently**, in a run whose steps do not mute a watch: a `claim_due`, or a
`complete` whose observation does not complete the job, that disables an enabled watch inserts a
notification for its owner. -/
theorem watch_told (hr : ((lts zs fm).restrict fun h a => ¬a.Mutes zs h.db).Reachable Initial h)
    {c : Call} (hst : ((lts zs fm).restrict fun h a => ¬a.Mutes zs h.db).step h (.call c) h')
    (hc : c.mustTell = true) : h.Tells h' := by
  obtain ⟨⟨t, -, -, hperm, rfl⟩, hno⟩ := hst
  intro k job job' hj hw hon hj' hoff
  have haw := (awake_reachable hr).2 k job hj hw hon
  have hdb : (h.after zs fm (.call c) t).db = c.perform zs.toCalendar h.sched.uuids h.db := rfl
  rw [hdb] at hj' ⊢
  cases c with
  | claimDue key seen t₁ t₂ t₃ =>
    rw [Call.perform] at hj' ⊢
    cases hx : Call.claimed h.sched.uuids h.db key seen t₁ t₂ t₃ with
    | error e =>
      rw [hx] at hj'
      rw [Option.some.inj (hj.symm.trans hj'), hoff] at hon
      cases hon
    | ok x =>
      rw [hx] at hj'
      exact (Store.claimDue_told hx hj hw hon hj' hoff).resolve_right hno
  | complete w state output error t₁ t₂ =>
    rw [Call.perform] at hj' ⊢
    cases hx : Store.complete zs.toCalendar w.job w.token w.run h.sched.uuids state output error t₁
      t₂ h.db with
    | error e =>
      rw [hx] at hj'
      rw [Option.some.inj (hj.symm.trans hj'), hoff] at hon
      cases hon
    | ok x =>
      rw [hx] at hj'
      exact Store.complete_told hx hj hw hon hj' hoff (of_decide_eq_true hc) hperm.2 haw
  | _ => cases hc

/-! ### Watches to stop -/

/-- A worker claims the instant `slot` of the job `1` at `t`. -/
def claimedAt (slot t : Time) : List (Host → Act × Time) :=
  [fun _ => (.call (.claimDue 1 slot t t t), t)]

/-- The call with which the last worker reports an outcome at `t`. -/
def report (state : Outcome) (error : String) (t : Time) (h : Host) : Call :=
  .complete (h.sched.workers.getLastD ⟨0, 0, 0⟩) state "" error t t

/-- A watch that a worker runs. -/
def watchedHost : Host :=
  Sample.host.script Sample.zs Sample.fm (Sample.added .watch 0 ++ claimedAt 86400 86400)

/-- An observation that needs input stops the watch, and its owner is told. -/
theorem watch_told_input :
    let h' := watchedHost.after Sample.zs Sample.fm
      (.call (report .needsInput "" 86405 watchedHost)) 86405
    (Sample.row watchedHost).enabled = true ∧ (Sample.row h').enabled = false ∧
      watchedHost.Tells h' := by
  intro h'
  refine ⟨by decide, by decide, ?_⟩
  have hr : ((lts Sample.zs Sample.fm).restrict fun h a => ¬a.Mutes Sample.zs h.db).Reachable Initial
      watchedHost := by
    refine .step (.step (.of_init Sample.host_initial) ⟨⟨0, ?_, ?_, ?_, rfl⟩, id⟩)
      ⟨⟨86400, ?_, ?_, ?_, rfl⟩, ?_⟩
    any_goals decide
    rintro ⟨row, saved, -, -, -, -, -, hm, -⟩
    cases hm
  exact watch_told hr ⟨⟨86405, by decide, by decide, by decide, rfl⟩, id⟩
    (by decide)

/-- The watch `1` stops in silence. -/
theorem not_tells (hon : (h.db.jobs 1).any (fun j => j.jobType = .watch && j.enabled) = true)
    (hoff : (h'.db.jobs 1).any (fun j => !j.enabled) = true)
    (hnone : h'.db.notifications = h.db.notifications) : ¬h.Tells h' := by
  intro htell
  simp only [Option.any_eq_true, Bool.and_eq_true, decide_eq_true_eq, Bool.not_eq_true'] at hon hoff
  obtain ⟨job, hj, hw, hon⟩ := hon
  obtain ⟨job', hj', hoff⟩ := hoff
  obtain ⟨n, hn, -⟩ := htell 1 job job' hj hw hon hj' hoff
  rw [hnone] at hn
  simpa using congrArg List.length hn

/-- A staged watch whose worker is lost. -/
def fencedHost : Host :=
  Sample.host.script Sample.zs Sample.fm (Sample.added .watch 0 ++
    [fun h => (.stage Sample.env Sample.caller 1 (Sample.row h) 10, 10)] ++ claimedAt 86400 86400)

/-- The next claim finds the due slot reserved, by the claim of the lost worker itself, and stops
the watch in silence. -/
theorem watch_silent : ¬ ∀ h c h', (lts Sample.zs Sample.fm).Reachable Initial h →
    (lts Sample.zs Sample.fm).step h (.call c) h' → c.mustTell = true → h.Tells h' := by
  intro hall
  refine not_tells (by decide) (by decide) (by decide)
    (hall fencedHost (.claimDue 1 86400 86420 86420 86420) _
      (.run (.of_init Sample.host_initial) (run_script (by decide)))
      ⟨86420, by decide, by decide, by decide, rfl⟩ rfl)

/-- A staged watch needs input, is enabled again by a rollback, and runs. -/
def restoredHost : Host :=
  fencedHost.script Sample.zs Sample.fm
    ([fun h => (.call (report .needsInput "" 86405 h), 86405)] ++ Sample.back 86410 ++
      claimedAt 172800 172800)

/-- The same observation stops it in silence. -/
theorem watch_silent_restored : ¬ ∀ h c h', (lts Sample.zs Sample.fm).Reachable Initial h →
    (lts Sample.zs Sample.fm).step h (.call c) h' → c.mustTell = true → h.Tells h' := by
  intro hall
  refine not_tells (by decide) (by decide) (by decide)
    (hall restoredHost (report .needsInput "" 172805 restoredHost) _
      (.run (.run (.of_init Sample.host_initial) (run_script (h := Sample.host) (by decide)))
        (run_script (h := fencedHost) (by decide)))
      ⟨172805, by decide, by decide, by decide, rfl⟩ rfl)

/-- A watch returns to SQLite while an occurrence of Temporal is left: the `apply` that drained it
is a late one of the migration before.  Then the occurrence is stopped, and the watch runs. -/
def lateHost : Host :=
  Sample.host.script Sample.zs Sample.fm (Sample.added .watch 0 ++ Sample.forward 10 ++
    Sample.back 20 ++ Sample.forward 40 ++
    [fun _ => (.prepare Sample.env 1 ⟨1, "dd"⟩ 172800, 172800),
     fun _ => (.rollback Sample.env Sample.caller 1, 172801),
     fun _ => (.retire 1, 172801),
     fun _ => (.get 1 Sample.caller, 172801),
     fun h => (.synced (Sample.reading h), 172801),
     fun _ => (.sqlite Sample.env 1 172801, 172801),
     fun _ => (.stop 1 ⟨1, "dd"⟩, 172802),
     fun _ => (.finish ⟨1, ⟨1, "dd"⟩, .cancelled, "",
       "Occurrence stopped; inspect before rescheduling"⟩, 172802)] ++
    claimedAt 259200 259200)

set_option maxRecDepth 8000 in
/-- The same outcome stops it in silence. -/
theorem watch_silent_late : ¬ ∀ h c h', (lts Sample.zs Sample.fm).Reachable Initial h →
    (lts Sample.zs Sample.fm).step h (.call c) h' → c.mustTell = true → h.Tells h' := by
  intro hall
  refine not_tells (by decide) (by decide) (by decide)
    (hall lateHost
      (report .cancelled "Occurrence stopped; inspect before rescheduling" 259201 lateHost) _
      (.run (.of_init Sample.host_initial) (run_script (by decide)))
      ⟨259201, by decide, by decide, by decide, rfl⟩ rfl)

end Host

end Scheduling

end PythonAI
