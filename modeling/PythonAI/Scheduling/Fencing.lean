import PythonAI.Library.Fence
import PythonAI.Scheduling.Calls

/-!
# Schedule run fencing

Each job has at most one unfinished run, and its lock belongs to the worker of that run.  A run
that its worker does not complete is never followed by another run of a job that is not a watch:
the next claim stops the job.

* `Sys.inv_reachable` : workers, runs and locks belong together;
* `Sys.run_fencing` : the fencing of runs;
* `Sys.last_run` : after a lost run, a job that is not a watch never runs again.
-/

namespace PythonAI

open Library

namespace Scheduling

/-- The row of the run a worker has claimed. -/
def Worker.started (w : Worker) : Run := { id := w.run, job := w.job, status := .running }

/-! ### The table of runs -/

namespace Call

variable {cal : Calendar} {u : Token} {db : Db} {c : Call}

variable (u db c) in
theorem granted_cases : c.granted u db = [] ∨ ∃ key, c.granted u db = [⟨key, u, u + 1⟩] := by
  cases c with
  | claimDue key seen t₁ t₂ t₃ =>
    simp only [granted]
    cases hres : claimed u db key seen t₁ t₂ t₃ with
    | error e => exact .inl rfl
    | ok x =>
      obtain ⟨db', out⟩ := x
      cases out with
      | none => exact .inl rfl
      | some run =>
        rcases Store.claimDue_ok hres with ⟨-, h⟩ | ⟨row, -, -, -, -, hcl⟩
        · cases h
        · cases hcl
          exact .inr ⟨key, rfl⟩
  | addJob | disable | renew | alive | complete => exact .inl rfl

variable (cal u db c) in
/-- Every call rewrites the runs without touching their ids and jobs, and a claim adds its own. -/
theorem runs_perform : ∃ f : Run → Run, (∀ r, (f r).id = r.id ∧ (f r).job = r.job) ∧
    (c.perform cal u db).runs = db.runs.map f ++ (c.granted u db).map (·.started) := by
  have hsame : ∀ db' : Db, db'.runs = db.runs → c.granted u db = [] →
      ∃ f : Run → Run, (∀ r, (f r).id = r.id ∧ (f r).job = r.job) ∧
        db'.runs = db.runs.map f ++ (c.granted u db).map (·.started) := fun db' h hg =>
    ⟨id, fun r => ⟨rfl, rfl⟩, by simp [h, hg]⟩
  cases c with
  | addJob spec caller room t =>
    refine hsame _ ?_ rfl
    refine settle_of (P := fun db' : Db => db'.runs = db.runs) rfl fun db' a h => ?_
    obtain ⟨due, rfl, -⟩ := Store.addJob_ok h
    rfl
  | disable key owner =>
    refine hsame _ ?_ rfl
    change (Store.disable key owner db).1.runs = db.runs
    unfold Store.disable
    split_ifs <;> rfl
  | claimDue key seen t₁ t₂ t₃ =>
    simp only [perform, granted] at hsame ⊢
    cases hres : claimed u db key seen t₁ t₂ t₃ with
    | error e => exact ⟨id, fun r => ⟨rfl, rfl⟩, by simp⟩
    | ok x =>
      obtain ⟨db', out⟩ := x
      rcases Store.claimDue_ok hres with ⟨rfl, rfl⟩ | ⟨row, -, -, -, -, hcl⟩
      · exact ⟨id, fun r => ⟨rfl, rfl⟩, by simp⟩
      refine ⟨Store.lost key, fun r => ⟨Store.lost_id r, Store.lost_job r⟩, ?_⟩
      cases hcl with
      | quarantined text hr hx => simp [Store.lose, Store.stop]
      | refused db' hx hadm => cases hadm <;> simp [Store.lose, Store.stop]
      | started db' hx hadm =>
        cases hadm <;> simp [Store.lose, Store.start, Worker.started]
  | renew w t₁ t₂ => exact hsame _ rfl rfl
  | alive w t => exact hsame _ rfl rfl
  | complete w state output error t₁ t₂ =>
    simp only [perform]
    cases hres : Store.complete cal w.job w.token w.run u state output error t₁ t₂ db with
    | error e => exact hsame _ rfl rfl
    | ok x =>
      obtain ⟨db', done⟩ := x
      rcases Store.complete_ok hres with ⟨-, rfl, -⟩ | ⟨row, due, extra, -, -, -, -, rfl, -⟩
      · exact hsame _ rfl rfl
      · exact ⟨Store.finished w.run (Store.verdict row state error) (cut 65536 output),
          fun r => ⟨Store.finished_id r, Store.finished_job r⟩,
          by simp [Store.completed, granted]⟩

variable (cal u db c) in
/-- Every call keeps the holder of a lock, drops it, or makes `u` the holder. -/
theorem lock_perform (k : JobId) :
    ((c.perform cal u db).locks k).map (·.lockedBy) = (db.locks k).map (·.lockedBy) ∨
      (c.perform cal u db).locks k = none ∨
      ((c.perform cal u db).locks k).map (·.lockedBy) = some u := by
  cases c with
  | addJob spec caller room t =>
    refine .inl (settle_of (P := fun db' : Db => (db'.locks k).map (·.lockedBy)
      = (db.locks k).map (·.lockedBy)) rfl fun db' a h => ?_)
    obtain ⟨due, rfl, -⟩ := Store.addJob_ok h
    rfl
  | disable key owner => exact .inl (disable_quiet k).lock
  | claimDue key seen t₁ t₂ t₃ =>
    simp only [perform]
    cases hres : claimed u db key seen t₁ t₂ t₃ with
    | error e => exact .inl rfl
    | ok x =>
      obtain ⟨db', out⟩ := x
      rcases Store.claimDue_ok hres with ⟨rfl, -⟩ | ⟨row, hrow, -, -, -, hcl⟩
      · exact .inl rfl
      by_cases hk : k = key
      · subst hk
        cases hcl with
        | quarantined text hr hx => exact .inr (.inl (Table.erase_same ..))
        | refused db' hx hadm => cases hadm <;> exact .inl rfl
        | started db' hx hadm => exact .inr (.inr (by simp [Store.start]))
      · exact .inl (hcl.quiet hk).lock
  | renew w t₁ t₂ => exact .inl (renew_quiet k).lock
  | alive w t => exact .inl rfl
  | complete w state output error t₁ t₂ =>
    simp only [perform]
    cases hres : Store.complete cal w.job w.token w.run u state output error t₁ t₂ db with
    | error e => exact .inl rfl
    | ok x =>
      obtain ⟨db', done⟩ := x
      rcases Store.complete_ok hres with ⟨-, rfl, -⟩ | ⟨row, due, extra, -, -, -, -, rfl, -⟩
      · exact .inl rfl
      by_cases hk : k = w.job
      · subst hk; exact .inr (.inl (Table.erase_same ..))
      · exact .inl (congrArg _ (Table.erase_of_ne _ _ hk))

theorem commits_iff {r : Token} : c.commits cal u db = some r ↔
    ∃ w state output error t₁ t₂ db', c = complete w state output error t₁ t₂ ∧ w.run = r ∧
      Store.complete cal w.job w.token w.run u state output error t₁ t₂ db = .ok (db', true) := by
  constructor
  · intro h
    cases c with
    | complete w state output error t₁ t₂ =>
      simp only [commits] at h
      split at h
      next db' hres => exact ⟨w, state, output, error, t₁, t₂, db', rfl, Option.some.inj h, hres⟩
      next => cases h
    | addJob | disable | claimDue | renew | alive => cases h
  · rintro ⟨w, state, output, error, t₁, t₂, db', rfl, rfl, h⟩
    simp [commits, h]

end Call

/-- The ids of the runs of a job, in the order they were started. -/
def Db.runIds (db : Db) (k : JobId) : List Token := (db.runsOf k).map (·.id)

/-- The job is not enabled. -/
def Db.stopped (db : Db) (k : JobId) : Prop := ∃ row, db.jobs k = some row ∧ row.enabled = false

/-! ### Workers, runs and locks -/

namespace Sys

/-- The runs, the workers that started them and the locks belong together. -/
structure Inv (s : Sys) : Prop where
  /-- the ids of a worker were handed out together -/
  tokens : ∀ w ∈ s.workers, w.run = w.token + 1 ∧ w.run < s.uuids
  /-- the ids of the runs were handed out -/
  runs : ∀ r ∈ s.db.runs, r.id < s.uuids
  /-- and are distinct -/
  ids : (s.db.runs.map (·.id)).Nodup
  /-- a run has one worker -/
  inj : ∀ w ∈ s.workers, ∀ w' ∈ s.workers, w.run = w'.run → w = w'
  /-- the run of a worker belongs to its job -/
  owned : ∀ w ∈ s.workers, ∀ r ∈ s.db.runs, r.id = w.run → r.job = w.job
  /-- a job that does not exist has no runs -/
  missing : ∀ k, s.db.jobs k = none → s.db.runsOf k = []
  /-- a job that the other engine executes has none either -/
  elsewhere : ∀ k saved, s.db.migrations k = some saved →
    ¬ (saved.state = .sqlite ∨ saved.state = .staged) → s.db.runsOf k = []
  /-- only the last run of a job is unfinished -/
  last : ∀ k, ∀ r ∈ (s.db.runsOf k).dropLast, r.status ≠ .running
  /-- the lock of a job belongs to the worker of its last run -/
  lock : ∀ k token, (s.db.locks k).map (·.lockedBy) = some token →
    ((s.db.runsOf k).getLast?).map (·.id) = some (token + 1)

variable {cal : Calendar} {s s' : Sys} {c : Call} {k : JobId}

theorem uuids_lt (h : (lts cal).step s c s') : s.uuids < s'.uuids := by
  rw [h.2.2.2.2.2]; exact Nat.lt_add_of_pos_right (by decide)

theorem effect (hs : s.Inv) (h : (lts cal).step s c s') (k : JobId) :
    Effect cal k s.uuids c s.db s'.db := by
  obtain ⟨-, -, hp, hdb, -⟩ := h
  rw [hdb]
  exact Call.effect hp hs.owned k

theorem Initial.inv (h : Initial s) : Inv s := by
  refine ⟨?_, ?_, ?_, ?_, ?_, ?_, ?_, ?_, ?_⟩
  · simp [h.workers]
  · simp [h.runs]
  · simp [h.runs]
  · simp [h.workers]
  · simp [h.runs]
  · simp [Db.runsOf, h.runs]
  · simp [Db.runsOf, h.runs]
  · simp [Db.runsOf, h.runs]
  · intro k token hl
    simp [h.locks] at hl

theorem runsOf_missing (hs : s.Inv) (h : (lts cal).step s c s') (hnone : s'.db.jobs k = none) :
    s'.db.runsOf k = [] := by
  cases effect hs h k with
  | quiet hq =>
    rw [hq.runs]
    rcases hq.job with hj | ⟨row, -, hj⟩ | ⟨hj, -⟩
    · exact hs.missing k (hj ▸ hnone)
    · rw [hnone] at hj; cases hj
    · exact hs.missing k hj
  | quarantined row _ _ _ _ hj _ _ _ => rw [hnone] at hj; cases hj
  | refused row hrow _ _ _ hj _ _ _ =>
    rcases hj with hj | ⟨hj, -⟩
    · rw [hnone] at hj; cases hj
    · rw [hnone, hrow] at hj; cases hj
  | started row _ _ _ _ hj _ _ _ _ _ => rw [hnone] at hj; cases hj
  | completed w row v state text error due _ _ _ _ _ _ hj _ _ _ => rw [hnone] at hj; cases hj

theorem runsOf_elsewhere (hs : s.Inv) (h : (lts cal).step s c s') {saved : MigrationRow}
    (hsaved : s'.db.migrations k = some saved)
    (hne : ¬ (saved.state = .sqlite ∨ saved.state = .staged)) : s'.db.runsOf k = [] := by
  cases effect hs h k with
  | quiet hq =>
    have hmig := hq.migration
    rw [hsaved] at hmig
    cases hm : s.db.migrations k with
    | none => rw [hm] at hmig; cases hmig
    | some saved₀ =>
      rw [hm, Option.map_some, Option.map_some, Option.some.injEq] at hmig
      rw [hq.runs]
      exact hs.elsewhere k saved₀ hm (by rwa [← hmig])
  | quarantined row _ _ _ _ _ hr _ hm =>
    rw [hr, hs.elsewhere k saved (hm ▸ hsaved) hne]; rfl
  | refused row _ _ _ _ _ hr _ hm => rw [hr, hs.elsewhere k saved (hm ▸ hsaved) hne]; rfl
  | started row _ _ _ hadm _ _ _ hm _ _ =>
    rw [hm] at hsaved
    simp only [not_or] at hne
    simp [Db.admits, hsaved, hne.1, hne.2] at hadm
  | completed w row v state text error due _ _ _ _ _ _ _ hr _ hm =>
    rw [hr, hs.elsewhere k saved (hm ▸ hsaved) hne]; rfl

theorem last_running (hs : s.Inv) (h : (lts cal).step s c s') :
    ∀ r ∈ (s'.db.runsOf k).dropLast, r.status ≠ .running := by
  have hmap : ∀ {l : List Run} {f : Run → Run}, (∀ r ∈ l.dropLast, (f r).status ≠ .running) →
      ∀ r ∈ (l.map f).dropLast, r.status ≠ .running := by
    intro l f hf r hr
    rw [← List.map_dropLast] at hr
    obtain ⟨r₀, hr₀, rfl⟩ := List.mem_map.1 hr
    exact hf r₀ hr₀
  have hlost : ∀ r ∈ s.db.runsOf k, (Store.lost k r).status ≠ .running := by
    intro r hr hrun
    have hk : (Store.lost k r).job = k := by
      rw [Store.lost_job]; simpa using (List.mem_filter.1 hr).2
    exact absurd (Run.runningOf_iff.2 ⟨hk, hrun⟩) (by simp [Store.lost_not_running])
  cases effect hs h k with
  | quiet hq => rw [hq.runs]; exact hs.last k
  | quarantined row _ _ _ _ _ hr _ _ =>
    rw [hr]; exact hmap fun r hr => hlost r (List.dropLast_subset _ hr)
  | refused row _ _ _ _ _ hr _ _ =>
    rw [hr]; exact hmap fun r hr => hlost r (List.dropLast_subset _ hr)
  | started row _ _ _ _ _ hr _ _ _ _ =>
    rw [hr, List.dropLast_concat]
    intro r hr
    obtain ⟨r₀, hr₀, rfl⟩ := List.mem_map.1 hr
    exact hlost r₀ hr₀
  | completed w row v state text error due _ _ _ _ _ _ _ hr _ _ =>
    rw [hr]
    refine hmap fun r hr => ?_
    unfold Store.finished
    split_ifs
    · simp
    · exact hs.last k r hr

theorem lock_last (hs : s.Inv) (h : (lts cal).step s c s') {token : Token}
    (hl : (s'.db.locks k).map (·.lockedBy) = some token) :
    ((s'.db.runsOf k).getLast?).map (·.id) = some (token + 1) := by
  have hmap : ∀ {f : Run → Run}, (∀ r, (f r).id = r.id) →
      (((s.db.runsOf k).map f).getLast?).map (·.id) = ((s.db.runsOf k).getLast?).map (·.id) := by
    intro f hf
    rw [List.getLast?_map, Option.map_map]
    exact congrArg (fun g => Option.map g (s.db.runsOf k).getLast?) (funext hf)
  cases effect hs h k with
  | quiet hq => rw [hq.runs]; exact hs.lock k token (hq.lock ▸ hl)
  | quarantined row _ _ _ _ _ _ hlock _ => simp [hlock] at hl
  | refused row _ _ _ _ _ hr hlock _ =>
    rw [hr, hmap Store.lost_id]; exact hs.lock k token (hlock ▸ hl)
  | started row _ _ _ _ _ hr hlock _ _ _ =>
    rw [hlock] at hl; cases hl
    simp [hr]
  | completed w row v state text error due _ _ _ _ _ _ _ _ hlock _ => simp [hlock] at hl

theorem Inv.step (hs : s.Inv) (h : (lts cal).step s c s') : s'.Inv := by
  obtain ⟨f, hf, hruns⟩ := Call.runs_perform cal s.uuids s.db c
  have hw : s'.workers = s.workers ++ c.granted s.uuids s.db := h.2.2.2.2.1
  have hu : s'.uuids = s.uuids + 3 := h.2.2.2.2.2
  rw [← h.2.2.2.1] at hruns
  have hids : s'.db.runs.map (·.id) = s.db.runs.map (·.id) ++ (c.granted s.uuids s.db).map (·.run) := by
    rw [hruns, List.map_append, List.map_map, List.map_map]
    exact congrArg₂ _ (List.map_congr_left fun r _ => (hf r).1) rfl
  have hnew : ∀ w ∈ c.granted s.uuids s.db, w.run = s.uuids + 1 ∧ w.token = s.uuids := by
    intro w hw
    rcases Call.granted_cases s.uuids s.db c with hg | ⟨key, hg⟩
    · simp [hg] at hw
    · simp [hg] at hw; simp [hw]
  refine ⟨?_, ?_, ?_, ?_, ?_, fun k => runsOf_missing hs h,
    fun k saved => runsOf_elsewhere hs h, fun k => last_running hs h, fun k token => lock_last hs h⟩
  · intro w hmem
    rw [hw, List.mem_append] at hmem
    rcases hmem with hmem | hmem
    · exact ⟨(hs.tokens w hmem).1, lt_trans (hs.tokens w hmem).2 (uuids_lt h)⟩
    · obtain ⟨hrun, htok⟩ := hnew w hmem
      exact ⟨by rw [hrun, htok], by rw [hrun, hu]; exact Nat.add_lt_add_left (by decide) _⟩
  · intro r hr
    have hid : r.id ∈ s'.db.runs.map (·.id) := List.mem_map_of_mem hr
    rw [hids, List.mem_append, List.mem_map, List.mem_map] at hid
    rcases hid with ⟨r₀, hr₀, he⟩ | ⟨w, hwm, he⟩
    · rw [← he]; exact lt_trans (hs.runs r₀ hr₀) (uuids_lt h)
    · rw [← he, (hnew w hwm).1, hu]; exact Nat.add_lt_add_left (by decide) _
  · rw [hids]
    rcases Call.granted_cases s.uuids s.db c with hg | ⟨key, hg⟩
    · simpa [hg] using hs.ids
    · rw [hg, List.map_singleton, List.nodup_append]
      refine ⟨hs.ids, by simp, ?_⟩
      intro a ha b hb hab
      obtain ⟨r, hr, rfl⟩ := List.mem_map.1 ha
      rw [List.mem_singleton.1 hb] at hab
      exact Nat.not_succ_lt_self (hab ▸ hs.runs r hr)
  · intro w hwm w' hwm' hrun
    rw [hw, List.mem_append] at hwm hwm'
    rcases hwm with hwm | hwm <;> rcases hwm' with hwm' | hwm'
    · exact hs.inj w hwm w' hwm' hrun
    · rw [(hnew w' hwm').1] at hrun
      exact absurd (hrun ▸ (hs.tokens w hwm).2) Nat.not_succ_lt_self
    · rw [(hnew w hwm).1] at hrun
      exact absurd (hrun ▸ (hs.tokens w' hwm').2) Nat.not_succ_lt_self
    · rcases Call.granted_cases s.uuids s.db c with hg | ⟨key, hg⟩
      · simp [hg] at hwm
      · simp only [hg, List.mem_singleton] at hwm hwm'
        rw [hwm, hwm']
  · intro w hwm r hr hid
    rw [hruns, List.mem_append, List.mem_map, List.mem_map] at hr
    rw [hw, List.mem_append] at hwm
    rcases hr with ⟨r₀, hr₀, rfl⟩ | ⟨w₀, hw₀, rfl⟩
    · rw [(hf r₀).1] at hid
      rw [(hf r₀).2]
      rcases hwm with hwm | hwm
      · exact hs.owned w hwm r₀ hr₀ hid
      · rw [(hnew w hwm).1] at hid
        exact absurd (hid ▸ hs.runs r₀ hr₀) Nat.not_succ_lt_self
    · have hid' : w₀.run = w.run := hid
      rcases hwm with hwm | hwm
      · rw [(hnew w₀ hw₀).1] at hid'
        exact absurd (hid' ▸ (hs.tokens w hwm).2) Nat.not_succ_lt_self
      · rcases Call.granted_cases s.uuids s.db c with hg | ⟨key, hg⟩
        · simp [hg] at hwm
        · simp only [hg, List.mem_singleton] at hwm hw₀
          rw [hwm, hw₀]; rfl

theorem inv_reachable (h : (lts cal).Reachable Initial s) : s.Inv :=
  h.invariant (fun _ => Initial.inv) fun _ _ _ => Inv.step

/-! ### At most one unfinished run, completed at most once -/

variable {ls : List Call}

/-- Only the last run of a job can be unfinished. -/
theorem running_le_one (hs : s.Inv) (k : JobId) :
    (s.db.runs.filter (·.runningOf k)).length ≤ 1 := by
  have hfilter : s.db.runs.filter (·.runningOf k)
      = (s.db.runsOf k).filter (fun r => decide (r.status = .running)) := by
    simp only [Db.runsOf, List.filter_filter]
    exact List.filter_congr fun r _ => by simp [Run.runningOf, Bool.and_comm]
  rw [hfilter]
  rcases List.eq_nil_or_concat (s.db.runsOf k) with hnil | ⟨l, r, hl⟩
  · simp [hnil]
  · have hlast := hs.last k
    rw [hl, List.concat_eq_append, List.dropLast_concat] at hlast
    have hnone : l.filter (fun r => decide (r.status = .running)) = [] :=
      List.filter_eq_nil_iff.2 fun r hr => by simpa using hlast r hr
    rw [hl, List.concat_eq_append, List.filter_append, hnone, List.nil_append]
    exact List.length_filter_le _ _

theorem workers_mono (h : (lts cal).Run s ls s') {w : Worker} (hw : w ∈ s.workers) :
    w ∈ s'.workers :=
  h.preserves (P := fun s : Sys => w ∈ s.workers)
    (fun _ _ _ hw hst => by rw [hst.2.2.2.2.1]; exact List.mem_append_left _ hw) hw

/-- The lock of the job `k`. -/
def lock (cal : Calendar) (k : JobId) : Fence (lts cal) where
  holder s := (s.db.locks k).map (·.lockedBy)
  supply s := s.uuids
  moves {s c s'} h := by
    refine ⟨(uuids_lt h).le, ?_⟩
    rw [h.2.2.2.1]
    rcases Call.lock_perform cal s.uuids s.db c k with h | h | h
    · exact .inl h
    · exact .inr (.inl (by rw [h]; rfl))
    · exact .inr (.inr ⟨h, uuids_lt ‹_›⟩)

theorem stopped_step (hs : s.Inv) (h : (lts cal).step s c s') (hk : s.db.stopped k) :
    s'.db.stopped k ∧ s'.db.runIds k = s.db.runIds k := by
  obtain ⟨row, hrow, hoff⟩ := hk
  have hids : ∀ {f : Run → Run}, (∀ r, (f r).id = r.id) →
      s'.db.runsOf k = (s.db.runsOf k).map f → s'.db.runIds k = s.db.runIds k := by
    intro f hf hr
    rw [Db.runIds, hr, List.map_map]
    exact List.map_congr_left fun r _ => hf r
  have hsame : ∀ row', s.db.jobs k = some row' → row' = row := fun row' h =>
    Option.some.inj (h.symm.trans hrow)
  cases effect hs h k with
  | quiet hq =>
    refine ⟨?_, by rw [Db.runIds, hq.runs]; rfl⟩
    rcases hq.job with hj | ⟨row', -, hj⟩ | ⟨hj, -⟩
    · exact ⟨row, hj.trans hrow, hoff⟩
    · exact ⟨_, hj, rfl⟩
    · rw [hrow] at hj; cases hj
  | quarantined row' _ _ _ _ hj hr _ _ => exact ⟨⟨_, hj, rfl⟩, hids Store.lost_id hr⟩
  | refused row' hrow' _ _ _ hj hr _ _ =>
    refine ⟨?_, hids Store.lost_id hr⟩
    rcases hj with hj | ⟨hj, -⟩
    · exact ⟨_, hj, rfl⟩
    · exact ⟨row, hj.trans hrow, hoff⟩
  | started row' hrow' hon => rw [hsame row' hrow', hoff] at hon; cases hon
  | completed w row' v state text error due _ _ _ _ hrow' _ hj hr _ _ =>
    refine ⟨⟨_, hj, ?_⟩, hids Store.finished_id hr⟩
    simp [Store.advance, hsame row' hrow', hoff]

/-- A job that is stopped stays stopped, and no run of it is started. -/
theorem stopped_run (hs : s.Inv) (h : (lts cal).Run s ls s') (hk : s.db.stopped k) :
    s'.db.stopped k ∧ s'.db.runIds k = s.db.runIds k := by
  have hP := h.preserves_under (I := Inv)
    (P := fun t : Sys => t.db.stopped k ∧ t.db.runIds k = s.db.runIds k)
    (fun _ _ _ => Inv.step)
    (fun a l b ha hP hst => ⟨(stopped_step ha hst hP.1).1, (stopped_step ha hst hP.1).2.trans hP.2⟩)
  exact hP hs ⟨hk, rfl⟩

/-- An unfinished run of a job that is not a watch is completed by its worker, or it stays
unfinished and no other run of the job is started, or the job is stopped. -/
theorem last_run (hs : s.Inv) (h : (lts cal).step s c s') {row : Job} {r : Run}
    (hrow : s.db.jobs k = some row) (hw : row.jobType ≠ .watch) (hr : r ∈ s.db.runs)
    (hrun : r.runningOf k = true) (hc : c.commits cal s.uuids s.db ≠ some r.id) :
    (s'.db.stopped k ∨ ∃ r' ∈ s'.db.runs, r'.id = r.id ∧ r'.runningOf k = true) ∧
      s'.db.runIds k = s.db.runIds k := by
  have hk : r.job = k ∧ r.status = .running := Run.runningOf_iff.1 hrun
  have hmem : r ∈ s.db.runsOf k := List.mem_filter.2 ⟨hr, by simp [hk.1]⟩
  have hids : ∀ {f : Run → Run}, (∀ r, (f r).id = r.id) →
      s'.db.runsOf k = (s.db.runsOf k).map f → s'.db.runIds k = s.db.runIds k := by
    intro f hf h
    rw [Db.runIds, h, List.map_map]
    exact List.map_congr_left fun r _ => hf r
  -- The next claim finds `r` unfinished, and the job is not a watch.
  have hno : ∀ row', s.db.jobs k = some row' →
      ¬ (s.db.running k = true → row'.exhausted = false) := by
    intro row' hrow' hx
    obtain rfl : row' = row := Option.some.inj (hrow'.symm.trans hrow)
    have := hx (List.any_eq_true.2 ⟨r, hr, hrun⟩)
    simp [Job.exhausted, hw] at this
  cases effect hs h k with
  | quiet hq =>
    rw [← hq.runs] at hmem
    exact ⟨.inr ⟨r, (List.mem_filter.1 hmem).1, rfl, hrun⟩, by rw [Db.runIds, hq.runs]; rfl⟩
  | quarantined row' _ _ _ _ hj hr _ _ => exact ⟨.inl ⟨_, hj, rfl⟩, hids Store.lost_id hr⟩
  | refused row' hrow' _ hx => exact absurd hx (hno row' hrow')
  | started row' hrow' _ hx => exact absurd hx (hno row' hrow')
  | completed w row' v state text error due _ hcom _ _ _ _ _ hr' _ _ =>
    refine ⟨.inr ⟨r, ?_, rfl, hrun⟩, hids Store.finished_id hr'⟩
    have hne : r.id ≠ w.run := fun hid => hc (by rw [hcom, hid])
    have hin : Store.finished w.run v text r ∈ s'.db.runsOf k := by
      rw [hr']; exact List.mem_map_of_mem hmem
    rw [Store.finished, if_neg hne] at hin
    exact (List.mem_filter.1 hin).1

/-- **Schedule run fencing.**  In every reachable state and for every job `k`:

* at most one run of `k` is `running`;
* `complete` commits only for a worker that holds the unexpired lock, any other call returns
  `False` and changes nothing, and at most one worker holds the lock;
* a run whose completion has committed is not completed again, however the run goes on;
* a run of a job that is not a watch is completed, or it stays `running` and no other run of the
  job is started, or the job is disabled, and then for good and without another run. -/
theorem run_fencing (hs : (lts cal).Reachable Initial s) (k : JobId) :
    (s.db.runs.filter (·.runningOf k)).length ≤ 1 ∧
    (∀ w ∈ s.workers, ∀ note state output error t₁ t₂,
      (s.db.locks.selects w.job (·.heldBy w.token t₁) = false →
        Store.complete cal w.job w.token w.run note state output error t₁ t₂ s.db
          = .ok (s.db, false)) ∧
      (∀ db', Store.complete cal w.job w.token w.run note state output error t₁ t₂ s.db
          = .ok (db', true) → s.db.locks.selects w.job (·.heldBy w.token t₁) = true)) ∧
    (∀ w ∈ s.workers, ∀ w' ∈ s.workers, ∀ t t', w.job = w'.job →
      s.db.locks.selects w.job (·.heldBy w.token t) = true →
      s.db.locks.selects w'.job (·.heldBy w'.token t') = true → w = w') ∧
    (∀ c s₁ ls s₂ r, c.commits cal s.uuids s.db = some r → (lts cal).step s c s₁ →
      (lts cal).Run s₁ ls s₂ → ∀ d : Call, d.permitted s₂.workers →
        d.commits cal s₂.uuids s₂.db ≠ some r) ∧
    (∀ c s₁ r row, (lts cal).step s c s₁ → r ∈ s.db.runs → r.runningOf k = true →
      s.db.jobs k = some row → row.jobType ≠ .watch → c.commits cal s.uuids s.db ≠ some r.id →
      s₁.db.runIds k = s.db.runIds k ∧
      ((∃ r' ∈ s₁.db.runs, r'.id = r.id ∧ r'.runningOf k = true) ∨
        ∀ ls s₂, (lts cal).Run s₁ ls s₂ → s₂.db.stopped k ∧ s₂.db.runIds k = s.db.runIds k)) := by
  have hinv := inv_reachable hs
  refine ⟨running_le_one hinv k, ?_, ?_, ?_, ?_⟩
  · intro w _ note state output error t₁ t₂
    refine ⟨Store.complete_of_not_held, fun db' h => ?_⟩
    rcases Store.complete_ok h with ⟨-, -, hfalse⟩ | ⟨row, due, extra, hheld, -⟩
    · cases hfalse
    · exact hheld
  · intro w hw w' hw' t t' hjob h h'
    obtain ⟨l, hl, hheld⟩ := (Table.selects_eq_true _ _ _).1 h
    obtain ⟨l', hl', hheld'⟩ := (Table.selects_eq_true _ _ _).1 h'
    rw [← hjob, hl] at hl'
    cases hl'
    refine hinv.inj w hw w' hw' ?_
    rw [(hinv.tokens w hw).1, (hinv.tokens w' hw').1, ← (Lock.heldBy_iff.1 hheld).1,
      ← (Lock.heldBy_iff.1 hheld').1]
  · intro c s₁ ls s₂ r hc hstep hrun d hd hd'
    obtain ⟨w, state, output, error, t₁, t₂, db₁, rfl, rfl, hdone⟩ := Call.commits_iff.1 hc
    obtain ⟨w', state', output', error', t₁', t₂', db₂, rfl, hsame, hdone'⟩ :=
      Call.commits_iff.1 hd'
    have hw : w ∈ s.workers := hstep.2.2.1
    have hinv₂ : s₂.Inv := inv_reachable ((hs.step hstep).run hrun)
    have hmem : w ∈ s₂.workers := workers_mono (.cons hstep hrun) hw
    obtain rfl : w' = w := hinv₂.inj w' hd w hmem hsame
    -- The first completion has released the lock, so that no older token holds it again.
    have hfree : s₁.db.locks w'.job = none := by
      rw [hstep.2.2.2.1, Call.perform, hdone]
      rcases Store.complete_ok hdone with ⟨-, -, h⟩ | ⟨row, due, extra, -, -, -, -, rfl, -⟩
      · cases h
      · exact Table.erase_same ..
    have hat : (lock cal w'.job).AtLeast s.uuids s₁ := by
      intro token htok
      simp [lock, hfree] at htok
    rcases Store.complete_ok hdone' with ⟨-, -, h⟩ | ⟨row, due, extra, hheld, -⟩
    · cases h
    obtain ⟨l, hl, hheld⟩ := (Table.selects_eq_true _ _ _).1 hheld
    have hle := Fence.stale hrun (Fence.supply_le (F := lock cal w'.job) hstep) hat w'.token
      (by simp [lock, hl, (Lock.heldBy_iff.1 hheld).1])
    have hlt : w'.token < s.uuids := by
      obtain ⟨he, hlt⟩ := hinv.tokens w' hw
      exact lt_trans (he ▸ Nat.lt_succ_self _) hlt
    exact absurd hle (Nat.not_le.2 hlt)
  · intro c s₁ r row hstep hr hrun hrow hw hc
    obtain ⟨hlast, hids⟩ := last_run hinv hstep hrow hw hr hrun hc
    refine ⟨hids, ?_⟩
    rcases hlast with hstop | hstill
    · refine .inr fun ls s₂ hrun₂ => ?_
      obtain ⟨hstop₂, hids₂⟩ := stopped_run (hinv.step hstep) hrun₂ hstop
      exact ⟨hstop₂, hids₂.trans hids⟩
    · exact .inl hstill

/-- The worker of a command is lost; the next claim disables the job for good. -/
theorem run_fencing_lost :
    let s := (Sample.start (Sample.job .command 3)).runs Sample.cal [Sample.claim 0 0]
    let s₁ := s.after Sample.cal (Sample.claim 0 20).1 20
    (s.db.runs.filter (·.runningOf 0)).length = 1 ∧
      ∀ ls s₂, (lts Sample.cal).Run s₁ ls s₂ → s₂.db.stopped 0 := by
  intro s s₁
  have hs : (lts Sample.cal).Reachable Initial s :=
    .run (.of_init (Sample.start_initial rfl rfl (by decide))) (run_runs (by decide))
  have hstep : (lts Sample.cal).step s (Sample.claim 0 20).1 s₁ :=
    step_after (by decide) (by decide) trivial
  have hr : s.db.runs = [⟨2, 0, .running, "", ""⟩] := by decide
  refine ⟨by decide, ?_⟩
  have hlost := ((run_fencing hs 0).2.2.2.2 _ s₁ ⟨2, 0, .running, "", ""⟩ (Sample.job .command 3)
    hstep (by rw [hr]; exact List.mem_singleton.2 rfl) rfl (by decide) (by decide)
    (by decide)).2
  rcases hlost with ⟨r, hr₁, -, hrun⟩ | hstop
  · have : s₁.db.runs.all (fun r => !r.runningOf 0) = true := by decide
    exact absurd hrun (by simpa using List.all_eq_true.1 this r hr₁)
  · exact fun ls s₂ h => (hstop ls s₂ h).1

end Sys

end Scheduling

end PythonAI
