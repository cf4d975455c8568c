import PythonAI.Scheduling.Rows

/-!
# Every transaction is a move

A transaction moves the rows of each job; those of a job that it does not name stay as they are.
-/

namespace PythonAI

open Library

namespace Scheduling

variable {cal : Calendar} {zs : Zones} {fm : Formats} {env : Env} {c : Caller} {db db' : Db}
  {a : Act} {key k : JobId} {t t' t₁ : Time} {u : Token} {adm : List Execution} {x y z : Rows}

theorem Move.of_eq (h : Move fm a k t t' x y) (e : z = y) : Move fm a k t t' x z := e ▸ h

theorem Move.of_same (e : y = x) : Move fm a k t t' x y := e ▸ .same

/-! ### Migrations -/

namespace Migration

theorem stage_move {source : Job} {out : Unit}
    (h : stage cal fm env c key source t₁ db = .ok (db', out)) (ht : t ≤ t₁) :
    Move fm (.stage env c key source t₁) k t t' (db.rows k adm) (db'.rows k adm) := by
  obtain ⟨job, hj, hsql, hidle, rfl | ⟨hst, rfl⟩⟩ := stage_ok h
  · exact .same
  by_cases hk : k = key
  · subst hk
    refine (Move.staged job source env c t₁ rfl hj hsql ?_ ht hst).of_eq (by simp [Db.rows, Db.runsOf])
    rw [Db.rows_unsettled]
    simpa using hidle
  · exact .of_same (by simp [Db.rows, Db.runsOf, Table.set_of_ne _ _ _ hk])

theorem cutover_move {out : Unit} (h : cutover cal fm env c key t₁ db = .ok (db', out)) (ht : t ≤ t₁) :
    Move fm a k t t' (db.rows k adm) (db'.rows k adm) := by
  obtain ⟨job, saved, hj, hm, rfl | ⟨hst, hidle, rfl⟩⟩ := cutover_ok h
  · exact .same
  by_cases hk : k = key
  · subst hk
    refine (Move.cutover job saved t₁ hj hm hst ?_ ht).of_eq (by simp [Db.rows, Db.runsOf])
    rw [Db.rows_unsettled]
    simpa using hidle
  · exact .of_same
      (by simp [Db.rows, Db.runsOf, Table.set_of_ne _ _ _ hk, Table.update_of_ne _ _ _ _ hk])

theorem rollback_move {out : Unit} (h : rollback env c key db = .ok (db', out)) :
    Move fm a k t t' (db.rows k adm) (db'.rows k adm) := by
  obtain ⟨job, saved, hj, hm, rfl | ⟨hst, hst', paused, rfl⟩⟩ := rollback_ok h
  · exact .same
  by_cases hk : k = key
  · subst hk
    exact (Move.rolledBack job saved paused hj hm ⟨hst, hst'⟩).of_eq (by simp [Db.rows, Db.runsOf])
  · exact .of_same
      (by simp [Db.rows, Db.runsOf, Table.set_of_ne _ _ _ hk, Table.update_of_ne _ _ _ _ hk])

theorem activating_move {out : Unit} (h : activating env key t₁ db = .ok (db', out)) :
    Move fm a k t t' (db.rows k adm) (db'.rows k adm) := by
  obtain ⟨job, b, saved, hj, hb, hm, hst, rfl⟩ := activating_ok h
  by_cases hk : k = key
  · subst hk
    exact (Move.activating b saved (saved.restoreEnabled && job.runCount < job.maxRuns) t₁ hb hm
      hst).of_eq (by simp [Db.rows, Db.runsOf])
  · exact .of_same (by simp [Db.rows, Db.runsOf, Table.set_of_ne _ _ _ hk])

theorem temporal_move {out : Unit} (h : temporal env key db = .ok (db', out)) :
    Move fm a k t t' (db.rows k adm) (db'.rows k adm) := by
  obtain ⟨saved, hm, hst, rfl⟩ := temporal_ok h
  by_cases hk : k = key
  · subst hk
    exact (Move.temporal saved hm hst).of_eq (by simp [Db.rows, Db.runsOf])
  · exact .of_same (by simp [Db.rows, Db.runsOf, Table.set_of_ne _ _ _ hk])

theorem cuttingOver_move {old : MigrationRow} {out : Unit}
    (h : cuttingOver env key old db = .ok (db', out)) :
    Move fm a k t t' (db.rows k adm) (db'.rows k adm) := by
  obtain ⟨job, b, saved, hj, hb, hm, hst, rfl⟩ := cuttingOver_ok h
  by_cases hk : k = key
  · subst hk
    exact (Move.cuttingOver job b saved (saved.restoreEnabled && job.runCount < job.maxRuns) hj hb
      hm hst).of_eq (by simp [Db.rows, Db.runsOf])
  · exact .of_same (by simp [Db.rows, Db.runsOf, Table.set_of_ne _ _ _ hk])

theorem retire_move {out : Unit} (h : retire key db = .ok (db', out)) :
    Move fm a k t t' (db.rows k adm) (db'.rows k adm) := by
  obtain ⟨saved, hm, hst, rfl⟩ := retire_ok h
  by_cases hk : k = key
  · subst hk
    exact (Move.retired saved hm hst).of_eq (by simp [Db.rows, Db.runsOf])
  · exact .of_same (by simp [Db.rows, Db.runsOf, Table.update_of_ne _ _ _ _ hk])

theorem sqlite_move {out : Unit} (h : sqlite zs env key t₁ db = .ok (db', out)) (ht : t ≤ t₁) :
    Move fm (.sqlite env key t₁) k t t' (db.rows k adm) (db'.rows k adm) := by
  obtain ⟨job, saved, due, hj, hm, hst, hdue, hlast, rfl⟩ := sqlite_ok h
  by_cases hk : k = key
  · subst hk
    refine (Move.sqlite job saved env t₁ due rfl hj hm hst (lt_of_le_of_lt ht hdue) ?_).of_eq
      (by simp [Db.rows, Db.runsOf])
    intro f hf
    have hmem : f.slot ∈ (db.fences.filter (·.job = k)).map (·.slot) := List.mem_map_of_mem hf
    cases hmax : lastSlot k db with
    | none => rw [lastSlot, List.max?_eq_none_iff] at hmax; rw [hmax] at hmem; cases hmem
    | some s => exact lt_of_le_of_lt ((List.max?_eq_some_iff.1 hmax).2 _ hmem) (hlast s hmax)
  · exact .of_same (by simp [Db.rows, Db.runsOf, Table.set_of_ne _ _ _ hk])

end Migration

/-! ### Native schedules -/

namespace Native

variable {w : WorkflowId}

theorem create_move {spec : JobSpec} {overlap : Overlap} {room : Bool} {out : JobId}
    (h : create cal fm env spec c overlap room key t₁ db = .ok (db', out)) :
    Move fm a k t t' (db.rows k adm) (db'.rows k adm) := by
  obtain ⟨due, -, rfl, hnone⟩ := create_ok h
  by_cases hk : k = key
  · subst hk
    exact (Move.added (newJob { spec with backend := .temporal } c due) hnone
      ⟨rfl, rfl, by simp [newJob]⟩).of_eq (by simp [Db.rows, Db.runsOf])
  · exact .of_same (by simp [Db.rows, Db.runsOf, Table.set_of_ne _ _ _ hk])

theorem bind_move {scope : String} {overlap : Overlap} {paused : Bool} {out : Unit}
    (h : bind env key scope overlap paused db = .ok (db', out)) {job : Job}
    (hj : db.jobs key = some job) (hback : job.backend = .temporal) (hm : db.migrations key = none) :
    Move fm a k t t' (db.rows k adm) (db'.rows k adm) := by
  obtain ⟨hnone, rfl⟩ := bind_ok h
  by_cases hk : k = key
  · subst hk
    exact (Move.bound job { place := env.place, overlap := overlap, enabled := !paused } scope hj
      hback hm hnone).of_eq (by simp [Db.rows, Db.runsOf, hj])
  · exact .of_same
      (by simp [Db.rows, Db.runsOf, Table.set_of_ne _ _ _ hk, Table.update_of_ne _ _ _ _ hk])

theorem change_move {r : Reading} {action : Action} {v : Values} {out : Unit}
    (h : change cal env r c action v t₁ db = .ok (db', out))
    (hread : ∀ b, db.bindings r.key = some b → b.revision = r.binding.revision →
      r.binding.enabled = b.enabled ∧ r.binding.cancelled = b.cancelled ∧
      ∀ saved, db.migrations r.key = some saved → saved.state = .temporal) :
    Move fm a k t t' (db.rows k adm) (db'.rows k adm) := by
  rcases change_ok h with ⟨-, -, rfl⟩ | ⟨hcan, job, b, due, hj, hb, hrev, rfl⟩
  · exact .same
  obtain ⟨hen, hsame, hm⟩ := hread b hb hrev
  by_cases hk : k = r.key
  · subst hk
    exact (Move.changed job b r action v due hj hb (hsame ▸ hcan) hen hm).of_eq
      (by simp [Db.rows, Db.runsOf])
  · exact .of_same (by simp [Db.rows, Db.runsOf, Table.set_of_ne _ _ _ hk])

theorem synced_move {r : Reading} : Move fm a k t t' (db.rows k adm) ((synced r db).rows k adm) := by
  rcases db.bindings.update_cases r.key (·.revision = r.binding.revision)
    (fun b => { b with
      applied := r.binding.revision
      remoteDeleted := r.binding.cancelled || r.binding.retired }) k with h | ⟨b, -, hb, -, h⟩
  · exact .of_same (by simp [Db.rows, Db.runsOf, synced, h])
  · exact (Move.synced b r.binding.revision (r.binding.cancelled || r.binding.retired) hb).of_eq
      (by simp [Db.rows, Db.runsOf, synced, h])

theorem prepare_move {out : Option Time} (h : prepare fm env key w t₁ db = .ok (db', out)) :
    db' = db ∨ (∀ o ∈ db.occurrences, o.workflow ≠ w) ∧ (∃ o ∈ db'.occurrences, o.workflow = w) ∧
      Move fm a k t t' (db.rows k adm)
        (db'.rows k (adm ++ [⟨key, .temporal, (fm.slot w).toOption⟩])) := by
  obtain ⟨hw, job, b, hj, hb, rfl | ⟨hcan, hon, hlt, hnew, db₁, hres, rfl⟩⟩ := prepare_ok h
  · exact .inl rfl
  refine .inr ⟨hnew, ⟨_, List.mem_append_right _ (List.mem_singleton.2 rfl), rfl⟩, ?_⟩
  have hnew' : ∀ o ∈ (db.rows k adm).occurrences, o.workflow ≠ w := fun o ho =>
    hnew o (List.mem_filter.1 ho).1
  by_cases hk : k = key
  · subst hk
    cases hres with
    | unmigrated hm =>
      exact (Move.reserved job b w (t₁ + job.timeout) _ hj hb hcan hon hlt hw hnew'
        (.inl ⟨hm, rfl⟩)).of_eq (by simp [Db.rows, Db.runsOf, reserve, hj, hb])
    | migrated saved slot hm hst _ _ hslot hbar hfree =>
      exact (Move.reserved job b w (t₁ + job.timeout) _ hj hb hcan hon hlt hw hnew'
        (.inr ⟨saved, slot, hm, hst, hslot, hbar, by rw [Db.rows_fenced]; exact hfree, rfl⟩)).of_eq
        (by simp [Db.rows, Db.runsOf, reserve, hj, hb])
  · cases hres <;> exact .of_same
      (by simp [Db.rows, Db.runsOf, reserve, Table.update_of_ne _ _ _ _ hk, Ne.symm hk])

theorem started_job (id : Token) (o : Occurrence) : (started w id o).job = o.job := by
  unfold started; split_ifs <;> rfl

theorem closed_job (state : Outcome) (o : Occurrence) : (closed w state o).job = o.job := by
  unfold closed; split_ifs <;> rfl

theorem filter_occurrences {f : Occurrence → Occurrence} (hf : ∀ o, (f o).job = o.job)
    (l : List Occurrence) : (l.map f).filter (·.job = k) = (l.filter (·.job = k)).map f := by
  rw [List.filter_map]
  congr 1
  exact List.filter_congr fun o _ => by simp [hf o]

theorem prepared_move {id : Token} :
    Move fm (.prepared w id) k t t' (db.rows k adm) ((prepared w id db).rows k adm) :=
  (Move.begun w id rfl).of_eq (by
    simp only [Db.rows, Db.runsOf, prepared]
    rw [filter_occurrences (started_job id)])

/-- An occurrence is closed in the rows of its own job only. -/
theorem filter_closed_of_ne {state : Outcome} {l : List Occurrence}
    (hocc : ∀ o ∈ l, o.workflow.schedule = o.job) (hk : k ≠ w.schedule) :
    (l.map (closed w state)).filter (·.job = k) = l.filter (·.job = k) := by
  rw [filter_occurrences (closed_job state)]
  refine (List.map_congr_left (g := id) fun o ho => ?_).trans (List.map_id _)
  obtain ⟨hmem, hjob⟩ := List.mem_filter.1 ho
  have hjob : o.job = k := by simpa using hjob
  have hne : o.workflow ≠ w := fun hw => hk (by rw [← hjob, ← hocc o hmem, hw])
  simp [closed, hne]

theorem finish_move {r : Result} {out : Unit} (h : finish u r db = .ok (db', out))
    (hocc : ∀ o ∈ db.occurrences, o.workflow.schedule = o.job)
    (hr : r.workflow.schedule = r.key) :
    Move fm (.finish r) k t t' (db.rows k adm) (db'.rows k adm) := by
  obtain ⟨job, b, hj, hb, ⟨rfl, -⟩ | ⟨-, rfl⟩ | ⟨hcan, hopen, digest, extra, hdig, hextra, rfl⟩⟩ :=
    finish_ok h
  · exact .same
  · exact (Move.closed r rfl).of_eq (by
      simp only [Db.rows, Db.runsOf]
      rw [filter_occurrences (closed_job r.state)])
  by_cases hk : k = r.key
  · subst hk
    obtain ⟨o, ho, how, hact⟩ := hopen
    have hmine : o ∈ (db.rows r.key adm).occurrences :=
      List.mem_filter.2 ⟨ho, by simp [← hocc o ho, how, hr]⟩
    have hnotes : extra.filter (·.job = r.key) = extra := by
      rcases hextra with rfl | ⟨out, rfl⟩ <;> simp
    refine (Move.finished job b r _ digest extra rfl rfl hj hb hcan ⟨o, hmine, how, hact⟩ rfl hdig
      (hextra.imp_right fun h => ⟨u, h⟩)).of_eq ?_
    simp only [Db.rows, Db.runsOf, consumed, Table.update_same, hj, hb, Option.map_some, if_true,
      filter_occurrences (closed_job _), List.filter_append, hnotes]
  · have hother : extra.filter (·.job = k) = [] := by
      rcases hextra with rfl | ⟨out, rfl⟩ <;> simp [Ne.symm hk]
    refine .of_same ?_
    simp only [Db.rows, Db.runsOf, consumed, Table.update_of_ne _ _ _ _ hk, List.filter_append,
      hother, List.append_nil, filter_closed_of_ne hocc (hr ▸ hk)]

end Native

/-! ### Calls of `SchedulerStore` -/

namespace Store

theorem addJob_move {spec : JobSpec} {room : Bool} {out : JobId}
    (h : addJob cal spec c room key t₁ db = .ok (db', out)) :
    Move fm a k t t' (db.rows k adm) (db'.rows k adm) := by
  obtain ⟨due, rfl, hnone, -, -⟩ := addJob_ok h
  by_cases hk : k = key
  · subst hk
    exact (Move.added (newJob spec c due) hnone ⟨rfl, rfl, by simp [newJob]⟩).of_eq
      (by simp [Db.rows, Db.runsOf])
  · exact .of_same (by simp [Db.rows, Db.runsOf, Table.set_of_ne _ _ _ hk])

theorem disable_move {owner : Owner} :
    Move fm a k t t' (db.rows k adm) ((disable key owner db).1.rows k adm) := by
  unfold disable
  split_ifs with hs
  · by_cases hk : k = key
    · subst hk
      obtain ⟨job, hj, hown⟩ := (Table.selects_eq_true _ _ _).1 hs
      exact (Move.disabled job hj).of_eq (by simp [Db.rows, Db.runsOf, hj, hown])
    · exact .of_same (by simp [Db.rows, Db.runsOf, Table.update_of_ne _ _ _ _ hk])
  · exact .same

theorem renew_move {token : Token} {t₂ : Time} :
    Move fm a k t t' (db.rows k adm) ((renew key token t₁ t₂ db).1.rows k adm) := by
  rcases db.locks.update_cases key (·.heldBy token t₂)
    (fun l => { l with expires := t₁ + lockTerm }) k with h | ⟨l, -, hl, -, h⟩
  · exact .of_same (by simp [Db.rows, Db.runsOf, renew, h])
  · exact (Move.renewed l (t₁ + lockTerm) hl).of_eq (by simp [Db.rows, Db.runsOf, renew, h])

theorem rows_lose_of_ne (hk : k ≠ key) : (lose key db).rows k adm = db.rows k adm :=
  Rows.ext rfl rfl rfl rfl (runsOf_lose_of_ne hk) rfl rfl rfl rfl

theorem rows_stop_of_ne (hk : k ≠ key) : (stop key db).rows k adm = db.rows k adm :=
  Rows.ext (Table.update_of_ne _ _ _ _ hk) rfl rfl rfl rfl rfl rfl rfl rfl

theorem rows_start_of_ne {token run : Token} {again : Bool} {t : Time} (hk : k ≠ key) :
    (start key token run again t db).rows k adm = db.rows k adm := by
  simp [Db.rows, start, Db.runsOf, Table.set_of_ne _ _ _ hk, Table.update_of_ne _ _ _ _ hk,
    Ne.symm hk]

/-- The job and the runs after a claim that starts a run. -/
theorem start_lose (token run : Token) (t : Time) (adm : List Execution) {job : Job} (hj : db.jobs k = some job)
    (hdb : db'.jobs = db.jobs ∧ db'.runs = (lose k db).runs) :
    (start k token run (db.running k) t db').jobs k = some { job with
        retryCount := if (db.rows k adm).running then job.retryCount + 1 else job.retryCount } ∧
      (start k token run (db.running k) t db').runsOf k
        = (db.runsOf k).map (lost k) ++ [⟨run, k, .running, "", ""⟩] := by
  constructor
  · rw [Db.rows_running]
    cases db.running k <;> simp [start, hdb.1, hj]
  · have hl : (lose k db).runs.filter (·.job = k) = (db.runsOf k).map (lost k) := runsOf_lose
    simp only [Db.runsOf, start, hdb.2, List.filter_append, hl]
    simp

/-- A claim moves the rows of its job. -/
theorem Claim.move {job : Job} {token run note : Token} {out : Option Token}
    (h : Claim k job token run note t₁ db db' out) (hj : db.jobs k = some job)
    (hon : job.enabled = true) (hsql : job.backend = .sqlite) (hdue : job.nextRunAt ≤ t') :
    Move fm a k t t' (db.rows k adm) (db'.rows k
      (adm ++ if out.isSome then [(⟨k, .sqlite, some job.nextRunAt⟩ : Execution)] else [])) := by
  have hjob : (db.rows k adm).job = some job := hj
  cases h with
  | quarantined text hrun hx =>
    refine (Move.quarantined job note text hjob (by rw [Db.rows_running]; exact hrun)).of_eq ?_
    exact Rows.ext (by simp [Db.rows, stop, lose, hj]) rfl rfl (Table.erase_same ..) runsOf_lose rfl
      rfl (by simp [Db.rows]) (by simp [Db.rows])
  | refused db' hx hadm =>
    cases hadm with
    | repeated saved hm =>
      refine (Move.repeated job hjob (fun hnone => ?_)).of_eq ?_
      · rw [show (db.rows k adm).migration = some saved from hm] at hnone; cases hnone
      · exact Rows.ext (by simp [Db.rows, stop, lose, hj]) rfl rfl rfl runsOf_lose rfl rfl rfl
          (by simp [Db.rows])
    | elsewhere saved hm hs =>
      exact Move.elsewhere.of_eq (Rows.ext rfl rfl rfl rfl runsOf_lose rfl rfl rfl (by simp [Db.rows]))
  | started db₁ hx hadm =>
    cases hadm with
    | unmigrated hm =>
      obtain ⟨hjobs, hruns⟩ := start_lose token run t₁ adm hj (⟨rfl, rfl⟩ :
        (lose k db).jobs = db.jobs ∧ (lose k db).runs = (lose k db).runs)
      exact (Move.started job ⟨token, t₁ + lockTerm⟩ run _ hjob hon hsql hdue
        (.inl ⟨hm, rfl⟩)).of_eq
        (Rows.ext hjobs rfl rfl (Table.set_same ..) hruns rfl rfl rfl (by simp [Db.rows]))
    | reserved saved hm hs hf =>
      obtain ⟨hjobs, hruns⟩ := @start_lose _ { lose k db with
        fences := (lose k db).fences ++ [⟨k, job.nextRunAt, .sqlite⟩] } k token run t₁ adm _ hj
        ⟨rfl, rfl⟩
      exact (Move.started job ⟨token, t₁ + lockTerm⟩ run _ hjob hon hsql hdue
        (.inr ⟨saved, hm, hs, by rw [Db.rows_fenced]; exact hf, rfl⟩)).of_eq
        (Rows.ext hjobs rfl rfl (Table.set_same ..) hruns
          (by simp [Db.rows, start, lose]) rfl rfl (by simp [Db.rows]))

/-- A claim leaves the rows of the other jobs alone. -/
theorem Claim.same {job : Job} {token run note : Token} {out : Option Token} {slot : Option Time}
    (h : Claim key job token run note t₁ db db' out) (hk : k ≠ key) :
    db'.rows k (adm ++ if out.isSome then [(⟨key, .sqlite, slot⟩ : Execution)] else [])
      = db.rows k adm := by
  have hadm : ∀ {db₁ : Db}, db₁.rows k (adm ++ [⟨key, .sqlite, slot⟩]) = db₁.rows k adm := by
    intro db₁
    simp [Db.rows, Ne.symm hk]
  cases h with
  | quarantined text hrun hx =>
    exact Rows.ext (Table.update_of_ne _ _ _ _ hk) rfl rfl (Table.erase_of_ne _ _ hk)
      (runsOf_lose_of_ne hk) rfl rfl (by simp [Db.rows, Ne.symm hk]) (by simp [Db.rows])
  | refused db' hx hadm' =>
    cases hadm' with
    | repeated => simp [rows_stop_of_ne hk, rows_lose_of_ne hk]
    | elsewhere => simp [rows_lose_of_ne hk]
  | started db₁ hx hadm' =>
    simp only [Option.isSome_some, if_true, hadm, rows_start_of_ne hk]
    cases hadm' with
    | unmigrated => exact rows_lose_of_ne hk
    | reserved =>
      exact Rows.ext rfl rfl rfl rfl (runsOf_lose_of_ne hk) (by simp [Db.rows, lose, Ne.symm hk]) rfl
        rfl rfl

variable (fm a k t adm) in
theorem claimDue_move {seen t₂ t₃ : Time} {token run note : Token} {out : Option Token}
    (h : claimDue key seen token run note t₁ t₂ t₃ db = .ok (db', out)) (ht : t₁ ≤ t') :
    Move fm a k t t' (db.rows k adm) (db'.rows k
      (adm ++ if out.isSome then [(⟨key, .sqlite, some seen⟩ : Execution)] else [])) := by
  rcases claimDue_ok h with ⟨rfl, rfl⟩ | ⟨job, hj, hdue, rfl, -, hcl⟩
  · exact .of_same (by simp)
  simp only [due, Bool.and_eq_true, decide_eq_true_eq] at hdue
  by_cases hk : k = key
  · subst hk
    exact hcl.move hj hdue.1.2 hdue.1.1 (le_trans hdue.2 ht)
  · exact .of_same (hcl.same hk)

theorem complete_move {token run note : Token} {state : Outcome} {output error : String}
    {t₂ : Time} {done : Bool}
    (h : complete cal key token run note state output error t₁ t₂ db = .ok (db', done))
    (hact : ∃ c, a = .call c) (ht : t ≤ t₂) (hstate : state ≠ .erasing) (hown : ∀ r ∈ db.runs, r.id = run → r.job = key) :
    Move fm a k t t' (db.rows k adm) (db'.rows k adm) := by
  rcases complete_ok h with ⟨-, rfl, -⟩ | ⟨job, due, extra, hl, hj, hdue, -, rfl, -, hextra⟩
  · exact .same
  obtain ⟨l, hl, -⟩ := (Table.selects_eq_true _ _ _).1 hl
  have hruns : ∀ r ∈ db.runs, (finished run (verdict job state error) (cut 65536 output) r).job
      = r.job := fun r _ => finished_job r
  by_cases hk : k = key
  · subst hk
    have hnotes : extra.filter (·.job = k) = extra := by
      rcases hextra with rfl | ⟨out, rfl⟩ <;> simp
    refine (Move.completed job l run state (cut 65536 output) error due extra hact hl hj
      hstate (lt_of_le_of_lt ht (nextDue_lt hdue)) (fun n hn => ?_)).of_eq ?_
    · rcases hextra with rfl | ⟨out, rfl⟩
      · cases hn
      · rw [List.mem_singleton.1 hn]
    · exact Rows.ext (Table.set_same ..) rfl rfl (Table.erase_same ..) (runsOf_map hruns) rfl rfl
        (by simp only [Db.rows, completed, List.filter_append, hnotes]) rfl
  · have hother : extra.filter (·.job = k) = [] := by
      rcases hextra with rfl | ⟨out, rfl⟩ <;> simp [Ne.symm hk]
    refine .of_same (Rows.ext (Table.set_of_ne _ _ _ hk) rfl rfl (Table.erase_of_ne _ _ hk) ?_ rfl
      rfl (by simp only [Db.rows, completed, List.filter_append, hother, List.append_nil]) rfl)
    refine (runsOf_map hruns).trans ?_
    refine (List.map_congr_left (g := id) fun r hr => ?_).trans (List.map_id _)
    obtain ⟨hr, hjob⟩ := List.mem_filter.1 hr
    have hne : r.id ≠ run := fun hid =>
      hk ((by simpa using hjob : r.job = k).symm.trans (hown r hr hid))
    simp [finished, hne]

end Store

end Scheduling

end PythonAI
