import PythonAI.Tasks.Durable
import PythonAI.Tasks.Replay

/-!
# `durable_invoke` resumes, as long as no call overlooks the row it claims

Whether a call continues from the saved checkpoint is decided by a read it makes *before* it
claims.  If another call inserts the task in between and gives it back, the first one starts from
scratch (`Durable.skill_runs_twice`).  `Durable.resumes` shows that nothing else goes wrong: in
every run in which no call that read no task takes over an existing one, a call that takes over
an existing row continues from that row's checkpoint, a skill function is entered at most once,
and no tool call with a recorded result is started.
-/

namespace PythonAI

open Library

/-- A claim at `t` would take the row over. -/
def TaskRow.claimable (row : TaskRow) (t : Time) : Bool :=
  !row.state.terminal && !row.leased t && !row.phase.started && row.state ≠ .suspended
    && row.state ≠ .uncertain && row.recoveries < recoveryLimit

/-- The phases of a directly invoked skill whose function may have been entered. -/
def Phase.skill : Phase → Bool
  | skillStarted | skillExecuted | skillDone => true
  | _ => false

theorem Phase.skill_cases {p : Phase} (h : p.skill = true) (hs : p.started = false) :
    p = .skillExecuted ∨ p = .skillDone := by
  cases p <;> simp_all [skill, started]

namespace Durable

/-! ### The invariant -/

/-- The token a call holds. -/
def Pc.token? : Pc → Option Token
  | claimed _ token _ _ => some token
  | working w _ => some w.token
  | _ => none

/-- The call is about to enter the skill function. -/
def Pc.starting (pc : Pc) : Prop := ∃ w, pc = .working w .started

/-- What a call knows of the phase and the checkpoint while it holds the lease. -/
def Held (runs : ℕ) (phase : Phase) (data : Checkpoint) : Pc → Prop
  | .claimed a _ _ found => phase.started = false ∧
      (∀ row₀, found = some row₀ → data = row₀.checkpoint ∧ phase = row₀.phase) ∧
      (found = none → phase.skill = false ∧ data.messages = a.messages)
  | .working w stage => match stage with
    | .entered | .suspending .. | .waiting .. => phase.skill = false
    | .executed _ => phase.skill = true ∧ (phase = .skillStarted → runs = 1)
    | .recorded _ | .verified _ => phase = .skillExecuted ∨ phase = .skillDone
    | .agent | .tool _ => phase.skill = false ∧
        assistantFrontier data.messages = assistantFrontier w.messages
    | .finishing _ state _ => state = .suspended → phase.skill = false
    | _ => True
  | _ => True

/-- What holds of one call. -/
structure ProcOk (u : Token) (r : Option TaskRow) (runs : ℕ) (pc : Pc) : Prop where
  /-- its token was handed out -/
  issued : ∀ token, pc.token? = some token → token < u
  /-- what it knows of the row while it holds the lease -/
  held : ∀ row token, r = some row → pc.token? = some token → row.leaseOwner = some token →
    Held runs row.phase row.checkpoint pc
  /-- before it enters the skill function, nobody has, and the row says `skill_started` -/
  starting : pc.starting → runs = 0 ∧ ∃ row, r = some row ∧ row.phase = .skillStarted
  /-- a call that took over an existing row reads its checkpoint -/
  loads : ∀ a token existing found, pc = .claimed a token existing found →
    found.isSome = true → existing = true

/-- What holds of the row. -/
structure RowOk (runs : ℕ) (r : Option TaskRow) : Prop where
  /-- the skill function was entered at most once -/
  le_one : runs ≤ 1
  /-- once it was entered, the phase is one of a skill -/
  begun : runs = 1 → ∃ row, r = some row ∧ row.phase.skill = true
  /-- a suspended row has no lease and is not one of a skill -/
  suspended : ∀ row, r = some row → row.state = .suspended →
    row.leaseOwner = none ∧ row.phase.skill = false
  /-- the saved result of a skill is marked as such -/
  kind : ∀ row, r = some row → row.phase = .skillExecuted ∨ row.phase = .skillDone →
    row.checkpoint.kind = some "skill"

/-- The invariant of the system. -/
structure Inv (k : TaskKey) (s : Sys) : Prop where
  /-- the invariant of the task database -/
  base : s.base.Inv
  /-- every call -/
  proc : ∀ i, ProcOk s.base.uuids (s.base.db.tasks k) s.skillRuns (s.pcs i)
  /-- the row -/
  row : RowOk s.skillRuns (s.base.db.tasks k)
  /-- no two calls have the same token -/
  distinct : ∀ i j token, (s.pcs i).token? = some token → (s.pcs j).token? = some token → i = j
  /-- at most one call is about to enter the skill function -/
  one : ∀ i j, (s.pcs i).starting → (s.pcs j).starting → i = j

/-! ### Changes of the row -/

/-- A change of the row that leaves every call as it was. -/
inductive Calm : Option TaskRow → Option TaskRow → Prop
  | same (r : Option TaskRow) : Calm r r
  | kept (row row' : TaskRow) (hphase : row'.phase = row.phase)
      (hdata : row'.checkpoint = row.checkpoint)
      (howner : row'.leaseOwner = row.leaseOwner ∨ row'.leaseOwner = none)
      (hsus : row'.state = .suspended → row'.leaseOwner = none ∧ row.phase.skill = false) :
      Calm (some row) (some row')
  | reopened (row row' : TaskRow) (hskill : row.phase.skill = false)
      (hphase : row'.phase = .toolDone) (howner : row'.leaseOwner = none)
      (hstate : row'.state = .pending) : Calm (some row) (some row')

variable {k : TaskKey} {u u' : Token} {r r' : Option TaskRow} {runs : ℕ} {pc : Pc} {s s' : Sys}

theorem ProcOk.calm (h : ProcOk u r runs pc) (hc : Calm r r') (hu : u ≤ u') :
    ProcOk u' r' runs pc := by
  have issued : ∀ token, pc.token? = some token → token < u' :=
    fun token ht => lt_of_lt_of_le (h.issued token ht) hu
  cases hc with
  | same => exact ⟨issued, h.held, h.starting, h.loads⟩
  | kept row row' hphase hdata howner hsus =>
    refine ⟨issued, ?_, ?_, h.loads⟩
    · intro row₁ token hrow₁ ht hown
      cases hrow₁
      rcases howner with hkeep | hnone
      · rw [hphase, hdata]
        exact h.held row token rfl ht (hkeep ▸ hown)
      · rw [hnone] at hown; cases hown
    · intro hs
      obtain ⟨hr, row₀, hrow₀, hp⟩ := h.starting hs
      cases hrow₀
      exact ⟨hr, row', rfl, hphase.trans hp⟩
  | reopened row row' hskill hphase howner hstate =>
    refine ⟨issued, ?_, ?_, h.loads⟩
    · intro row₁ token hrow₁ ht hown
      cases hrow₁
      rw [howner] at hown; cases hown
    · intro hs
      obtain ⟨-, row₀, hrow₀, hp⟩ := h.starting hs
      cases hrow₀
      rw [hp] at hskill; cases hskill

theorem RowOk.calm (h : RowOk runs r) (hc : Calm r r') : RowOk runs r' := by
  cases hc with
  | same => exact h
  | kept row row' hphase hdata howner hsus =>
    refine ⟨h.le_one, fun hr => ?_, ?_, ?_⟩
    · obtain ⟨row₀, hrow₀, hp⟩ := h.begun hr
      cases hrow₀
      exact ⟨row', rfl, hphase ▸ hp⟩
    · intro row₁ hrow₁ hs
      cases hrow₁
      rw [hphase]; exact hsus hs
    · intro row₁ hrow₁ hp
      cases hrow₁
      rw [hdata]; exact h.kind row rfl (hphase ▸ hp)
  | reopened row row' hskill hphase howner hstate =>
    refine ⟨h.le_one, fun hr => ?_, ?_, ?_⟩
    · obtain ⟨row₀, hrow₀, hp⟩ := h.begun hr
      cases hrow₀
      rw [hskill] at hp; cases hp
    · intro row₁ hrow₁ hs
      cases hrow₁
      rw [hstate] at hs; cases hs
    · intro row₁ hrow₁ hp
      cases hrow₁
      rw [hphase] at hp
      rcases hp with hp | hp <;> cases hp

/-- A calm change of the row keeps the invariant. -/
theorem Inv.calm {base : TaskSys} (h : Inv k s) (hbase : base.Inv)
    (hu : s.base.uuids ≤ base.uuids) (hc : Calm (s.base.db.tasks k) (base.db.tasks k)) :
    Inv k { s with base := base } where
  base := hbase
  proc i := (h.proc i).calm hc hu
  row := h.row.calm hc
  distinct := h.distinct
  one := h.one

/-- A step of one call that changes nothing else keeps the invariant. -/
theorem Inv.setPc {i : ℕ} (h : Inv k s)
    (htoken : ∀ token, pc.token? = some token → (s.pcs i).token? = some token)
    (hstart : ¬ pc.starting)
    (hheld : ∀ row token, s.base.db.tasks k = some row → pc.token? = some token →
      row.leaseOwner = some token → Held s.skillRuns row.phase row.checkpoint pc)
    (hloads : ∀ a token existing found, pc = .claimed a token existing found →
      found.isSome = true → existing = true) :
    Inv k { s with pcs := Function.update s.pcs i pc } where
  base := h.base
  proc j := by
    by_cases hj : j = i
    · subst hj
      show ProcOk _ _ _ (Function.update s.pcs j pc j)
      rw [Function.update_self]
      exact ⟨fun token ht => (h.proc j).issued token (htoken token ht), hheld,
        fun hs => absurd hs hstart, hloads⟩
    · show ProcOk _ _ _ (Function.update s.pcs i pc j)
      rw [Function.update_of_ne hj]
      exact h.proc j
  row := h.row
  distinct := by
    have htok : ∀ j token, (Function.update s.pcs i pc j).token? = some token →
        (s.pcs j).token? = some token := by
      intro j token ht
      by_cases hj : j = i
      · subst hj
        rw [Function.update_self] at ht
        exact htoken token ht
      · rwa [Function.update_of_ne hj] at ht
    exact fun a b token ha hb => h.distinct a b token (htok a token ha) (htok b token hb)
  one := by
    have hst : ∀ j, (Function.update s.pcs i pc j).starting → (s.pcs j).starting := by
      intro j hj
      by_cases hji : j = i
      · subst hji
        rw [Function.update_self] at hj
        exact absurd hj hstart
      · rwa [Function.update_of_ne hji] at hj
    exact fun a b ha hb => h.one a b (hst a ha) (hst b hb)

/-- A step after which a call holds no token keeps the invariant. -/
theorem Inv.setIdle {i : ℕ} (h : Inv k s) (htoken : pc.token? = none) :
    Inv k { s with pcs := Function.update s.pcs i pc } := by
  refine h.setPc (fun token ht => ?_) ?_ (fun _ token _ ht => ?_) ?_
  · rw [htoken] at ht; cases ht
  · rintro ⟨w, rfl⟩; cases htoken
  · rw [htoken] at ht; cases ht
  · rintro _ _ _ _ rfl; cases htoken

/-- A step of a worker to another stage, but not to the skill function, keeps the invariant, if
the worker knows what the stage demands. -/
theorem Inv.setWorking {i : ℕ} {w w' : Worker} {stage stage' : Stage} (h : Inv k s)
    (hpc : s.pcs i = .working w stage) (hstage : stage' ≠ .started)
    (hheld : ∀ row, s.base.db.tasks k = some row → row.leaseOwner = some w.token →
      Held s.skillRuns row.phase row.checkpoint (.working w' stage'))
    (hw : w'.token = w.token := by rfl) :
    Inv k { s with pcs := Function.update s.pcs i (.working w' stage') } := by
  refine h.setPc (fun token ht => ?_) ?_ (fun row token hrow ht hown => ?_)
    (fun _ _ _ _ hc => by cases hc)
  · rw [hpc]; exact (congrArg some hw).symm.trans ht
  · rintro ⟨v, hv⟩
    cases hv; exact hstage rfl
  · cases ht
    exact hheld row hrow (hw ▸ hown)

/-! ### The operations of a call -/

/-- What a human does to the row is calm. -/
theorem calm_of_human (h : RowOk runs r) (hs : HumanStep r r') : Calm r r' := by
  cases hs with
  | same => exact .same _
  | answered row call text hsus hcall =>
    obtain ⟨howner, hskill⟩ := h.suspended row rfl hsus
    exact .reopened row _ hskill rfl howner rfl
  | resolved row call text hunc hphase =>
    exact .reopened row _ (by rw [hphase]; rfl) rfl rfl rfl
  | stopped row reply hopen => exact .kept row _ rfl rfl (.inr rfl) nofun

/-- Giving up an expired lease is calm. -/
theorem calm_of_markUncertain {owner : Owner} {key : TaskId} {t : Time} {db : TaskDb} :
    Calm (db.tasks k) ((TaskStore.markUncertain owner key t db).tasks k) :=
  TaskStore.update_cases .same (fun row _ => .kept row _ rfl rfl (.inr rfl) nofun) k

/-- Renewing a lease is calm. -/
theorem calm_of_renew {owner : Owner} {key : TaskId} {token : Token} {t₁ t₂ : Time}
    {db : TaskDb} : Calm (db.tasks k) ((TaskStore.renew owner key token t₁ t₂ db).1.tasks k) := by
  refine TaskStore.update_cases .same (fun row hp => .kept row _ rfl rfl (.inl rfl) ?_) k
  intro hs
  have hrun := (TaskStore.renewable_iff.1 hp).2
  rw [hrun] at hs; cases hs

/-- The row that a token selects for a checkpoint. -/
theorem row_of_selects {p : TaskRow → Bool} {db : TaskDb} {owner : Owner} {key : TaskId}
    (h : db.tasks.selects (owner, key) p = true) (f : TaskRow → TaskRow) :
    ∃ row, db.tasks (owner, key) = some row ∧ p row = true ∧
      (db.tasks.update (owner, key) p f) (owner, key) = some (f row) := by
  obtain ⟨row, hrow, hp⟩ := (db.tasks.selects_eq_true _ _).1 h
  exact ⟨row, hrow, hp, Table.update_of_selects _ _ _ _ hrow hp⟩

/-- Finishing is calm, unless it suspends a skill. -/
theorem Inv.finish {w : Worker} {env : Access} {state : TaskState}
    {reply : Option String} {t : Time} {base : TaskSys} (h : Inv k s)
    (hskill : ∀ row, s.base.db.tasks k = some row → row.leaseOwner = some w.token →
      state = .suspended → row.phase.skill = false)
    (hbase : TaskSys.lts.step s.base (.finish env k.1 k.2 w.token state reply t) base) :
    Inv k { s with base := base } := by
  refine h.calm (TaskSys.inv_step h.base hbase) (TaskSys.uuids_lt hbase).le ?_
  rw [hbase.2.2.1]
  refine settle_of (P := fun db : TaskDb => Calm (s.base.db.tasks k) (db.tasks k)) (.same _)
    fun db' a hok => ?_
  obtain ⟨hsel, rfl⟩ := TaskStore.finish_ok hok
  obtain ⟨row, hrow, hheld, hnew⟩ := row_of_selects hsel fun row =>
    { row.release with
      state := state, reply := reply, verification := TaskStore.quality state row }
  show Calm (s.base.db.tasks (k.1, k.2)) (s.base.db.tasks.update (k.1, k.2) _ _ (k.1, k.2))
  rw [hnew, hrow]
  exact .kept row _ rfl rfl (.inr rfl)
    fun hs => ⟨rfl, hskill row hrow (TaskRow.heldBy_iff.1 hheld).1 hs⟩

/-- **A checkpoint of a call keeps the invariant.**  The call must know enough of the row it
overwrites: no other call is about to enter the skill function, and an entered skill is not
forgotten. -/
theorem Inv.checkpoint {w : Worker} {stage : Stage} {i : ℕ} {env : Access} {phase : Phase}
    {data : Checkpoint} {step : Option StepRecord} {t : Time} {base : TaskSys} (h : Inv k s)
    (next : Pc) (hpc : s.pcs i = .working w stage)
    (hbase : TaskSys.lts.step s.base
      (.checkpoint env k.1 k.2 w.token phase data step t) base)
    (hknow : ∀ row, s.base.db.tasks k = some row → row.leaseOwner = some w.token →
      (row.phase = .skillStarted → s.skillRuns = 1) ∧
      (phase.skill = true ∨ row.phase.skill = false) ∧
      (next.starting → phase = .skillStarted ∧ row.phase.skill = false))
    (hkind : phase = .skillExecuted ∨ phase = .skillDone → data.kind = some "skill")
    (htoken : next.token? = some w.token) (hnext : Held s.skillRuns phase data next)
    (hclaim : ∀ a token existing found, next ≠ .claimed a token existing found)
    (hok : ∀ x, TaskStore.checkpoint env k.1 k.2 w.token phase data step t s.base.db = .ok x →
      pc = next)
    (herror : ∀ e, TaskStore.checkpoint env k.1 k.2 w.token phase data step t s.base.db =
      .error e → pc = .done ∨ pc = .working w (.raised e)) :
    Inv k { s with base := base, pcs := Function.update s.pcs i pc } := by
  have hbi := TaskSys.inv_step h.base hbase
  have hdb := hbase.2.2.1
  cases hres : TaskStore.checkpoint env k.1 k.2 w.token phase data step t s.base.db with
  | error e =>
    have hsame : base.db = s.base.db := by rw [hdb]; simp [Call.perform, hres]
    have h' := h.calm hbi (TaskSys.uuids_lt hbase).le (by rw [hsame]; exact .same _)
    rcases herror e hres with rfl | rfl
    · exact h'.setIdle rfl
    · exact h'.setWorking hpc (fun h => by cases h) (fun _ _ _ => trivial)
  | ok x =>
    obtain ⟨db', out⟩ := x
    obtain rfl := hok _ hres
    obtain ⟨hsel, hx⟩ := TaskStore.checkpoint_ok hres
    obtain ⟨row, hrow, hheld, hnew⟩ := row_of_selects hsel fun row =>
      { row with phase := phase, checkpoint := data }
    obtain ⟨hhold, hrunning⟩ := TaskStore.renewable_iff.1 hheld
    have howner : row.leaseOwner = some w.token := (TaskRow.heldBy_iff.1 hhold).1
    obtain ⟨hquiet, hkeep, hstart⟩ := hknow row hrow howner
    have hrow' : base.db.tasks k = some { row with phase := phase, checkpoint := data } := by
      rw [hdb]
      simp only [Call.perform, hres]
      show db'.tasks k = _
      rw [hx]; exact hnew
    -- No other call is about to enter the skill function, and none holds this token.
    have hother : ∀ j, j ≠ i → ¬ (s.pcs j).starting := by
      intro j _ hj
      obtain ⟨hr, row₀, hrow₀, hp⟩ := (h.proc j).starting hj
      rw [show s.base.db.tasks k = some row from hrow] at hrow₀; cases hrow₀
      rw [hquiet hp] at hr; cases hr
    have htokens : ∀ j, j ≠ i → (s.pcs j).token? ≠ some w.token := fun j hj ht =>
      hj (h.distinct j i w.token ht (by rw [hpc]; rfl))
    have hupd : ∀ j, j ≠ i → Function.update s.pcs i pc j = s.pcs j := fun j hj =>
      Function.update_of_ne hj _ _
    have hlt : s.base.uuids ≤ base.uuids := (TaskSys.uuids_lt hbase).le
    refine ⟨hbi, fun j => ?_, ?_, ?_, ?_⟩
    · show ProcOk base.uuids (base.db.tasks k) s.skillRuns (Function.update s.pcs i pc j)
      rw [hrow']
      by_cases hj : j = i
      · subst hj
        rw [Function.update_self]
        refine ⟨fun token ht => ?_, ?_, ?_, fun a token e f hc => absurd hc (hclaim a token e f)⟩
        · exact lt_of_lt_of_le
            ((h.proc j).issued token (by rw [hpc]; exact htoken.symm.trans ht)) hlt
        · intro row₁ token hrow₁ ht hown
          cases hrow₁
          exact hnext
        · intro hs
          obtain ⟨hp, hskill⟩ := hstart hs
          refine ⟨?_, _, rfl, hp⟩
          have hle := h.row.le_one
          by_contra hr
          obtain ⟨row₀, hrow₀, hs₀⟩ := h.row.begun (by omega)
          rw [show s.base.db.tasks k = some row from hrow] at hrow₀; cases hrow₀
          rw [hskill] at hs₀; cases hs₀
      · rw [hupd j hj]
        refine ⟨fun token ht => lt_of_lt_of_le ((h.proc j).issued token ht) hlt, ?_,
          fun hs => absurd hs (hother j hj), (h.proc j).loads⟩
        intro row₁ token hrow₁ ht hown
        cases hrow₁
        rw [show row.leaseOwner = some token from hown] at howner
        exact absurd (howner ▸ ht) (htokens j hj)
    · show RowOk s.skillRuns (base.db.tasks k)
      rw [hrow']
      refine ⟨h.row.le_one, fun hr => ⟨_, rfl, ?_⟩, ?_, ?_⟩
      · rcases hkeep with hskill | hskill
        · exact hskill
        · obtain ⟨row₀, hrow₀, hs₀⟩ := h.row.begun hr
          rw [show s.base.db.tasks k = some row from hrow] at hrow₀; cases hrow₀
          rw [hskill] at hs₀; cases hs₀
      · intro row₁ hrow₁ hs
        cases hrow₁
        rw [show row.state = _ from hs] at hrunning; cases hrunning
      · intro row₁ hrow₁ hp
        cases hrow₁
        exact hkind hp
    · have htok : ∀ j token, (Function.update s.pcs i pc j).token? = some token →
          (s.pcs j).token? = some token := by
        intro j token ht
        by_cases hj : j = i
        · subst hj
          rw [Function.update_self] at ht
          rw [hpc]; exact htoken.symm.trans ht
        · rwa [hupd j hj] at ht
      exact fun a b token ha hb => h.distinct a b token (htok a token ha) (htok b token hb)
    · have hst : ∀ j, (Function.update s.pcs i pc j).starting → j = i := by
        intro j hj
        by_contra hji
        rw [hupd j hji] at hj
        exact hother j hji hj
      exact fun a b ha hb => (hst a ha).trans (hst b hb).symm

/-- **A claim that hands out a token keeps the invariant**, if a call that takes over an existing
row goes on to read it. -/
theorem Inv.takeOver {a : Args} {previous : Option TaskRow} {i : ℕ} {base : TaskSys}
    (h : Inv k s) (row : TaskRow) (hpc : s.pcs i = .read a previous) (hbase : base.Inv)
    (hu : s.base.uuids < base.uuids) (hrow : base.db.tasks k = some row)
    (howner : row.leaseOwner = some s.base.uuids) (hstate : row.state = .running)
    (hphase : row.phase.started = false)
    (hfound : (s.base.db.tasks k = none ∧ row.phase = .modelPending ∧
        row.checkpoint.messages = a.messages) ∨
      ∃ row₀, s.base.db.tasks k = some row₀ ∧ row.phase = row₀.phase ∧
        row.checkpoint = row₀.checkpoint)
    (hloads : (s.base.db.tasks k).isSome = true → previous.isSome = true) :
    Inv k { s with
      base := base
      pcs := Function.update s.pcs i
        (.claimed a s.base.uuids previous.isSome (s.base.db.tasks k)) } := by
  set pc : Pc := .claimed a s.base.uuids previous.isSome (s.base.db.tasks k) with hpc'
  have hupd : ∀ j, j ≠ i → Function.update s.pcs i pc j = s.pcs j := fun j hj =>
    Function.update_of_ne hj _ _
  -- A call that is about to enter the skill function has the row in a started phase.
  have hother : ∀ j, ¬ (s.pcs j).starting := by
    intro j hj
    obtain ⟨-, row₁, hrow₁, hp⟩ := (h.proc j).starting hj
    rcases hfound with ⟨hnone, -, -⟩ | ⟨row₀, hrow₀, hp₀, -⟩
    · rw [hnone] at hrow₁; cases hrow₁
    · rw [hrow₀] at hrow₁; cases hrow₁
      rw [hp₀, hp] at hphase; cases hphase
  have hnew : ∀ j, ¬ (Function.update s.pcs i pc j).starting := by
    intro j hj
    by_cases hji : j = i
    · subst hji
      rw [Function.update_self] at hj
      obtain ⟨w, hw⟩ := hj
      rw [hpc'] at hw; cases hw
    · rw [hupd j hji] at hj
      exact hother j hj
  refine ⟨hbase, fun j => ?_, ?_, ?_, fun a b ha _ => absurd ha (hnew a)⟩
  · show ProcOk base.uuids (base.db.tasks k) s.skillRuns (Function.update s.pcs i pc j)
    rw [hrow]
    refine ⟨?_, ?_, fun hs => absurd hs (hnew j), ?_⟩
    · intro token ht
      by_cases hj : j = i
      · subst hj
        rw [Function.update_self] at ht
        cases ht; exact hu
      · rw [hupd j hj] at ht
        exact ((h.proc j).issued token ht).trans hu
    · intro row₁ token hrow₁ ht hown
      cases hrow₁
      rw [howner] at hown; cases hown
      by_cases hj : j = i
      · subst hj
        rw [Function.update_self]
        refine ⟨hphase, fun row₀ hrow₀ => ?_, fun hnone => ?_⟩
        · rcases hfound with ⟨hnone, -, -⟩ | ⟨row₁, hrow₁, hp, hd⟩
          · rw [hnone] at hrow₀; cases hrow₀
          · rw [hrow₁] at hrow₀; cases hrow₀
            exact ⟨hd, hp⟩
        · rcases hfound with ⟨-, hp, hm⟩ | ⟨row₁, hrow₁, -, -⟩
          · exact ⟨by rw [hp]; rfl, hm⟩
          · rw [hrow₁] at hnone; cases hnone
      · rw [hupd j hj] at ht
        exact absurd ((h.proc j).issued _ ht) (Nat.lt_irrefl _)
    · intro a' token existing found hc hf
      by_cases hj : j = i
      · subst hj
        rw [Function.update_self, hpc'] at hc
        cases hc; exact hloads hf
      · rw [hupd j hj] at hc
        exact (h.proc j).loads a' token existing found hc hf
  · show RowOk s.skillRuns (base.db.tasks k)
    rw [hrow]
    refine ⟨h.row.le_one, fun hr => ⟨row, rfl, ?_⟩, ?_, ?_⟩
    · obtain ⟨row₁, hrow₁, hs⟩ := h.row.begun hr
      rcases hfound with ⟨hnone, -, -⟩ | ⟨row₀, hrow₀, hp, -⟩
      · rw [hnone] at hrow₁; cases hrow₁
      · rw [hrow₀] at hrow₁; cases hrow₁
        rw [hp]; exact hs
    · intro row₁ hrow₁ hs
      cases hrow₁
      rw [hstate] at hs; cases hs
    · intro row₁ hrow₁ hp
      cases hrow₁
      rcases hfound with ⟨-, hm, -⟩ | ⟨row₀, hrow₀, hp₀, hd⟩
      · rw [hm] at hp; rcases hp with hp | hp <;> cases hp
      · rw [hd]; exact h.row.kind row₀ hrow₀ (hp₀ ▸ hp)
  · intro a' b' token ha hb
    have hlt : ∀ j, j ≠ i → (Function.update s.pcs i pc j).token? = some token →
        token < s.base.uuids := fun j hj ht => (h.proc j).issued token (hupd j hj ▸ ht)
    have heq : ∀ j, j = i → (Function.update s.pcs i pc j).token? = some token →
        token = s.base.uuids := by
      rintro j rfl ht
      rw [Function.update_self] at ht
      cases ht; rfl
    by_cases hai : a' = i <;> by_cases hbi : b' = i
    · rw [hai, hbi]
    · exact absurd (hlt b' hbi hb) (by rw [heq a' hai ha]; exact Nat.lt_irrefl _)
    · exact absurd (hlt a' hai ha) (by rw [heq b' hbi hb]; exact Nat.lt_irrefl _)
    · exact h.distinct a' b' token (hupd a' hai ▸ ha) (hupd b' hbi ▸ hb)

/-- Entering the skill function keeps the invariant. -/
theorem Inv.invoke {w : Worker} {stage : Stage} {i : ℕ} (h : Inv k s)
    (hpc : s.pcs i = .working w .started)
    (hstage : (∃ r, stage = .executed r) ∨ ∃ e, stage = .raised e) :
    Inv k { s with
      pcs := Function.update s.pcs i (.working w stage)
      skillRuns := s.skillRuns + 1 } := by
  obtain ⟨hzero, row, hrow, hphase⟩ := (h.proc i).starting ⟨w, hpc⟩
  have hupd : ∀ j, j ≠ i → Function.update s.pcs i (.working w stage) j = s.pcs j :=
    fun j hj => Function.update_of_ne hj _ _
  have hnew : ∀ j, ¬ (Function.update s.pcs i (.working w stage) j).starting := by
    intro j hj
    by_cases hji : j = i
    · subst hji
      rw [Function.update_self] at hj
      obtain ⟨w', hw'⟩ := hj
      rcases hstage with ⟨r, rfl⟩ | ⟨e, rfl⟩ <;> cases hw'
    · rw [hupd j hji] at hj
      exact hji (h.one j i hj ⟨w, hpc⟩)
  -- What another call knows of the row does not depend on the count, once it is one.
  have hmono : ∀ phase data pc, Held s.skillRuns phase data pc →
      Held (s.skillRuns + 1) phase data pc := by
    intro phase data pc hh
    cases pc with
    | working w' stage' =>
      cases stage' with
      | executed r => exact ⟨hh.1, fun _ => by rw [hzero]⟩
      | _ => exact hh
    | _ => exact hh
  refine ⟨h.base, fun j => ?_, ?_, ?_, fun a b ha _ => absurd ha (hnew a)⟩
  · show ProcOk s.base.uuids (s.base.db.tasks k) (s.skillRuns + 1)
      (Function.update s.pcs i (.working w stage) j)
    by_cases hj : j = i
    · subst hj
      have hno := hnew j
      rw [Function.update_self] at hno ⊢
      refine ⟨fun token ht => (h.proc j).issued token (by rw [hpc]; exact ht), ?_,
        fun hs => absurd hs hno, fun _ _ _ _ hc => by cases hc⟩
      intro row₁ token hrow₁ ht hown
      rw [hrow] at hrow₁; cases hrow₁
      rcases hstage with ⟨r, rfl⟩ | ⟨e, rfl⟩
      · exact ⟨by rw [hphase]; rfl, fun _ => by rw [hzero]⟩
      · trivial
    · have hno := hnew j
      rw [hupd j hj] at hno ⊢
      exact ⟨(h.proc j).issued, fun row₁ token hrow₁ ht hown =>
        hmono _ _ _ ((h.proc j).held row₁ token hrow₁ ht hown), fun hs => absurd hs hno,
        (h.proc j).loads⟩
  · show RowOk (s.skillRuns + 1) (s.base.db.tasks k)
    exact ⟨by omega, fun _ => ⟨row, hrow, by rw [hphase]; rfl⟩, h.row.suspended, h.row.kind⟩
  · have htok : ∀ j token, (Function.update s.pcs i (.working w stage) j).token? = some token →
        (s.pcs j).token? = some token := by
      intro j token ht
      by_cases hj : j = i
      · subst hj
        rw [Function.update_self] at ht
        rw [hpc]; exact ht
      · rwa [hupd j hj] at ht
    exact fun a b token ha hb => h.distinct a b token (htok a token ha) (htok b token hb)

/-! ### The steps of a call -/

theorem afterGet_token (a : Args) (r : Option TaskRow) : (afterGet a r).token? = none := by
  unfold afterGet
  split
  · rfl
  · split_ifs
    · split
      · rfl
      · split_ifs <;> rfl
    all_goals rfl

/-- What a call knows when it enters the `try` block. -/
theorem held_entry {a : Args} {w : Worker} {row : TaskRow} {saved : Option (Checkpoint × Phase)}
    (hphase : row.phase.started = false)
    (hkind : row.phase = .skillExecuted ∨ row.phase = .skillDone →
      row.checkpoint.kind = some "skill")
    (hmessages : row.checkpoint.messages = w.messages)
    (hsaved : saved = some (row.checkpoint, row.phase) ∨
      saved = none ∧ row.phase.skill = false) :
    Held runs row.phase row.checkpoint (.working w (entry a saved)) := by
  have fresh : row.phase.skill = false →
      Held runs row.phase row.checkpoint (.working w (if a.skill then .entered else .agent)) := by
    intro hskill
    split_ifs
    · exact hskill
    · exact ⟨hskill, by rw [hmessages]⟩
  rcases hsaved with rfl | ⟨rfl, hskill⟩
  · simp only [entry]
    by_cases hdone : row.checkpoint.kind = some "skill" ∧ row.phase = .skillDone
    · rw [if_pos hdone]
      cases row.checkpoint.skillResult <;> trivial
    by_cases hexec : row.checkpoint.kind = some "skill" ∧ row.phase = .skillExecuted
    · rw [if_neg hdone, if_pos hexec]
      cases row.checkpoint.skillResult with
      | none => trivial
      | some r => exact ⟨by rw [hexec.2]; rfl, fun h => by rw [hexec.2] at h; cases h⟩
    · rw [if_neg hdone, if_neg hexec]
      refine fresh ?_
      by_contra hs
      rcases Phase.skill_cases (by simpa using hs) hphase with hp | hp
      · exact hexec ⟨hkind (.inl hp), hp⟩
      · exact hdone ⟨hkind (.inr hp), hp⟩
  · exact fresh hskill

theorem entry_ne_started (a : Args) (saved : Option (Checkpoint × Phase)) :
    entry a saved ≠ .started := by
  unfold entry
  split
  · split_ifs
    · split <;> nofun
    · split <;> nofun
    all_goals nofun
  · split_ifs <;> nofun

/-- A call that read no task does not take over an existing one. -/
def fresh (k : TaskKey) (s : Sys) : Label → Bool
  | .act i (.claim _ _ _ t₁ _) =>
    match s.pcs i, s.base.db.tasks k with
    | .read _ none, some row => !row.claimable t₁
    | _, _ => true
  | _ => true

theorem claimable_of_fresh {i : ℕ} {a : Args} {env : Access} {episode : Option ℕ}
    {criteria : Criteria} {t₁ t₂ : Time} {row : TaskRow}
    (h : fresh k s (.act i (.claim env episode criteria t₁ t₂)) = true)
    (hpc : s.pcs i = .read a none) (hrow : s.base.db.tasks k = some row) :
    row.claimable t₁ = false := by
  simp only [fresh, hpc, hrow] at h
  simpa using h

/-- A claim keeps the invariant. -/
theorem Inv.claim {a : Args} {previous : Option TaskRow} {i : ℕ} {env : Access}
    {episode : Option ℕ} {criteria : Option Criteria} {t₁ t₂ : Time} {base : TaskSys}
    (h : Inv k s) (hpc : s.pcs i = .read a previous)
    (hfresh : previous = none → ∀ row, s.base.db.tasks k = some row → row.claimable t₁ = false)
    (hbase : TaskSys.lts.step s.base
      (.claim env k.1 k.2 a.goal a.messages episode criteria t₁ t₂) base)
    (hnext : (match TaskStore.claim env k.1 k.2 a.goal a.messages episode criteria s.base.uuids
        t₁ t₂ s.base.db with
      | .ok (_, .token token) => some (.claimed a token previous.isSome (s.base.db.tasks k))
      | .ok (_, .finished) => some (.returning a)
      | .ok (_, .refused _) => some .done
      | .error _ => some .done) = some pc) :
    Inv k { s with base := base, pcs := Function.update s.pcs i pc } := by
  have hbi := TaskSys.inv_step h.base hbase
  have hu := TaskSys.uuids_lt hbase
  have hdb : base.db = settle s.base.db _ := hbase.2.2.1
  cases hclaim : TaskStore.claim env k.1 k.2 a.goal a.messages episode criteria s.base.uuids
      t₁ t₂ s.base.db with
  | error e =>
    rw [hclaim] at hnext hdb
    cases hnext
    exact (h.calm hbi hu.le (by rw [hdb]; exact .same _)).setIdle rfl
  | ok x =>
    obtain ⟨db', out⟩ := x
    rw [hclaim] at hnext hdb
    rw [settle_ok] at hdb
    rcases TaskStore.claim_ok hclaim with ⟨row, hrow, -, hsame, rfl⟩ | ⟨hrow, rfl, hnew⟩ |
      ⟨row, hrow, hopen, -, hphase, ⟨e, rfl⟩, hnew⟩ |
      ⟨row, hrow, hopen, hfree, hphase, hsus, hunc, hrec, rfl, hnew⟩
    · cases hnext
      exact (h.calm hbi hu.le (by rw [hdb, hsame]; exact .same _)).setIdle rfl
    · cases hnext
      refine h.takeOver (TaskStore.takeOver s.base.uuids t₂ 0
        (TaskStore.newRow a.goal a.messages episode criteria)) hpc hbi hu ?_ rfl rfl rfl
        (.inl ⟨hrow, rfl, rfl⟩) (fun hs => ?_)
      · rw [hdb, hnew]; exact Table.set_same ..
      · rw [show s.base.db.tasks k = none from hrow] at hs; cases hs
    · cases hnext
      refine (h.calm hbi hu.le ?_).setIdle rfl
      rw [hdb, hnew, show s.base.db.tasks k = some row from hrow]
      show Calm _ ((s.base.db.tasks.set k (TaskStore.mark row)) k)
      rw [Table.set_same]
      exact .kept row _ rfl rfl (.inl rfl) nofun
    · cases hnext
      refine h.takeOver (TaskStore.takeOver s.base.uuids t₂
        (TaskStore.recovery row).toNat row) hpc hbi hu ?_ rfl rfl hphase (.inr ⟨row, hrow, rfl, rfl⟩)
        (fun _ => ?_)
      · rw [hdb, hnew]; exact Table.set_same ..
      · cases previous with
        | some _ => rfl
        | none =>
          have := hfresh rfl row hrow
          simp [TaskRow.claimable, hopen, hfree, hphase, hsus, hunc, hrec] at this

/-- The facts a worker knows while it holds the lease. -/
theorem Inv.know {i : ℕ} {w : Worker} {stage : Stage} (h : Inv k s)
    (hpc : s.pcs i = .working w stage) {row : TaskRow} (hrow : s.base.db.tasks k = some row)
    (howner : row.leaseOwner = some w.token) :
    Held s.skillRuns row.phase row.checkpoint (.working w stage) := by
  have := (h.proc i).held row w.token hrow (by rw [hpc]; rfl) howner
  rwa [hpc] at this

theorem checkpointed_ok {α : Type} {w : Worker} {next : Pc} {x : Except Error α} {y : α}
    (hnext : some (checkpointed w next x) = some pc) (h : x = .ok y) : pc = next := by
  subst h; exact (Option.some.inj hnext).symm

theorem checkpointed_error {α : Type} {w : Worker} {next : Pc} {x : Except Error α} {e : Error}
    (hnext : some (checkpointed w next x) = some pc) (h : x = .error e) :
    pc = .done ∨ pc = .working w (.raised e) := by
  subst h; exact .inr (Option.some.inj hnext).symm

/-- The agent's progress keeps the invariant. -/
theorem Inv.save {i : ℕ} {w : Worker} {stage stage' : Stage} {env : Access} {phase : Phase}
    {data : Checkpoint} {step : Option StepRecord} {t : Time} {base : TaskSys} (h : Inv k s)
    (w' : Worker) (hpc : s.pcs i = .working w stage) (hstage : stage = .agent ∨ ∃ call, stage = .tool call)
    (hstage' : stage' = .agent ∨ ∃ call, stage' = .tool call) (htoken : w'.token = w.token)
    (hmessages : data.messages = w'.messages) (hphase : phase.skill = false)
    (hbase : TaskSys.lts.step s.base (.checkpoint env k.1 k.2 w.token phase data step t) base)
    (hnext : some (checkpointed w (.working w' stage')
      (TaskStore.checkpoint env k.1 k.2 w.token phase data step t s.base.db)) = some pc) :
    Inv k { s with base := base, pcs := Function.update s.pcs i pc } := by
  refine h.checkpoint (.working w' stage') hpc hbase (fun row hrow howner => ?_)
    (fun hp => by rcases hp with rfl | rfl <;> cases hphase) (congrArg some htoken) ?_
    (fun _ _ _ _ hc => by cases hc) (fun x => checkpointed_ok hnext)
    (fun e => checkpointed_error hnext)
  · have hskill : row.phase.skill = false := by
      rcases hstage with rfl | ⟨call, rfl⟩
      · exact (h.know hpc hrow howner).1
      · exact (h.know hpc hrow howner).1
    refine ⟨fun hp => ?_, .inr hskill, ?_⟩
    · rw [hp] at hskill; cases hskill
    · rintro ⟨v, hv⟩
      rcases hstage' with rfl | ⟨call, rfl⟩ <;> cases hv
  · rcases hstage' with rfl | ⟨call, rfl⟩
    · exact ⟨hphase, by rw [hmessages]⟩
    · exact ⟨hphase, by rw [hmessages]⟩

theorem skill_of_agentPhase {p : Phase} (h : agentPhase p = true) : p.skill = false := by
  cases p <;> simp_all [agentPhase, Phase.skill]

theorem failedState_ne (row : TaskRow) (e : Error) : failedState row e ≠ .suspended := by
  unfold failedState
  split_ifs
  · nofun
  · split <;> nofun

theorem finalState_ne (lost : Bool) (r : Option SkillResult) (reply : String) :
    finalState lost r reply ≠ .suspended := by
  unfold finalState
  split_ifs <;> nofun

theorem Act.call_fail (p : Pc) (e : Error) : (Act.fail e).call k p = none := by
  rcases p with _ | _ | _ | _ | _ | _ | ⟨w, stage⟩ | _ <;> try rfl
  cases stage <;> rfl

theorem Act.call_crash (p : Pc) : Act.crash.call k p = none := by
  rcases p with _ | _ | _ | _ | _ | _ | ⟨w, stage⟩ | _ <;> try rfl
  cases stage <;> rfl

theorem Act.call_beat (w : Worker) (stage : Stage) (t₁ t₂ : Time) :
    (Act.beat t₁ t₂).call k (.working w stage) = some (.renew k.1 k.2 w.token t₁ t₂) := by
  cases stage <;> rfl

theorem Act.runs_eq_zero (p : Pc) {a : Act} (h : ∀ r, a ≠ .invoke r) : a.runs p = 0 := by
  cases a with
  | invoke r => exact absurd rfl (h r)
  | _ => rcases p with _ | _ | _ | _ | _ | _ | ⟨w, stage⟩ | _ <;> try rfl
         cases stage <;> rfl

/-- **Every step of a call keeps the invariant**, if the call does not overlook the row it
claims. -/
theorem inv_act {i : ℕ} {a : Act} {base : TaskSys} (h : Inv k s)
    (hfresh : fresh k s (.act i a) = true)
    (hnext : a.next k s.base.uuids s.base.db (s.pcs i) = some pc)
    (hbase : match a.call k (s.pcs i) with
      | some c => TaskSys.lts.step s.base c base
      | none => base = s.base) :
    Inv k ⟨base, Function.update s.pcs i pc, s.skillRuns + a.runs (s.pcs i)⟩ := by
  generalize hpc : s.pcs i = p at hnext hbase ⊢
  unfold Act.next at hnext
  split at hnext
  case h_1 a => -- get
    obtain rfl : base = s.base := hbase
    cases hnext
    exact h.setIdle (afterGet_token _ _)
  case h_2 a text env => -- answer
    have hb : TaskSys.lts.step s.base (.answer env k.1 k.2 text) base := hbase
    have hcalm := calm_of_human h.row
      (Call.humanStep (c := .answer env k.1 k.2 text) (u := s.base.uuids) rfl k)
    have h' := h.calm (TaskSys.inv_step h.base hb) (TaskSys.uuids_lt hb).le
      (by rw [hb.2.2.1]; exact hcalm)
    split at hnext <;> cases hnext <;> exact h'.setIdle rfl
  case h_3 a => -- reread
    obtain rfl : base = s.base := hbase
    split at hnext <;> cases hnext <;> exact h.setIdle rfl
  case h_4 a previous env episode criteria t₁ t₂ => -- claim
    refine h.claim hpc (fun hnone row hrow => ?_) hbase hnext
    exact claimable_of_fresh hfresh (by rw [hpc, hnone]) hrow
  case h_5 a => -- fetch
    obtain rfl : base = s.base := hbase
    cases hnext
    exact h.setIdle rfl
  case h_6 a token found => -- load, with `previous`
    obtain rfl : base = s.base := hbase
    split at hnext
    case h_1 row hrow =>
      cases hnext
      refine h.setPc (fun tok ht => by rw [hpc]; exact ht) ?_ (fun row₁ tok hrow₁ ht hown => ?_)
        (fun _ _ _ _ hc => by cases hc)
      · rintro ⟨w, hw⟩
        exact entry_ne_started _ _ (Pc.working.inj hw).2
      · rw [hrow] at hrow₁; cases hrow₁
        have hheld := (h.proc i).held row tok hrow (by rw [hpc]; exact ht) hown
        rw [hpc] at hheld
        exact held_entry hheld.1 (h.row.kind row hrow) rfl (.inl rfl)
    case h_2 =>
      cases hnext
      exact h.setIdle rfl
  case h_7 a token found => -- load, without `previous`
    obtain rfl : base = s.base := hbase
    cases hnext
    refine h.setPc (fun tok ht => by rw [hpc]; exact ht) ?_ (fun row tok hrow ht hown => ?_)
      (fun _ _ _ _ hc => by cases hc)
    · rintro ⟨w, hw⟩
      exact entry_ne_started _ _ (Pc.working.inj hw).2
    · have hheld := (h.proc i).held row tok hrow (by rw [hpc]; exact ht) hown
      rw [hpc] at hheld
      have hnone : found = none := by
        cases found with
        | none => rfl
        | some row₀ => cases (h.proc i).loads _ _ _ _ hpc rfl
      obtain ⟨hskill, hmessages⟩ := hheld.2.2 hnone
      exact held_entry hheld.1 (h.row.kind row hrow) hmessages (.inr ⟨rfl, hskill⟩)
  case h_8 w env t => -- start
    refine h.checkpoint (.working w .started) hpc hbase (fun row hrow howner => ?_)
      (by rintro (hp | hp) <;> cases hp) rfl trivial (fun _ _ _ _ hc => by cases hc)
      (fun x => checkpointed_ok hnext) (fun e => checkpointed_error hnext)
    have hskill : row.phase.skill = false := h.know hpc hrow howner
    refine ⟨fun hp => ?_, .inl rfl, fun _ => ⟨rfl, hskill⟩⟩
    rw [hp] at hskill; cases hskill
  case h_9 w r => -- invoke
    obtain rfl : base = s.base := hbase
    cases hnext
    exact h.invoke hpc (.inl ⟨r, rfl⟩)
  case h_10 w e => -- invoke, raising
    obtain rfl : base = s.base := hbase
    cases hnext
    exact h.invoke hpc (.inr ⟨e, rfl⟩)
  case h_11 w r env t => -- record
    refine h.checkpoint (.working w (.recorded r)) hpc hbase (fun row hrow howner => ?_)
      (fun _ => rfl) rfl (.inl rfl) (fun _ _ _ _ hc => by cases hc)
      (fun x => checkpointed_ok hnext) (fun e => checkpointed_error hnext)
    refine ⟨(h.know hpc hrow howner).2, .inl rfl, ?_⟩
    rintro ⟨v, hv⟩; cases hv
  case h_12 w r result => -- verify
    obtain rfl : base = s.base := hbase
    split_ifs at hnext
    · split at hnext
      · cases hnext
        exact h.setWorking hpc nofun fun row hrow howner => h.know hpc hrow howner
      · cases hnext
        exact h.setWorking hpc nofun fun _ _ _ => trivial
    · cases hnext
      exact h.setWorking hpc nofun fun row hrow howner => h.know hpc hrow howner
  case h_13 w r env t => -- certify
    refine h.checkpoint (.working w (.replying (some r) r.output)) hpc hbase
      (fun row hrow howner => ?_) (fun _ => rfl) rfl trivial (fun _ _ _ _ hc => by cases hc)
      (fun x => checkpointed_ok hnext) (fun e => checkpointed_error hnext)
    have hphase : row.phase = .skillExecuted ∨ row.phase = .skillDone := h.know hpc hrow howner
    refine ⟨fun hp => ?_, .inl rfl, ?_⟩
    · rcases hphase with hq | hq <;> rw [hq] at hp <;> cases hp
    · rintro ⟨v, hv⟩; cases hv
  case h_14 w messages => -- revise
    obtain rfl : base = s.base := hbase
    split_ifs at hnext with hfrontier
    cases hnext
    refine h.setWorking hpc nofun fun row hrow howner => ?_
    have hheld := h.know hpc hrow howner
    exact ⟨hheld.1, hheld.2.trans hfrontier.symm⟩
  case h_15 w env data step t => -- tool
    split_ifs at hnext with hcond
    exact h.save w hpc (.inl rfl) (.inr ⟨step.id, rfl⟩) rfl hcond.2.2.1 rfl hbase hnext
  case h_16 w env phase data step t => -- save
    split_ifs at hnext with hcond
    exact h.save { w with messages := data.messages } hpc (.inl rfl) (.inl rfl) rfl rfl
      (skill_of_agentPhase hcond.1) hbase hnext
  case h_17 w call env phase data step t => -- save the result of a tool
    split_ifs at hnext with hcond
    exact h.save { w with messages := data.messages } hpc (.inr ⟨call, rfl⟩) (.inl rfl) rfl
      rfl (skill_of_agentPhase hcond.1) hbase hnext
  case h_18 w kind => -- yield
    obtain rfl : base = s.base := hbase
    cases hnext
    exact h.setWorking hpc nofun fun _ _ _ => trivial
  case h_19 w messages call question => -- suspend
    obtain rfl : base = s.base := hbase
    cases hnext
    exact h.setWorking hpc nofun fun row hrow howner => (h.know hpc hrow howner).1
  case h_20 w reply => -- conclude
    obtain rfl : base = s.base := hbase
    cases hnext
    exact h.setWorking hpc nofun fun _ _ _ => trivial
  case h_21 w call reply => -- conclude after a tool
    obtain rfl : base = s.base := hbase
    cases hnext
    exact h.setWorking hpc nofun fun _ _ _ => trivial
  case h_22 w result reply lost => -- decide
    obtain rfl : base = s.base := hbase
    split at hnext
    · cases hnext
      exact h.setWorking hpc nofun fun _ _ _ => trivial
    · split_ifs at hnext
      · cases hnext
        exact h.setWorking hpc nofun fun _ _ _ hs => absurd hs (finalState_ne _ _ _)
      · cases hnext
        exact h.setIdle rfl
  case h_23 w inTry state reply env t => -- finish
    have h' := h.finish (fun row hrow howner => h.know hpc hrow howner) hbase
    split at hnext
    · cases hnext
      exact h'.setIdle rfl
    · split_ifs at hnext
      · cases hnext
        exact h'.setWorking hpc nofun fun _ _ _ => trivial
      · cases hnext
        exact h'.setIdle rfl
  case h_24 w kind => -- the handler of `TaskYield`
    obtain rfl : base = s.base := hbase
    split at hnext
    · cases hnext
      exact h.setIdle rfl
    · split_ifs at hnext <;> cases hnext <;>
        exact h.setWorking hpc nofun fun _ _ _ hs => by cases hs
  case h_25 w messages call question => -- the handler of a suspension
    obtain rfl : base = s.base := hbase
    split at hnext
    · cases hnext
      exact h.setIdle rfl
    · cases hnext
      exact h.setWorking hpc nofun fun row hrow howner => h.know hpc hrow howner
  case h_26 w data question env t => -- park
    refine h.checkpoint (.working w (.finishing false .suspended (some question))) hpc
      hbase (fun row hrow howner => ?_) (by rintro (hp | hp) <;> cases hp) rfl (fun _ => rfl)
      (fun _ _ _ _ hc => by cases hc) (fun x hx => ?_) (fun e he => ?_)
    · have hskill : row.phase.skill = false := h.know hpc hrow howner
      refine ⟨fun hp => ?_, .inr hskill, ?_⟩
      · rw [hp] at hskill; cases hskill
      · rintro ⟨v, hv⟩; cases hv
    · rw [hx] at hnext; exact (Option.some.inj hnext).symm
    · rw [he] at hnext; exact .inl (Option.some.inj hnext).symm
  case h_27 w e => -- the handler of an exception
    obtain rfl : base = s.base := hbase
    split at hnext
    · cases hnext
      exact h.setIdle rfl
    · split_ifs at hnext
      · cases hnext
        exact h.setWorking hpc nofun fun _ _ _ hs => absurd hs (failedState_ne _ _)
      · cases hnext
        exact h.setIdle rfl
  case h_28 w stage e => -- fail
    rw [Act.call_fail] at hbase
    obtain rfl : base = s.base := hbase
    rw [Act.runs_eq_zero _ (fun _ hc => by cases hc)]
    split_ifs at hnext
    cases hnext
    exact h.setWorking hpc nofun fun _ _ _ => trivial
  case h_29 w stage t₁ t₂ => -- beat
    rw [Act.call_beat] at hbase
    have hb : TaskSys.lts.step s.base (.renew k.1 k.2 w.token t₁ t₂) base := hbase
    rw [Act.runs_eq_zero _ (fun _ hc => by cases hc)]
    cases hnext
    have h' := h.calm (TaskSys.inv_step h.base hb) (TaskSys.uuids_lt hb).le
      (by rw [hb.2.2.1]; exact calm_of_renew)
    have hsame : Function.update s.pcs i (.working w stage) = s.pcs := by
      rw [← hpc, Function.update_eq_self]
    rw [hsame]; exact h'
  case h_30 => -- crash
    rw [Act.call_crash] at hbase
    obtain rfl : base = s.base := hbase
    rw [Act.runs_eq_zero _ (fun _ hc => by cases hc)]
    cases hnext
    exact h.setIdle rfl
  case h_31 => cases hnext

/-! ### Runs -/

theorem inv_initial (h : Initial s) : Inv k s := by
  obtain ⟨hbase, hpcs, hruns⟩ := h
  have hnone : s.base.db.tasks k = none := by rw [hbase]; rfl
  have hidle : ∀ i, s.pcs i = .idle := fun i => by rw [hpcs]
  refine ⟨TaskSys.inv_initial hbase, fun i => ?_, ?_, ?_, ?_⟩
  · rw [hidle i, hnone]
    exact ⟨fun _ ht => (by cases ht), fun _ _ hr => (by cases hr), fun ⟨w, hw⟩ => (by cases hw),
      fun _ _ _ _ hc => (by cases hc)⟩
  · rw [hruns, hnone]
    exact ⟨Nat.zero_le 1, fun hr => (by cases hr), fun _ hr => (by cases hr),
      fun _ hr => (by cases hr)⟩
  · intro i j token hi
    rw [hidle i] at hi; cases hi
  · rintro i j ⟨w, hw⟩
    rw [hidle i] at hw; cases hw

/-- **Every step keeps the invariant**, if no call overlooks the row it claims. -/
theorem inv_step {l : Label} (h : Inv k s) (hst : (lts k).step s l s')
    (hfresh : fresh k s l = true) : Inv k s' := by
  cases l with
  | act i a =>
    obtain ⟨⟨pc, hnext, hpcs⟩, hruns, hbase⟩ := hst
    have := inv_act h hfresh hnext hbase
    rwa [← hpcs, ← hruns] at this
  | outside c =>
    obtain ⟨hout, hbase, hpcs, hruns⟩ := hst
    have hcalm : Calm (s.base.db.tasks k) (s'.base.db.tasks k) := by
      rw [hbase.2.2.1]
      cases hh : c.human with
      | true => exact calm_of_human h.row (Call.humanStep hh k)
      | false =>
        cases c with
        | markUncertain owner key t => exact calm_of_markUncertain
        | _ => simp [outsider, hh] at hout
    have := h.calm (TaskSys.inv_step h.base hbase) (TaskSys.uuids_lt hbase).le hcalm
    rwa [← hpcs, ← hruns] at this

/-- The runs in which no call overlooks the row it claims. -/
def resuming (k : TaskKey) : Lts Sys Label := (lts k).restrict fun s l => fresh k s l = true

theorem inv_reachable (h : (resuming k).Reachable Initial s) : Inv k s :=
  h.invariant (fun _ => inv_initial) fun _ _ _ hi hst => inv_step hi hst.1 hst.2

/-- **A call resumes.**  In every run in which no call that read no task takes over an existing
one:

* a directly invoked skill function is entered at most once;
* a call that took over an existing row continues from what is stored, and as long as it holds
  the lease that is the checkpoint and the phase of the row it took over;
* a tool is started only under the lease, and only for a call of the stored messages that has no
  result there. -/
theorem resumes (h : (resuming k).Reachable Initial s) :
    s.skillRuns ≤ 1 ∧
    (∀ i a token existing row₀ pc, s.pcs i = .claimed a token existing (some row₀) →
      Act.load.next k s.base.uuids s.base.db (s.pcs i) = some pc →
      pc = .done ∨ ∃ row saved, s.base.db.tasks k = some row ∧
        saved = some (row.checkpoint, row.phase) ∧
        pc = .working ⟨a, token, saved, row.checkpoint.messages⟩ (entry a saved) ∧
        (row.leaseOwner = some token →
          row.checkpoint = row₀.checkpoint ∧ row.phase = row₀.phase)) ∧
    (∀ i w env data step t call, s.pcs i = .working w .agent →
      (Act.tool env data step t).next k s.base.uuids s.base.db (s.pcs i) =
        some (.working w (.tool call)) →
      ∃ row, s.base.db.tasks k = some row ∧ row.leaseOwner = some w.token ∧
        call ∈ pendingCalls row.checkpoint.messages) := by
  have hi := inv_reachable h
  refine ⟨hi.row.le_one, ?_, ?_⟩
  · intro i a token existing row₀ pc hpc hload
    obtain rfl : existing = true := (hi.proc i).loads a token existing (some row₀) hpc rfl
    rw [hpc] at hload
    simp only [Act.next] at hload
    split at hload
    case h_1 row hrow =>
      cases hload
      refine .inr ⟨row, _, hrow, rfl, rfl, fun howner => ?_⟩
      have hheld := (hi.proc i).held row token hrow (by rw [hpc]; rfl) howner
      rw [hpc] at hheld
      exact hheld.2.1 row₀ rfl
    case h_2 =>
      cases hload
      exact .inl rfl
  · intro i w env data step t call hpc htool
    rw [hpc] at htool
    simp only [Act.next] at htool
    split_ifs at htool with hcond
    cases hres : TaskStore.checkpoint env k.1 k.2 w.token .toolStarted data (some step) t
        s.base.db with
    | error e => rw [hres] at htool; cases htool
    | ok x =>
      obtain ⟨db', out⟩ := x
      rw [hres] at htool
      cases htool
      obtain ⟨hsel, -⟩ := TaskStore.checkpoint_ok hres
      obtain ⟨row, hrow, hheld⟩ := (s.base.db.tasks.selects_eq_true _ _).1 hsel
      have howner := (TaskRow.heldBy_iff.1 (TaskStore.renewable_iff.1 hheld).1).1
      refine ⟨row, hrow, howner, ?_⟩
      have hfrontier := (hi.know hpc hrow howner).2
      simpa only [pendingCalls, hfrontier] using hcond.1

/-! ### Running the system -/

/-- A step of a call whose operation, if it has one, commits at `t`. -/
def Sys.act? (k : TaskKey) (s : Sys) (i : ℕ) (a : Act) (t : Time) : Option Sys :=
  (a.next k s.base.uuids s.base.db (s.pcs i)).bind fun pc =>
    match a.call k (s.pcs i) with
    | some c =>
      if s.base.now ≤ t ∧ c.clocked s.base.now t then
        some ⟨s.base.after c t, Function.update s.pcs i pc, s.skillRuns + a.runs (s.pcs i)⟩
      else none
    | none => some ⟨s.base, Function.update s.pcs i pc, s.skillRuns + a.runs (s.pcs i)⟩

/-- The steps of calls that `p` allows, one after the other. -/
def Sys.acts? (k : TaskKey) (p : Sys → Label → Bool) (s : Sys) :
    List (ℕ × Act × Time) → Option Sys
  | [] => some s
  | (i, a, t) :: ls =>
    if p s (.act i a) then (s.act? k i a t).bind fun s' => s'.acts? k p ls else none

theorem step_of_act? {i : ℕ} {a : Act} {t : Time} (h : s.act? k i a t = some s') :
    (lts k).step s (.act i a) s' := by
  obtain ⟨pc, hpc, h⟩ := Option.bind_eq_some_iff.1 h
  split at h
  case h_1 c hc =>
    split_ifs at h with ht
    cases h
    refine ⟨⟨pc, hpc, rfl⟩, rfl, ?_⟩
    rw [hc]; exact TaskSys.step_after ht.1 ht.2
  case h_2 hc =>
    cases h
    refine ⟨⟨pc, hpc, rfl⟩, rfl, ?_⟩
    rw [hc]

theorem run_of_acts? {p : Sys → Label → Bool} {ls : List (ℕ × Act × Time)} {s : Sys}
    (h : s.acts? k p ls = some s') :
    ((lts k).restrict fun s l => p s l = true).Run s (ls.map fun l => .act l.1 l.2.1) s' := by
  induction ls generalizing s with
  | nil => cases h; exact .nil _
  | cons l ls ih =>
    obtain ⟨i, a, t⟩ := l
    simp only [Sys.acts?] at h
    split_ifs at h with hp
    obtain ⟨s₁, hs₁, h⟩ := Option.bind_eq_some_iff.1 h
    exact .cons ⟨step_of_act? hs₁, hp⟩ (ih h)

/-- No call, over a new database. -/
def Sys.init : Sys := ⟨⟨.empty, 0, 0⟩, fun _ => .idle, 0⟩

theorem initial_init : Initial Sys.init := ⟨rfl, rfl, rfl⟩

/-- The arguments of a directly invoked skill. -/
def skillArgs : Args := { skill := true, verifies := true, goal := "goal", messages := [] }

/-- The result of the skill. -/
def skillOk : SkillResult := { success := true, output := "done" }

/-- Two calls read that there is no task.  The first one runs the skill, fails to verify it and
gives the task back; the second one claims the row and starts from scratch. -/
def staleRead : List (ℕ × Act × Time) :=
  [(0, .get skillArgs, 0), (1, .get skillArgs, 0), (0, .claim {} none {} 0 0, 0), (0, .load, 0),
    (0, .start {} 1, 1), (0, .invoke (.ok skillOk), 1), (0, .record {} 2, 2),
    (0, .verify (.error (.runtime "verifier")), 2), (0, .handle, 2), (0, .finish {} 3, 3),
    (1, .claim {} none {} 4 4, 4), (1, .load, 4), (1, .start {} 5, 5),
    (1, .invoke (.ok skillOk), 5)]

/-- A skill function can be entered twice. -/
theorem skill_runs_twice : ∃ s, (lts ("owner", "task")).Reachable Initial s ∧ s.skillRuns = 2 := by
  have h : (Sys.init.acts? ("owner", "task") (fun _ _ => true) staleRead).map (·.skillRuns) =
      some 2 := by decide
  obtain ⟨s, hs, hr⟩ := Option.map_eq_some_iff.1 h
  exact ⟨s, .run (.of_init initial_init) (run_of_acts? hs).of_restrict, hr⟩

/-- A call runs the skill, saves its result and crashes; when its lease has expired, another one
takes the row over. -/
def crashedRun : List (ℕ × Act × Time) :=
  [(0, .get skillArgs, 0), (0, .claim {} none {} 0 0, 0), (0, .load, 0), (0, .start {} 1, 1),
    (0, .invoke (.ok skillOk), 1), (0, .record {} 2, 2), (0, .crash, 2), (1, .get skillArgs, 2),
    (1, .claim {} none {} 200 200, 200)]

/-- The row that the second call of `crashedRun` takes over. -/
def crashedRow : TaskRow where
  goal := "goal"
  criteria := {}
  state := .running
  phase := .skillExecuted
  checkpoint := { messages := [], kind := some "skill", skillResult := some skillOk }
  leaseOwner := some 0
  leaseUntil := some 180
  attempts := 1

/-- The second call of `crashedRun` goes on with the saved result. -/
theorem resumes_crashed : ∃ s : Sys, s.skillRuns ≤ 1 ∧
    s.pcs 1 = .claimed skillArgs 3 true (some crashedRow) ∧
    ∀ pc, Act.load.next ("owner", "task") s.base.uuids s.base.db (s.pcs 1) = some pc →
      pc = .done ∨ ∃ row saved, s.base.db.tasks ("owner", "task") = some row ∧
        saved = some (row.checkpoint, row.phase) ∧
        pc = .working ⟨skillArgs, 3, saved, row.checkpoint.messages⟩ (entry skillArgs saved) ∧
        (row.leaseOwner = some 3 →
          row.checkpoint = crashedRow.checkpoint ∧ row.phase = crashedRow.phase) := by
  have h : (Sys.init.acts? ("owner", "task") (fresh ("owner", "task")) crashedRun).map
      (·.pcs 1) = some (.claimed skillArgs 3 true (some crashedRow)) := by decide
  obtain ⟨s, hs, hpc⟩ := Option.map_eq_some_iff.1 h
  have hr := resumes (Lts.Reachable.run (.of_init initial_init) (run_of_acts? hs))
  exact ⟨s, hr.1, hpc, fun pc hload => hr.2.1 1 _ _ _ _ pc hpc hload⟩

end Durable

end PythonAI
