import PythonAI.Temporal.Operations

/-!
# `Ledger.run`

Any number of calls of `Ledger.run` for the operations of any tasks run concurrently or one after
the other.  Each call is a process: `Pc` is where it stands and `Act` is its next step, at the
granularity of one transaction or one piece of work outside the database.  A process may stop
anywhere (`Act.crash`), and any other operation of the backend, `reject` and the cancellations
that fence operations included, may come between any two steps (`Act.other`).

`System.started` counts how often `execute` was entered for an operation.
-/

namespace PythonAI

open Library

namespace Temporal

namespace LedgerRun

/-- The arguments of a call of `Ledger.run`. -/
structure Request where
  /-- the ledger -/
  ledger : Ledger
  step : String
  kind : Kind
  arguments : String
  deriving DecidableEq

/-- The key of the operation. -/
def Request.key (q : Request) : OpKey := (q.ledger.taskKey, q.step)

/-- The fingerprint that `prepare` computes. -/
def Request.fingerprint (q : Request) : Fingerprint := ⟨q.ledger.scope, q.kind, q.arguments⟩

/-- The row has the kind and the fingerprint of the call. -/
def Request.matches (q : Request) (row : Operation) : Prop :=
  row.kind = q.kind ∧ row.arguments = q.fingerprint

/-- Where a call of `Ledger.run` stands. -/
inductive Pc
  /-- not called yet -/
  | idle
  /-- `prepare` returned -/
  | prepared (q : Request)
  /-- `claim` returned a running row with this fence: `execute` is next -/
  | claimed (q : Request) (fence : Option FenceId)
  /-- inside `execute` -/
  | executing (q : Request) (fence : Option FenceId)
  /-- `execute` returned: `complete` is next -/
  | executed (q : Request) (fence : Option FenceId) (result evidence : Payload)
  /-- the handler of an exception: `uncertain` is next -/
  | failing (q : Request) (fence : Option FenceId)
  /-- `claim` returned the completed row: its evidence is loaded next -/
  | cached (q : Request) (row : Operation)
  /-- the evidence is loaded, the result is next -/
  | validated (q : Request) (row : Operation)
  /-- returned a result -/
  | returned (q : Request) (result : Payload)
  /-- raised or crashed -/
  | stopped
  deriving DecidableEq

/-- The call is about to enter `execute`. -/
def Pc.claims (k : OpKey) : Pc → Prop
  | claimed q _ => q.key = k
  | _ => False

/-- The call may enter `execute`, has entered it, or deals with what came of it. -/
def Pc.executes (k : OpKey) : Pc → Prop
  | claimed q _ | executing q _ | executed q _ _ _ | failing q _ => q.key = k
  | _ => False

/-- A step of the system; each transaction has the environment and the context it runs in. -/
inductive Act
  | prepare (p : ℕ) (env : Access) (c : Caller) (q : Request)
  | claim (p : ℕ) (env : Access) (c : Caller)
  | loadEvidence (p : ℕ) (env : Access) (c : Caller)
  | loadResult (p : ℕ) (env : Access) (c : Caller)
  /-- `execute` is entered -/
  | execute (p : ℕ)
  /-- `execute` returns -/
  | value (p : ℕ) (result evidence : Payload)
  /-- `execute`, or the encoding of what it returned, raises -/
  | raise (p : ℕ)
  | complete (p : ℕ) (env : Access) (c : Caller)
  | uncertain (p : ℕ) (env : Access) (c : Caller)
  | crash (p : ℕ)
  /-- any operation of the backend -/
  | other (o : Op)

/-- The backend with the calls of `Ledger.run`. -/
structure System where
  /-- the backend -/
  base : Sys
  /-- where each call stands -/
  pcs : ℕ → Pc
  /-- how often `execute` was entered for an operation -/
  started : OpKey → ℕ

namespace System

/-- A new database, and no call yet. -/
def Initial (s : System) : Prop :=
  s.base.Initial ∧ (∀ p, s.pcs p = .idle) ∧ ∀ k, s.started k = 0

/-- The call `p` goes on at `pc`. -/
def goto (s : System) (p : ℕ) (pc : Pc) : System := { s with pcs := Function.update s.pcs p pc }

/-- The call `p` performs the transaction `o` and goes on at `pc`. -/
def perform (s : System) (p : ℕ) (o : Op) (pc : Pc) : System :=
  { s with base := s.base.after o, pcs := Function.update s.pcs p pc }

/-- Where a call goes on after `claim`. -/
def afterClaim (q : Request) : Except Error (Db × Operation) → Pc
  | .error _ => .stopped
  | .ok (_, row) => if row.state = .completed then .cached q row else .claimed q row.fence

/-- Where a call goes on after it loaded a reference, if there is one. -/
def afterLoad (env : Access) (c : Caller) (q : Request) (ref : Option Ref) (db : Db)
    (next : Payload → Pc) : Pc :=
  match ref with
  | none => .stopped
  | some ref =>
    match q.ledger.load env c ref db with
    | .ok payload => next payload
    | .error _ => .stopped

/-- The state after a step; a step that the call is not at changes nothing. -/
def after (s : System) : Act → System
  | .prepare p env c q =>
    match s.pcs p with
    | .idle =>
      s.perform p (.prepare env c q.ledger q.step q.kind q.arguments)
        (match q.ledger.prepare env c q.step q.kind q.arguments s.base.db with
          | .ok _ => .prepared q
          | .error _ => .stopped)
    | _ => s
  | .claim p env c =>
    match s.pcs p with
    | .prepared q =>
      s.perform p (.start env c q.ledger q.step)
        (afterClaim q (q.ledger.claim env c q.step s.base.uuids s.base.db))
    | _ => s
  | .loadEvidence p env c =>
    match s.pcs p with
    | .cached q row =>
      s.goto p (afterLoad env c q row.evidenceRef s.base.db fun _ => .validated q row)
    | _ => s
  | .loadResult p env c =>
    match s.pcs p with
    | .validated q row =>
      s.goto p (afterLoad env c q row.resultRef s.base.db fun payload => .returned q payload)
    | _ => s
  | .execute p =>
    match s.pcs p with
    | .claimed q fence =>
      { s.goto p (.executing q fence) with
        started := Function.update s.started q.key (s.started q.key + 1) }
    | _ => s
  | .value p result evidence =>
    match s.pcs p with
    | .executing q fence => s.goto p (.executed q fence result evidence)
    | _ => s
  | .raise p =>
    match s.pcs p with
    | .executing q fence | .executed q fence _ _ => s.goto p (.failing q fence)
    | _ => s
  | .complete p env c =>
    match s.pcs p with
    | .executed q fence result evidence =>
      s.perform p (.complete env c q.ledger q.step fence result evidence)
        (match q.ledger.complete env c q.step fence result evidence s.base.uuids
            (s.base.uuids + 1) s.base.db with
          | .ok _ => .returned q result
          | .error _ => .failing q fence)
    | _ => s
  | .uncertain p env c =>
    match s.pcs p with
    | .failing q fence => s.perform p (.uncertain env c q.ledger q.step fence) .stopped
    | _ => s
  | .crash p => s.goto p .stopped
  | .other o => { s with base := s.base.after o }

/-- One step at a time. -/
def lts : Lts System Act where
  step s a s' := s' = s.after a

/-- The state after a list of steps. -/
def runs (s : System) (as : List Act) : System := as.foldl after s

theorem run_runs (s : System) (as : List Act) : lts.Run s as (s.runs as) := by
  induction as generalizing s with
  | nil => exact .nil s
  | cons a as ih => exact .cons rfl (ih (s.after a))

end System

/-! ### What a step does -/

/-- `Moves db pc pc'` : a call goes from `pc` to `pc'` with a step, after which the database is
`db`, that neither starts the operation nor enters `execute`. -/
inductive Moves (db : Db) : Pc → Pc → Prop
  | prepared (q : Request) (row : Operation) (hrow : db.operations q.key = some row)
      (hq : q.matches row) : Moves db .idle (.prepared q)
  | cached (q : Request) (row : Operation) (hrow : db.operations q.key = some row)
      (hdone : row.state = .completed) : Moves db (.prepared q) (.cached q row)
  | validated (q : Request) (row : Operation) : Moves db (.cached q row) (.validated q row)
  | loaded (q : Request) (row : Operation) (ref : Ref) (href : row.resultRef = some ref) :
      Moves db (.validated q row) (.returned q ref.sha256)
  | value (q : Request) (fence : Option FenceId) (result evidence : Payload) :
      Moves db (.executing q fence) (.executed q fence result evidence)
  | raised (q : Request) (fence : Option FenceId) : Moves db (.executing q fence) (.failing q fence)
  | refused (q : Request) (fence : Option FenceId) (result evidence : Payload) :
      Moves db (.executed q fence result evidence) (.failing q fence)
  | completed (q : Request) (fence : Option FenceId) (result evidence : Payload)
      (row : Operation) (ref : Ref) (hrow : db.operations q.key = some row)
      (hdone : row.state = .completed) (href : row.resultRef = some ref)
      (hsha : ref.sha256 = result) :
      Moves db (.executed q fence result evidence) (.returned q result)
  | stopped (pc : Pc) : Moves db pc .stopped

/-- What one step does. -/
inductive Change (s s' : System) : Prop
  /-- it starts nothing -/
  | quiet (hbase : s'.base = s.base ∨ ∃ o, Sys.lts.step s.base o s'.base)
      (hstarted : s'.started = s.started)
      (hpcs : ∀ p, s'.pcs p = s.pcs p ∨ Moves s'.base.db (s.pcs p) (s'.pcs p))
  /-- a call starts a prepared operation -/
  | claimed (p : ℕ) (q : Request) (fence : Option FenceId) (row row' : Operation) (o : Op)
      (hpc : s.pcs p = .prepared q)
      (hbase : Sys.lts.step s.base o s'.base) (hrow : s.base.db.operations q.key = some row)
      (hprep : row.state = .prepared) (hrow' : s'.base.db.operations q.key = some row')
      (hrunning : row'.state = .running) (hstarted : s'.started = s.started)
      (hpcs : s'.pcs = Function.update s.pcs p (.claimed q fence))
  /-- a call enters `execute` -/
  | executed (p : ℕ) (q : Request) (fence : Option FenceId) (hpc : s.pcs p = .claimed q fence)
      (hbase : s'.base = s.base)
      (hstarted : s'.started = Function.update s.started q.key (s.started q.key + 1))
      (hpcs : s'.pcs = Function.update s.pcs p (.executing q fence))

variable {s s' : System} {a : Act} {p : ℕ} {pc : Pc}

theorem System.update_moves {db : Db} (h : Moves db (s.pcs p) pc) (p' : ℕ) :
    Function.update s.pcs p pc p' = s.pcs p' ∨
      Moves db (s.pcs p') (Function.update s.pcs p pc p') := by
  by_cases hp : p' = p
  · subst hp
    rw [Function.update_self]; exact .inr h
  · exact .inl (Function.update_of_ne hp ..)

theorem Change.refl (s : System) : Change s s := .quiet (.inl rfl) rfl fun _ => .inl rfl

theorem Change.goto (h : Moves s.base.db (s.pcs p) pc) : Change s (s.goto p pc) :=
  .quiet (.inl rfl) rfl (s.update_moves h)

theorem Change.perform {o : Op} (h : Moves (s.base.after o).db (s.pcs p) pc) :
    Change s (s.perform p o pc) :=
  .quiet (.inr ⟨o, rfl⟩) rfl (s.update_moves h)

/-- A call that loaded a reference has its payload, or stops. -/
theorem System.afterLoad_cases (env : Access) (c : Caller) (q : Request) (ref : Option Ref)
    (db : Db) (next : Payload → Pc) :
    (∃ ref', ref = some ref' ∧ System.afterLoad env c q ref db next = next ref'.sha256) ∨
      System.afterLoad env c q ref db next = .stopped := by
  cases ref with
  | none => exact .inr rfl
  | some ref =>
    cases h : q.ledger.load env c ref db with
    | error e => exact .inr (by simp [System.afterLoad, h])
    | ok payload =>
      obtain ⟨-, -, rfl⟩ := Ledger.load_ok h
      exact .inl ⟨ref, rfl, by simp [System.afterLoad, h]⟩

/-- **Every step is a change.** -/
theorem System.change (h : System.lts.step s a s') : Change s s' := by
  cases h
  cases a with
  | prepare p env c q =>
    simp only [System.after]
    split
    case h_2 => exact .refl s
    case h_1 hpc =>
      refine .perform ?_
      rw [hpc]
      cases hr : q.ledger.prepare env c q.step q.kind q.arguments s.base.db with
      | error e => exact .stopped _
      | ok out =>
        obtain ⟨db', row⟩ := out
        have hdb : (s.base.after (.prepare env c q.ledger q.step q.kind q.arguments)).db = db' := by
          show commit _ (outcome (q.ledger.prepare env c q.step q.kind q.arguments s.base.db)) = _
          rw [hr]; rfl
        rw [hdb]
        obtain ⟨-, -, ⟨hrow, rfl, hkind, hargs⟩ | ⟨-, -, rfl, rfl⟩⟩ := Ledger.prepare_ok hr
        · exact .prepared q row hrow ⟨hkind, hargs⟩
        · exact .prepared q _ (Table.set_same ..) ⟨rfl, rfl⟩
  | claim p env c =>
    simp only [System.after]
    split
    case h_2 => exact .refl s
    case h_1 q hpc =>
      cases hr : q.ledger.claim env c q.step s.base.uuids s.base.db with
      | error e => exact .perform (by rw [hpc]; exact .stopped _)
      | ok out =>
        obtain ⟨db', row⟩ := out
        have hdb : (s.base.after (.start env c q.ledger q.step)).db = db' := by
          show commit _ (outcome (q.ledger.claim env c q.step s.base.uuids s.base.db)) = _
          rw [hr]; rfl
        obtain ⟨-, -, ⟨hrow, hdone, rfl⟩ | ⟨old, hold, hprep, -, rfl, rfl⟩⟩ := Ledger.claim_ok hr
        · refine .perform ?_
          rw [hpc, hdb, System.afterClaim, if_pos hdone]
          exact .cached q row hrow hdone
        · refine .claimed p q (some s.base.uuids) old
            { old with state := .running, fence := some s.base.uuids } _ hpc rfl hold hprep ?_ rfl
            rfl rfl
          show (s.base.after (.start env c q.ledger q.step)).db.operations _ = _
          rw [hdb]; exact Table.set_same ..
  | loadEvidence p env c =>
    simp only [System.after]
    split
    case h_2 => exact .refl s
    case h_1 q row hpc =>
      refine .goto ?_
      rw [hpc]
      rcases System.afterLoad_cases env c q row.evidenceRef s.base.db
        (fun _ => .validated q row) with ⟨ref, -, hl⟩ | hl
      · rw [hl]; exact .validated q row
      · rw [hl]; exact .stopped _
  | loadResult p env c =>
    simp only [System.after]
    split
    case h_2 => exact .refl s
    case h_1 q row hpc =>
      refine .goto ?_
      rw [hpc]
      rcases System.afterLoad_cases env c q row.resultRef s.base.db
        (fun payload => .returned q payload) with ⟨ref, href, hl⟩ | hl
      · rw [hl]; exact .loaded q row ref href
      · rw [hl]; exact .stopped _
  | execute p =>
    simp only [System.after]
    split
    case h_2 => exact .refl s
    case h_1 q fence hpc => exact .executed p q fence hpc rfl rfl rfl
  | value p result evidence =>
    simp only [System.after]
    split
    case h_2 => exact .refl s
    case h_1 q fence hpc => exact .goto (by rw [hpc]; exact .value ..)
  | raise p =>
    simp only [System.after]
    split
    case h_3 => exact .refl s
    case h_1 q fence hpc => exact .goto (by rw [hpc]; exact .raised ..)
    case h_2 q fence result evidence hpc => exact .goto (by rw [hpc]; exact .refused ..)
  | complete p env c =>
    simp only [System.after]
    split
    case h_2 => exact .refl s
    case h_1 q fence result evidence hpc =>
      refine .perform ?_
      rw [hpc]
      cases hr : q.ledger.complete env c q.step fence result evidence s.base.uuids
          (s.base.uuids + 1) s.base.db with
      | error e => exact .refused ..
      | ok out =>
        obtain ⟨db', ref⟩ := out
        have hdb : (s.base.after (.complete env c q.ledger q.step fence result evidence)).db =
            db' := by
          show commit _ (outcome (q.ledger.complete env c q.step fence result evidence s.base.uuids
            (s.base.uuids + 1) s.base.db)) = _
          rw [hr]; rfl
        rw [hdb]
        obtain ⟨-, -, row, hrow, -, -, -, rfl⟩ := Ledger.complete_ok hr
        exact .completed q fence result evidence _ _ (Table.set_same ..) rfl rfl rfl
  | uncertain p env c =>
    simp only [System.after]
    split
    case h_2 => exact .refl s
    case h_1 q fence hpc => exact .perform (.stopped _)
  | crash p => exact .goto (.stopped _)
  | other o => exact .quiet (.inr ⟨o, rfl⟩) rfl fun _ => .inl rfl

/-! ### At most once -/

variable {k : OpKey}

theorem Moves.not_claims {db : Db} {pc pc' : Pc} (h : Moves db pc pc') : ¬ pc'.claims k := by
  cases h <;> exact id

/-- A move does not make a call execute that did not. -/
theorem Moves.executes {db : Db} {pc pc' : Pc} (h : Moves db pc pc') (h' : pc'.executes k) :
    pc.executes k := by
  cases h with
  | value | raised | refused => exact h'
  | prepared | cached | validated | loaded | completed | stopped => exact h'.elim

/-- What a step does to the rows of the ledger. -/
theorem Change.row (h : Change s s') (k : OpKey) :
    s'.base.db.operations k = s.base.db.operations k ∨ ∃ o,
      OpChange o s.base.uuids s.base.db k (s.base.db.operations k) (s'.base.db.operations k) := by
  cases h with
  | quiet hbase =>
    rcases hbase with hbase | ⟨o, hbase⟩
    · exact .inl (by rw [hbase])
    · exact .inr ⟨o, Sys.change hbase k⟩
  | claimed p q fence row row' o hpc hbase => exact .inr ⟨o, Sys.change hbase k⟩
  | executed p q fence hpc hbase => exact .inl (by rw [hbase])

theorem Change.unstarted (h : Change s s') (hk : Unstarted (s'.base.db.operations k)) :
    Unstarted (s.base.db.operations k) := by
  rcases h.row k with hsame | ⟨o, hrow⟩
  · rw [← hsame]; exact hk
  · exact hrow.unstarted hk

/-- The execution of one operation is entered at most once. -/
structure Once (s : System) (k : OpKey) : Prop where
  /-- an operation that was not started was not executed, and nobody is about to execute it -/
  free : Unstarted (s.base.db.operations k) → s.started k = 0 ∧ ∀ p, ¬ (s.pcs p).claims k
  /-- who is about to execute it is the only one, and it was not executed -/
  alone : ∀ p, (s.pcs p).claims k → s.started k = 0 ∧ ∀ p', (s.pcs p').claims k → p' = p
  /-- it was executed at most once -/
  once : s.started k ≤ 1

theorem Once.initial (h : s.Initial) (k : OpKey) : Once s k := by
  obtain ⟨-, hpcs, hstarted⟩ := h
  have hno : ∀ p, ¬ (s.pcs p).claims k := fun p hc => by rw [hpcs p] at hc; exact hc
  exact ⟨fun _ => ⟨hstarted k, hno⟩, fun p hp => absurd hp (hno p), by rw [hstarted k]; omega⟩

theorem Once.step (hs : Once s k) (h : Change s s') : Once s' k := by
  have hback : Unstarted (s'.base.db.operations k) → s.started k = 0 ∧ ∀ p, ¬ (s.pcs p).claims k :=
    fun hk => hs.free (h.unstarted hk)
  cases h with
  | quiet hbase hstarted hpcs =>
    have hclaims : ∀ p, (s'.pcs p).claims k → (s.pcs p).claims k := by
      intro p hp
      rcases hpcs p with hsame | hmoves
      · rw [← hsame]; exact hp
      · exact absurd hp hmoves.not_claims
    refine ⟨fun hk => ?_, fun p hp => ?_, hstarted ▸ hs.once⟩
    · obtain ⟨hzero, hno⟩ := hback hk
      exact ⟨hstarted ▸ hzero, fun p hp => hno p (hclaims p hp)⟩
    · obtain ⟨hzero, halone⟩ := hs.alone p (hclaims p hp)
      exact ⟨hstarted ▸ hzero, fun p' hp' => halone p' (hclaims p' hp')⟩
  | claimed p q fence row row' o hpc hbase hrow hprep hrow' hrunning hstarted hpcs =>
    -- The row was only prepared, so that this call is the only one that claims it.
    have hold : ∀ p', p' ≠ p → (s'.pcs p').claims k → (s.pcs p').claims k := by
      intro p' hne hp'
      rw [hpcs, Function.update_of_ne hne] at hp'
      exact hp'
    by_cases hk : k = q.key
    · subst hk
      obtain ⟨hzero, hno⟩ := hs.free fun r hr => by rw [hrow] at hr; cases hr; exact hprep
      have honly : ∀ p', (s'.pcs p').claims q.key → p' = p := by
        intro p' hp'
        by_contra hne
        exact hno p' (hold p' hne hp')
      refine ⟨fun hk => ?_, fun p₁ hp₁ => ⟨hstarted ▸ hzero, fun p₂ hp₂ => ?_⟩, hstarted ▸ hs.once⟩
      · have := hk row' hrow'
        rw [hrunning] at this; cases this
      · rw [honly p₁ hp₁, honly p₂ hp₂]
    · have hother : ∀ p', (s'.pcs p').claims k → (s.pcs p').claims k := by
        intro p' hp'
        refine hold p' ?_ hp'
        rintro rfl
        rw [hpcs, Function.update_self] at hp'
        exact hk hp'.symm
      refine ⟨fun hk => ?_, fun p₁ hp₁ => ?_, hstarted ▸ hs.once⟩
      · obtain ⟨hzero, hno⟩ := hback hk
        exact ⟨hstarted ▸ hzero, fun p' hp' => hno p' (hother p' hp')⟩
      · obtain ⟨hzero, halone⟩ := hs.alone p₁ (hother p₁ hp₁)
        exact ⟨hstarted ▸ hzero, fun p' hp' => halone p' (hother p' hp')⟩
  | executed p q fence hpc hbase hstarted hpcs =>
    have hclaims : ∀ p', (s'.pcs p').claims k → p' ≠ p ∧ (s.pcs p').claims k := by
      intro p' hp'
      have hne : p' ≠ p := by
        rintro rfl
        rw [hpcs, Function.update_self] at hp'
        exact hp'
      rw [hpcs, Function.update_of_ne hne] at hp'
      exact ⟨hne, hp'⟩
    by_cases hk : k = q.key
    · subst hk
      have hp : (s.pcs p).claims q.key := by rw [hpc]; rfl
      obtain ⟨hzero, halone⟩ := hs.alone p hp
      have hnone : ∀ p', ¬ (s'.pcs p').claims q.key := fun p' hp' =>
        (hclaims p' hp').1 (halone p' (hclaims p' hp').2)
      refine ⟨fun hk => absurd hp ((hback hk).2 p), fun p' hp' => absurd hp' (hnone p'), ?_⟩
      rw [hstarted, Function.update_self, hzero]
    · have hsame : s'.started k = s.started k := by
        rw [hstarted, Function.update_of_ne hk]
      refine ⟨fun hk => ?_, fun p₁ hp₁ => ?_, hsame ▸ hs.once⟩
      · obtain ⟨hzero, hno⟩ := hback hk
        exact ⟨hsame ▸ hzero, fun p' hp' => hno p' (hclaims p' hp').2⟩
      · obtain ⟨hzero, halone⟩ := hs.alone p₁ (hclaims p₁ hp₁).2
        exact ⟨hsame ▸ hzero, fun p' hp' => halone p' (hclaims p' hp').2⟩

theorem once_reachable (h : System.lts.Reachable System.Initial s) (k : OpKey) : Once s k :=
  h.invariant (I := fun s => Once s k) (fun _ h₀ => .initial h₀ k)
    fun _ _ _ hs hst => hs.step (System.change hst)

/-! ### Results -/

/-- The base of a reachable state is reachable. -/
theorem System.base_reachable (h : System.lts.Reachable System.Initial s) :
    Sys.lts.Reachable Sys.Initial s.base := by
  refine h.invariant (I := fun s => Sys.lts.Reachable Sys.Initial s.base)
    (fun s h₀ => .of_init h₀.1) fun s a s' hs hst => ?_
  cases System.change hst with
  | quiet hbase =>
    rcases hbase with hbase | ⟨o, hbase⟩
    · rw [hbase]; exact hs
    · exact hs.step hbase
  | claimed p q fence row row' o hpc hbase => exact hs.step hbase
  | executed p q fence hpc hbase => rw [hbase]; exact hs

/-- **A row that has ended never changes.** -/
theorem Change.final (h : Change s s') {row : Operation}
    (hrow : s.base.db.operations k = some row) (hf : row.state.final = true) :
    s'.base.db.operations k = some row := by
  rcases h.row k with hsame | ⟨o, hchange⟩
  · rw [hsame, hrow]
  · exact hchange.final hrow hf

theorem System.final_stays {as : List Act} (h : System.lts.Run s as s') {row : Operation}
    (hrow : s.base.db.operations k = some row) (hf : row.state.final = true) :
    s'.base.db.operations k = some row :=
  h.preserves (P := fun s => s.base.db.operations k = some row)
    (fun _ _ _ hs hst => (System.change hst).final hs hf) hrow

/-- The row of the call: it has the kind and the fingerprint of the call. -/
def Registered (db : Db) (q : Request) : Prop :=
  ∃ row, db.operations q.key = some row ∧ q.matches row

/-- The row of the call is completed. -/
def Completed (db : Db) (q : Request) (row : Operation) : Prop :=
  db.operations q.key = some row ∧ q.matches row ∧ row.state = .completed

/-- What a call knows of its row. -/
def Sound (db : Db) : Pc → Prop
  | .idle | .stopped => True
  | .prepared q | .claimed q _ | .executing q _ | .executed q _ _ _ | .failing q _ =>
    Registered db q
  | .cached q row | .validated q row => Completed db q row
  | .returned q result =>
    ∃ row ref, Completed db q row ∧ row.resultRef = some ref ∧ ref.sha256 = result

theorem Change.registered (h : Change s s') {q : Request} (hq : Registered s.base.db q) :
    Registered s'.base.db q := by
  obtain ⟨row, hrow, hkind, hargs⟩ := hq
  rcases h.row q.key with hsame | ⟨o, hchange⟩
  · exact ⟨row, hsame.trans hrow, hkind, hargs⟩
  · obtain ⟨row', hrow', hk, ha⟩ := hchange.keeps hrow
    exact ⟨row', hrow', hk.trans hkind, ha.trans hargs⟩

theorem Change.completed (h : Change s s') {q : Request} {row : Operation}
    (hq : Completed s.base.db q row) : Completed s'.base.db q row :=
  ⟨h.final hq.1 (by rw [hq.2.2]; rfl), hq.2⟩

/-- What a call knows of its row stays true. -/
theorem Change.sound (h : Change s s') {pc : Pc} (hpc : Sound s.base.db pc) :
    Sound s'.base.db pc := by
  cases pc with
  | idle | stopped => trivial
  | prepared q | claimed q fence | executing q fence | executed q fence result evidence
  | failing q fence => exact h.registered hpc
  | cached q row | validated q row => exact h.completed hpc
  | returned q result =>
    obtain ⟨row, ref, hrow, hrest⟩ := hpc
    exact ⟨row, ref, h.completed hrow, hrest⟩

/-- A registered call whose row is completed. -/
theorem Registered.completed {db : Db} {q : Request} {row : Operation} (h : Registered db q)
    (hrow : db.operations q.key = some row) (hdone : row.state = .completed) :
    Completed db q row := by
  obtain ⟨row', hrow', hq⟩ := h
  rw [hrow] at hrow'; cases hrow'
  exact ⟨hrow, hq, hdone⟩

/-- What a call knows after a move. -/
theorem Moves.sound {db : Db} {pc pc' : Pc} (h : Moves db pc pc') (hpc : Sound db pc) :
    Sound db pc' := by
  cases h with
  | prepared q row hrow hq => exact ⟨row, hrow, hq⟩
  | cached q row hrow hdone => exact Registered.completed hpc hrow hdone
  | validated q row => exact hpc
  | loaded q row ref href => exact ⟨row, ref, hpc, href, rfl⟩
  | value | raised | refused => exact hpc
  | completed q fence result evidence row ref hrow hdone href hsha =>
    exact ⟨row, ref, Registered.completed hpc hrow hdone, href, hsha⟩
  | stopped => trivial

/-- In every reachable state every call is right about its row. -/
theorem sound_reachable (h : System.lts.Reachable System.Initial s) (p : ℕ) :
    Sound s.base.db (s.pcs p) := by
  refine h.invariant (I := fun s => ∀ p, Sound s.base.db (s.pcs p))
    (fun s h₀ p => by rw [h₀.2.1 p]; trivial) (fun s a s' hs hst p => ?_) p
  have hchange := System.change hst
  have hkeep := hchange.sound (hs p)
  cases hchange with
  | quiet hbase hstarted hpcs =>
    rcases hpcs p with hsame | hmoves
    · rw [hsame]; exact hkeep
    · exact hmoves.sound hkeep
  | claimed p₀ q fence row row' o hpc hbase hrow hprep hrow' hrunning hstarted hpcs =>
    rw [hpcs]
    by_cases hp : p = p₀
    · subst hp
      rw [Function.update_self]
      rw [hpc] at hkeep
      exact hkeep
    · rw [Function.update_of_ne hp]; exact hkeep
  | executed p₀ q fence hpc hbase hstarted hpcs =>
    rw [hpcs]
    by_cases hp : p = p₀
    · subst hp
      rw [Function.update_self]
      rw [hpc] at hkeep
      exact hkeep
    · rw [Function.update_of_ne hp]; exact hkeep

/-- A call that does not execute an operation that has ended never does. -/
theorem Change.not_executes (h : Change s s') {row : Operation} {p : ℕ}
    (hrow : s.base.db.operations k = some row) (hf : row.state.final = true)
    (hp : ¬ (s.pcs p).executes k) : ¬ (s'.pcs p).executes k := by
  cases h with
  | quiet hbase hstarted hpcs =>
    rcases hpcs p with hsame | hmoves
    · rw [hsame]; exact hp
    · exact fun h => hp (hmoves.executes h)
  | claimed p₀ q fence old row' o hpc hbase hold hprep hrow' hrunning hstarted hpcs =>
    rw [hpcs]
    by_cases hpp : p = p₀
    · subst hpp
      rw [Function.update_self]
      rintro (rfl : q.key = k)
      rw [hold] at hrow; cases hrow
      rw [hprep] at hf; cases hf
    · rw [Function.update_of_ne hpp]; exact hp
  | executed p₀ q fence hpc hbase hstarted hpcs =>
    rw [hpcs]
    by_cases hpp : p = p₀
    · subst hpp
      rw [Function.update_self]
      rw [hpc] at hp
      exact hp
    · rw [Function.update_of_ne hpp]; exact hp

theorem System.never_executes {as : List Act} (h : System.lts.Run s as s') {row : Operation}
    {p : ℕ} (hrow : s.base.db.operations k = some row) (hf : row.state.final = true)
    (hp : ¬ (s.pcs p).executes k) : ¬ (s'.pcs p).executes k :=
  (h.preserves (P := fun s => s.base.db.operations k = some row ∧ ¬ (s.pcs p).executes k)
    (fun _ _ _ hs hst => ⟨(System.change hst).final hs.1 hf,
      (System.change hst).not_executes hs.1 hf hs.2⟩) ⟨hrow, hp⟩).2

/-! ### Replay -/

section

variable {b : Sys} {env : Access} {c : Caller} {q : Request} {row : Operation} {u : Token}

/-- The call has the kind and the arguments of the row. -/
def Request.agrees (q : Request) (row : Operation) : Prop :=
  row.kind = q.kind ∧ row.arguments.arguments = q.arguments

/-- The scope check of the call passes. -/
def Request.admitted (q : Request) (env : Access) (c : Caller) (db : Db) : Prop :=
  q.ledger.checkScope env c false db db = .ok ()

/-- The row is in the scope of every ledger of its task that passes the scope check. -/
theorem Request.matches_of (hr : Recorded b q.key row) (hi : Indexed b)
    (hadm : q.admitted env c b.db) (hagree : q.agrees row) : q.matches row := by
  obtain ⟨sub, hsub, hkey, -, -, hscope⟩ := (Ledger.checkScope_ok hadm).1.submission
  obtain ⟨key, sub', hsub', hkey', hscope'⟩ := hr.scope
  have hsame : key = q.ledger.key := by
    have h₁ := hi.named _ _ hsub
    have h₂ := hi.named _ _ hsub'
    rw [hkey] at h₁
    rw [hkey'] at h₂
    exact Option.some.inj (h₂.symm.trans h₁)
  subst hsame
  rw [hsub] at hsub'; cases hsub'
  refine ⟨hagree.1, ?_⟩
  rw [Request.fingerprint, ← hscope, ← hscope', ← hagree.1, ← hagree.2, ← hr.kind]

theorem Request.prepare_replays (hr : Recorded b q.key row) (hi : Indexed b)
    (hrow : b.db.operations q.key = some row) (hdone : row.state = .completed)
    (hagree : q.agrees row) :
    Replays (q.admitted env c b.db) b.db
      (q.ledger.prepare env c q.step q.kind q.arguments b.db) row := by
  refine .of_ok (fun hadm => ?_) fun y h => ?_
  · have hm := q.matches_of hr hi hadm hagree
    simp only [Ledger.prepare, bind_eq_ok, ensure_eq_ok]
    refine ⟨(), hr.step, (), hagree.1 ▸ hr.io, (), hadm, ?_⟩
    rw [show b.db.operations (q.ledger.taskKey, q.step) = some row from hrow]
    simp only [bind_eq_ok, ensure_eq_ok, Bool.and_eq_true, decide_eq_true_eq]
    refine ⟨(), hm, ?_⟩
    rw [if_pos hdone]; rfl
  · simp only [Ledger.prepare, bind_eq_ok] at h
    obtain ⟨-, -, -, -, x, hscope, -⟩ := h
    exact hscope

theorem Request.claim_replays (hr : Recorded b q.key row)
    (hrow : b.db.operations q.key = some row) (hdone : row.state = .completed) :
    Replays (q.admitted env c b.db) b.db (q.ledger.claim env c q.step u b.db) row := by
  refine .of_ok (fun hadm => ?_) fun y h => ?_
  · simp only [Ledger.claim, Ledger.row, bind_eq_ok, require_eq_ok]
    refine ⟨(), hr.step, (), hadm, row, hrow, ?_⟩
    rw [if_pos hdone]; rfl
  · simp only [Ledger.claim, bind_eq_ok] at h
    obtain ⟨-, -, x, hscope, -⟩ := h
    exact hscope

theorem Request.load_replays {ref : Ref} (href : Ledger.Stored b.db q.key.1 ref) :
    (q.admitted env c b.db → q.ledger.load env c ref b.db = .ok ref.sha256) ∧
      (¬ q.admitted env c b.db → ∃ e, q.ledger.load env c ref b.db = .error e) := by
  refine ⟨fun hadm => Ledger.load_stored hadm href, fun hadm => ?_⟩
  cases h : q.ledger.load env c ref b.db with
  | error e => exact ⟨e, rfl⟩
  | ok payload =>
    simp only [Ledger.load, bind_eq_ok] at h
    obtain ⟨x, hscope, -⟩ := h
    exact absurd hscope hadm

/-- A call with another kind or other arguments than the row raises in `prepare`. -/
theorem Request.prepare_refused (hrow : b.db.operations q.key = some row)
    (hdiff : ¬ q.agrees row) :
    ∃ e, q.ledger.prepare env c q.step q.kind q.arguments b.db = .error e := by
  cases h : q.ledger.prepare env c q.step q.kind q.arguments b.db with
  | error e => exact ⟨e, rfl⟩
  | ok out =>
    obtain ⟨db', row'⟩ := out
    replace hrow : b.db.operations (q.ledger.taskKey, q.step) = some row := hrow
    obtain ⟨-, -, ⟨hrow', -, hkind, hargs⟩ | ⟨hnone, -⟩⟩ := Ledger.prepare_ok h
    · rw [hrow] at hrow'; cases hrow'
      exact absurd ⟨hkind, by rw [hargs]⟩ hdiff
    · rw [hrow] at hnone; cases hnone

end

/-- **Operation ledger, at most once.**  In every reachable state `execute` was entered at most
once for each operation, and a row that has ended stays as it is in every run from there.  Once the
row is completed, a call that has not begun never enters `execute` for it, and what it returns is
the stored result: at each of its transactions a call with the kind and the arguments of the row
is given the row and its payloads and writes nothing if its scope check passes, and raises
otherwise.  A call with another kind or other arguments raises and changes nothing. -/
theorem System.at_most_once (h : System.lts.Reachable System.Initial s) :
    (∀ k, s.started k ≤ 1) ∧
    ∀ k row, s.base.db.operations k = some row →
      (row.state.final = true → ∀ as s', System.lts.Run s as s' →
        s'.base.db.operations k = some row) ∧
      (row.state = .completed → ∃ result evidence, row.resultRef = some result ∧
        row.evidenceRef = some evidence ∧ ∀ as s', System.lts.Run s as s' →
          (∀ p, s.pcs p = .idle → ¬ (s'.pcs p).executes k ∧
            ∀ q v, s'.pcs p = .returned q v → q.key = k → q.agrees row ∧ v = result.sha256) ∧
          ∀ (env : Access) (c : Caller) (q : Request) (u : Token), q.key = k → q.agrees row →
            Replays (q.admitted env c s'.base.db) s'.base.db
              (q.ledger.prepare env c q.step q.kind q.arguments s'.base.db) row ∧
            Replays (q.admitted env c s'.base.db) s'.base.db
              (q.ledger.claim env c q.step u s'.base.db) row ∧
            ∀ ref, ref = evidence ∨ ref = result →
              (q.admitted env c s'.base.db →
                q.ledger.load env c ref s'.base.db = .ok ref.sha256) ∧
              (¬ q.admitted env c s'.base.db →
                ∃ e, q.ledger.load env c ref s'.base.db = .error e)) ∧
      ∀ (p : ℕ) (env : Access) (c : Caller) (q : Request), s.pcs p = .idle → q.key = k →
        ¬ q.agrees row → (s.after (.prepare p env c q)).pcs p = .stopped ∧
          (s.after (.prepare p env c q)).base.db = s.base.db := by
  refine ⟨fun k => (once_reachable h k).once, fun k row hrow => ⟨fun hf as s' hrun => ?_,
    fun hdone => ?_, fun p env c q hp hq hdiff => ?_⟩⟩
  · exact System.final_stays hrun hrow hf
  · have hf : row.state.final = true := by rw [hdone]; rfl
    obtain ⟨result, evidence, hres, hevi, -⟩ :=
      (intact_reachable (System.base_reachable h)).results k row hrow hdone
    refine ⟨result, evidence, hres, hevi, fun as s' hrun => ⟨fun p hp => ⟨?_, ?_⟩, ?_⟩⟩
    · exact System.never_executes hrun hrow hf (by rw [hp]; exact id)
    · rintro q v hv rfl
      have hsound := sound_reachable (h.run hrun) p
      rw [hv] at hsound
      obtain ⟨row', ref, ⟨hrow', ⟨hkind, hargs⟩, -⟩, href, rfl⟩ := hsound
      rw [System.final_stays hrun hrow hf] at hrow'; cases hrow'
      rw [hres] at href; cases href
      exact ⟨⟨hkind, by rw [hargs]; rfl⟩, rfl⟩
    · rintro env c q u rfl hagree
      have hbase := System.base_reachable (h.run hrun)
      have hrow' := System.final_stays hrun hrow hf
      have hrec := recorded_reachable hbase hrow'
      obtain ⟨result', evidence', hres', hevi', hsr, hse⟩ :=
        (intact_reachable hbase).results q.key row hrow' hdone
      rw [hres] at hres'; cases hres'
      rw [hevi] at hevi'; cases hevi'
      refine ⟨q.prepare_replays hrec (indexed_reachable hbase) hrow' hdone hagree,
        q.claim_replays hrec hrow' hdone, ?_⟩
      rintro ref (rfl | rfl)
      · exact q.load_replays hse
      · exact q.load_replays hsr
  · subst hq
    obtain ⟨e, he⟩ : ∃ e, q.ledger.prepare env c q.step q.kind q.arguments s.base.db = .error e :=
      q.prepare_refused hrow hdiff
    simp only [System.after, hp, he, System.perform]
    refine ⟨Function.update_self .., ?_⟩
    show commit _ (outcome (q.ledger.prepare env c q.step q.kind q.arguments s.base.db)) = _
    rw [he]; rfl

namespace Sample

open Temporal.Sample

/-- A model call. -/
def modelCall : Request := ⟨ledger, "model:1:attempt:1", .model, "{}"⟩

/-- No call yet. -/
def start : System := ⟨Temporal.Sample.start, fun _ => .idle, fun _ => 0⟩

/-- A call of `Ledger.run` that executes the model call. -/
def modelRun : List Act :=
  opening.map .other ++
    [.prepare 0 {} caller modelCall, .claim 0 {} caller, .execute 0,
      .value 0 (.json "answer") (.json "evidence"), .complete 0 {} caller]

/-- The row of the model call. -/
def modelRow : Operation :=
  { kind := .model
    arguments := modelCall.fingerprint
    state := .completed
    fence := some 10
    resultRef := some ⟨12, .json "answer"⟩
    evidenceRef := some ⟨13, .json "evidence"⟩ }

theorem reachable (as : List Act) : System.lts.Reachable System.Initial (start.runs as) :=
  ⟨start, as, ⟨⟨"host", rfl⟩, fun _ => rfl, fun _ => rfl⟩, System.run_runs start as⟩

theorem modelRow_stored :
    (start.runs modelRun).base.db.operations modelCall.key = some modelRow := by
  decide

end Sample

/-- After a model call was executed and completed, another call for it is given its row, also
after a crash; a call with other arguments stops. -/
theorem System.at_most_once_model :
    (Sample.start.runs Sample.modelRun).started Sample.modelCall.key ≤ 1 ∧
    Sample.modelCall.ledger.claim {} Temporal.Sample.caller Sample.modelCall.step 20
        ((Sample.start.runs Sample.modelRun).after (.crash 7)).base.db =
      .ok (((Sample.start.runs Sample.modelRun).after (.crash 7)).base.db, Sample.modelRow) ∧
    ((Sample.start.runs Sample.modelRun).after (.prepare 1 {} Temporal.Sample.caller
      { Sample.modelCall with arguments := "[]" })).pcs 1 = .stopped := by
  have hrow := (System.at_most_once (Sample.reachable Sample.modelRun)).2 Sample.modelCall.key
    Sample.modelRow Sample.modelRow_stored
  obtain ⟨result, evidence, -, -, hlater⟩ := hrow.2.1 rfl
  refine ⟨(System.at_most_once (Sample.reachable Sample.modelRun)).1 _, ?_, ?_⟩
  · exact ((hlater [.crash 7] _ (.single rfl)).2 {} Temporal.Sample.caller Sample.modelCall 20 rfl
      ⟨rfl, rfl⟩).2.1.1 (by rw [Request.admitted]; decide)
  · exact (hrow.2.2 1 {} Temporal.Sample.caller { Sample.modelCall with arguments := "[]" }
      (by decide) rfl (fun h => absurd h.2 (by decide))).1

/-- The row of a model call stays completed when its task is cancelled, but from then on a call
with the same kind and arguments raises instead of returning the stored result. -/
theorem System.cancelled_call_refused :
    let s := Sample.start.runs Sample.modelRun
    let s' := s.after (.other (.cancel 2 "o"))
    System.lts.Reachable System.Initial s' ∧
    s'.base.db.operations Sample.modelCall.key = some Sample.modelRow ∧
    Sample.modelCall.agrees Sample.modelRow ∧
    (s.after (.prepare 1 {} Temporal.Sample.caller Sample.modelCall)).pcs 1 =
      .prepared Sample.modelCall ∧
    s'.pcs 1 = .idle ∧
    (s'.after (.prepare 1 {} Temporal.Sample.caller Sample.modelCall)).pcs 1 = .stopped :=
  ⟨(Sample.reachable _).step rfl, by decide, ⟨rfl, rfl⟩, by decide,
    by decide, by decide⟩

end LedgerRun

end Temporal

end PythonAI
