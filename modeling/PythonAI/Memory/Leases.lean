import PythonAI.Library.Lts
import PythonAI.Memory.Jobs

/-!
# The leases of the memory jobs

Workers of any number of processes claim, renew, finish and release jobs, and operators recover
them.  Processes start and stop at any time; what `process_start` tells about them is true.

* `Host.Law` : what a step can do to one job.  A worker changes it under the token of its lease
  only, a recovery after the lease has expired and the process has stopped, and then the job fails;
* `Host.job_leases` : **every step from a reachable state keeps the law** for every job.
-/

namespace PythonAI

open Library

namespace Memory

namespace Leases

/-- A step. -/
inductive Act
  /-- a job is added -/
  | add (type : String) (episode : Option ℕ)
  /-- a process starts -/
  | start (p : Process)
  /-- a process stops -/
  | stop (p : Process)
  /-- the process `p` claims a job -/
  | claim (p : Process) (known : Bool) (seconds : Option ℕ) (id : ℕ) (token : Token) (t now : Time)
  /-- it renews the lease of a job -/
  | renew (p : Process) (seconds : Option ℕ) (id : ℕ) (token : Option Token) (t : Time)
  /-- it finishes a job -/
  | finish (p : Process) (id : ℕ) (token : Option Token) (state : JobStatus)
      (error : Option String) (next : Option Time) (t : Time)
  /-- its worker has returned -/
  | release (p : Process) (id : ℕ) (token : Option Token)
  /-- the jobs of stopped processes are recovered -/
  | recover (legacy : Bool) (verified : Bool × Bool) (host : String)
      (first second : ℕ → Jobs.Check) (record : ℕ → Token × Time) (backup : Option String)

/-- The job and the token that a worker's call is about. -/
def Act.token : Act → Option (ℕ × Option Token)
  | renew _ _ id token _ | finish _ id token _ _ _ _ | release _ id token => some (id, token)
  | _ => none

/-- The memory database with the processes that use it. -/
structure Host where
  /-- the database -/
  db : Db
  /-- the clock -/
  now : Time
  /-- the processes that are running -/
  alive : List Process := []
  /-- the processes that were ever started -/
  started : List Process := []
  /-- the tokens that were used, with their processes -/
  issued : List (Token × Process) := []
  /-- the jobs that were finished, released or recovered, with their tokens -/
  ended : List (ℕ × Token) := []

namespace Host

/-- What `process_start` tells on `host` about the process with the number `pid` is true. -/
def Truthful (h : Host) (host : String) (pid : ℕ) : Jobs.Probe → Prop
  | .gone => ∀ p ∈ h.alive, p.host = host → p.pid ≠ pid
  | .unreadable => True
  | .found started => ∀ p ∈ h.alive, p.host = host → p.pid = pid → p.started = started

/-- The process `p` is running, and uses a token that it was given. -/
def Uses (h : Host) (p : Process) (token : Option Token) : Prop :=
  p ∈ h.alive ∧ ∀ t, token = some t → (t, p) ∈ h.issued

/-- The tokens of the jobs. -/
def tokensOf (h : Host) (ids : List ℕ) : List (ℕ × Token) :=
  (h.db.jobs.filter fun j => j.id ∈ ids).filterMap fun j => j.lease.map fun l => (j.id, l.token)

/-- What a step does; a call that raises changes nothing.  A call of a worker reads the clock as `t`
before its transaction, which commits at `now`. -/
def Step (h : Host) (a : Act) (h' : Host) : Prop :=
  match a with
  | .add type episode => h' = { h with db := (Jobs.add type episode h.db).1 }
  | .start p => p ∉ h.started ∧
      h' = { h with alive := p :: h.alive, started := p :: h.started }
  | .stop p => h' = { h with alive := h.alive.filter fun q => q ≠ p }
  | .claim p known seconds id token t now =>
    p ∈ h.alive ∧ (∀ q, (token, q) ∉ h.issued) ∧ t ≤ now ∧ h.now ≤ now ∧
      h' = { h with
        db := settle h.db (Jobs.claim p known seconds id token t now h.db)
        now := now, issued := (token, p) :: h.issued }
  | .renew p seconds id token t => h.Uses p token ∧ ∃ now, t ≤ now ∧ h.now ≤ now ∧
      h' = { h with db := settle h.db (Jobs.renew seconds id token t h.db), now := now }
  | .finish p id token state error next t => h.Uses p token ∧ ∃ now, t ≤ now ∧ h.now ≤ now ∧
      h' = { h with
        db := settle h.db (Jobs.finish id token state error next t h.db)
        now := now
        ended := if h.db.jobs.any (Jobs.leased id token t) then
          token.toList.map (id, ·) ++ h.ended else h.ended }
  | .release p id token => h.Uses p token ∧
      h' = { h with db := Jobs.release id token h.db, ended := token.toList.map (id, ·) ++ h.ended }
  | .recover legacy verified host first second record backup => ∃ t,
      (∀ id, h.now ≤ (first id).now ∧ (first id).now ≤ (second id).now ∧ (second id).now ≤ t) ∧
      (∀ j ∈ h.db.jobs, ∀ l, j.lease = some l →
        h.Truthful host l.owner.pid (first j.id).probe ∧
        h.Truthful host l.owner.pid (second j.id).probe) ∧
      h' = match Jobs.recover legacy verified host first second record backup h.db with
        | .error _ => { h with now := t }
        | .ok (db, ids) => { h with db := db, now := t, ended := h.tokensOf ids ++ h.ended }

/-- One step at a time. -/
def lts : Lts Host Act where
  step := Step

/-- No process, and no lease. -/
structure Initial (h : Host) : Prop where
  /-- the jobs are numbered in the order of their insertion -/
  ids : h.db.jobs.map Job.id = List.range' 1 h.db.jobs.length
  /-- no job has a lease -/
  leases : ∀ j ∈ h.db.jobs, j.lease = none
  /-- no process is running -/
  alive : h.alive = []
  /-- no token was used -/
  issued : h.issued = []
  /-- no job has ended -/
  ended : h.ended = []

/-- What a step can do to the job `j`, which becomes `j'`. -/
structure Law (h : Host) (a : Act) (h' : Host) (j j' : Job) : Prop where
  /-- the call of a worker changes the job only under the token of its lease -/
  holder : ∀ id token, a.token = some (id, token) → j' ≠ j →
    id = j.id ∧ j.status = .processing ∧ ∃ l, j.lease = some l ∧ some l.token = token
  /-- a token under which the job was finished, released or recovered changes nothing -/
  ended : ∀ id token, a.token = some (id, some token) → (j.id, token) ∈ h.ended → j' = j
  /-- a failed job stays as it is -/
  failed : j.status = .failed → j' = j
  /-- a job becomes pending again only when the holder of its lease finishes it in time -/
  pending : j.status ≠ .pending → j'.status = .pending → ∃ p error next t l,
    a = .finish p j.id (some l.token) .pending error next t ∧ j.lease = some l ∧ t < l.expires
  /-- a job whose worker has returned without finishing it has failed -/
  released : ∀ l p, j.lease = some l → a = .release p j.id (some l.token) → j'.status = .failed
  /-- a job whose process has stopped stays as it is, or fails -/
  dead : ∀ l, j.lease = some l → l.owner ∉ h.alive → j' = j ∨ j'.status = .failed
  /-- a recovery changes a job with a lease only if the lease has expired and its process has
  stopped, and the job fails -/
  recovered : a.token = none → j' ≠ j → ∀ l, j.lease = some l →
    l.expires ≤ h'.now ∧ l.owner ∉ h.alive ∧ j'.status = .failed
  /-- a recovery that is allowed and has its backup fails a job if it finds, each time it looks, that
  the lease has expired and that the owner has stopped -/
  abandoned : ∀ legacy verified host first second record backup l,
    a = .recover legacy verified host first second record (some backup) →
    (legacy = true → verified = (true, true)) → j.lease = some l →
    (∀ check ∈ [first j.id, second j.id], l.expires ≤ check.now ∧
      Jobs.ownerState host l.owner check.probe = .stopped) → j'.status = .failed
  /-- each job that a recovery changes has one new record, and no other job has one -/
  records : ∃ new, h'.db.recoveries = h.db.recoveries ++ new ∧
    (new.filter fun r => r.job = j.id).length =
      if j.status = .processing ∧ j'.status = .failed ∧ a.token = none then 1 else 0

/-! ### What a step does to a job -/

/-- A recovery. -/
def recovers : Act → Prop
  | .recover .. => True
  | _ => False

/-- What a step does to the job `j`. -/
inductive Row (h : Host) (a : Act) (h' : Host) (j : Job) : Job → Prop
  /-- nothing, and a token of its lease does not end -/
  | same (hkept : ∀ l, j.lease = some l → (j.id, l.token) ∉ h.ended → (j.id, l.token) ∉ h'.ended) :
      Row h a h' j j
  /-- it is claimed -/
  | claimed (p : Process) (token : Token) (t seconds : ℕ) (hpending : j.status = .pending)
      (ha : a.token = none) (hr : ¬ recovers a) (hfresh : ∀ q, (token, q) ∉ h.issued)
      (hissued : (token, p) ∈ h'.issued) (hended : h'.ended = h.ended) :
      Row h a h' j { j with
        status := .processing, attempts := j.attempts + 1
        lease := some ⟨token, p, t, t + seconds⟩ }
  /-- its lease is renewed -/
  | renewed (p : Process) (seconds : Option ℕ) (l : Lease) (t expires : ℕ)
      (ha : a = .renew p seconds j.id (some l.token) t) (hl : j.lease = some l)
      (hs : j.status = .processing) (hp : p ∈ h.alive ∧ (l.token, p) ∈ h.issued)
      (hended : h'.ended = h.ended) :
      Row h a h' j { j with lease := some { l with heartbeat := t, expires := expires } }
  /-- it is finished -/
  | finished (p : Process) (l : Lease) (state : JobStatus) (error : Option String)
      (next : Option Time) (t : Time) (ha : a = .finish p j.id (some l.token) state error next t)
      (hl : j.lease = some l) (hs : j.status = .processing) (hlive : t < l.expires)
      (hp : p ∈ h.alive ∧ (l.token, p) ∈ h.issued) :
      Row h a h' j
        { j with status := state, lastError := error, nextAttempt := next, lease := none }
  /-- its worker has returned -/
  | released (p : Process) (l : Lease) (text : String)
      (ha : a = .release p j.id (some l.token)) (hl : j.lease = some l)
      (hs : j.status = .processing) : Row h a h' j (Jobs.fail text j)
  /-- it is recovered -/
  | recovered (text : String) (ha : recovers a) (hs : j.status = .processing)
      (hl : ∀ l, j.lease = some l → l.expires ≤ h'.now ∧ l.owner ∉ h.alive) :
      Row h a h' j (Jobs.fail text j)

/-- What holds of the leases. -/
structure Inv (h : Host) : Prop where
  /-- the jobs are numbered in the order of their insertion -/
  ids : h.db.jobs.map Job.id = List.range' 1 h.db.jobs.length
  /-- a job with a lease is being processed, under a token that was given to the owner and under
  which the job has not ended -/
  leased : ∀ j ∈ h.db.jobs, ∀ l, j.lease = some l →
    j.status = .processing ∧ (l.token, l.owner) ∈ h.issued ∧ (j.id, l.token) ∉ h.ended
  /-- a token is given to one process -/
  once : ∀ token p q, (token, p) ∈ h.issued → (token, q) ∈ h.issued → p = q
  /-- only a token that was given can end -/
  ended : ∀ id token, (id, token) ∈ h.ended → ∃ p, (token, p) ∈ h.issued
  /-- a token is given to a process that was started -/
  users : ∀ token p, (token, p) ∈ h.issued → p ∈ h.started
  /-- a process that is running was started -/
  alive : ∀ p ∈ h.alive, p ∈ h.started

variable {h h' : Host} {a : Act}

theorem Inv.nodup (hi : h.Inv) : (h.db.jobs.map Job.id).Nodup := by
  rw [hi.ids]
  exact List.nodup_range'

theorem Inv.same {j k : Job} (hi : h.Inv) (hj : j ∈ h.db.jobs) (hk : k ∈ h.db.jobs)
    (heq : j.id = k.id) : j = k := List.inj_on_of_nodup_map hi.nodup hj hk heq

theorem held_eq {id : ℕ} {token : Option Token} {j : Job} (hj : Jobs.held id token j = true) :
    j.id = id ∧ j.status = .processing ∧ ∃ l, j.lease = some l ∧ some l.token = token := by
  simp only [Jobs.held, Bool.and_eq_true, decide_eq_true_eq, Option.any_eq_true] at hj
  exact ⟨hj.1.1, hj.1.2, hj.2⟩

theorem leased_eq {id : ℕ} {token : Option Token} {t : Time} {j : Job}
    (hj : Jobs.leased id token t j = true) : j.id = id ∧ j.status = .processing ∧
      ∃ l, j.lease = some l ∧ some l.token = token ∧ t < l.expires := by
  simp only [Jobs.leased, Bool.and_eq_true, Option.any_eq_true, decide_eq_true_eq] at hj
  obtain ⟨hid, hs, l, hl, htoken⟩ := held_eq hj.1
  obtain ⟨l', hl', hlive⟩ := hj.2
  rw [hl] at hl'
  cases hl'
  exact ⟨hid, hs, l, hl, htoken, hlive⟩

/-- What is told about a running owner is not that it has stopped. -/
theorem owner_running {host : String} {owner : Process} {probe : Jobs.Probe}
    (halive : owner ∈ h.alive) (htruth : h.Truthful host owner.pid probe) :
    Jobs.ownerState host owner probe ≠ .stopped := by
  unfold Jobs.ownerState
  split_ifs with hknown
  · exact fun heq => by cases heq
  · simp only [Bool.or_eq_true, decide_eq_true_eq, not_or, not_not] at hknown
    cases probe with
    | gone => exact absurd rfl (htruth owner halive hknown.1.1)
    | unreadable => exact fun heq => by cases heq
    | found started =>
      simp [htruth owner halive hknown.1.1 rfl]

/-- What `recover` does when it returns. -/
theorem recover_ok {legacy : Bool} {verified : Bool × Bool} {host : String}
    {first second : ℕ → Jobs.Check} {record : ℕ → Token × Time} {backup : Option String}
    {db db' : Db} {ids : List ℕ}
    (e : Jobs.recover legacy verified host first second record backup db = .ok (db', ids)) :
    ∃ rows : List Job, rows.Sublist db.jobs ∧ ids = rows.map Job.id ∧
      (∀ j ∈ rows, j.status = .processing ∧ Jobs.eligible legacy host (second j.id) j = true) ∧
      db'.jobs = db.jobs.map (fun j =>
        if j.status = .processing ∧ j.id ∈ ids then Jobs.fail Jobs.reason j else j) ∧
      ∃ new, db'.recoveries = db.recoveries ++ new ∧ new.map Recovery.job = ids := by
  simp only [Jobs.recover, bind_eq_ok, ensure_eq_ok] at e
  obtain ⟨_, -, e⟩ := e
  split at e
  · cases e
    exact ⟨[], List.nil_sublist _, rfl, by simp, by simp, [], by simp, rfl⟩
  · next candidate candidates hrows =>
    simp only [bind_eq_ok, require_eq_ok, ensure_eq_ok, pure_eq_ok, Prod.mk.injEq] at e
    obtain ⟨backup', -, _, -, rfl, rfl⟩ := e
    refine ⟨_, ?_, rfl, ?_, ?_, _, rfl, ?_⟩
    · rw [← hrows]
      exact (List.filter_sublist.trans List.filter_sublist).trans List.filter_sublist
    · intro j hj
      rw [← hrows] at hj
      obtain ⟨hj, hok⟩ := List.mem_filter.mp hj
      obtain ⟨hj, -⟩ := List.mem_filter.mp hj
      exact ⟨by simpa using (List.mem_filter.mp hj).2, hok⟩
    · simp only [Jobs.update, Bool.and_eq_true, decide_eq_true_eq]
    · simp [List.map_map, Function.comp_def]

/-- A recovery that is allowed and has its backup recovers each job that is eligible both times. -/
theorem recover_eligible {legacy : Bool} {verified : Bool × Bool} {host : String}
    {first second : ℕ → Jobs.Check} {record : ℕ → Token × Time} {backup : String} {db : Db} {j : Job}
    (hallowed : legacy = true → verified = (true, true)) (hj : j ∈ db.jobs)
    (hs : j.status = .processing) (hfirst : Jobs.eligible legacy host (first j.id) j = true)
    (hsecond : Jobs.eligible legacy host (second j.id) j = true) : ∃ db' ids,
      Jobs.recover legacy verified host first second record (some backup) db = .ok (db', ids) ∧
        j.id ∈ ids := by
  have hverified : (!legacy || verified.1) = true ∧ (!legacy || verified.2) = true := by
    cases legacy with
    | false => exact ⟨rfl, rfl⟩
    | true => rw [hallowed rfl]; exact ⟨rfl, rfl⟩
  have hmem : j ∈ (db.jobs.filter fun j => j.status = .processing).filter
      fun j => Jobs.eligible legacy host (first j.id) j :=
    List.mem_filter.mpr ⟨List.mem_filter.mpr ⟨hj, by simpa using hs⟩, hfirst⟩
  cases hrows : (db.jobs.filter fun j => j.status = .processing).filter
      fun j => Jobs.eligible legacy host (first j.id) j with
  | nil => rw [hrows] at hmem; cases hmem
  | cons candidate candidates =>
    rw [hrows] at hmem
    have hrecovered : j ∈ (candidate :: candidates).filter fun j =>
        Jobs.eligible legacy host (second j.id) j := List.mem_filter.mpr ⟨hmem, hsecond⟩
    simp only [Jobs.recover, hverified, ensure_true, hrows]
    exact ⟨_, _, rfl, List.mem_map_of_mem hrecovered⟩

theorem finish_held {id : ℕ} {token : Option Token} {state : JobStatus} {error : Option String}
    {next : Option Time} {t : Time} {db : Db} (hany : db.jobs.any (Jobs.leased id token t) = true) :
    settle db (Jobs.finish id token state error next t db) =
      Jobs.update (Jobs.leased id token t) (fun j =>
        { j with status := state, lastError := error, nextAttempt := next, lease := none }) db := by
  unfold Jobs.finish
  rw [hany]
  rfl

/-- Each step rewrites the jobs row by row, and adds at most a new one. -/
theorem rows (hi : h.Inv) (hst : Step h a h') : ∃ (g : Job → Job) (new : List Job),
    h'.db.jobs = h.db.jobs.map g ++ new ∧ (∀ j ∈ h.db.jobs, Row h a h' j (g j)) ∧
    new.map Job.id = List.range' (h.db.jobs.length + 1) new.length ∧
    ∀ j ∈ new, j.lease = none := by
  have hsame {h' : Host} (hdb : h'.db.jobs = h.db.jobs) (hended : h'.ended = h.ended) :
      ∃ (g : Job → Job) (new : List Job),
        h'.db.jobs = h.db.jobs.map g ++ new ∧ (∀ j ∈ h.db.jobs, Row h a h' j (g j)) ∧
        new.map Job.id = List.range' (h.db.jobs.length + 1) new.length ∧
        ∀ j ∈ new, j.lease = none := by
    refine ⟨id, [], by simp [hdb], fun j _ => .same fun l _ hl => ?_, rfl, by simp⟩
    rwa [hended]
  cases a with
  | add type episode =>
    cases hst
    refine ⟨id, [_], by rw [List.map_id]; rfl, fun j _ => .same fun _ _ hl => hl, rfl, ?_⟩
    intro j hj
    rw [List.mem_singleton.mp hj]
  | start p =>
    obtain ⟨-, rfl⟩ := hst
    exact hsame rfl rfl
  | stop p =>
    cases hst
    exact hsame rfl rfl
  | claim p known seconds id token t now =>
    obtain ⟨-, hfresh, -, -, rfl⟩ := hst
    cases e : Jobs.claim p known seconds id token t now h.db with
    | error => exact hsame rfl rfl
    | ok r =>
      simp only [Jobs.claim, bind_eq_ok, ensure_eq_ok, pure_eq_ok] at e
      obtain ⟨lasts, -, _, -, rfl⟩ := e
      refine ⟨_, [], (List.append_nil _).symm, fun j _ => ?_, rfl, by simp⟩
      split_ifs with hp
      · simp only [Jobs.claimable, Bool.and_eq_true, decide_eq_true_eq] at hp
        exact .claimed p token t lasts hp.1.2 rfl not_false hfresh (List.mem_cons_self ..) rfl
      · exact .same fun _ _ hl => hl
  | renew p seconds id token t =>
    obtain ⟨hp, now, -, -, rfl⟩ := hst
    cases e : Jobs.renew seconds id token t h.db with
    | error => exact hsame rfl rfl
    | ok r =>
      simp only [Jobs.renew, bind_eq_ok, pure_eq_ok] at e
      obtain ⟨lasts, -, rfl⟩ := e
      refine ⟨_, [], (List.append_nil _).symm, fun j _ => ?_, rfl, by simp⟩
      split_ifs with hj
      · obtain ⟨rfl, hs, l, hl, rfl, -⟩ := leased_eq hj
        simp only [hl, Option.map_some]
        exact .renewed p seconds l t _ rfl hl hs ⟨hp.1, hp.2 _ rfl⟩ rfl
      · exact .same fun _ _ hl => hl
  | finish p id token state error next t =>
    obtain ⟨hp, now, -, -, rfl⟩ := hst
    by_cases hany : h.db.jobs.any (Jobs.leased id token t) = true
    · refine ⟨fun j => if Jobs.leased id token t j then
        { j with status := state, lastError := error, nextAttempt := next, lease := none } else j,
        [], by rw [finish_held hany]; exact (List.append_nil _).symm, fun j hj => ?_, rfl, by simp⟩
      beta_reduce
      by_cases hheld : Jobs.leased id token t j = true
      · obtain ⟨rfl, hs, l, hl, rfl, hlive⟩ := leased_eq hheld
        rw [if_pos hheld]
        exact .finished p l state error next t rfl hl hs hlive ⟨hp.1, hp.2 _ rfl⟩
      · rw [if_neg hheld]
        refine .same fun l hl hnot hmem => ?_
        -- the row that was finished has the same number, so it is this one
        obtain ⟨k, hk, hkheld⟩ := List.any_eq_true.mp hany
        rw [if_pos hany] at hmem
        rcases List.mem_append.mp hmem with hmem | hmem
        · obtain ⟨u, hu, heq⟩ := List.mem_map.mp hmem
          cases heq
          have hid := (leased_eq hkheld).1
          rw [hi.same hk hj hid] at hkheld
          exact hheld hkheld
        · exact hnot hmem
    · refine hsame ?_ (if_neg hany)
      rw [Bool.not_eq_true] at hany
      show (settle h.db (Jobs.finish id token state error next t h.db)).jobs = h.db.jobs
      unfold Jobs.finish
      rw [hany]
      rfl
  | release p id token =>
    obtain ⟨hp, rfl⟩ := hst
    refine ⟨_, [], (List.append_nil _).symm, fun j hj => ?_, rfl, by simp⟩
    split_ifs with hheld
    · obtain ⟨rfl, hs, l, hl, rfl⟩ := held_eq hheld
      exact .released p l _ rfl hl hs
    · refine .same fun l hl hnot hmem => ?_
      rcases List.mem_append.mp hmem with hmem | hmem
      · obtain ⟨u, hu, heq⟩ := List.mem_map.mp hmem
        cases heq
        refine hheld ?_
        simp only [Jobs.held, Bool.and_eq_true, decide_eq_true_eq, Option.any_eq_true]
        exact ⟨⟨trivial, (hi.leased j hj l hl).1⟩, l, hl, (Option.mem_toList.mp hu).symm⟩
      · exact hnot hmem
  | recover legacy verified host first second record backup =>
    obtain ⟨t, hclock, htruth, rfl⟩ := hst
    cases e : Jobs.recover legacy verified host first second record backup h.db with
    | error => exact hsame rfl rfl
    | ok r =>
      obtain ⟨db', ids⟩ := r
      obtain ⟨rows, hsub, rfl, hrows, hjobs, -⟩ := recover_ok e
      refine ⟨_, [], by rw [hjobs]; exact (List.append_nil _).symm, fun j hj => ?_, rfl, by simp⟩
      split_ifs with hrec
      · refine .recovered _ trivial hrec.1 fun l hl => ?_
        obtain ⟨k, hk, hid⟩ := List.mem_map.mp hrec.2
        rw [hi.same (hsub.subset hk) hj hid] at hk
        have hok := (hrows j hk).2
        simp only [Jobs.eligible, hl, Bool.and_eq_true, decide_eq_true_eq] at hok
        refine ⟨le_trans hok.1 (hclock j.id).2.2, fun halive => ?_⟩
        exact absurd hok.2 (owner_running halive (htruth j hj l hl).2)
      · refine .same fun l hl hnot hmem => ?_
        rcases List.mem_append.mp hmem with hmem | hmem
        · simp only [tokensOf, List.mem_filterMap, List.mem_filter, decide_eq_true_eq,
            Option.map_eq_some_iff] at hmem
          obtain ⟨k, ⟨-, hin⟩, m, -, heq⟩ := hmem
          obtain ⟨hid, -⟩ := Prod.mk.injEq .. ▸ heq
          exact hrec ⟨(hi.leased j hj l hl).1, hid ▸ hin⟩
        · exact hnot hmem

/-- A step issues tokens, and only those that are issued can end. -/
theorem tokens_issued (hi : h.Inv) (hst : Step h a h') :
    (∀ x ∈ h.issued, x ∈ h'.issued) ∧
    (∀ token p q, (token, p) ∈ h'.issued → (token, q) ∈ h'.issued → p = q) ∧
    ∀ id token, (id, token) ∈ h'.ended → ∃ p, (token, p) ∈ h'.issued := by
  have hused {p : Process} {id : ℕ} {token : Option Token} {x : ℕ × Token} (hp : h.Uses p token)
      (hx : x ∈ token.toList.map (id, ·) ++ h.ended) : ∃ p, (x.2, p) ∈ h.issued := by
    rcases List.mem_append.mp hx with hx | hx
    · obtain ⟨u, hu, rfl⟩ := List.mem_map.mp hx
      exact ⟨p, hp.2 u (Option.mem_toList.mp hu)⟩
    · exact hi.ended _ _ hx
  cases a with
  | add | stop =>
    cases hst
    exact ⟨fun _ hx => hx, hi.once, hi.ended⟩
  | start p =>
    obtain ⟨-, rfl⟩ := hst
    exact ⟨fun _ hx => hx, hi.once, hi.ended⟩
  | claim p known seconds id token t now =>
    obtain ⟨-, hfresh, -, -, rfl⟩ := hst
    refine ⟨fun _ hx => List.mem_cons_of_mem _ hx, fun u p q hp hq => ?_, fun id u hx => ?_⟩
    · rcases List.mem_cons.mp hp with hp | hp <;> rcases List.mem_cons.mp hq with hq | hq
      · cases hp
        cases hq
        rfl
      · cases hp
        exact absurd hq (hfresh q)
      · cases hq
        exact absurd hp (hfresh p)
      · exact hi.once u p q hp hq
    · obtain ⟨q, hq⟩ := hi.ended id u hx
      exact ⟨q, List.mem_cons_of_mem _ hq⟩
  | renew =>
    obtain ⟨-, _, -, -, rfl⟩ := hst
    exact ⟨fun _ hx => hx, hi.once, hi.ended⟩
  | finish p id token state error next t =>
    obtain ⟨hp, _, -, -, rfl⟩ := hst
    refine ⟨fun _ hx => hx, hi.once, fun k u hx => ?_⟩
    by_cases hany : h.db.jobs.any (Jobs.leased id token t) = true
    · rw [if_pos hany] at hx
      exact hused hp hx
    · rw [if_neg hany] at hx
      exact hi.ended k u hx
  | release p id token =>
    obtain ⟨hp, rfl⟩ := hst
    exact ⟨fun _ hx => hx, hi.once, fun k u hx => hused hp hx⟩
  | recover legacy verified host first second record backup =>
    obtain ⟨t, -, -, rfl⟩ := hst
    cases Jobs.recover legacy verified host first second record backup h.db with
    | error => exact ⟨fun _ hx => hx, hi.once, hi.ended⟩
    | ok r =>
      refine ⟨fun _ hx => hx, hi.once, fun k u hx => ?_⟩
      rcases List.mem_append.mp hx with hx | hx
      · obtain ⟨j, hj, heq⟩ := List.mem_filterMap.mp hx
        obtain ⟨l, hl, heq⟩ := Option.map_eq_some_iff.mp heq
        cases heq
        exact ⟨l.owner, (hi.leased j (List.mem_filter.mp hj).1 l hl).2.1⟩
      · exact hi.ended k u hx

/-- A step starts new processes only, and issues tokens to running ones. -/
theorem step_processes (hst : Step h a h') : (∀ p ∈ h.started, p ∈ h'.started) ∧
    (∀ p ∈ h'.alive, p ∈ h.alive ∨ p ∉ h.started ∧ p ∈ h'.started) ∧
    ∀ token p, (token, p) ∈ h'.issued → (token, p) ∈ h.issued ∨ p ∈ h.alive := by
  cases a with
  | add =>
    cases hst
    exact ⟨fun _ hp => hp, fun _ => .inl, fun _ _ => .inl⟩
  | start p =>
    obtain ⟨hp, rfl⟩ := hst
    refine ⟨fun _ hq => List.mem_cons_of_mem _ hq, fun q hq => ?_, fun _ _ => .inl⟩
    rcases List.mem_cons.mp hq with rfl | hq
    · exact .inr ⟨hp, List.mem_cons_self ..⟩
    · exact .inl hq
  | stop p =>
    cases hst
    exact ⟨fun _ hq => hq, fun q hq => .inl (List.mem_filter.mp hq).1, fun _ _ => .inl⟩
  | claim p known seconds id token t now =>
    obtain ⟨hp, -, -, -, rfl⟩ := hst
    refine ⟨fun _ hq => hq, fun _ => .inl, fun u q hq => ?_⟩
    rcases List.mem_cons.mp hq with hq | hq
    · cases hq
      exact .inr hp
    · exact .inl hq
  | renew | finish =>
    obtain ⟨-, _, -, -, rfl⟩ := hst
    exact ⟨fun _ hp => hp, fun _ => .inl, fun _ _ => .inl⟩
  | release =>
    obtain ⟨-, rfl⟩ := hst
    exact ⟨fun _ hp => hp, fun _ => .inl, fun _ _ => .inl⟩
  | recover legacy verified host first second record backup =>
    obtain ⟨t, -, -, rfl⟩ := hst
    cases Jobs.recover legacy verified host first second record backup h.db with
    | error | ok => exact ⟨fun _ hp => hp, fun _ => .inl, fun _ _ => .inl⟩

/-- A step keeps the number of a job. -/
theorem Row.id {j j' : Job} (hrow : Row h a h' j j') : j'.id = j.id := by
  cases hrow <;> rfl

/-- A job that has a lease after a step is processed under a token that has not ended. -/
theorem Row.leased {j j' : Job} (hi : h.Inv) (hj : j ∈ h.db.jobs) (hrow : Row h a h' j j')
    (hmono : ∀ x ∈ h.issued, x ∈ h'.issued) (l : Lease) (hl : j'.lease = some l) :
    j'.status = .processing ∧ (l.token, l.owner) ∈ h'.issued ∧ (j'.id, l.token) ∉ h'.ended := by
  cases hrow with
  | same hkept =>
    obtain ⟨hs, hissued, hended⟩ := hi.leased j hj l hl
    exact ⟨hs, hmono _ hissued, hkept l hl hended⟩
  | claimed p token t seconds hpending ha hr hfresh hissued hended =>
    cases hl
    refine ⟨rfl, hissued, fun hmem => ?_⟩
    rw [hended] at hmem
    obtain ⟨q, hq⟩ := hi.ended _ _ hmem
    exact hfresh q hq
  | renewed p seconds l' t expires ha hl' hs hp hended =>
    cases hl
    obtain ⟨-, hissued, hnot⟩ := hi.leased j hj l' hl'
    rw [hended]
    exact ⟨hs, hmono _ hissued, hnot⟩
  | finished => cases hl
  | released => cases hl
  | recovered => cases hl

theorem Inv.step (hi : h.Inv) (hst : Step h a h') : h'.Inv := by
  obtain ⟨g, new, hjobs, hrows, hids, hnew⟩ := rows hi hst
  obtain ⟨hmono, honce, hended⟩ := tokens_issued hi hst
  have hmap : (h.db.jobs.map g).map Job.id = h.db.jobs.map Job.id := by
    rw [List.map_map]
    exact List.map_congr_left fun j hj => (hrows j hj).id
  obtain ⟨hstarted, halive, hissued⟩ := step_processes hst
  refine ⟨?_, fun j hj l hl => ?_, honce, hended, fun u p hp => ?_, fun p hp => ?_⟩
  · rw [hjobs, List.map_append, hmap, hids, hi.ids, List.length_append, List.length_map,
      ← List.range'_append_1, Nat.add_comm 1]
  · rw [hjobs] at hj
    rcases List.mem_append.mp hj with hj | hj
    · obtain ⟨k, hk, rfl⟩ := List.mem_map.mp hj
      exact (hrows k hk).leased hi hk hmono l hl
    · rw [hnew j hj] at hl
      cases hl
  · rcases hissued u p hp with hp | hp
    · exact hstarted p (hi.users u p hp)
    · exact hstarted p (hi.alive p hp)
  · rcases halive p hp with hp | ⟨-, hp⟩
    · exact hstarted p (hi.alive p hp)
    · exact hp

theorem Initial.inv (hinit : h.Initial) : h.Inv := by
  refine ⟨hinit.ids, fun j hj l hl => ?_, fun _ _ _ hp => ?_, fun _ _ hx => ?_, fun _ _ hp => ?_,
    fun _ hp => ?_⟩
  · rw [hinit.leases j hj] at hl
    cases hl
  · rw [hinit.issued] at hp
    cases hp
  · rw [hinit.ended] at hx
    cases hx
  · rw [hinit.issued] at hp
    cases hp
  · rw [hinit.alive] at hp
    cases hp

theorem inv_of_reachable (hr : lts.Reachable Initial h) : h.Inv :=
  hr.invariant (fun _ => Initial.inv) fun _ _ _ => Inv.step

/-! ### The law -/

/-- Only a recovery writes records. -/
theorem recoveries_eq (hst : Step h a h') (ha : ¬ recovers a) :
    h'.db.recoveries = h.db.recoveries := by
  cases a with
  | add =>
    cases hst
    rfl
  | start =>
    obtain ⟨-, rfl⟩ := hst
    rfl
  | stop =>
    cases hst
    rfl
  | claim p known seconds id token t now =>
    obtain ⟨-, -, -, -, rfl⟩ := hst
    refine settle_of (P := fun db : Db => db.recoveries = h.db.recoveries) rfl fun db' r e => ?_
    simp only [Jobs.claim, bind_eq_ok, ensure_eq_ok, pure_eq_ok, Prod.mk.injEq] at e
    obtain ⟨_, -, _, -, rfl, -⟩ := e
    rfl
  | renew p seconds id token t =>
    obtain ⟨-, _, -, -, rfl⟩ := hst
    refine settle_of (P := fun db : Db => db.recoveries = h.db.recoveries) rfl fun db' r e => ?_
    simp only [Jobs.renew, bind_eq_ok, pure_eq_ok, Prod.mk.injEq] at e
    obtain ⟨_, -, rfl, -⟩ := e
    rfl
  | finish p id token state error next t =>
    obtain ⟨-, _, -, -, rfl⟩ := hst
    refine settle_of (P := fun db : Db => db.recoveries = h.db.recoveries) rfl fun db' r e => ?_
    simp only [Jobs.finish, bind_eq_ok, ensure_eq_ok, pure_eq_ok, Prod.mk.injEq] at e
    obtain ⟨_, -, rfl, -⟩ := e
    rfl
  | release =>
    obtain ⟨-, rfl⟩ := hst
    rfl
  | recover => exact absurd trivial ha

/-- A recovery writes one record for each job that it fails. -/
theorem records (hi : h.Inv) (hst : Step h a h') (ha : recovers a) :
    ∃ (ids : List ℕ) (new : List Recovery),
      h'.db.recoveries = h.db.recoveries ++ new ∧ new.map Recovery.job = ids ∧ ids.Nodup ∧
      (∀ j ∈ h.db.jobs, j.id ∈ ids → j.status = .processing) ∧
      h'.db.jobs = h.db.jobs.map fun j =>
        if j.status = .processing ∧ j.id ∈ ids then Jobs.fail Jobs.reason j else j := by
  cases a with
  | recover legacy verified host first second record backup =>
    obtain ⟨t, -, -, rfl⟩ := hst
    cases e : Jobs.recover legacy verified host first second record backup h.db with
    | error => exact ⟨[], [], by simp, rfl, List.nodup_nil, by simp, by simp⟩
    | ok r =>
      obtain ⟨db', ids⟩ := r
      obtain ⟨rows, hsub, rfl, hrows, hjobs, new, hnew, hmap⟩ := recover_ok e
      refine ⟨_, new, hnew, hmap, hi.nodup.sublist (hsub.map _), fun j hj hid => ?_, hjobs⟩
      obtain ⟨k, hk, hkj⟩ := List.mem_map.mp hid
      rw [hi.same (hsub.subset hk) hj hkj] at hk
      exact (hrows j hk).1
  | _ => exact absurd ha not_false

theorem token_of_recovers (ha : recovers a) : a.token = none := by
  cases a with
  | recover => rfl
  | _ => exact absurd ha not_false

/-- A job that the call of a worker changes is held under the token. -/
theorem Row.holder {j j' : Job} {id : ℕ} {token : Option Token} (hrow : Row h a h' j j')
    (ha : a.token = some (id, token)) (hne : j' ≠ j) :
    id = j.id ∧ j.status = .processing ∧ ∃ l, j.lease = some l ∧ some l.token = token := by
  cases hrow with
  | same => exact absurd rfl hne
  | claimed p token' t seconds hpending hnone =>
    rw [hnone] at ha
    cases ha
  | renewed p seconds l t expires hact hl hs =>
    subst hact
    cases ha
    exact ⟨rfl, hs, l, hl, rfl⟩
  | finished p l state error next t hact hl hs =>
    subst hact
    cases ha
    exact ⟨rfl, hs, l, hl, rfl⟩
  | released p l text hact hl hs =>
    subst hact
    cases ha
    exact ⟨rfl, hs, l, hl, rfl⟩
  | recovered text hrec =>
    rw [token_of_recovers hrec] at ha
    cases ha

/-- What holds of the job `j` of the state before the step, which becomes `j'`. -/
theorem Row.law (hi : h.Inv) (hst : Step h a h') {j j' : Job} (hj : j ∈ h.db.jobs)
    (hj' : j' ∈ h'.db.jobs) (hrow : Row h a h' j j') : Law h a h' j j' where
  holder id token ha hne := hrow.holder ha hne
  ended id token ha hmem := by
    by_contra hne
    obtain ⟨-, -, l, hl, heq⟩ := hrow.holder ha hne
    cases heq
    exact (hi.leased j hj l hl).2.2 hmem
  failed hs := by
    cases hrow with
    | same => rfl
    | claimed p token t seconds hpending => rw [hpending] at hs; cases hs
    | renewed p seconds l t expires ha hl hs' => rw [hs'] at hs; cases hs
    | finished p l state error next t ha hl hs' => rw [hs'] at hs; cases hs
    | released p l text ha hl hs' => rw [hs'] at hs; cases hs
    | recovered text ha hs' => rw [hs'] at hs; cases hs
  pending hnot hpending := by
    cases hrow with
    | same => exact absurd hpending hnot
    | claimed => cases hpending
    | renewed => exact absurd hpending hnot
    | finished p l state error next t ha hl hs hlive =>
      cases hpending
      exact ⟨p, error, next, t, l, ha, hl, hlive⟩
    | released => cases hpending
    | recovered => cases hpending
  released l p hl ha := by
    cases hrow with
    | same hkept =>
      subst ha
      obtain ⟨-, rfl⟩ := hst
      exact absurd (List.mem_append_left _ (List.mem_singleton.mpr rfl))
        (hkept l hl (hi.leased j hj l hl).2.2)
    | claimed p' token t seconds hpending =>
      rw [(hi.leased j hj l hl).1] at hpending
      cases hpending
    | renewed p' seconds l' t expires ha' => rw [ha'] at ha; cases ha
    | finished p' l' state error next t ha' => rw [ha'] at ha; cases ha
    | released => rfl
    | recovered => rfl
  dead l hl hdead := by
    cases hrow with
    | same => exact .inl rfl
    | claimed p token t seconds hpending =>
      rw [(hi.leased j hj l hl).1] at hpending
      cases hpending
    | renewed p seconds l' t expires ha hl' hs hp =>
      rw [hl] at hl'
      cases hl'
      rw [hi.once _ _ _ (hi.leased j hj l hl).2.1 hp.2] at hdead
      exact absurd hp.1 hdead
    | finished p l' state error next t ha hl' hs hlive hp =>
      rw [hl] at hl'
      cases hl'
      rw [hi.once _ _ _ (hi.leased j hj l hl).2.1 hp.2] at hdead
      exact absurd hp.1 hdead
    | released => exact .inr rfl
    | recovered => exact .inr rfl
  recovered ha hne l hl := by
    cases hrow with
    | same => exact absurd rfl hne
    | claimed p token t seconds hpending =>
      rw [(hi.leased j hj l hl).1] at hpending
      cases hpending
    | renewed p seconds l' t expires hact => rw [hact] at ha; cases ha
    | finished p l' state error next t hact => rw [hact] at ha; cases ha
    | released p l' text hact => rw [hact] at ha; cases ha
    | recovered text hrec hs hl' => exact ⟨(hl' l hl).1, (hl' l hl).2, rfl⟩
  abandoned legacy verified host first second record backup l ha hallowed hl hstopped := by
    have heligible : ∀ check ∈ [first j.id, second j.id],
        Jobs.eligible legacy host check j = true := fun check hcheck => by
      simpa [Jobs.eligible, hl] using hstopped check hcheck
    obtain ⟨db', ids, hok, hid⟩ : ∃ db' ids,
        Jobs.recover legacy verified host first second record (some backup) h.db = .ok (db', ids) ∧
          j.id ∈ ids :=
      recover_eligible hallowed hj (hi.leased j hj l hl).1 (heligible (first j.id) (by simp))
        (heligible (second j.id) (by simp))
    subst ha
    have hi' := hi.step hst
    obtain ⟨t, -, -, rfl⟩ := hst
    obtain ⟨rows, -, -, -, hjobs, -⟩ := recover_ok hok
    simp only [hok] at hj' hi'
    have hfail : Jobs.fail Jobs.reason j ∈ db'.jobs := by
      rw [hjobs]
      exact List.mem_map.mpr ⟨j, hj, if_pos ⟨(hi.leased j hj l hl).1, hid⟩⟩
    rw [hi'.same hj' hfail hrow.id]
    rfl
  records := by
    by_cases ha : recovers a
    · obtain ⟨ids, new, hnew, hmap, hnodup, hprocessing, hjobs⟩ := records hi hst ha
      refine ⟨new, hnew, ?_⟩
      have hcount : (new.filter fun r => r.job = j.id).length = ids.count j.id := by
        rw [← hmap, List.count, List.countP_map, ← List.countP_eq_length_filter]
        rfl
      have heq : j' = if j.status = .processing ∧ j.id ∈ ids then Jobs.fail Jobs.reason j else j := by
        refine (hi.step hst).same hj' ?_ ?_
        · rw [hjobs]
          exact List.mem_map_of_mem hj
        · rw [hrow.id]
          split_ifs <;> rfl
      rw [hcount, List.Nodup.count hnodup, token_of_recovers ha]
      by_cases hid : j.id ∈ ids
      · have hs := hprocessing j hj hid
        rw [if_pos ⟨hs, hid⟩] at heq
        rw [if_pos hid, if_pos ⟨hs, by rw [heq]; rfl, rfl⟩]
      · rw [if_neg fun hboth => hid hboth.2] at heq
        rw [if_neg hid, if_neg]
        rintro ⟨hs, hfailed, -⟩
        rw [heq, hs] at hfailed
        cases hfailed
    · refine ⟨[], by rw [recoveries_eq hst ha, List.append_nil], ?_⟩
      rw [if_neg]
      · rfl
      · rintro ⟨hs, hfailed, htoken⟩
        cases hrow with
        | same => rw [hs] at hfailed; cases hfailed
        | claimed => cases hfailed
        | renewed => rw [hs] at hfailed; cases hfailed
        | finished p l state error next t hact => rw [hact] at htoken; cases htoken
        | released p l text hact => rw [hact] at htoken; cases htoken
        | recovered text hrec => exact ha hrec

/-- What a step does to a job. -/
theorem step_law (hi : h.Inv) (hst : Step h a h') {j : Job} (hj : j ∈ h.db.jobs) :
    ∃ j' ∈ h'.db.jobs, j'.id = j.id ∧ Law h a h' j j' := by
  obtain ⟨g, new, hjobs, hrows, -, -⟩ := rows hi hst
  have hj' : g j ∈ h'.db.jobs := by
    rw [hjobs]
    exact List.mem_append_left _ (List.mem_map_of_mem hj)
  exact ⟨g j, hj', (hrows j hj).id, (hrows j hj).law hi hst hj hj'⟩

/-- A job that has failed stays as it is. -/
theorem failed_run (hi : h.Inv) {as : List Act} (hrun : lts.Run h as h') {j : Job}
    (hj : j ∈ h.db.jobs) (hfailed : j.status = .failed) : j ∈ h'.db.jobs := by
  refine (hrun.preserves (P := fun s => s.Inv ∧ j ∈ s.db.jobs) ?_ ⟨hi, hj⟩).2
  rintro s a s' ⟨hi, hj⟩ hst
  obtain ⟨j', hj', -, law⟩ := step_law hi hst hj
  exact ⟨hi.step hst, law.failed hfailed ▸ hj'⟩

/-- A job whose process has stopped stays as it is until it fails. -/
theorem dead_run (hi : h.Inv) {as : List Act} (hrun : lts.Run h as h') {j : Job} {l : Lease}
    (hj : j ∈ h.db.jobs) (hl : j.lease = some l) (hdead : l.owner ∉ h.alive) :
    ∃ j' ∈ h'.db.jobs, j'.id = j.id ∧ (j' = j ∨ j'.status = .failed) := by
  have hstarted := hi.users _ _ (hi.leased j hj l hl).2.1
  refine (hrun.preserves (P := fun s => s.Inv ∧ (l.owner ∈ s.started ∧ l.owner ∉ s.alive) ∧
    ∃ j' ∈ s.db.jobs, j'.id = j.id ∧ (j' = j ∨ j'.status = .failed)) ?_
    ⟨hi, ⟨hstarted, hdead⟩, j, hj, rfl, .inl rfl⟩).2.2
  rintro s a s' ⟨hi, ⟨hstarted, hdead⟩, k, hk, hid, hk'⟩ hst
  obtain ⟨hmono, halive, -⟩ := step_processes hst
  refine ⟨hi.step hst, ⟨hmono _ hstarted, fun hp => ?_⟩, ?_⟩
  · rcases halive _ hp with hp | ⟨hp, -⟩
    · exact hdead hp
    · exact hp hstarted
  · obtain ⟨k', hk'', hid', law⟩ := step_law hi hst hk
    refine ⟨k', hk'', hid'.trans hid, ?_⟩
    rcases hk' with rfl | hfailed
    · exact law.dead l hl hdead
    · exact .inr (law.failed hfailed ▸ hfailed)

/-- **Every step keeps the law**: a job with a lease is changed only by the holder of its token, or
by a recovery after the lease has expired and its process has stopped, and then it fails.  A job
that has failed never changes, and one whose process has stopped changes only by failing. -/
theorem job_leases (hr : lts.Reachable Initial h) :
    (∀ a h', lts.step h a h' → ∀ j ∈ h.db.jobs,
      ∃ j' ∈ h'.db.jobs, j'.id = j.id ∧ Law h a h' j j') ∧
    ∀ as h', lts.Run h as h' → ∀ j ∈ h.db.jobs, (j.status = .failed → j ∈ h'.db.jobs) ∧
      ∀ l, j.lease = some l → l.owner ∉ h.alive →
        ∃ j' ∈ h'.db.jobs, j'.id = j.id ∧ (j' = j ∨ j'.status = .failed) := by
  have hi := inv_of_reachable hr
  exact ⟨fun a h' hst j hj => step_law hi hst hj, fun as h' hrun j hj =>
    ⟨failed_run hi hrun hj, fun l hl hdead => dead_run hi hrun hj hl hdead⟩⟩

/-- The process of the sample. -/
def worker : Process := ⟨"host", 42, "100"⟩

/-- A job that the process has claimed. -/
def claimedJob : Job where
  id := 1
  type := "memory_review"
  episode := some 1
  status := .processing
  attempts := 1
  lease := some ⟨7, worker, 0, 120⟩

/-- The process has stopped while it was processing the job. -/
def killed : Host where
  db := { jobs := [claimedJob] }
  now := 0
  started := [worker]
  issued := [(7, worker)]

/-- The job waits for its process. -/
def waiting : Host where
  db := { jobs := [{ id := 1, type := "memory_review", episode := some 1 }] }
  now := 0

theorem killed_reachable : lts.Reachable Initial killed := by
  have hstart : lts.Reachable Initial waiting :=
    .of_init ⟨rfl, fun j hj => by rw [List.mem_singleton.mp hj], rfl, rfl, rfl⟩
  have hrunning : lts.Reachable Initial { waiting with alive := [worker], started := [worker] } :=
    hstart.step (l := .start worker) ⟨by simp [waiting], rfl⟩
  have hclaimed : lts.Reachable Initial { killed with alive := [worker] } :=
    hrunning.step (l := .claim worker true (some 120) 1 7 0 0)
      ⟨by simp, by simp [waiting], Nat.le_refl 0, Nat.le_refl 0, rfl⟩
  exact hclaimed.step (l := .stop worker) rfl

/-- The recovery of the job, after the expiry of its lease. -/
def recovery : Act :=
  .recover false (true, true) "host" (fun _ => ⟨130, .gone⟩) (fun _ => ⟨131, .gone⟩)
    (fun _ => (9, 132)) (some "backup")

/-- The job has been recovered. -/
def recovered : Host where
  db := {
    jobs := [Jobs.fail Jobs.reason claimedJob]
    recoveries := [⟨9, 1, some 7, 132, "backup", Jobs.reason⟩] }
  now := 133
  started := [worker]
  issued := [(7, worker)]
  ended := [(1, 7)]

theorem killed_recovered : lts.step killed recovery recovered := by
  refine ⟨133, fun _ => ⟨(by decide : 0 ≤ 130), (by decide : 130 ≤ 131),
    (by decide : 131 ≤ 133)⟩, fun _ _ _ _ => ⟨?_, ?_⟩, rfl⟩
  · exact fun p hp => absurd hp List.not_mem_nil
  · exact fun p hp => absurd hp List.not_mem_nil

theorem job_leases_sample :
    ∃ j' ∈ recovered.db.jobs, j'.id = 1 ∧ Law killed recovery recovered claimedJob j' :=
  (job_leases killed_reachable).1 recovery recovered killed_recovered claimedJob
    (List.mem_singleton.mpr rfl)

end Host

end Leases

end Memory

end PythonAI
