import PythonAI.Library.Txn
import PythonAI.Memory.Types

/-!
# Memory jobs and their leases

A worker claims a pending job under a new token, and renews and finishes it under this token while
its lease lasts.  `recover` fails the jobs whose lease has expired and whose owner has stopped.

`Probe` is what `process_start` tells about a process of this host.  `recover` looks at each row
twice: before the backup of the database and after it.
-/

namespace PythonAI

open Library

namespace Memory

namespace Jobs

/-- `lease_seconds`, for the number in the environment; `none` is a number that is not finite. -/
def leaseSeconds (value : Option ℕ) : Except Error ℕ :=
  match value with
  | some seconds => do
    ensure (1 ≤ seconds) (.value "MEMORY_JOB_LEASE_SECONDS must be finite and >= 1")
    pure seconds
  | none => .error (.value "MEMORY_JOB_LEASE_SECONDS must be finite and >= 1")

/-- An `UPDATE` of the rows of `memory_jobs` that `p` selects. -/
def update (p : Job → Bool) (f : Job → Job) (db : Db) : Db :=
  { db with jobs := db.jobs.map fun j => if p j then f j else j }

/-- `add_memory_job`. -/
def add (type : String) (episode : Option ℕ) (db : Db) : Db × ℕ :=
  let id := db.jobs.length + 1
  ({ db with jobs := db.jobs ++ [{ id := id, type := type, episode := episode }] }, id)

/-- The row can be claimed; `CURRENT_TIMESTAMP` is `now`. -/
def claimable (id : ℕ) (now : Time) (j : Job) : Bool :=
  j.id = id && j.status = .pending && j.nextAttempt.all fun t => t ≤ now

/-- `claim`, by the process `owner` at `t`; the start of the process is known. -/
def claim (owner : Process) (known : Bool) (seconds : Option ℕ) (id : ℕ) (token : Token)
    (t now : Time) (db : Db) : Except Error (Db × Bool) := do
  let seconds ← leaseSeconds seconds
  ensure known (.runtime "Cannot establish memory worker process identity")
  pure (update (claimable id now) (fun j =>
      { j with
        status := .processing
        attempts := j.attempts + 1
        lease := some ⟨token, owner, t, t + seconds⟩ }) db,
    db.jobs.any (claimable id now))

/-- The row is held under the token; a token `NULL` holds nothing. -/
def held (id : ℕ) (token : Option Token) (j : Job) : Bool :=
  j.id = id && j.status = .processing && j.lease.any fun l => some l.token = token

/-- The row is held under the token, and its lease has not expired at `t`. -/
def leased (id : ℕ) (token : Option Token) (t : Time) (j : Job) : Bool :=
  held id token j && j.lease.any fun l => t < l.expires

/-- `renew`. -/
def renew (seconds : Option ℕ) (id : ℕ) (token : Option Token) (t : Time) (db : Db) :
    Except Error (Db × Bool) := do
  let seconds ← leaseSeconds seconds
  pure (update (leased id token t) (fun j =>
      { j with lease := j.lease.map fun l => { l with heartbeat := t, expires := t + seconds } }) db,
    db.jobs.any (leased id token t))

/-- `finish`. -/
def finish (id : ℕ) (token : Option Token) (state : JobStatus) (error : Option String)
    (next : Option Time) (t : Time) (db : Db) : Except Error (Db × Unit) := do
  ensure (db.jobs.any (leased id token t))
    (.runtime "Memory job lease expired or ownership changed")
  pure (update (leased id token t) (fun j =>
    { j with status := state, lastError := error, nextAttempt := next, lease := none }) db, ())

/-- A job fails for the given reason. -/
def fail (reason : String) (j : Job) : Job :=
  { j with status := .failed, lastError := some reason, nextAttempt := none, lease := none }

/-- `release_after_execution`. -/
def release (id : ℕ) (token : Option Token) (db : Db) : Db :=
  update (held id token)
    (fail "Worker returned without a valid completion; partial memory work retained") db

/-! ### Recovery -/

/-- What `process_start` tells. -/
inductive Probe
  /-- there is no process with this number -/
  | gone
  /-- it cannot be established -/
  | unreadable
  /-- the marker of its start -/
  | found (started : String)
  deriving DecidableEq, Repr

/-- The result of `owner_state`. -/
inductive OwnerState
  | running | stopped | unknown
  deriving DecidableEq, Repr

/-- `owner_state`, on the host `host`. -/
def ownerState (host : String) (owner : Process) (probe : Probe) : OwnerState :=
  if owner.host ≠ host || owner.pid = 0 || owner.started = "" then .unknown
  else match probe with
    | .gone => .stopped
    | .unreadable => .unknown
    | .found started => if started = owner.started then .running else .stopped

/-- What `eligible` reads for a row. -/
structure Check where
  /-- `time.time()` -/
  now : Time
  /-- what `process_start` tells about the owner -/
  probe : Probe
  deriving DecidableEq, Repr

/-- `eligible`. -/
def eligible (legacy : Bool) (host : String) (check : Check) (j : Job) : Bool :=
  match j.lease with
  | none => legacy
  | some l => l.expires ≤ check.now && ownerState host l.owner check.probe = .stopped

/-- The reason that `recover` records. -/
def reason : String :=
  "Owner confirmed stopped; partial memory work retained, automatic replay disabled"

/-- `recover`: what is read for a job before the backup (`first`) and after it (`second`), and the
number and the time of its record; `verified` tells whether the check of the stopped service
processes passes, each time.  The result has the jobs that were recovered. -/
def recover (legacy : Bool) (verified : Bool × Bool) (host : String) (first second : ℕ → Check)
    (record : ℕ → Token × Time) (backup : Option String) (db : Db) :
    Except Error (Db × List ℕ) := do
  ensure (!legacy || verified.1) (.value "Legacy recovery requires stopped service PIDs")
  let rows := db.jobs.filter fun j => j.status = .processing
  match rows.filter fun j => eligible legacy host (first j.id) j with
  | [] => pure (db, [])
  | candidate :: candidates =>
    let backup ← require backup (.runtime "Memory recovery backup verification failed")
    ensure (!legacy || verified.2) (.value "Legacy recovery requires stopped service PIDs")
    let recovered :=
      (candidate :: candidates).filter fun j => eligible legacy host (second j.id) j
    pure ({ update (fun j => j.status = .processing && j.id ∈ recovered.map Job.id) (fail reason) db
      with recoveries := db.recoveries ++ recovered.map fun j =>
        ⟨(record j.id).1, j.id, j.lease.map Lease.token, (record j.id).2, backup, reason⟩ },
      recovered.map Job.id)

end Jobs

end Memory

end PythonAI
