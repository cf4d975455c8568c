import PythonAI.Temporal.Fences

/-!
# Erasure of a submission

`prepare` fences a submission and its task for erasure.  A reconciler then has the remote history
deleted (`remote`), and deletes the local rows (`purge`).  Both are calls of several transactions
that crash and are repeated.  An activity, a dispatch or a publication holds a reference while it
works, and the reconciler waits for the references of live processes.

* `Host.lts` : operations, references, processes and reconcilers in any order
* `Host.erasure_fence` : **a fenced submission is never used again**, before and after its rows are
  deleted
* `Host.purged` : **the rows are deleted last**, after the remote history, while nobody holds a
  reference
* `cleared_gone`, `cleared_other` : which rows the deletion takes
-/

namespace PythonAI

open Library

namespace Temporal

namespace Erasure

/-! ### Jobs -/

/-- `temporal_erasures.state`. -/
inductive JobState
  | pending | remoteDone | localDone
  deriving DecidableEq, Repr

/-- `temporal_erasures.receipt`. -/
structure Receipt where
  version : ℕ
  history : String
  visibility : String
  /-- `remote_status` -/
  status : String
  /-- the configuration of the namespace -/
  config : String
  deriving DecidableEq, Repr

/-- `verified_receipt` accepts the receipt. -/
def Receipt.verified (r : Receipt) : Bool :=
  r.version = 1 && r.history = "not_found_verified" && r.visibility = "not_found_verified"

/-- `verified_receipt`. -/
def verifiedReceipt (r : Option Receipt) : Except Error Receipt :=
  require (r.filter (·.verified))
    (.runtime "Remote erasure receipt is missing or unsupported")

/-- A row of `temporal_local_references`. -/
structure Reference where
  id : Token
  /-- `submission_id` -/
  submission : SubmissionId
  pid : ℕ
  process : String
  deriving DecidableEq, Repr

/-- A call of a reconciler, between two of its transactions. -/
inductive Work
  /-- `remote` has read the submission -/
  | remote (key : SubmissionId) (row : Submission)
  /-- `remote` closes the workflow -/
  | closing (key : SubmissionId) (reason : String)
  /-- `remote` found the workflow closed, and no reference -/
  | quiet (key : SubmissionId) (status : String) (run : Option String)
  /-- `purge` has read the submission -/
  | purge (key : SubmissionId) (row : Submission)
  /-- `purge` goes to the approvals -/
  | approvals (key : SubmissionId) (pair : TaskKey)
  deriving DecidableEq, Repr

/-! ### The service -/

/-- How a call of the service fails. -/
inductive RpcError
  /-- `RPCStatusCode.NOT_FOUND` -/
  | notFound
  /-- any other error -/
  | other
  deriving DecidableEq, Repr

/-- The status of a workflow execution. -/
inductive RemoteStatus
  | running
  | closed (name : String)
  deriving DecidableEq, Repr

/-- `RPCError` as an exception. -/
def rpcError : Error := .runtime "RPCError"

/-- `ErasurePending` -/
def erasurePending (message : String) : Error := .runtime message

/-- What the service answers while the workflow is closed. -/
structure Closing where
  /-- `describe`: the status and the run -/
  described : Except RpcError (RemoteStatus × String)
  /-- `cancel` -/
  cancelled : Except RpcError Unit := .ok ()
  /-- `terminate` -/
  terminated : Except RpcError Unit := .ok ()
  /-- `describe` again -/
  again : Except RpcError RemoteStatus := .error .notFound
  deriving DecidableEq, Repr

/-- The first part of `remote`: the status that is recorded, and the run if there is one. -/
def closeRemote (reason : String) (a : Closing) : Except Error (String × Option String) :=
  match a.described with
  | .error .notFound => .ok ("NOT_FOUND", none)
  | .error .other => .error rpcError
  | .ok (.closed name, run) => .ok (name, some run)
  | .ok (.running, run) =>
    if reason ∉ ["session", "deleted_session"] then
      .error (erasurePending "Retention is waiting for remote closure")
    else
      match a.cancelled >>= fun _ => a.terminated >>= fun _ => a.again with
      | .error .notFound => .ok ("NOT_FOUND", some run)
      | .error .other => .error rpcError
      | .ok .running => .error (erasurePending "Remote Workflow is still running")
      | .ok (.closed name) => .ok (name, some run)

/-- What the service answers while the history is deleted. -/
structure Deleting where
  /-- `describe`, if the workflow was not found before -/
  confirmed : Except RpcError RemoteStatus := .error .notFound
  /-- `delete_workflow_execution` -/
  deleted : Except RpcError Unit := .ok ()
  /-- the last `describe` -/
  described : Except RpcError RemoteStatus
  /-- `list_workflows`: whether there is one -/
  listed : Except RpcError Bool
  /-- the configuration of the namespace -/
  config : String := ""
  deriving DecidableEq, Repr

/-- The status after the run is described again. -/
def confirm (status : String) (a : Deleting) : Except Error String :=
  if status = "NOT_FOUND" then
    match a.confirmed with
    | .ok .running => .error (erasurePending "Remote closure has not been confirmed")
    | .ok (.closed name) => .ok name
    | .error .notFound => .ok status
    | .error .other => .error rpcError
  else .ok status

/-- `delete_workflow_execution` of a run. -/
def deleteRun (status : String) (run : Option String) (a : Deleting) : Except Error String :=
  match run with
  | none => .ok status
  | some _ => do
    let status ← confirm status a
    ensure (a.deleted ≠ .error .other) rpcError
    pure status

/-- The second part of `remote`. -/
def deleteRemote (status : String) (run : Option String) (a : Deleting) :
    Except Error Receipt := do
  let status ← deleteRun status run a
  ensure (a.described ≠ .error .other) rpcError
  ensure (a.described = .error .notFound)
    (erasurePending "Remote History deletion is not yet observable")
  ensure (a.listed ≠ .ok true) (erasurePending "Visibility deletion is not yet observable")
  ensure (a.listed = .ok false) rpcError
  pure ⟨1, "not_found_verified", "not_found_verified", status, a.config⟩

/-- The address is a port of this host. -/
def trustedAddress (address : String) : Bool :=
  match address.toList.splitOn ':' with
  | [host, port] =>
    let n := port.foldl (fun n c => 10 * n + (c.toNat - '0'.toNat)) 0
    (host = "127.0.0.1".toList || host = "localhost".toList) &&
      port.all (fun c => '0' ≤ c && c ≤ '9') && 1 ≤ port.length && port.length ≤ 5 &&
      1 ≤ n && n ≤ 65535
  | _ => false

/-! ### Hosts -/

/-- The database, the processes and the calls of the reconcilers. -/
structure Host where
  /-- the database, without the columns below -/
  sys : Sys
  /-- `state` and `receipt` of `temporal_erasures`; nothing while they are as inserted -/
  jobs : Table SubmissionId (JobState × Option Receipt)
  /-- `temporal_local_references` -/
  references : List Reference
  /-- `process_stamp` -/
  processes : ℕ → Option String
  /-- the calls that have begun -/
  work : Table ℕ Work

namespace Host

/-- The database. -/
abbrev db (h : Host) : Db := h.sys.db

/-- The row of `temporal_erasures`. -/
def job (h : Host) (key : SubmissionId) : Option (JobState × Option Receipt) :=
  (h.db.erasures key).map fun _ => (h.jobs key).getD (.pending, none)

/-- The process of a reference lives. -/
def alive (h : Host) (r : Reference) : Bool := h.processes r.pid = some r.process

/-- `blockers`: a live process holds a reference. -/
def blockers (h : Host) (key : SubmissionId) : Bool :=
  h.references.any fun r => r.submission = key && h.alive r

/-- The references that `blockers` leaves. -/
def sweep (h : Host) (key : SubmissionId) : List Reference :=
  h.references.filter fun r => r.submission ≠ key || h.alive r

/-- The first transaction of `reference`, for the submission `key` that was read with the owner and
the task `pair`. -/
def reference (env : Access) (key : SubmissionId) (pair : TaskKey) (pid : ℕ) (h : Host) :
    Except Error Host := do
  assertNotErased pair h.db
  let _ ← require ((h.db.submissions key).filter (·.state ≠ .erasing))
    (.permission "Temporal reference was erased or fenced")
  ensure env.countFree (.capacity "Local reference capacity reached")
  pure { h with
    sys := ⟨h.db, h.sys.uuids + 1⟩
    references := h.references ++ [⟨h.sys.uuids, key, pid, (h.processes pid).getD ""⟩] }

/-- The last transaction of `reference`. -/
def release (id : Token) (h : Host) : Host :=
  { h with references := h.references.filter (·.id ≠ id) }

/-- `remote` up to its first read. -/
def remote (id : ℕ) (key : SubmissionId) (h : Host) : Except Error Host := do
  let row ← get key none h.db
  pure { h with work := h.work.set id (.remote key row) }

/-- `remote` up to its first call of the service; `client` is how the connection and the
description of the namespace end. -/
def begin (id : ℕ) (key : SubmissionId) (row : Submission) (client : Except Error Unit)
    (h : Host) : Except Error Host := do
  let fence := Error.permission "No committed erasure fence"
  let reason ← require (h.db.erasures key) fence
  let job ← require (h.job key) fence
  ensure (row.state = .erasing) fence
  if job.1 = .remoteDone then
    let _ ← verifiedReceipt job.2
    pure { h with work := h.work.erase id }
  else
    ensure (trustedAddress row.address) (.permission "Untrusted erasure target")
    let _ ← workflowType key row h.db
    client
    pure { h with work := h.work.set id (.closing key reason) }

/-- `remote` up to the deletion: the workflow is closed, and there is no reference. -/
def close (id : ℕ) (key : SubmissionId) (reason : String) (a : Closing) (h : Host) :
    Except Error Host := do
  let (status, run) ← closeRemote reason a
  ensure (!h.blockers key)
    (erasurePending "Local Activity, dispatch or publication still holds a reference")
  pure { h with
    references := h.sweep key
    work := h.work.set id (.quiet key status run) }

/-- The end of `remote`. -/
def delete (id : ℕ) (key : SubmissionId) (status : String) (run : Option String) (a : Deleting)
    (h : Host) : Except Error Host := do
  let receipt ← deleteRemote status run a
  pure { h with
    jobs := if (h.job key).any (·.1 = .pending) then h.jobs.set key (.remoteDone, some receipt)
      else h.jobs
    work := h.work.erase id }

/-- `purge` up to its first read. -/
def purge (id : ℕ) (key : SubmissionId) (h : Host) : Except Error Host := do
  let row ← get key none h.db
  pure { h with work := h.work.set id (.purge key row) }

/-- The first transaction of `purge`. -/
def check (id : ℕ) (key : SubmissionId) (row : Submission) (h : Host) : Except Error Host := do
  let unready := erasurePending "Remote closure and local quiescence must precede GC"
  let job ← require (h.job key) unready
  ensure (job.1 = .remoteDone && row.state = .erasing && !h.blockers key) unready
  let _ ← verifiedReceipt job.2
  pure { h with
    references := h.sweep key
    work := h.work.set id (.approvals key row.taskKey) }

end Host

/-- The rows of the submission `key` and of the task `pair` are deleted. -/
def cleared (key : SubmissionId) (pair : TaskKey) (db : Db) : Db :=
  { db with
    base := { db.base with
      tasks := db.base.tasks.erase pair
      steps := db.base.steps.deleteWhere fun k _ => k.1 = pair
      workspaces := db.base.workspaces.erase pair }
    bindings := db.bindings.erase pair
    submissions := db.submissions.erase key
    forTask := db.forTask.deleteWhere fun _ key' => key' = key
    protocols := db.protocols.erase key
    contracts := db.contracts.erase key
    cancellations := db.cancellations.erase key
    operations := db.operations.deleteWhere fun k _ => k.1 = pair
    artifacts := db.artifacts.deleteWhere fun _ row => (row.owner, row.task) = pair
    stepRuns := db.stepRuns.deleteWhere fun k _ => k.1 = key
    answers := db.answers.deleteWhere fun k _ => k.1 = key
    events := fun key' => if key' = key then [] else db.events key'
    finalizations := db.finalizations.erase key }

namespace Host

/-- The end of `purge`; `approvals` is how `erase_approvals` ends. -/
def clear (id : ℕ) (key : SubmissionId) (pair : TaskKey) (approvals : Except Error Unit)
    (h : Host) : Except Error Host := do
  approvals
  let changed := erasurePending "Erasure changed before local GC"
  let job ← require (h.job key) changed
  ensure (job.1 = .remoteDone && !h.blockers key) changed
  pure { h with
    sys := ⟨cleared key pair h.db, h.sys.uuids⟩
    references := h.sweep key
    jobs := h.jobs.set key (.localDone, job.2)
    work := h.work.erase id }

end Host

/-! ### Any order -/

/-- A step of the host. -/
inductive Act
  /-- an operation of the Temporal backend or of `TaskStore` -/
  | op (o : Op)
  | reference (env : Access) (key : SubmissionId) (pair : TaskKey) (pid : ℕ)
  | release (id : Token)
  /-- a process ends or begins -/
  | process (pid : ℕ) (stamp : Option String)
  /-- a reconciler stops -/
  | crash (id : ℕ)
  | remote (id : ℕ) (key : SubmissionId)
  | begin (id : ℕ) (client : Except Error Unit)
  | close (id : ℕ) (a : Closing)
  | delete (id : ℕ) (a : Deleting)
  | purge (id : ℕ) (key : SubmissionId)
  | check (id : ℕ)
  | clear (id : ℕ) (approvals : Except Error Unit)

namespace Host

/-- The call of the reconciler `id` is over. -/
def drop (id : ℕ) (h : Host) : Host := { h with work := h.work.erase id }

/-- What a step commits. -/
def attempt (h : Host) : Act → Except Error Host
  | .op o => .ok { h with sys := h.sys.after o }
  | .reference env key pair pid => h.reference env key pair pid
  | .release id => .ok (h.release id)
  | .process pid stamp => .ok { h with processes := Function.update h.processes pid stamp }
  | .crash id => .ok (h.drop id)
  | .remote id key => h.remote id key
  | .begin id client =>
    match h.work id with
    | some (.remote key row) => h.begin id key row client
    | _ => .ok h
  | .close id a =>
    match h.work id with
    | some (.closing key reason) => h.close id key reason a
    | _ => .ok h
  | .delete id a =>
    match h.work id with
    | some (.quiet key status run) => h.delete id key status run a
    | _ => .ok h
  | .purge id key => h.purge id key
  | .check id =>
    match h.work id with
    | some (.purge key row) => h.check id key row
    | _ => .ok h
  | .clear id approvals =>
    match h.work id with
    | some (.approvals key pair) => h.clear id key pair approvals
    | _ => .ok h

/-- The state after a step: a call of a reconciler that raises is over. -/
def after (h : Host) (a : Act) : Host :=
  match h.attempt a with
  | .ok h' => h'
  | .error _ =>
    match a with
    | .remote id _ | .begin id _ | .close id _ | .delete id _ | .purge id _ | .check id
    | .clear id _ => h.drop id
    | _ => h

/-- One step at a time. -/
def lts : Lts Host Act where
  step h a h' := h' = h.after a ∧ ∀ o, a = .op o → o.Backed h.db

/-- A new database. -/
def Initial (h : Host) : Prop :=
  h.sys.Initial ∧ h.jobs = .empty ∧ h.references = [] ∧ h.work = .empty

end Host

/-! ### What a step of the host commits -/

variable {h h' : Host} {a : Act} {id : ℕ} {key : SubmissionId}

/-- **What the service said before a receipt was written**: the last description of the workflow
was answered with `NOT_FOUND`, and no workflow was listed. -/
theorem deleteRemote_ok {status : String} {run : Option String} {a : Deleting} {x : Receipt}
    (h : deleteRemote status run a = .ok x) :
    x.verified = true ∧ a.described = .error .notFound ∧ a.listed = .ok false := by
  simp only [deleteRemote, bind_eq_ok, ensure_eq_ok, decide_eq_true_eq, pure_eq_ok] at h
  obtain ⟨-, -, -, -, -, hdescribed, -, -, -, hlisted, rfl⟩ := h
  exact ⟨rfl, hdescribed, hlisted⟩

/-- Nobody holds a reference to the submission. -/
def Host.Unreferenced (h : Host) (key : SubmissionId) : Prop :=
  ∀ r ∈ h.references, r.submission ≠ key

namespace Host

theorem sweep_unreferenced (hb : h.blockers key = false) : ∀ r ∈ h.sweep key,
    r.submission ≠ key := by
  intro r hr heq
  obtain ⟨hmem, hkept⟩ := List.mem_filter.1 hr
  have halive : h.alive r = true := by simpa [heq] using hkept
  have hany : h.blockers key = true :=
    List.any_eq_true.2 ⟨r, hmem, by simp [heq, halive]⟩
  rw [hb] at hany
  cases hany

theorem sweep_sub {r : Reference} (hr : r ∈ h.sweep key) : r ∈ h.references :=
  List.mem_of_mem_filter hr

theorem job_eq_some {j : JobState × Option Receipt} (hj : h.job key = some j) :
    (h.db.erasures key).isSome ∧ (h.jobs key).getD (.pending, none) = j := by
  obtain ⟨reason, hreason, heq⟩ := Option.map_eq_some_iff.1 hj
  exact ⟨by rw [hreason]; rfl, heq⟩

theorem reference_ok {env : Access} {pair : TaskKey} {pid : ℕ}
    (hok : h.reference env key pair pid = .ok h') :
    ∃ row r, h.db.submissions key = some row ∧ row.state ≠ .erasing ∧ r.submission = key ∧
      h' = { h with
        sys := ⟨h.db, h.sys.uuids + 1⟩
        references := h.references ++ [r] } := by
  simp only [reference, bind_eq_ok, require_eq_ok, Option.filter_eq_some_iff, pure_eq_ok] at hok
  obtain ⟨-, -, row, ⟨hrow, hstate⟩, -, -, rfl⟩ := hok
  exact ⟨row, _, hrow, by simpa using hstate, rfl, rfl⟩

theorem begin_ok {row : Submission} {client : Except Error Unit}
    (hok : h.begin id key row client = .ok h') :
    h' = h.drop id ∨ ∃ reason, (h.db.erasures key).isSome ∧
      h' = { h with work := h.work.set id (.closing key reason) } := by
  simp only [begin, bind_eq_ok, require_eq_ok] at hok
  obtain ⟨reason, hreason, job, -, -, -, hok⟩ := hok
  split_ifs at hok
  · simp only [bind_eq_ok, pure_eq_ok] at hok
    obtain ⟨-, -, rfl⟩ := hok
    exact .inl rfl
  · simp only [bind_eq_ok, pure_eq_ok] at hok
    obtain ⟨-, -, -, -, -, -, rfl⟩ := hok
    exact .inr ⟨reason, by rw [hreason]; rfl, rfl⟩

theorem close_ok {reason : String} {a : Closing} (hok : h.close id key reason a = .ok h') :
    ∃ status run, h.blockers key = false ∧ h' = { h with
      references := h.sweep key
      work := h.work.set id (.quiet key status run) } := by
  simp only [close, bind_eq_ok, ensure_eq_ok, pure_eq_ok] at hok
  obtain ⟨⟨status, run⟩, -, -, hb, rfl⟩ := hok
  exact ⟨status, run, by simpa using hb, rfl⟩

theorem delete_ok {status : String} {run : Option String} {a : Deleting}
    (hok : h.delete id key status run a = .ok h') :
    a.described = .error .notFound ∧ a.listed = .ok false ∧
      (h' = h.drop id ∨ ∃ receipt, receipt.verified = true ∧ (h.db.erasures key).isSome ∧
        (∃ r, (h.jobs key).getD (.pending, none) = (.pending, r)) ∧ h' = { h with
          jobs := h.jobs.set key (.remoteDone, some receipt)
          work := h.work.erase id }) := by
  simp only [delete, bind_eq_ok, pure_eq_ok] at hok
  obtain ⟨receipt, hreceipt, rfl⟩ := hok
  obtain ⟨hverified, hdescribed, hlisted⟩ := deleteRemote_ok hreceipt
  refine ⟨hdescribed, hlisted, ?_⟩
  split_ifs with hp
  · obtain ⟨j, hj, hpending⟩ := (Option.any_eq_true _ _).1 hp
    obtain ⟨hers, hget⟩ := job_eq_some hj
    refine .inr ⟨receipt, hverified, hers, ⟨j.2, ?_⟩, rfl⟩
    rw [hget]
    exact Prod.ext (by simpa using hpending) rfl
  · exact .inl rfl

theorem check_ok {row : Submission} (hok : h.check id key row = .ok h') :
    (h.db.erasures key).isSome ∧ h' = { h with
      references := h.sweep key
      work := h.work.set id (.approvals key row.taskKey) } := by
  simp only [check, bind_eq_ok, require_eq_ok, pure_eq_ok] at hok
  obtain ⟨job, hjob, -, -, -, -, rfl⟩ := hok
  exact ⟨(job_eq_some hjob).1, rfl⟩

theorem clear_ok {pair : TaskKey} {approvals : Except Error Unit}
    (hok : h.clear id key pair approvals = .ok h') :
    ∃ r, h.jobs key = some (.remoteDone, r) ∧ h.blockers key = false ∧ h' = { h with
        sys := ⟨cleared key pair h.db, h.sys.uuids⟩
        references := h.sweep key
        jobs := h.jobs.set key (.localDone, r)
        work := h.work.erase id } := by
  simp only [clear, bind_eq_ok, require_eq_ok, ensure_eq_ok, Bool.and_eq_true, decide_eq_true_eq,
    pure_eq_ok] at hok
  obtain ⟨-, -, job, hjob, -, ⟨hdone, hb⟩, rfl⟩ := hok
  obtain ⟨-, hget⟩ := job_eq_some hjob
  refine ⟨job.2, ?_, by simpa using hb, rfl⟩
  cases hj : h.jobs key with
  | none =>
    rw [hj] at hget
    rw [← hget] at hdone
    cases hdone
  | some j =>
    rw [hj] at hget
    cases hget
    rw [← hdone]
    rfl

/-- `Step h a h'` : what the step `a` can do to the host `h`. -/
inductive Step (h : Host) : Act → Host → Prop
  | same (a : Act) : Step h a h
  | op (o : Op) : Step h (.op o) { h with sys := h.sys.after o }
  /-- a reference to a submission that is not `erasing` -/
  | refers (a : Act) (row : Submission) (r : Reference)
      (hrow : h.db.submissions r.submission = some row) (hstate : row.state ≠ .erasing) :
      Step h a { h with sys := ⟨h.db, h.sys.uuids + 1⟩, references := h.references ++ [r] }
  /-- references are released, processes come and go -/
  | lives (a : Act) (references : List Reference) (processes : ℕ → Option String)
      (hsub : ∀ r ∈ references, r ∈ h.references) :
      Step h a { h with references := references, processes := processes }
  /-- a call is over -/
  | ended (a : Act) (id : ℕ) : Step h a (h.drop id)
  | remote (a : Act) (id : ℕ) (key : SubmissionId) (row : Submission) :
      Step h a { h with work := h.work.set id (.remote key row) }
  | closing (a : Act) (id : ℕ) (key : SubmissionId) (reason : String)
      (hkey : (h.db.erasures key).isSome) :
      Step h a { h with work := h.work.set id (.closing key reason) }
  | quiet (a : Act) (id : ℕ) (key : SubmissionId) (reason status : String) (run : Option String)
      (hw : h.work id = some (.closing key reason)) (hb : h.blockers key = false) :
      Step h a { h with
        references := h.sweep key
        work := h.work.set id (.quiet key status run) }
  /-- the receipt is written -/
  | deletes (id : ℕ) (x : Deleting) (key : SubmissionId) (status : String) (run : Option String)
      (receipt : Receipt) (r : Option Receipt) (hw : h.work id = some (.quiet key status run))
      (hdescribed : x.described = .error .notFound) (hlisted : x.listed = .ok false)
      (hverified : receipt.verified = true) (hkey : (h.db.erasures key).isSome)
      (hpending : (h.jobs key).getD (.pending, none) = (.pending, r)) :
      Step h (.delete id x) { h with
        jobs := h.jobs.set key (.remoteDone, some receipt)
        work := h.work.erase id }
  | purge (a : Act) (id : ℕ) (key : SubmissionId) (row : Submission)
      (hrow : h.db.submissions key = some row) :
      Step h a { h with work := h.work.set id (.purge key row) }
  | approvals (a : Act) (id : ℕ) (key : SubmissionId) (row : Submission)
      (hw : h.work id = some (.purge key row)) :
      Step h a { h with
        references := h.sweep key
        work := h.work.set id (.approvals key row.taskKey) }
  /-- the rows are deleted -/
  | clears (id : ℕ) (approvals : Except Error Unit) (key : SubmissionId) (pair : TaskKey)
      (r : Option Receipt) (hw : h.work id = some (.approvals key pair))
      (hdone : h.jobs key = some (.remoteDone, r)) (hb : h.blockers key = false) :
      Step h (.clear id approvals) { h with
        sys := ⟨cleared key pair h.db, h.sys.uuids⟩
        references := h.sweep key
        jobs := h.jobs.set key (.localDone, r)
        work := h.work.erase id }

/-- A step that does not raise. -/
theorem attempt_step (hok : h.attempt a = .ok h') : h.Step a h' := by
  cases a with
  | op o =>
    cases hok
    exact .op o
  | reference env key pair pid =>
    obtain ⟨row, r, hrow, hstate, rfl, rfl⟩ := reference_ok hok
    exact .refers _ row r hrow hstate
  | release id =>
    cases hok
    exact .lives _ _ _ fun _ hr => List.mem_of_mem_filter hr
  | process pid stamp =>
    cases hok
    exact .lives _ _ _ fun _ hr => hr
  | crash id =>
    cases hok
    exact .ended _ id
  | remote id key =>
    simp only [attempt, remote, bind_eq_ok, pure_eq_ok] at hok
    obtain ⟨row, -, rfl⟩ := hok
    exact .remote _ id key row
  | begin id client =>
    simp only [attempt] at hok
    split at hok
    · rcases begin_ok hok with rfl | ⟨reason, hkey, rfl⟩
      · exact .ended _ id
      · exact .closing _ id _ reason hkey
    · cases hok
      exact .same _
  | close id x =>
    simp only [attempt] at hok
    split at hok
    · next key reason hw =>
      obtain ⟨status, run, hb, rfl⟩ := close_ok hok
      exact .quiet _ id key reason status run hw hb
    · cases hok
      exact .same _
  | delete id x =>
    simp only [attempt] at hok
    split at hok
    · next key status run hw =>
      obtain ⟨hdescribed, hlisted, rfl | ⟨receipt, hverified, hkey, ⟨r, hpending⟩, rfl⟩⟩ :=
        delete_ok hok
      · exact .ended _ id
      · exact .deletes id x key status run receipt r hw hdescribed hlisted hverified hkey hpending
    · cases hok
      exact .same _
  | purge id key =>
    simp only [attempt, purge, bind_eq_ok, pure_eq_ok] at hok
    obtain ⟨row, hget, rfl⟩ := hok
    exact .purge _ id key row (get_ok hget).1
  | check id =>
    simp only [attempt] at hok
    split at hok
    · next key row hw =>
      obtain ⟨-, rfl⟩ := check_ok hok
      exact .approvals _ id key row hw
    · cases hok
      exact .same _
  | clear id approvals =>
    simp only [attempt] at hok
    split at hok
    · next key pair hw =>
      obtain ⟨r, hdone, hb, rfl⟩ := clear_ok hok
      exact .clears id approvals key pair r hw hdone hb
    · cases hok
      exact .same _

/-- **What a step can do.** -/
theorem step_cases (hst : lts.step h a h') : h.Step a h' := by
  obtain ⟨rfl, -⟩ := hst
  cases hok : h.attempt a with
  | ok h' =>
    unfold after
    rw [hok]
    exact attempt_step hok
  | error e =>
    -- Only the call of a reconciler is over.
    unfold after
    rw [hok]
    cases a with
    | remote id | begin id | close id | delete id | purge id | check id | clear id =>
      exact .ended _ id
    | _ => exact .same _

end Host

/-! ### The invariant of a host -/

/-- What a call of a reconciler has established. -/
def Work.Sound (h : Host) : Work → Prop
  | .remote .. => True
  | .closing key _ => (h.db.erasures key).isSome
  | .quiet key _ _ => (h.db.erasures key).isSome ∧ h.Unreferenced key
  | .purge key row =>
    key < h.sys.uuids ∧ ∀ row', h.db.submissions key = some row' → row'.taskKey = row.taskKey
  | .approvals key pair =>
    key < h.sys.uuids ∧ ∀ row', h.db.submissions key = some row' → row'.taskKey = pair

namespace Host

/-- What holds of a host in any order of steps. -/
structure Inv (h : Host) : Prop where
  /-- the index names the submissions -/
  indexed : Indexed h.sys
  /-- the fences hold -/
  fences : Fences h.sys
  /-- a fenced submission is there until its job is done -/
  kept : ∀ key, (h.db.erasures key).isSome → h.db.submissions key = none →
    ∃ r, h.jobs key = some (.localDone, r)
  /-- a job is one of a fenced submission -/
  fenced : ∀ key, (h.jobs key).isSome → (h.db.erasures key).isSome
  /-- a job that has begun has a receipt, and nobody holds a reference -/
  receipts : ∀ key j r, h.jobs key = some (j, r) →
    (∃ receipt, r = some receipt ∧ receipt.verified = true) ∧ h.Unreferenced key
  /-- a job that is done has no submission -/
  done : ∀ key r, h.jobs key = some (.localDone, r) → h.db.submissions key = none
  /-- the calls -/
  work : ∀ id w, h.work id = some w → w.Sound h

/-- What a step of the host keeps. -/
structure Later (h h' : Host) : Prop where
  /-- of the fences -/
  holds : Holds h.sys h'.sys
  /-- nobody gets a reference to a fenced submission -/
  references : ∀ key, (h.db.erasures key).isSome → ∀ r ∈ h'.references, r.submission = key →
    r ∈ h.references

theorem Later.unreferenced (hl : h.Later h') (hkey : (h.db.erasures key).isSome)
    (hr : h.Unreferenced key) : h'.Unreferenced key :=
  fun r hmem heq => hr r (hl.references key hkey r hmem heq) heq

theorem Later.trans {h₁ h₂ h₃ : Host} (h : h₁.Later h₂) (h' : h₂.Later h₃) : h₁.Later h₃ where
  holds := h.holds.trans h'.holds
  references key hkey r hr heq :=
    h.references key hkey r (h'.references key (h.holds.erasures key hkey) r hr heq) heq

/-- A step that leaves the database. -/
theorem Later.of_db (hdb : h'.db = h.db) (hu : h.sys.uuids ≤ h'.sys.uuids)
    (hr : ∀ key, (h.db.erasures key).isSome → ∀ r ∈ h'.references, r.submission = key →
      r ∈ h.references) : h.Later h' :=
  ⟨.of_db hdb hu, hr⟩

end Host

/-- What a call has established stays. -/
theorem Work.Sound.later {w : Work} (hs : w.Sound h) (hl : h.Later h') : w.Sound h' := by
  cases w with
  | remote => exact hs
  | closing key reason => exact hl.holds.erasures key hs
  | quiet key status run =>
    exact ⟨hl.holds.erasures key hs.1, hl.unreferenced hs.1 hs.2⟩
  | purge key row =>
    refine ⟨hs.1.trans_le hl.holds.uuids, fun row' hrow' => ?_⟩
    obtain ⟨row₁, hrow₁, htask⟩ := hl.holds.rows key row' hs.1 hrow'
    exact htask.trans (hs.2 row₁ hrow₁)
  | approvals key pair =>
    refine ⟨hs.1.trans_le hl.holds.uuids, fun row' hrow' => ?_⟩
    obtain ⟨row₁, hrow₁, htask⟩ := hl.holds.rows key row' hs.1 hrow'
    exact htask.trans (hs.2 row₁ hrow₁)

namespace Host

theorem Inv.initial (h₀ : h.Initial) : h.Inv := by
  obtain ⟨hsys, hjobs, -, hwork⟩ := h₀
  obtain ⟨host, hdb⟩ := id hsys
  refine ⟨.initial hsys, .initial hsys, fun key hkey => ?_, fun key hj => ?_,
    fun key j r hj => ?_, fun key r hj => ?_, fun id w hw => ?_⟩
  · replace hkey : (h.sys.db.erasures key).isSome := hkey
    rw [hdb] at hkey
    cases hkey
  · rw [hjobs] at hj
    cases hj
  · rw [hjobs] at hj
    cases hj
  · rw [hjobs] at hj
    cases hj
  · rw [hwork] at hw
    cases hw

/-- A step that leaves the jobs, and makes sound calls. -/
theorem Inv.later (hi : h.Inv) (hl : h.Later h') (hindexed : Indexed h'.sys)
    (hfences : Fences h'.sys) (hjobs : h'.jobs = h.jobs)
    (hrows : ∀ key, key < h.sys.uuids →
      (h'.db.submissions key = none ↔ h.db.submissions key = none))
    (hold : ∀ key, (h'.db.erasures key).isSome → h'.db.submissions key = none →
      (h.db.erasures key).isSome)
    (hwork : ∀ id w, h'.work id = some w → h.work id = some w ∨ w.Sound h') : h'.Inv := by
  have hdrawn : ∀ key, (h.jobs key).isSome → key < h.sys.uuids := fun key hj =>
    hi.fences.drawn key (hi.fenced key hj)
  refine ⟨hindexed, hfences, fun key hkey hnone => ?_, fun key hj => ?_,
    fun key j r hj => ?_, fun key r hj => ?_, fun id w hw => ?_⟩
  · have hers := hold key hkey hnone
    rw [hjobs]
    exact hi.kept key hers ((hrows key (hi.fences.drawn key hers)).1 hnone)
  · rw [hjobs] at hj
    exact hl.holds.erasures key (hi.fenced key hj)
  · rw [hjobs] at hj
    obtain ⟨hreceipt, hfree⟩ := hi.receipts key j r hj
    exact ⟨hreceipt, hl.unreferenced (hi.fenced key (by rw [hj]; rfl)) hfree⟩
  · rw [hjobs] at hj
    exact (hrows key (hdrawn key (by rw [hj]; rfl))).2 (hi.done key r hj)
  · rcases hwork id w hw with hw | hw
    · exact (hi.work id w hw).later hl
    · exact hw

/-- A step that leaves the database and the jobs. -/
theorem Inv.of_db (hi : h.Inv) (hdb : h'.db = h.db) (hu : h.sys.uuids ≤ h'.sys.uuids)
    (hjobs : h'.jobs = h.jobs)
    (hr : ∀ key, (h.db.erasures key).isSome → ∀ r ∈ h'.references, r.submission = key →
      r ∈ h.references)
    (hwork : ∀ id w, h'.work id = some w → h.work id = some w ∨ w.Sound h') :
    h'.Inv ∧ h.Later h' := by
  have hl : h.Later h' := .of_db hdb hu hr
  refine ⟨hi.later hl ⟨?_, ?_, ?_⟩ (hi.fences.of_db hdb hu) hjobs (fun key _ => by rw [hdb])
    (fun key hkey _ => hdb ▸ hkey) hwork, hl⟩
  · intro key row hrow
    replace hrow : h'.db.submissions key = some row := hrow
    show h'.db.forTask row.taskKey = some key
    rw [hdb] at hrow ⊢
    exact hi.indexed.named key row hrow
  · intro k key hk
    replace hk : h'.db.forTask k = some key := hk
    show ∃ row, h'.db.submissions key = some row ∧ row.taskKey = k
    rw [hdb] at hk ⊢
    exact hi.indexed.names k key hk
  · intro key row hrow
    replace hrow : h'.db.submissions key = some row := hrow
    rw [hdb] at hrow
    exact (hi.indexed.drawn key row hrow).trans_le hu

theorem set_work {t : Table ℕ Work} {w : Work} (id' : ℕ) (w' : Work)
    (hw : (t.set id w) id' = some w') : t id' = some w' ∨ w' = w := by
  rw [Table.set_apply] at hw
  split_ifs at hw
  · cases hw
    exact .inr rfl
  · exact .inl hw

/-- A reconciler stops. -/
theorem Inv.drop (hi : h.Inv) : (h.drop id).Inv ∧ h.Later (h.drop id) :=
  hi.of_db rfl le_rfl rfl (fun _ _ _ hr _ => hr) fun _ _ hw => .inl (Table.erase_eq_some hw).2

/-- A call of a reconciler goes on. -/
theorem Inv.goes (hi : h.Inv) {w : Work}
    (hw : w.Sound { h with work := h.work.set id w }) :
    ({ h with work := h.work.set id w } : Host).Inv ∧
      h.Later { h with work := h.work.set id w } := by
  refine hi.of_db rfl le_rfl rfl (fun _ _ _ hr _ => hr) fun id' w' hw' => ?_
  rcases set_work id' w' hw' with hold | rfl
  · exact .inl hold
  · exact .inr hw

/-- A call goes on after the references were swept. -/
theorem Inv.sweeps (hi : h.Inv) {w : Work} {key : SubmissionId}
    (hw : w.Sound { h with references := h.sweep key, work := h.work.set id w }) :
    ({ h with references := h.sweep key, work := h.work.set id w } : Host).Inv ∧
      h.Later { h with references := h.sweep key, work := h.work.set id w } := by
  refine hi.of_db rfl le_rfl rfl (fun _ _ _ hr _ => sweep_sub hr) fun id' w' hw' => ?_
  rcases set_work id' w' hw' with hold | rfl
  · exact .inl hold
  · exact .inr hw

/-- An operation. -/
theorem Inv.operation (hi : h.Inv) {o : Op} (hb : o.Backed h.db) :
    ({ h with sys := h.sys.after o } : Host).Inv ∧ h.Later { h with sys := h.sys.after o } := by
  have hst : Sys.lts.step h.sys o (h.sys.after o) := rfl
  obtain ⟨hf, hholds, hfresh⟩ := hi.fences.step hi.indexed hst hb
  have hl : h.Later { h with sys := h.sys.after o } := ⟨hholds, fun _ _ _ hr _ => hr⟩
  have hrows : ∀ key, key < h.sys.uuids →
      ((h.sys.after o).db.submissions key = none ↔ h.db.submissions key = none) := by
    intro key hkey
    constructor
    · intro hnone
      by_contra hne
      obtain ⟨row, hrow⟩ := Option.ne_none_iff_exists'.1 hne
      obtain ⟨row', hrow', -⟩ := hi.indexed.kept hst hrow
      rw [hnone] at hrow'
      cases hrow'
    · intro hnone
      by_contra hne
      obtain ⟨row', hrow'⟩ := Option.ne_none_iff_exists'.1 hne
      obtain ⟨row, hrow, -⟩ := hi.indexed.row_kept hst hkey hrow'
      rw [hnone] at hrow
      cases hrow
  refine ⟨hi.later hl (hi.indexed.step hst) hf rfl hrows (fun key hkey hnone => ?_)
    fun _ _ hw => .inl hw, hl⟩
  rcases hfresh key hkey with hold | hrow
  · exact hold
  · obtain ⟨row, hrow⟩ := Option.isSome_iff_exists.1 hrow
    obtain ⟨row', hrow', -⟩ := hi.indexed.kept hst hrow
    rw [hnone] at hrow'
    cases hrow'

end Host

section

variable {pair : TaskKey} {db : Db}

theorem delete_first {K L V : Type} [DecidableEq K] (t : Table (K × L) V) (k : K) (l : L) :
    (t.deleteWhere fun p _ => p.1 = k) (k, l) = none := by
  by_contra hne
  obtain ⟨v, hv⟩ := Option.ne_none_iff_exists'.1 hne
  have hfalse := ((Table.deleteWhere_eq_some t (k, l)).1 hv).2
  simp at hfalse

theorem delete_others {K L V : Type} [DecidableEq K] (t : Table (K × L) V) {k k' : K}
    (h : k' ≠ k) (l : L) : (t.deleteWhere fun p _ => p.1 = k) (k', l) = t (k', l) := by
  ext v
  rw [Table.deleteWhere_eq_some]
  exact and_iff_left (decide_eq_false h)

/-- **The deletion takes every row** of the submission and of its task. -/
theorem cleared_gone :
    (cleared key pair db).submissions key = none ∧ (cleared key pair db).task pair = none ∧
      (cleared key pair db).bindings pair = none ∧
      (∀ step, (cleared key pair db).operations (pair, step) = none) ∧
      (∀ revision, (cleared key pair db).stepRuns (key, revision) = none) ∧
      (∀ i, (cleared key pair db).answers (key, i) = none) ∧
      (cleared key pair db).events key = [] ∧ (cleared key pair db).finalizations key = none ∧
      (cleared key pair db).cancellations key = none := by
  refine ⟨Table.erase_same .., Table.erase_same .., Table.erase_same ..,
    delete_first db.operations pair, delete_first db.stepRuns key, delete_first db.answers key,
    if_pos rfl, Table.erase_same ..,
    Table.erase_same ..⟩

/-- **The deletion takes no other row.** -/
theorem cleared_other {key' : SubmissionId} {k : TaskKey} (hkey : key' ≠ key) (hk : k ≠ pair) :
    (cleared key pair db).submissions key' = db.submissions key' ∧
      (cleared key pair db).task k = db.task k ∧
      (cleared key pair db).bindings k = db.bindings k ∧
      (∀ step, (cleared key pair db).operations (k, step) = db.operations (k, step)) ∧
      (∀ revision, (cleared key pair db).stepRuns (key', revision) =
        db.stepRuns (key', revision)) ∧
      (∀ i, (cleared key pair db).answers (key', i) = db.answers (key', i)) ∧
      (cleared key pair db).events key' = db.events key' ∧
      (cleared key pair db).finalizations key' = db.finalizations key' ∧
      (cleared key pair db).cancellations key' = db.cancellations key' :=
  ⟨Table.erase_of_ne _ _ hkey, Table.erase_of_ne _ _ hk, Table.erase_of_ne _ _ hk,
    delete_others db.operations hk, delete_others db.stepRuns hkey, delete_others db.answers hkey,
    if_neg hkey,
    Table.erase_of_ne _ _ hkey, Table.erase_of_ne _ _ hkey⟩

theorem cleared_row {key' : SubmissionId} {row : Submission}
    (hrow : (cleared key pair db).submissions key' = some row) :
    key' ≠ key ∧ db.submissions key' = some row :=
  Table.erase_eq_some hrow

theorem cleared_index {k : TaskKey} {key' : SubmissionId} :
    (cleared key pair db).forTask k = some key' ↔ db.forTask k = some key' ∧ key' ≠ key := by
  show (db.forTask.deleteWhere fun _ key' => decide (key' = key)) k = some key' ↔ _
  rw [Table.deleteWhere_eq_some, decide_eq_false_iff_not]

end

namespace Host

/-- The deletion of the rows. -/
theorem Inv.clears (hi : h.Inv) {pair : TaskKey} {r : Option Receipt}
    (hdone : h.jobs key = some (.remoteDone, r)) (hb : h.blockers key = false) :
    let h' : Host := { h with
      sys := ⟨cleared key pair h.db, h.sys.uuids⟩
      references := h.sweep key
      jobs := h.jobs.set key (.localDone, r)
      work := h.work.erase id }
    h'.Inv ∧ h.Later h' := by
  intro h'
  have hers : (h.db.erasures key).isSome := hi.fenced key (by rw [hdone]; rfl)
  have hl : h.Later h' := by
    refine ⟨⟨le_rfl, fun _ hkey => hkey, fun _ hk => hk, fun key' row' _ hrow' => ?_,
      fun k key' _ hfor => ?_⟩, fun _ _ _ hr _ => sweep_sub hr⟩
    · exact ⟨row', (cleared_row hrow').2, rfl⟩
    · exact (cleared_index.1 hfor).1
  have hjob : ∀ key' j r', h'.jobs key' = some (j, r') →
      key' = key ∧ j = .localDone ∧ r' = r ∨ key' ≠ key ∧ h.jobs key' = some (j, r') := by
    intro key' j r' hj
    by_cases hk : key' = key
    · subst hk
      have hset : h'.jobs key' = some (.localDone, r) := Table.set_same ..
      rw [hset] at hj
      cases hj
      exact .inl ⟨rfl, rfl, rfl⟩
    · exact .inr ⟨hk, (Table.set_of_ne _ _ _ hk).symm.trans hj⟩
  refine ⟨⟨⟨?_, ?_, ?_⟩, ⟨hi.fences.drawn, ?_, ?_, ?_, ?_⟩, ?_, ?_, ?_, ?_, ?_⟩, hl⟩
  · intro key' row hrow
    obtain ⟨hne, hrow⟩ := cleared_row hrow
    exact cleared_index.2 ⟨hi.indexed.named key' row hrow, hne⟩
  · intro k key' hk
    obtain ⟨hfor, hne⟩ := cleared_index.1 hk
    obtain ⟨row, hrow, htask⟩ := hi.indexed.names k key' hfor
    exact ⟨row, (Table.erase_of_ne _ _ hne).trans hrow, htask⟩
  · intro key' row hrow
    exact hi.indexed.drawn key' row (cleared_row hrow).2
  · intro key' row hrow hkey
    exact hi.fences.erasing key' row (cleared_row hrow).2 hkey
  · intro key' row hrow hkey
    exact hi.fences.erased key' row (cleared_row hrow).2 hkey
  · intro k key' hk hfor
    exact hi.fences.index k key' hk (cleared_index.1 hfor).1
  · intro k hk row hrow
    exact hi.fences.idle k hk row (Table.erase_eq_some hrow).2
  · intro key' hkey hnone
    by_cases hk : key' = key
    · subst hk
      exact ⟨r, Table.set_same ..⟩
    · have hold : h.db.submissions key' = none := (Table.erase_of_ne _ _ hk).symm.trans hnone
      obtain ⟨r', hr'⟩ := hi.kept key' hkey hold
      exact ⟨r', (Table.set_of_ne _ _ _ hk).trans hr'⟩
  · intro key' hj
    obtain ⟨⟨j, r'⟩, hj⟩ := Option.isSome_iff_exists.1 hj
    rcases hjob key' j r' hj with ⟨rfl, -, -⟩ | ⟨-, hold⟩
    · exact hers
    · exact hi.fenced key' (by rw [hold]; rfl)
  · intro key' j r' hj
    rcases hjob key' j r' hj with ⟨rfl, -, rfl⟩ | ⟨-, hold⟩
    · exact ⟨(hi.receipts key' _ _ hdone).1, sweep_unreferenced hb⟩
    · obtain ⟨hreceipt, hfree⟩ := hi.receipts key' j r' hold
      exact ⟨hreceipt, hl.unreferenced (hi.fenced key' (by rw [hold]; rfl)) hfree⟩
  · intro key' r' hj
    rcases hjob key' _ r' hj with ⟨rfl, -, -⟩ | ⟨hne, hold⟩
    · exact Table.erase_same ..
    · exact (Table.erase_of_ne _ _ hne).trans (hi.done key' r' hold)
  · intro id' w hw
    exact (hi.work id' w (Table.erase_eq_some hw).2).later hl

/-- The receipt of the deletion. -/
theorem Inv.deletes (hi : h.Inv) {receipt : Receipt} {r : Option Receipt}
    (hverified : receipt.verified = true) (hers : (h.db.erasures key).isSome)
    (hfree : h.Unreferenced key) (hpending : (h.jobs key).getD (.pending, none) = (.pending, r)) :
    let h' : Host := { h with
      jobs := h.jobs.set key (.remoteDone, some receipt)
      work := h.work.erase id }
    h'.Inv ∧ h.Later h' := by
  intro h'
  have hl : h.Later h' := .of_db rfl le_rfl fun _ _ _ hr _ => hr
  have hjob : ∀ key' j r', h'.jobs key' = some (j, r') →
      key' = key ∧ j = .remoteDone ∧ r' = some receipt ∨ h.jobs key' = some (j, r') := by
    intro key' j r' hj
    by_cases hk : key' = key
    · subst hk
      have hset : h'.jobs key' = some (.remoteDone, some receipt) := Table.set_same ..
      rw [hset] at hj
      cases hj
      exact .inl ⟨rfl, rfl, rfl⟩
    · exact .inr ((Table.set_of_ne _ _ _ hk).symm.trans hj)
  refine ⟨⟨hi.indexed, hi.fences, fun key' hkey hnone => ?_, fun key' hj => ?_,
    fun key' j r' hj => ?_, fun key' r' hj => ?_, fun id' w hw => ?_⟩, hl⟩
  · obtain ⟨r', hr'⟩ := hi.kept key' hkey hnone
    by_cases hk : key' = key
    · -- A job that is done is not pending.
      subst hk
      rw [hr'] at hpending
      cases hpending
    · exact ⟨r', (Table.set_of_ne _ _ _ hk).trans hr'⟩
  · obtain ⟨⟨j, r'⟩, hj⟩ := Option.isSome_iff_exists.1 hj
    rcases hjob key' j r' hj with ⟨rfl, -, -⟩ | hold
    · exact hers
    · exact hi.fenced key' (by rw [hold]; rfl)
  · rcases hjob key' j r' hj with ⟨rfl, -, rfl⟩ | hold
    · exact ⟨⟨receipt, rfl, hverified⟩, hfree⟩
    · exact hi.receipts key' j r' hold
  · rcases hjob key' _ r' hj with ⟨-, hj, -⟩ | hold
    · cases hj
    · exact hi.done key' r' hold
  · exact (hi.work id' w (Table.erase_eq_some hw).2).later hl

end Host

/-! ### Runs -/

namespace Host

variable {s₀ s s' : Host}

/-- **Every step keeps the invariant.** -/
theorem Inv.step (hi : h.Inv) (hst : lts.step h a h') : h'.Inv ∧ h.Later h' := by
  cases step_cases hst with
  | same => exact ⟨hi, .of_db rfl le_rfl fun _ _ _ hr _ => hr⟩
  | op o => exact hi.operation (hst.2 o rfl)
  | refers _ row r hrow hstate =>
    refine hi.of_db rfl (Nat.le_succ _) rfl (fun key' hkey r' hmem heq => ?_)
      fun _ _ hw => .inl hw
    rcases List.mem_append.1 hmem with hold | hnew
    · exact hold
    · -- A submission that is fenced is `erasing`.
      cases List.mem_singleton.1 hnew
      exact absurd (hi.fences.erasing _ row hrow (heq ▸ hkey)) hstate
  | lives _ references processes hsub =>
    exact hi.of_db rfl le_rfl rfl (fun _ _ r hr _ => hsub r hr) fun _ _ hw => .inl hw
  | ended _ id => exact hi.drop
  | remote _ id key row => exact hi.goes trivial
  | closing _ id key reason hkey => exact hi.goes hkey
  | quiet _ id key reason status run hw hb =>
    exact hi.sweeps ⟨hi.work id _ hw, sweep_unreferenced hb⟩
  | deletes id x key status run receipt r hw hdescribed hlisted hverified hkey hpending =>
    exact hi.deletes hverified hkey (hi.work id _ hw).2 hpending
  | purge _ id key row hrow =>
    refine hi.goes ⟨hi.indexed.drawn key row hrow, fun row' hrow' => ?_⟩
    rw [show row' = row from Option.some.inj (hrow'.symm.trans hrow)]
  | approvals _ id key row hw => exact hi.sweeps (hi.work id _ hw)
  | clears id approvals key pair r hw hdone hb => exact hi.clears hdone hb

theorem inv_reachable (hr : lts.Reachable Initial h) : h.Inv :=
  hr.invariant (fun _ => .initial) fun _ _ _ hi hst => (hi.step hst).1

theorem Inv.run (hi : h.Inv) {as : List Act} (hrun : lts.Run h as h') : h'.Inv ∧ h.Later h' := by
  induction hrun with
  | nil => exact ⟨hi, .of_db rfl le_rfl fun _ _ _ hr _ => hr⟩
  | cons hst _ ih =>
    obtain ⟨hi₁, hl₁⟩ := hi.step hst
    obtain ⟨hi₂, hl₂⟩ := ih hi₁
    exact ⟨hi₂, hl₁.trans hl₂⟩

/-- **Erasure is a fence.**  Once the fence of a submission is committed, in every run: the
submission stays `erasing` until its rows are deleted, and then it is gone for good; its task has no
other submission, and it is gone, or cancelled without a lease; nobody gets a new reference; and
whatever would bind, submit, claim or act for the task or the submission raises and changes nothing,
after the deletion of the rows as before. -/
theorem erasure_fence (hr : lts.Reachable Initial s) {sub : Submission}
    (hsub : s.db.submissions key = some sub) (hkey : (s.db.erasures key).isSome) {as : List Act}
    (hrun : lts.Run s as s') :
    ((∃ sub', s'.db.submissions key = some sub' ∧ sub'.state = .erasing ∧
        sub'.taskKey = sub.taskKey) ∨
      s'.db.submissions key = none ∧ (∃ r, s'.job key = some (.localDone, r)) ∧
        ∀ bs s'', lts.Run s' bs s'' → s''.db.submissions key = none) ∧
    (∀ key', s'.db.forTask sub.taskKey = some key' → key' = key) ∧
    (∀ row, s'.db.task sub.taskKey = some row → row.state = .cancelled ∧ row.leaseOwner = none) ∧
    (∀ r ∈ s'.references, r.submission = key → r ∈ s.references) ∧
    (∀ env pair pid, ∃ e, s'.reference env key pair pid = .error e) ∧
    ∀ (o : Op) (u : Token), o.Backed s'.db → o.uses s'.db key sub.taskKey →
      o.Raises u s'.db ∧ o.perform u s'.db = s'.db := by
  have hi := inv_reachable hr
  obtain ⟨hi', hl⟩ := hi.run hrun
  have hkey' := hl.holds.erasures key hkey
  have herased := hi.fences.erased key sub hsub hkey
  have hidle := hi'.fences.idle _ (hl.holds.erased _ herased)
  have hrow : ∀ sub', s'.db.submissions key = some sub' → sub'.taskKey = sub.taskKey := by
    intro sub' hsub'
    obtain ⟨sub₁, hsub₁, htask⟩ := hl.holds.rows key sub' (hi.indexed.drawn key sub hsub) hsub'
    rw [hsub] at hsub₁
    cases hsub₁
    exact htask
  refine ⟨?_, fun key' hfor => ?_, hidle, hl.references key hkey, fun env pair pid => ?_,
    fun o u hb huses => ?_⟩
  · cases hs : s'.db.submissions key with
    | some sub' =>
      exact .inl ⟨sub', rfl, hi'.fences.erasing key sub' hs hkey', hrow sub' hs⟩
    | none =>
      obtain ⟨r, hjob⟩ := hi'.kept key hkey' hs
      obtain ⟨reason, hreason⟩ := Option.isSome_iff_exists.1 hkey'
      refine .inr ⟨rfl, ⟨r, ?_⟩, fun bs s'' hrun' => ?_⟩
      · rw [job, hreason, hjob]
        rfl
      · -- The id was drawn, so nobody takes it again.
        by_contra hback
        obtain ⟨row, hrow⟩ := Option.ne_none_iff_exists'.1 hback
        obtain ⟨row', hrow', -⟩ := (hi'.run hrun').2.holds.rows key row
          ((hi.indexed.drawn key sub hsub).trans_le hl.holds.uuids) hrow
        rw [hs] at hrow'
        cases hrow'
  · have hnamed := hl.holds.index _ key' herased hfor
    exact Option.some.inj (hnamed.symm.trans (hi.indexed.named key sub hsub))
  · cases hok : s'.reference env key pair pid with
    | error e => exact ⟨e, rfl⟩
    | ok x =>
      obtain ⟨row, -, hrow, hstate, -⟩ := reference_ok hok
      exact absurd (hi'.fences.erasing key row hrow hkey') hstate
  · have hraises := Op.refused (u := u) (hl.holds.erased _ herased) hidle hrow hb huses
    exact ⟨hraises, hraises.perform⟩

/-- A job begins with the receipt of a call that had found nobody at work. -/
theorem Step.job (hst : h.Step a h') (hnone : h.jobs key = none) :
    h'.jobs key = none ∨ ∃ id x status run, a = .delete id x ∧
      h.work id = some (.quiet key status run) ∧ x.described = .error .notFound ∧
      x.listed = .ok false := by
  cases hst with
  | deletes id x key' status run receipt r hw hdescribed hlisted =>
    by_cases hk : key = key'
    · subst hk
      exact .inr ⟨id, x, status, run, rfl, hw, hdescribed, hlisted⟩
    · exact .inl ((Table.set_of_ne _ _ _ hk).trans hnone)
  | clears id approvals key' pair r hw hdone =>
    refine .inl ((Table.set_of_ne _ _ _ ?_).trans hnone)
    rintro rfl
    rw [hnone] at hdone
    cases hdone
  | _ => exact .inl hnone

/-- The rows of a submission go with the last step of a reconciler. -/
theorem Inv.cleared (hi : h.Inv) (hst : lts.step h a h') {row : Submission}
    (hrow : h.db.submissions key = some row) (hgone : h'.db.submissions key = none) :
    ∃ id approvals r, a = .clear id approvals ∧ h.jobs key = some (.remoteDone, r) ∧
      h'.db = Erasure.cleared key row.taskKey h.db := by
  cases step_cases hst with
  | op o =>
    have hop : Sys.lts.step h.sys o (h.sys.after o) := rfl
    obtain ⟨row', hrow', -⟩ := hi.indexed.kept hop hrow
    replace hgone : (h.sys.after o).db.submissions key = none := hgone
    rw [hrow'] at hgone
    cases hgone
  | clears id approvals key' pair r hw hdone =>
    by_cases hk : key = key'
    · subst hk
      have hpair := (hi.work id _ hw).2 row hrow
      exact ⟨id, approvals, r, rfl, hdone, by rw [hpair]⟩
    · have hsame : h.db.submissions key = none := (Table.erase_of_ne _ _ hk).symm.trans hgone
      rw [hrow] at hsame
      cases hsame
  | _ =>
    replace hgone : h.db.submissions key = none := hgone
    rw [hrow] at hgone
    cases hgone

/-- **The rows of a submission are deleted last.**  When a step of a run takes the row of a
submission, it is the last step of a reconciler, it deletes exactly the rows of the submission and
of its task, the submission was fenced, and nobody holds a reference to it.  Before, a reconciler
wrote the receipt: it had found nobody at work on the fenced submission, the service answered that
the workflow is not found, and listed none; and nobody got a reference in between. -/
theorem purged (h₀ : s₀.Initial) {as : List Act} (hrun : lts.Run s₀ as s)
    (hst : lts.step s a s') {row : Submission} (hrow : s.db.submissions key = some row)
    (hgone : s'.db.submissions key = none) :
    (∃ id approvals, a = .clear id approvals) ∧ s'.db = Erasure.cleared key row.taskKey s.db ∧
      row.state = .erasing ∧ (∀ r ∈ s.references, r.submission ≠ key) ∧
      ∃ as₁ id x as₂ t t' status run, as = as₁ ++ .delete id x :: as₂ ∧ lts.Run s₀ as₁ t ∧
        lts.step t (.delete id x) t' ∧ lts.Run t' as₂ s ∧ (t.db.erasures key).isSome ∧
        t.work id = some (.quiet key status run) ∧ (∀ r ∈ t.references, r.submission ≠ key) ∧
        x.described = .error .notFound ∧ x.listed = .ok false ∧
        ∀ bs u, bs <+: as₂ → lts.Run t' bs u → ∀ r ∈ u.references, r.submission ≠ key := by
  have hi := inv_reachable ⟨s₀, as, h₀, hrun⟩
  obtain ⟨id, approvals, r, rfl, hdone, hdb⟩ := hi.cleared hst hrow hgone
  refine ⟨⟨id, approvals, rfl⟩, hdb,
    hi.fences.erasing key row hrow (hi.fenced key (by rw [hdone]; rfl)),
    (hi.receipts key _ _ hdone).2, ?_⟩
  -- The job had not begun in the new database.
  have hnone : s₀.jobs key = none := by
    rw [h₀.2.1]
    rfl
  obtain ⟨as₁, b, as₂, t, t', rfl, hrun₁, -, hb, ⟨id, x, status, run, rfl, hw, hx⟩, hrun₂⟩ :=
    hrun.exists_step_of_lost (P := fun h => h.jobs key = none)
      (Q := fun h a _ => ∃ id x status run, a = .delete id x ∧
        h.work id = some (.quiet key status run) ∧ x.described = .error .notFound ∧
        x.listed = .ok false)
      hnone (by rw [hdone]; intro hn; cases hn) fun h a h' hn hst => (step_cases hst).job hn
  have ht := inv_reachable ⟨s₀, as₁, h₀, hrun₁⟩
  have hsound := ht.work id _ hw
  refine ⟨as₁, id, x, as₂, t, t', status, run, rfl, hrun₁, hb, hrun₂, hsound.1, hw, hsound.2, hx.1,
    hx.2, fun bs u _ hbetween => ?_⟩
  exact (ht.run (.cons hb hbetween)).2.unreferenced hsound.1 hsound.2

/-! ### A session that is erased -/

namespace Sample

open Temporal.Sample

/-- New databases. -/
def start : Host := ⟨Temporal.Sample.start, .empty, [], fun _ => none, .empty⟩

/-- A process has a reference to the submission when the session is erased, and ends. -/
def fencing : List Act :=
  opening.map .op ++
    [.process 5 (some "5"), .reference {} 2 ("o", "t") 5, .op (.erase {} 2 "session"),
      .process 5 none]

/-- A reconciler has the workflow terminated and the history deleted. -/
def erasing : List Act :=
  [.remote 0 2, .begin 0 (.ok ()),
    .close 0 { described := .ok (.running, "run"), again := .ok (.closed "TERMINATED") },
    .delete 0 { described := .error .notFound, listed := .ok false }, .purge 0 2, .check 0]

/-- The session is fenced. -/
def fenced : Host := fencing.foldl after start

/-- The history is deleted. -/
def erased : Host := erasing.foldl after fenced

theorem run_foldl (h : Host) {as : List Act}
    (hb : ∀ o, Act.op o ∈ as → ∀ db, o.Backed db) : lts.Run h as (as.foldl after h) := by
  induction as generalizing h with
  | nil => exact .nil h
  | cons a as ih =>
    refine .cons ⟨rfl, ?_⟩ (ih (h.after a) fun o ho => hb o (List.mem_cons_of_mem _ ho))
    rintro o rfl
    exact hb o List.mem_cons_self h.db

theorem initial : start.Initial := ⟨⟨"host", rfl⟩, rfl, rfl, rfl⟩

theorem fenced_run : lts.Run start fencing fenced := by
  refine run_foldl start fun o ho db => ?_
  simp only [fencing, opening, List.map_cons, List.map_nil, List.cons_append, List.nil_append,
    List.mem_cons, List.not_mem_nil, Act.op.injEq, or_false, reduceCtorEq, false_or] at ho
  rcases ho with rfl | rfl | rfl | rfl | rfl <;> trivial

theorem erased_run : lts.Run fenced erasing erased := by
  refine run_foldl fenced fun o ho db => ?_
  simp [erasing] at ho

theorem cleared_step : lts.step erased (.clear 0 (.ok ())) (erased.after (.clear 0 (.ok ()))) :=
  ⟨rfl, fun o ho => by cases ho⟩

end Sample

/-- After the rows of the session are deleted, the task cannot be bound. -/
theorem erasure_fence_bind :
    let s := Sample.erased.after (.clear 0 (.ok ()))
    (s.db.submissions 2).isNone ∧
      (Op.bind {} "o" "t" (some .sqlite) (.ok .sqlite)).perform 40 s.db = s.db := by
  have hrow : (Sample.fenced.db.submissions 2).map (·.taskKey) = some ("o", "t") := by decide
  obtain ⟨sub, hsub, htask⟩ := Option.map_eq_some_iff.1 hrow
  refine ⟨by decide, ?_⟩
  have hfence := erasure_fence ⟨Sample.start, _, Sample.initial, Sample.fenced_run⟩ hsub
    (by decide) (Sample.erased_run.snoc Sample.cleared_step)
  exact (hfence.2.2.2.2.2 (.bind {} "o" "t" (some .sqlite) (.ok .sqlite)) 40 trivial
    htask.symm).2

/-- The last step of the reconciler deletes the rows of the session. -/
theorem purged_session :
    ∃ row, Sample.erased.db.submissions 2 = some row ∧ row.state = .erasing ∧
      (Sample.erased.after (.clear 0 (.ok ()))).db =
        Erasure.cleared 2 row.taskKey Sample.erased.db := by
  have hrow : (Sample.erased.db.submissions 2).isSome := by decide
  have hgone : (Sample.erased.after (.clear 0 (.ok ()))).db.submissions 2 = none := by decide
  obtain ⟨row, hrow⟩ := Option.isSome_iff_exists.1 hrow
  obtain ⟨-, hdb, hstate, -⟩ := purged Sample.initial
    (Sample.fenced_run.append Sample.erased_run) Sample.cleared_step hrow hgone
  exact ⟨row, hrow, hstate, hdb⟩

end Host

end Erasure

end Temporal

end PythonAI
