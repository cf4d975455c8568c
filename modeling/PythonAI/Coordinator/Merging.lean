import PythonAI.Coordinator.Review
import PythonAI.Coordinator.Taken

/-!
# Merges that are interrupted

`merge_node` writes the files of a reviewed result into the workspace of its parent between its two
transactions.  When something raises, it writes the old contents back, last first, where nobody has
changed the file since.  It may stop anywhere, and then its files stay as they are.

* `State.Reported` : the node says that a merge is open;
* `State.merge_reported` : **an open merge is reported** unless its node is cancelled, or stays
  cancelled, without a live lease of the merge;
* `merge_hidden` : it is not reported in general.
-/

namespace PythonAI

open Library Budgets

namespace Coordinator

namespace Merging

/-- A file of a merge; `none` is a missing file. -/
structure Change where
  /-- the name of the file -/
  name : String
  /-- its content before the merge -/
  old : Option String
  /-- its content after the merge -/
  new : Option String
  deriving DecidableEq, Repr

/-- Where `merge_node` is, after its first transaction. -/
inductive Stage
  /-- it writes the files -/
  | applying
  /-- something has raised, and it writes the old contents back -/
  | rolling
  /-- its last transaction is committed -/
  | merged
  deriving DecidableEq, Repr

/-- A merge that has started. -/
structure Attempt where
  /-- the node -/
  node : NodeId
  /-- the token of its lease -/
  token : Token
  /-- the workspace of the parent -/
  workspace : String
  /-- the files that are not written yet -/
  changes : List Change
  /-- `applied`, last first -/
  applied : List Change := []
  /-- the files that were not written back, since somebody has changed them -/
  kept : List Change := []
  /-- where it is -/
  stage : Stage := .applying
  /-- a human has given it up after an inspection -/
  abandoned : Bool := false
  deriving DecidableEq, Repr

/-- The merge is neither finished nor abandoned, and not every file has been written back. -/
def Attempt.isOpen (m : Attempt) : Bool :=
  !m.abandoned && match m.stage with
    | .applying => true
    | .rolling => !(m.applied.isEmpty && m.kept.isEmpty)
    | .merged => false

/-- The host, the files of the workspaces and the merges. -/
structure State where
  /-- the host -/
  host : Host
  /-- the files, by their workspaces and names -/
  files : Table (String × String) String
  /-- the merges, oldest first -/
  merges : List Attempt := []

/-- A step. -/
inductive Op
  /-- a transaction of the host that is not one of `merge_node` -/
  | act (a : Act) (t : Time)
  /-- the first transaction of `merge_node`, for the given files -/
  | start (workspace : String) (changes : List Change) (env : Env) (site : Merge.Site) (n : Node)
      (t₁ t : Time)
  /-- the next file is compared and written -/
  | apply (token : Token)
  /-- something raises: a guard, a cancellation or a file operation -/
  | raise (token : Token)
  /-- the next old content is written back -/
  | undo (token : Token)
  /-- the last transaction of `merge_node` -/
  | finish (token : Token) (env : Env) (site : Merge.Site) (n : Node) (files : List String)
      (archive : String) (t₁ t : Time)
  /-- the transaction of its handler -/
  | abort (token : Token) (n : Node) (t : Time)
  /-- somebody else changes a file -/
  | edit (workspace name : String) (content : Option String)

/-- The transaction of a step, and its end. -/
def Op.transaction : Op → Option (Act × Time)
  | .act a t => some (a, t)
  | .start _ _ env site n t₁ t => some (.start env site n t₁, t)
  | .finish token env site n files archive t₁ t =>
    some (.finish env site n token files archive t₁, t)
  | .abort token n t => some (.abort n token, t)
  | _ => none

/-- The transaction belongs to `merge_node`. -/
def Act.merges : Act → Bool
  | .start .. | .finish .. | .abort .. => true
  | _ => false

/-- The transaction commits. -/
def Act.commits (a : Act) (h : Host) : Bool :=
  match a.attempt h.uuids h.db with
  | .ok _ => true
  | .error _ => false

namespace State

/-- The merge under the token. -/
def merge (s : State) (token : Token) : Option Attempt :=
  Records.find Attempt.token token s.merges

/-- The merge under the token goes on as `f` says. -/
def update (s : State) (token : Token) (f : Attempt → Attempt) : State :=
  { s with merges := s.merges.map fun m => if m.token = token then f m else m }

/-- A file is written, or removed. -/
def write (s : State) (workspace name : String) (content : Option String) : State :=
  { s with files := match content with
    | some text => s.files.set (workspace, name) text
    | none => s.files.erase (workspace, name) }

/-- The host performs the transaction of the step. -/
def perform (s : State) (op : Op) : State :=
  { s with host := match op.transaction with
    | some (a, t) => s.host.after a t
    | none => s.host }

/-- The state after a step. -/
def after (s : State) (op : Op) : State :=
  match op with
  | .act a _ =>
    match a with
    | .abandon _ n _ =>
      if Act.commits a s.host then
        { s.perform op with merges := s.merges.map fun m =>
          if m.node = n.id then { m with abandoned := true } else m }
      else s.perform op
    | _ => s.perform op
  | .start workspace changes env site n t₁ _ =>
    if Act.commits (.start env site n t₁) s.host then
      { s.perform op with merges := s.merges ++ [⟨n.id, s.host.uuids, workspace, changes, [], [],
        .applying, false⟩] }
    else s.perform op
  | .apply token =>
    match s.merge token with
    | some { workspace := workspace, changes := c :: rest, .. } =>
      if s.files (workspace, c.name) = c.old then
        (s.write workspace c.name c.new).update token fun m =>
          { m with changes := rest, applied := c :: m.applied }
      else s.update token fun m => { m with stage := .rolling }
    | _ => s
  | .raise token => s.update token fun m => { m with stage := .rolling }
  | .undo token =>
    match s.merge token with
    | some { workspace := workspace, applied := c :: rest, .. } =>
      if s.files (workspace, c.name) = c.new then
        (s.write workspace c.name c.old).update token fun m => { m with applied := rest }
      else s.update token fun m => { m with applied := rest, kept := c :: m.kept }
    | _ => s
  | .finish token env site n files archive t₁ _ =>
    (s.perform op).update token fun m => { m with
      stage := if Act.commits (.finish env site n token files archive t₁) s.host then .merged
        else .rolling }
  | .abort .. => s.perform op
  | .edit workspace name content => s.write workspace name content

/-- The step may be performed. -/
def enabled (s : State) (op : Op) : Prop :=
  (∀ a t, op.transaction = some (a, t) → s.host.now ≤ t ∧ a.clocked s.host.db s.host.now t ∧
    a.permitted s.host.held) ∧
  match op with
  | .act a _ => Act.merges a = false
  | .start .. | .edit .. => True
  | .apply token => ∃ m, s.merge token = some m ∧ m.stage = .applying ∧ m.changes ≠ []
  | .raise token => ∃ m, s.merge token = some m ∧ m.stage = .applying
  | .undo token => ∃ m, s.merge token = some m ∧ m.stage = .rolling ∧ m.applied ≠ []
  | .finish token _ _ n files .. => ∃ m, s.merge token = some m ∧ m.stage = .applying ∧
      m.changes = [] ∧ n.id = m.node ∧ files = m.applied.reverse.map Change.name
  | .abort token n _ => ∃ m, s.merge token = some m ∧ m.stage = .rolling ∧ m.applied = [] ∧
      n.id = m.node

/-- One step at a time. -/
def lts : Lts State Op where
  step s op s' := s.enabled op ∧ s' = s.after op

/-- A reachable host, before the first merge that is followed. -/
structure Initial (s : State) : Prop where
  /-- the host -/
  host : Host.lts.Reachable Host.Initial s.host
  /-- no merge -/
  merges : s.merges = []

/-- The node says that the merge under the token is open. -/
def Reported (h : Host) (token : Token) (n : Node) : Prop :=
  n.state = .merging ∧ n.lease = some token ∨
  n.state = .cancelRequested ∧ n.lease = some token ∧ n.live h.now = true ∨
  n.state = .needsResolution

/-- While a merge is open its node is not requeued, it is cancelled only while the lease of the
merge is live, and the lease stays live until the merge has left a cancelled node. -/
def Spares (s : State) (op : Op) : Prop :=
  ∀ a t, op.transaction = some (a, t) → ∀ m ∈ s.merges, m.isOpen = true →
    ∀ n ∈ s.host.db.nodes, n.id = m.node →
      a ≠ .requeue n.id ∧
      (a.cancels s.host n ∨ n.state = .cancelRequested ∧
        (∀ x : Node, x.id = n.id → a ≠ .abort x m.token) →
          n.lease = some m.token ∧ n.live t = true) ∧
      ∀ st t₁, a = .fence n.id (some st) t₁ → st = .needsResolution

/-! ### One transaction -/

variable {s s' : State} {op : Op} {h : Host} {a : Act} {t : Time} {n : Node} {token : Token}
  {m : Attempt}

theorem Reported.taken (hr : Reported h token n) : n.state.taken = true := by
  rcases hr with ⟨hs, -⟩ | ⟨hs, -⟩ | hs <;> rw [hs] <;> rfl

theorem reported_of_kept {n' : Node} {t' : Time} {h' : Host} (hr : Reported h token n)
    (hs : n'.state = n.state) (hl : n'.lease = n.lease) (he : n'.expires = n.expires)
    (hnow : h'.now = t')
    (hlive : n.state = .cancelRequested → n.lease = some token → n.live t' = true) :
    Reported h' token n' := by
  rcases hr with ⟨hst, hlease⟩ | ⟨hst, hlease, -⟩ | hst
  · exact .inl ⟨hs.trans hst, hl.trans hlease⟩
  · refine .inr (.inl ⟨hs.trans hst, hl.trans hlease, ?_⟩)
    rw [Node.live, he, hnow]
    exact hlive hst hlease
  · exact .inr (.inr (hs.trans hst))

/-- A transaction of the host leaves an open merge reported, unless it ends the merge. -/
theorem reported_act (hw : h.Wf) (hc : a.clocked h.db h.now t) (hp : a.permitted h.held)
    (hfree : ∀ w, .worker w ∈ h.held → w.lease ≠ some token)
    (hrequeue : a ≠ .requeue n.id)
    (hlive : a.cancels h n ∨ n.state = .cancelRequested ∧
      (∀ x : Node, x.id = n.id → a ≠ .abort x token) → n.lease = some token ∧ n.live t = true)
    (hfence : ∀ st t₁, a = .fence n.id (some st) t₁ → st = .needsResolution)
    (hn : n ∈ h.db.nodes) (hr : Reported h token n) :
    (∃ n' ∈ (h.after a t).db.nodes, n'.id = n.id ∧ Reported (h.after a t) token n') ∨
    Act.commits a h = true ∧
      ((∃ env x t₁, a = .abandon env x t₁ ∧ n.id = x.id) ∨
        ∃ env site x files archive t₁, a = .finish env site x token files archive t₁) := by
  cases hatt : a.attempt h.uuids h.db with
  | error e =>
    refine .inl ⟨n, ?_, rfl, reported_of_kept hr rfl rfl rfl rfl fun hst _ => ?_⟩
    · show n ∈ (a.perform h.uuids h.db).nodes
      rw [Act.perform, hatt]
      exact hn
    · refine (hlive (.inr ⟨hst, ?_⟩)).2
      rintro x - rfl
      cases hatt
  | ok r =>
    obtain ⟨db', new⟩ := r
    have hcommits : Act.commits a h = true := by
      rw [Act.commits, hatt]
    have hdb : (h.after a t).db = db' := Act.perform_of_ok hatt
    obtain ⟨n', hn', hid, htouch⟩ := attempt_touches hw hc hp hatt hn hr.taken
    rw [hdb]
    have hholds {w : Node} (hh : n.holds w = true) : w.lease = n.lease := by
      simp only [Node.holds, Bool.and_eq_true, decide_eq_true_eq] at hh
      exact hh.2.symm
    cases htouch with
    | kept hs hl he hna =>
      refine .inl ⟨n', hn', hid, reported_of_kept hr hs hl he rfl fun hst hlease => ?_⟩
      refine (hlive (.inr ⟨hst, fun x hx heq => ?_⟩)).2
      exact hna x token heq hx hlease
    | resolved hs => exact .inl ⟨n', hn', hid, .inr (.inr hs)⟩
    | lapsed hna hs hdead =>
      have hlv := (hlive (.inr ⟨hs, fun x _ => Act.ne_abort hna⟩)).2
      rw [hdead] at hlv
      cases hlv
    | cancelled hcancel hl he hs =>
      obtain ⟨hlease, hlv⟩ := hlive (.inl hcancel)
      refine .inl ⟨n', hn', hid, .inr (.inl ⟨hs ?_ hlv, hl.trans hlease, ?_⟩)⟩
      · rw [hlease]
        rfl
      · rw [Node.live, he]
        exact hlv
    | requeued ha => exact absurd ha hrequeue
    | abandoned ha hx => exact .inr ⟨hcommits, .inl ⟨_, _, _, ha, hx⟩⟩
    | fenced ha hs => exact .inl ⟨n', hn', hid, .inr (.inr (hs.trans (hfence _ _ ha)))⟩
    | released hworker hh hs =>
      have heq := hholds hh
      rcases hr with ⟨-, hlease⟩ | ⟨-, hlease, -⟩ | hst
      · exact absurd (heq.trans hlease) (hfree _ hworker)
      · exact absurd (heq.trans hlease) (hfree _ hworker)
      · exact .inl ⟨n', hn', hid, .inr (.inr (hs hst))⟩
    | merged ha hx hs hl =>
      rcases hr with ⟨-, hlease⟩ | ⟨hst, -⟩ | hst
      · rw [hl] at hlease
        cases hlease
        exact .inr ⟨hcommits, .inr ⟨_, _, _, _, _, _, ha⟩⟩
      · rw [hs] at hst
        cases hst
      · rw [hs] at hst
        cases hst

/-! ### The merges -/

/-- The step closes the merge. -/
def closes (s : State) (m : Attempt) : Op → Prop
  | .act (.abandon env x t₁) _ => Act.commits (.abandon env x t₁) s.host = true ∧ x.id = m.node
  | .finish token env site n files archive t₁ _ =>
    Act.commits (.finish env site n token files archive t₁) s.host = true ∧ m.token = token
  | _ => False

/-- The step moves the merge `m` to `m'`. -/
structure Follows (s : State) (op : Op) (m m' : Attempt) : Prop where
  token : m'.token = m.token
  node : m'.node = m.node
  /-- no merge is opened again -/
  isOpen : m'.isOpen = true → m.isOpen = true
  closed : s.closes m op → m'.isOpen = false

theorem Follows.refl (hc : ¬ s.closes m op) : Follows s op m m :=
  ⟨rfl, rfl, id, fun h => absurd h hc⟩

/-- A merge that writes files, or has files to write back, is open unless it is abandoned. -/
theorem isOpen_before {m' : Attempt}
    (hs : m.stage = .applying ∨ m.stage = .rolling ∧ m.applied ≠ [])
    (hopen : m'.isOpen = true) (ha : m'.abandoned = m.abandoned) : m.isOpen = true := by
  simp only [Attempt.isOpen, Bool.and_eq_true, Bool.not_eq_true'] at hopen
  rw [ha] at hopen
  unfold Attempt.isOpen
  rcases hs with hs | ⟨hs, hne⟩
  · simp [hs, hopen.1]
  · simp [hs, hne, hopen.1]

/-- The merge that is found goes on, and the other ones stay as they are. -/
theorem follows_update {s₁ : State} {f : Attempt → Attempt} {m₀ m' : Attempt}
    (hn : (s.merges.map Attempt.token).Nodup) (hfind : s.merge token = some m₀)
    (heq : s₁.merges = s.merges) (hf : Follows s op m₀ (f m₀))
    (hother : ∀ m ∈ s.merges, m.token ≠ token → ¬ s.closes m op)
    (hm' : m' ∈ (s₁.update token f).merges) : ∃ m ∈ s.merges, Follows s op m m' := by
  obtain ⟨m, hm, rfl⟩ := List.mem_map.mp hm'
  rw [heq] at hm
  refine ⟨m, hm, ?_⟩
  split_ifs with htoken
  · have hsame := Records.find_of_mem hn hm
    rw [htoken, show Records.find Attempt.token token s.merges = some m₀ from hfind] at hsame
    cases hsame
    exact hf
  · exact .refl (hother m hm htoken)

/-- Every merge goes on, or it has just started. -/
theorem merges_after (hn : (s.merges.map Attempt.token).Nodup) (he : s.enabled op) {m' : Attempt}
    (hm' : m' ∈ (s.after op).merges) : (∃ m ∈ s.merges, Follows s op m m') ∨
      ∃ workspace changes env site n t₁ t, op = .start workspace changes env site n t₁ t ∧
        Act.commits (.start env site n t₁) s.host = true ∧
        m' = ⟨n.id, s.host.uuids, workspace, changes, [], [], .applying, false⟩ := by
  obtain ⟨-, he⟩ := he
  cases op with
  | act a t =>
    refine .inl ?_
    simp only [after] at hm'
    split at hm'
    case h_1 env x t₁ =>
      split_ifs at hm' with hcommits
      · obtain ⟨m, hm, rfl⟩ := List.mem_map.mp hm'
        refine ⟨m, hm, ?_⟩
        split_ifs with hnode
        · exact ⟨rfl, rfl, nofun, fun _ => rfl⟩
        · exact .refl fun hc => hnode hc.2.symm
      · exact ⟨m', hm', .refl fun hc => hcommits hc.1⟩
    case h_2 hno =>
      refine ⟨m', hm', .refl fun hc => ?_⟩
      cases a with
      | abandon env x t₁ => exact hno env x t₁ rfl
      | _ => exact hc
  | start workspace changes env site n t₁ t =>
    simp only [after] at hm'
    split_ifs at hm' with hcommits
    · rcases List.mem_append.mp hm' with hm' | hm'
      · exact .inl ⟨m', hm', .refl id⟩
      · exact .inr ⟨_, _, _, _, _, _, _, rfl, hcommits, List.mem_singleton.mp hm'⟩
    · exact .inl ⟨m', hm', .refl id⟩
  | apply token =>
    obtain ⟨m₀, hfind, hstage, hne⟩ := he
    refine .inl ?_
    simp only [after, hfind] at hm'
    split at hm'
    · split_ifs at hm'
      all_goals
        refine follows_update hn hfind rfl ⟨rfl, rfl, fun hopen => ?_, False.elim⟩
          (fun _ _ _ => id) hm'
        exact isOpen_before (.inl hstage) hopen rfl
    · exact ⟨m', hm', .refl id⟩
  | raise token =>
    obtain ⟨m₀, hfind, hstage⟩ := he
    refine .inl (follows_update hn hfind rfl ⟨rfl, rfl, fun hopen => ?_, False.elim⟩
      (fun _ _ _ => id) hm')
    exact isOpen_before (.inl hstage) hopen rfl
  | undo token =>
    obtain ⟨m₀, hfind, hstage, hne⟩ := he
    refine .inl ?_
    simp only [after, hfind] at hm'
    split at hm'
    · split_ifs at hm'
      all_goals
        refine follows_update hn hfind rfl ⟨rfl, rfl, fun hopen => ?_, False.elim⟩
          (fun _ _ _ => id) hm'
        exact isOpen_before (.inr ⟨hstage, hne⟩) hopen rfl
    · exact ⟨m', hm', .refl id⟩
  | finish token env site n files archive t₁ t =>
    obtain ⟨m₀, hfind, hstage, -⟩ := he
    refine .inl (follows_update hn hfind rfl ⟨rfl, rfl, fun hopen => ?_, fun hc => ?_⟩
      (fun m _ htoken hc => htoken hc.2) hm')
    · exact isOpen_before (.inl hstage) hopen rfl
    · simp [Attempt.isOpen, hc.1]
  | abort token n t => exact .inl ⟨m', hm', .refl id⟩
  | edit workspace name content => exact .inl ⟨m', hm', .refl id⟩

/-! ### Runs -/

/-- What holds of the merges. -/
structure Inv (s : State) : Prop where
  wf : s.host.Wf
  /-- no worker has the token of a merge -/
  workers : ∀ w, .worker w ∈ s.host.held → ∃ u, w.lease = some u ∧ u < s.host.uuids ∧
    ∀ m ∈ s.merges, m.token ≠ u
  /-- the tokens of the merges were used -/
  tokens : ∀ m ∈ s.merges, m.token < s.host.uuids
  /-- no two merges have the same token -/
  nodup : (s.merges.map Attempt.token).Nodup
  /-- an open merge is reported -/
  reported : ∀ m ∈ s.merges, m.isOpen = true →
    ∃ n ∈ s.host.db.nodes, n.id = m.node ∧ Reported s.host m.token n

theorem Initial.inv (hi : s.Initial) : s.Inv := by
  have hnone {m : Attempt} : m ∉ s.merges := by
    rw [hi.merges]
    exact List.not_mem_nil
  refine ⟨Host.wf hi.host, fun w hw => ?_, fun m hm => absurd hm hnone, ?_,
    fun m hm => absurd hm hnone⟩
  · obtain ⟨u, hu, hlt⟩ := Host.worker_lease_lt hi.host hw
    exact ⟨u, hu, hlt, fun m hm => absurd hm hnone⟩
  · rw [hi.merges]
    exact List.nodup_nil

/-- The host performs the transaction of the step, or stays as it is. -/
theorem after_host : (s.after op).host = (s.perform op).host := by
  cases op with
  | act a t =>
    simp only [after]
    split
    · split_ifs <;> rfl
    · rfl
  | start =>
    simp only [after]
    split_ifs <;> rfl
  | apply token =>
    simp only [after]
    split
    · split_ifs <;> rfl
    · rfl
  | undo token =>
    simp only [after]
    split
    · split_ifs <;> rfl
    · rfl
  | raise | finish | abort | edit => rfl

/-- The transaction of a step is one of the host. -/
theorem host_step (he : s.enabled op) {a : Act} {t : Time} (ht : op.transaction = some (a, t)) :
    (s.after op).host = s.host.after a t ∧ Host.lts.step s.host a (s.host.after a t) := by
  obtain ⟨hnow, hc, hp⟩ := he.1 a t ht
  refine ⟨?_, t, hnow, hc, hp, rfl⟩
  rw [after_host, perform, ht]

theorem host_same (ht : op.transaction = none) : (s.after op).host = s.host := by
  rw [after_host, perform, ht]

/-- A host that performs no transaction, or one that leaves the open merges reported. -/
theorem reported_after (hi : s.Inv) (he : s.enabled op) (hs : s.Spares op) (hm : m ∈ s.merges)
    (hopen : m.isOpen = true) (hc : ¬ s.closes m op) :
    ∃ n ∈ (s.after op).host.db.nodes, n.id = m.node ∧ Reported (s.after op).host m.token n := by
  obtain ⟨n, hn, hid, hr⟩ := hi.reported m hm hopen
  cases ht : op.transaction with
  | none =>
    rw [host_same ht]
    exact ⟨n, hn, hid, hr⟩
  | some x =>
    obtain ⟨a, t⟩ := x
    obtain ⟨hhost, -⟩ := host_step he ht
    obtain ⟨-, hclock, hp⟩ := he.1 a t ht
    obtain ⟨hrequeue, hlive, hfence⟩ := hs a t ht m hm hopen n hn hid
    have hfree (w : Node) (hw : .worker w ∈ s.host.held) : w.lease ≠ some m.token := by
      obtain ⟨u, hu, -, hne⟩ := hi.workers w hw
      rw [hu]
      exact fun heq => hne m hm (Option.some.inj heq).symm
    rw [hhost]
    rcases reported_act hi.wf hclock hp hfree hrequeue hlive hfence hn hr with
      ⟨n', hn', hid', hr'⟩ | ⟨hcommits, ⟨env, x, t₁, rfl, hx⟩ | ⟨env, site, x, files, arc, t₁, rfl⟩⟩
    · exact ⟨n', hn', hid'.trans hid, hr'⟩
    · refine absurd ?_ hc
      cases op with
      | act =>
        cases ht
        exact ⟨hcommits, hx.symm.trans hid⟩
      | _ => cases ht
    · refine absurd ?_ hc
      cases op with
      | act =>
        cases ht
        cases he.2
      | finish =>
        cases ht
        exact ⟨hcommits, rfl⟩
      | _ => cases ht

/-- The node that a merge has just taken is merging under its token. -/
theorem reported_start {env : Env} {site : Merge.Site} {t₁ : Time}
    (hcommits : Act.commits (.start env site n t₁) h = true) :
    ∃ n' ∈ (h.after (.start env site n t₁) t).db.nodes, n'.id = n.id ∧
      Reported (h.after (.start env site n t₁) t) h.uuids n' := by
  cases hatt : (Act.start env site n t₁).attempt h.uuids h.db with
  | error e =>
    rw [Act.commits, hatt] at hcommits
    cases hcommits
  | ok r =>
    obtain ⟨db', new⟩ := r
    have hdb : (h.after (.start env site n t₁) t).db = db' := Act.perform_of_ok hatt
    rw [hdb]
    simp only [Act.attempt, bind_eq_ok, pure_eq_ok] at hatt
    obtain ⟨⟨db₁, _⟩, hst, heq⟩ := hatt
    cases heq
    have hany : ∃ row ∈ h.db.nodes, row.id = n.id ∧ row.state = .reviewed := by
      simp only [Merge.start, bind_eq_ok, ensure_eq_ok] at hst
      obtain ⟨-, -, -, hany, -⟩ := hst
      simpa using hany
    obtain ⟨row, hrow, hrow'⟩ := hany
    rw [Merge.start_ok hst]
    refine ⟨_, List.mem_map_of_mem hrow, ?_⟩
    rw [if_pos hrow']
    exact ⟨hrow'.1, .inl ⟨rfl, rfl⟩⟩

theorem update_tokens {f : Attempt → Attempt} (hf : ∀ m, (f m).token = m.token) :
    (s.update token f).merges.map Attempt.token = s.merges.map Attempt.token := by
  refine Records.map_key fun m _ => ?_
  split_ifs
  · exact hf m
  · rfl

/-- A step keeps the tokens of the merges, and a merge that starts has the next id. -/
theorem tokens_after : (s.after op).merges.map Attempt.token = s.merges.map Attempt.token ∨
    (∃ workspace changes env site n t₁ t, op = .start workspace changes env site n t₁ t) ∧
      (s.after op).merges.map Attempt.token = s.merges.map Attempt.token ++ [s.host.uuids] := by
  cases op with
  | act a t =>
    refine .inl ?_
    simp only [after]
    split
    · split_ifs
      · refine Records.map_key fun m _ => ?_
        split_ifs <;> rfl
      · rfl
    · rfl
  | start workspace changes env site n t₁ t =>
    simp only [after]
    split_ifs
    · exact .inr ⟨⟨_, _, _, _, _, _, _, rfl⟩, by rw [List.map_append]; rfl⟩
    · exact .inl rfl
  | apply token =>
    refine .inl ?_
    simp only [after]
    split
    · split_ifs
      · exact update_tokens fun _ => rfl
      · exact update_tokens fun _ => rfl
    · rfl
  | undo token =>
    refine .inl ?_
    simp only [after]
    split
    · split_ifs
      · exact update_tokens fun _ => rfl
      · exact update_tokens fun _ => rfl
    · rfl
  | raise token => exact .inl (update_tokens fun _ => rfl)
  | finish => exact .inl (update_tokens fun _ => rfl)
  | abort | edit => exact .inl rfl

/-- A worker has claimed before, or it claims under the next id, and no merge starts. -/
theorem workers_after (hi : s.Inv) (he : s.enabled op) {w : Node}
    (hw : .worker w ∈ (s.after op).host.held) :
    .worker w ∈ s.host.held ∨ w.lease = some s.host.uuids ∧
      s.host.uuids < (s.after op).host.uuids ∧
      ∀ workspace changes env site n t₁ t, op ≠ .start workspace changes env site n t₁ t := by
  cases ht : op.transaction with
  | none =>
    rw [host_same ht] at hw
    exact .inl hw
  | some x =>
    obtain ⟨a, t⟩ := x
    obtain ⟨hhost, hstep⟩ := host_step he ht
    rw [hhost] at hw ⊢
    rcases Host.worker_lease hi.wf hstep hw with hold | hnew
    · exact .inl hold
    by_cases hstart : ∃ workspace changes env site n t₁ t,
        op = .start workspace changes env site n t₁ t
    · obtain ⟨workspace, changes, env, site, n, t₁, t, rfl⟩ := hstart
      cases ht
      refine .inl ((List.mem_append.mp hw).resolve_right fun hy => ?_)
      simp only [Act.yields] at hy
      split at hy
      case h_1 hatt =>
        simp only [Act.attempt, bind_eq_ok, pure_eq_ok] at hatt
        obtain ⟨_, -, heq⟩ := hatt
        cases heq
        cases List.mem_singleton.mp hy
      case h_2 => cases hy
    · refine .inr ⟨hnew, Nat.lt_add_of_pos_right Nat.two_pos, fun _ _ _ _ _ _ _ heq => ?_⟩
      exact hstart ⟨_, _, _, _, _, _, _, heq⟩

theorem uuids_after (he : s.enabled op) : s.host.uuids ≤ (s.after op).host.uuids ∧
    ((∃ workspace changes env site n t₁ t, op = .start workspace changes env site n t₁ t) →
      s.host.uuids < (s.after op).host.uuids) := by
  cases ht : op.transaction with
  | none =>
    rw [host_same ht]
    refine ⟨Nat.le_refl _, ?_⟩
    rintro ⟨_, _, _, _, _, _, _, rfl⟩
    cases ht
  | some x =>
    rw [(host_step he ht).1]
    exact ⟨Nat.le_add_right .., fun _ => Nat.lt_add_of_pos_right Nat.two_pos⟩

theorem Inv.step (hi : s.Inv) (hst : lts.step s op s') (hs : s.Spares op) : s'.Inv := by
  obtain ⟨he, rfl⟩ := hst
  obtain ⟨huuids, hstarts⟩ := uuids_after he
  refine ⟨?_, fun w hw => ?_, fun m hm => ?_, ?_, fun m' hm' hopen => ?_⟩
  · cases ht : op.transaction with
    | none =>
      rw [host_same ht]
      exact hi.wf
    | some x =>
      obtain ⟨hhost, hstep⟩ := host_step he ht
      rw [hhost]
      exact Host.wf_step hi.wf hstep
  · rcases workers_after hi he hw with hw | ⟨hlease, hlt, hno⟩
    · obtain ⟨u, hu, hlt, hne⟩ := hi.workers w hw
      refine ⟨u, hu, lt_of_lt_of_le hlt huuids, fun m hm => ?_⟩
      rcases merges_after hi.nodup he hm with ⟨m₀, hm₀, hf⟩ | ⟨_, _, _, _, _, _, _, -, -, rfl⟩
      · exact hf.token ▸ hne m₀ hm₀
      · exact (ne_of_lt hlt).symm
    · refine ⟨_, hlease, hlt, fun m hm => ?_⟩
      rcases merges_after hi.nodup he hm with ⟨m₀, hm₀, hf⟩ | ⟨_, _, _, _, _, _, _, heq, -⟩
      · exact hf.token ▸ ne_of_lt (hi.tokens m₀ hm₀)
      · exact absurd heq (hno _ _ _ _ _ _ _)
  · rcases merges_after hi.nodup he hm with ⟨m₀, hm₀, hf⟩ | ⟨_, _, _, _, _, _, _, heq, -, rfl⟩
    · exact hf.token ▸ lt_of_lt_of_le (hi.tokens m₀ hm₀) huuids
    · exact hstarts ⟨_, _, _, _, _, _, _, heq⟩
  · have htokens : (s.after op).merges.map Attempt.token = s.merges.map Attempt.token ∨ _ :=
      tokens_after
    rcases htokens with heq | ⟨-, heq⟩
    · rw [heq]
      exact hi.nodup
    · rw [heq]
      refine List.nodup_append.mpr ⟨hi.nodup, List.nodup_singleton _, fun u hu v hv => ?_⟩
      obtain ⟨m, hm, rfl⟩ := List.mem_map.mp hu
      rw [List.mem_singleton.mp hv]
      exact ne_of_lt (hi.tokens m hm)
  · rcases merges_after hi.nodup he hm' with
      ⟨m, hm, hf⟩ | ⟨_, _, env, site, n, t₁, t, rfl, hcommits, rfl⟩
    · rw [hf.token, hf.node]
      refine reported_after hi he hs hm (hf.isOpen hopen) fun hc => ?_
      rw [hf.closed hc] at hopen
      cases hopen
    · rw [(host_step he rfl).1]
      exact reported_start hcommits

/-- **An open merge is reported**: in every run that spares the open merges, the node of each is
`merging`, or `cancel_requested` while its lease is live, or `needs_resolution`. -/
theorem merge_reported (hr : (lts.restrict Spares).Reachable Initial s) (hm : m ∈ s.merges)
    (hopen : m.isOpen = true) :
    ∃ n ∈ s.host.db.nodes, n.id = m.node ∧ Reported s.host m.token n :=
  (hr.invariant (fun _ => Initial.inv) fun _ _ _ hi hst => hi.step hst.1 hst.2).reported m hm hopen

end State

/-! ### A sample merge -/

namespace Sample

open Coordinator.Sample (host underReview publishes approval node)

/-- The context of the merge. -/
def site : Merge.Site := ⟨none, true, true⟩

/-- The node `9` is reviewed, and `merge_node` has checked it. -/
def checked : Host :=
  host.script (underReview ++ publishes approval 5 ++ [fun _ => (.get "owner" 9, 6),
    fun _ => (.get "owner" 23, 6),
    fun h => (.mergeable {} site true (node h 9) (node h 23) 6, 6)])

/-- The file of the merge is in the workspace. -/
def ready : State := ⟨checked, Table.empty.set ("/r", "a.py") "old", []⟩

/-- The merge starts. -/
def starts : Op := .start "/r" [⟨"a.py", some "old", some "new"⟩] {} site (node checked 9) 7 7

/-- The file is written. -/
def written : State := (ready.after starts).after (.apply checked.uuids)

/-- The node is cancelled while the lease of the merge is live. -/
def cancels : Op := .act (.cancel {} "owner" 9 fun _ => 8) 8

/-- The lease has expired. -/
def recovers : Op := .act (.recover {} (fun _ => 100) 100) 100

/-- The merge under the token of the sample. -/
def attempt : Attempt where
  node := 9
  token := 37
  workspace := "/r"
  changes := []
  applied := [⟨"a.py", some "old", some "new"⟩]

theorem ready_initial : ready.Initial :=
  ⟨.run (.of_init Coordinator.Sample.host_initial) (Host.run_script (by decide)), rfl⟩

theorem ready_starts : State.lts.step ready starts (ready.after starts) := by
  refine ⟨⟨fun a t ht => ?_, trivial⟩, rfl⟩
  cases ht
  exact ⟨by decide, by decide, by decide⟩

set_option maxRecDepth 8000 in
theorem starts_written :
    State.lts.step (ready.after starts) (.apply checked.uuids) written := by
  refine ⟨⟨fun a t ht => ?_, ?_⟩, rfl⟩
  · cases ht
  · exact ⟨⟨9, 37, "/r", attempt.applied, [], [], .applying, false⟩, by decide, rfl,
      List.cons_ne_nil _ _⟩

set_option maxRecDepth 8000 in
theorem cancels_step : State.lts.step written cancels (written.after cancels) := by
  refine ⟨⟨fun a t ht => ?_, rfl⟩, rfl⟩
  cases ht
  exact ⟨by decide, by decide, trivial⟩

theorem recovers_step {s : State} (hnow : s.host.now ≤ 100) :
    State.lts.step s recovers (s.after recovers) := by
  refine ⟨⟨fun a t ht => ?_, rfl⟩, rfl⟩
  cases ht
  exact ⟨hnow, ⟨hnow, Nat.le_refl _, fun _ _ => ⟨hnow, Nat.le_refl _⟩⟩, trivial⟩

end Sample

set_option maxRecDepth 8000 in
/-- A merge that is cancelled and then crashes is hidden: its file stays written, and the node is
`cancelled` after the next recovery. -/
theorem merge_hidden :
    let s := (Sample.written.after Sample.cancels).after Sample.recovers
    State.lts.Reachable State.Initial s ∧ Sample.attempt ∈ s.merges ∧
      Sample.attempt.isOpen = true ∧ s.files ("/r", "a.py") = some "new" ∧
      ∀ n ∈ s.host.db.nodes, n.id = Sample.attempt.node → n.state = .cancelled := by
  intro s
  have hcancelled := ((Lts.Reachable.of_init Sample.ready_initial).step Sample.ready_starts).step
    Sample.starts_written |>.step Sample.cancels_step
  exact ⟨hcancelled.step (Sample.recovers_step (by decide)), by decide, rfl,
    by decide, by decide⟩

set_option maxRecDepth 8000 in
/-- The crash of a merge that was not cancelled is reported. -/
theorem merge_reported_sample :
    ∃ n ∈ (Sample.written.after Sample.recovers).host.db.nodes, n.id = 9 ∧
      State.Reported (Sample.written.after Sample.recovers).host 37 n := by
  have hnone : Sample.ready.Spares Sample.starts := fun _ _ _ m hm => by cases hm
  have hstates : ∀ n ∈ Sample.written.host.db.nodes, n.id = 9 → n.state = .merging := by
    decide
  have hspares : Sample.written.Spares Sample.recovers := by
    intro a t ht m hm hopen n hn hid
    cases ht
    refine ⟨nofun, ?_, nofun⟩
    rintro (hc | ⟨hs, -⟩)
    · cases hc
    · have hnode : ∀ m ∈ Sample.written.merges, m.node = 9 := by decide
      rw [hstates n hn (hid.trans (hnode m hm))] at hs
      cases hs
  have hr : (State.lts.restrict State.Spares).Reachable State.Initial
      (Sample.written.after Sample.recovers) :=
    .step (.step (.step (.of_init Sample.ready_initial) ⟨Sample.ready_starts, hnone⟩)
      ⟨Sample.starts_written, fun _ _ ht => by cases ht⟩)
      ⟨Sample.recovers_step (by decide), hspares⟩
  exact State.merge_reported hr (m := Sample.attempt) (by decide) rfl

end Merging

end Coordinator

end PythonAI
