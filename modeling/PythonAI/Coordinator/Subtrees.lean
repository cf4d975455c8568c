import Mathlib.Logic.Relation
import PythonAI.Coordinator.Host

/-!
# What `cancel` changes

`cancel` selects children and reviewers of selected nodes until there are no more of them.  Every
turn of its loop selects a further row, so that it ends; and the nodes it has selected then are
those under the given one (`Db.Subtree`).

* `mem_closure_iff` : **the selected nodes are the subtree**;
* `cancel_subtree` : **`cancel` changes the nodes of the subtree that are not merged, and no
  others**, or nothing when the storage is full.
-/

namespace PythonAI

open Library

namespace Coordinator

/-- `b` is a child or a reviewer of `a`. -/
def Db.Under (db : Db) (owner : Owner) (a b : NodeId) : Prop :=
  ∃ n ∈ db.nodes, n.owner = owner ∧ n.id = b ∧ (n.parent = some a ∨ n.reviewOf = some a)

/-- The node `k` is reached from `key` through children and reviewers. -/
def Db.Subtree (db : Db) (owner : Owner) (key k : NodeId) : Prop :=
  Relation.ReflTransGen (db.Under owner) key k

variable {db db' : Db} {owner : Owner} {key k : NodeId} {rows : List Node}
  {selected : List NodeId} {n n' : Node}

/-! ### The loop -/

theorem mem_relatives : k ∈ relatives rows selected ↔ k ∉ selected ∧ ∃ n ∈ rows, n.id = k ∧
    ((∃ p ∈ selected, n.parent = some p) ∨ ∃ p ∈ selected, n.reviewOf = some p) := by
  have hany : ∀ o : Option NodeId, o.any (· ∈ selected) = true ↔ ∃ p ∈ selected, o = some p := by
    intro o
    rw [Option.any_eq_true]
    constructor
    · rintro ⟨p, rfl, hp⟩
      exact ⟨p, of_decide_eq_true hp, rfl⟩
    · rintro ⟨p, hp, rfl⟩
      exact ⟨p, rfl, decide_eq_true hp⟩
  unfold relatives
  simp only [List.mem_map, List.mem_filter, Bool.and_eq_true, Bool.or_eq_true, hany,
    Bool.not_eq_true', decide_eq_false_iff_not]
  constructor
  · rintro ⟨n, ⟨hn, hnew, hlink⟩, rfl⟩
    exact ⟨hnew, n, hn, rfl, hlink⟩
  · rintro ⟨hnew, n, hn, rfl, hlink⟩
    exact ⟨n, ⟨hn, hnew, hlink⟩, rfl⟩

/-- The rows that are not selected become fewer with every turn. -/
theorem countP_unselected (extra : List NodeId) (hextra : k ∈ extra) (hk : k ∉ selected)
    (hrow : ∃ n ∈ rows, n.id = k) :
    rows.countP (·.id ∉ selected ++ extra) < rows.countP (·.id ∉ selected) := by
  obtain ⟨n, hn, rfl⟩ := hrow
  induction rows with
  | nil => cases hn
  | cons m rows ih =>
    have hle : rows.countP (·.id ∉ selected ++ extra) ≤ rows.countP (·.id ∉ selected) := by
      refine List.countP_mono_left fun m _ hm => ?_
      have hm := of_decide_eq_true hm
      exact decide_eq_true fun hs => hm (List.mem_append_left _ hs)
    rw [List.countP_cons, List.countP_cons]
    rcases List.mem_cons.1 hn with rfl | hn
    · rw [if_neg (by simp [hextra]), if_pos (decide_eq_true hk)]
      omega
    · have hlt := ih hn
      by_cases hm : m.id ∈ selected
      · rw [if_neg (by simp [hm]), if_neg (by simp [hm])]
        exact hlt
      · rw [if_pos (decide_eq_true hm)]
        split_ifs
        · omega
        · omega

/-- The loop has ended: a turn for every row is enough. -/
theorem relatives_select {fuel : ℕ} (h : rows.countP (·.id ∉ selected) ≤ fuel) :
    relatives rows (select rows fuel selected) = [] := by
  induction fuel generalizing selected with
  | zero =>
    refine List.eq_nil_iff_forall_not_mem.2 fun k hk => ?_
    obtain ⟨hnew, n, hn, rfl, -⟩ := mem_relatives.1 hk
    exact List.countP_eq_zero.1 (Nat.le_zero.1 h) n hn (decide_eq_true hnew)
  | succ fuel ih =>
    unfold select
    cases hextra : relatives rows selected with
    | nil => exact hextra
    | cons k extra =>
      have hk : k ∈ relatives rows selected := hextra ▸ List.mem_cons_self
      obtain ⟨hnew, n, hn, hid, -⟩ := mem_relatives.1 hk
      have hlt := countP_unselected (k :: extra) List.mem_cons_self hnew ⟨n, hn, hid⟩
      exact ih (by omega)

theorem subset_select {fuel : ℕ} (h : k ∈ selected) : k ∈ select rows fuel selected := by
  induction fuel generalizing selected with
  | zero => exact h
  | succ fuel ih =>
    unfold select
    split
    · exact h
    · exact ih (List.mem_append_left _ h)

/-- A selected node is reached from the first ones. -/
theorem reached_of_select {fuel : ℕ}
    (h : k ∈ select (db.nodes.filter (·.owner = owner)) fuel selected) :
    ∃ p ∈ selected, db.Subtree owner p k := by
  induction fuel generalizing selected with
  | zero => exact ⟨k, h, .refl⟩
  | succ fuel ih =>
    unfold select at h
    split at h
    · exact ⟨k, h, .refl⟩
    case h_2 extra hextra =>
      obtain ⟨p, hp, hreach⟩ := ih h
      rcases List.mem_append.1 hp with hp | hp
      · exact ⟨p, hp, hreach⟩
      · obtain ⟨-, n, hn, hid, hlink⟩ := mem_relatives.1 hp
        obtain ⟨hn, howner⟩ := List.mem_filter.1 hn
        have howner := of_decide_eq_true howner
        rcases hlink with ⟨q, hq, hparent⟩ | ⟨q, hq, hreview⟩
        · exact ⟨q, hq, .head ⟨n, hn, howner, hid, .inl hparent⟩ hreach⟩
        · exact ⟨q, hq, .head ⟨n, hn, howner, hid, .inr hreview⟩ hreach⟩

/-- The loop of `cancel` has ended. -/
theorem relatives_closure :
    relatives (db.nodes.filter (·.owner = owner)) (closure db owner key) = [] :=
  relatives_select (List.countP_le_length.trans (List.length_filter_le ..))

/-- **`cancel` selects the subtree.** -/
theorem mem_closure_iff : k ∈ closure db owner key ↔ db.Subtree owner key k := by
  constructor
  · intro h
    obtain ⟨p, hp, hreach⟩ := reached_of_select h
    rw [List.mem_singleton.1 hp] at hreach
    exact hreach
  · intro h
    induction h with
    | refl => exact subset_select (List.mem_singleton_self _)
    | @tail b c _ hstep ih =>
      obtain ⟨n, hn, howner, hid, hlink⟩ := hstep
      by_contra hnew
      have hmem : c ∈ relatives (db.nodes.filter (·.owner = owner)) (closure db owner key) :=
        mem_relatives.2 ⟨hnew, n, List.mem_filter.2 ⟨hn, decide_eq_true howner⟩, hid,
          hlink.imp (fun hp => ⟨b, ih, hp⟩) fun hr => ⟨b, ih, hr⟩⟩
      rw [relatives_closure] at hmem
      cases hmem

/-! ### What it does with them -/

/-- `cancel` stops the node: it is in the subtree, and not merged. -/
def Db.Stops (db : Db) (owner : Owner) (key : NodeId) (n : Node) : Prop :=
  db.Subtree owner key n.id ∧ n.state ≠ .merged

/-- `n'` is the row `n` after `cancel`. -/
structure Cancels (db : Db) (owner : Owner) (key : NodeId) (clock : NodeId → Time) (n n' : Node) :
    Prop where
  /-- a worker that holds the node is asked to stop -/
  leased : db.Stops owner key n → n.lease.isSome = true → n.live (clock n.id) = true →
    n' = { n with state := .cancelRequested, updated := clock n.id }
  /-- a node without a worker is cancelled at once -/
  free : db.Stops owner key n → ¬ (n.lease.isSome = true ∧ n.live (clock n.id) = true) →
    n' = { n with state := .cancelled, updated := clock n.id }
  /-- every other node stays as it is -/
  other : ¬ db.Stops owner key n → n' = n

variable {clock : NodeId → Time} {env : Env}

theorem cancels_row : Cancels db owner key clock n
    (if n.id ∈ closure db owner key then cancelNode (clock n.id) n else n) := by
  by_cases hk : n.id ∈ closure db owner key
  · rw [if_pos hk]
    unfold cancelNode
    by_cases hm : n.state = .merged
    · rw [if_pos hm]
      exact ⟨fun hs => absurd hm hs.2, fun hs => absurd hm hs.2, fun _ => rfl⟩
    · rw [if_neg hm]
      refine ⟨fun _ hlease hlive => ?_, fun _ hfree => ?_, fun hs => ?_⟩
      · rw [hlease, hlive]
        rfl
      · rw [if_neg fun hc => hfree (Bool.and_eq_true_iff.1 hc)]
      · exact absurd ⟨mem_closure_iff.1 hk, hm⟩ hs
  · rw [if_neg hk]
    exact ⟨fun hs => absurd (mem_closure_iff.2 hs.1) hk,
      fun hs => absurd (mem_closure_iff.2 hs.1) hk, fun _ => rfl⟩

/-- The rows that `cancel` stops. -/
theorem mem_stopped : n ∈ db.nodes.filter (fun n => n.id ∈ closure db owner key && n.state ≠ .merged) ↔
    n ∈ db.nodes ∧ db.Stops owner key n := by
  rw [List.mem_filter, Bool.and_eq_true, decide_eq_true_eq, decide_eq_true_eq, mem_closure_iff]
  rfl

/-- **`cancel` stops the nodes of the subtree that are not merged, with one event for each, and
leaves everything else as it was**; when the storage is full, it changes nothing. -/
theorem cancel_subtree (env : Env) (clock : NodeId → Time) (hids : (db.nodes.map (·.id)).Nodup)
    (hn : n ∈ db.nodes) (howner : n.owner = owner) :
    relatives (db.nodes.filter (·.owner = owner)) (closure db owner n.id) = [] ∧
    match cancel env owner n.id clock db with
    | .ok (db', selected) =>
      (∀ k, k ∈ selected ↔ db.Subtree owner n.id k) ∧
      Records.Rewrites (Cancels db owner n.id clock) db.nodes db'.nodes ∧
      (∃ new, db'.events = db.events ++ new ∧ (new.map (·.node)).Nodup ∧
        ∀ e, e ∈ new ↔ ∃ m ∈ db.nodes, db.Stops owner n.id m ∧ e = ⟨m.id, m.owner, "cancelled"⟩) ∧
      db' = { db with nodes := db'.nodes, events := db'.events }
    | .error _ => env.room = false ∧ ∃ m ∈ db.nodes, db.Stops owner n.id m := by
  refine ⟨relatives_closure, ?_⟩
  have hnode : (db.node n.id).filter (·.owner = owner) = some n := by
    have hfind : db.node n.id = some n := Records.find_of_mem hids hn
    rw [hfind, Option.filter_some, if_pos (decide_eq_true howner)]
  unfold cancel
  rw [hnode]
  by_cases hroom : ((db.nodes.filter fun n' => n'.id ∈ closure db owner n.id &&
      n'.state ≠ .merged).isEmpty || env.room) = true
  · simp only [require, ensure, hroom]
    refine ⟨fun k => mem_closure_iff, Records.Rewrites.of_map fun m _ => cancels_row,
      ⟨_, rfl, ?_, fun e => ?_⟩, rfl⟩
    · rw [List.map_map]
      exact (hids.sublist (List.filter_sublist.map _))
    · rw [List.mem_map]
      constructor
      · rintro ⟨m, hm, rfl⟩
        obtain ⟨hm, hstops⟩ := mem_stopped.1 hm
        exact ⟨m, hm, hstops, rfl⟩
      · rintro ⟨m, hm, hstops, rfl⟩
        exact ⟨m, mem_stopped.2 ⟨hm, hstops⟩, rfl⟩
  · simp only [require, ensure, hroom]
    obtain ⟨hsome, hfull⟩ := Bool.or_eq_false_iff.1 (Bool.eq_false_iff.2 hroom)
    obtain ⟨m, hm⟩ := List.exists_mem_of_ne_nil _ (List.isEmpty_eq_false_iff.1 hsome)
    obtain ⟨hm, hstops⟩ := mem_stopped.1 hm
    exact ⟨hfull, m, hm, hstops⟩

namespace Sample

/-- A queued node without a worker. -/
def top : Node := newNode spec payload 0 600 0

/-- Its child, which a worker holds until `9`. -/
def child : Node :=
  { newNode spec payload 1 600 0 with
    parent := some 0, state := .running, lease := some 7, expires := some 9 }

/-- The reviewer of the child. -/
def evaluator : Node := { newNode spec payload 2 600 0 with reviewOf := some 1 }

/-- A merged child of the reviewer. -/
def merged : Node := { newNode spec payload 3 600 0 with parent := some 2, state := .merged }

/-- A node of its own. -/
def other : Node := newNode spec payload 4 600 0

/-- The database with these nodes. -/
def family : Db := { Db.empty with nodes := [top, child, evaluator, merged, other] }

end Sample

/-- A child that a worker holds is asked to stop, its reviewer is cancelled with the root, and a
merged node is selected and stays. -/
theorem cancel_subtree_family : ∃ db' selected,
    cancel {} "owner" 0 (fun _ => 5) Sample.family = .ok (db', selected) ∧
    (∀ k, k ∈ selected ↔ Sample.family.Subtree "owner" 0 k) ∧
    Records.Rewrites (Cancels Sample.family "owner" 0 fun _ => 5) Sample.family.nodes db'.nodes ∧
    selected = [0, 1, 2, 3] ∧ db'.nodes.map (·.state) =
      [.cancelled, .cancelRequested, .cancelled, .merged, .queued] := by
  have hids : (Sample.family.nodes.map (·.id)).Nodup := by decide
  have howner : Sample.top.owner = "owner" := rfl
  have h := (cancel_subtree {} (fun _ => 5) hids (by decide) howner).2
  have hok : cancel {} "owner" Sample.top.id (fun _ => 5) Sample.family = .ok (_, _) := rfl
  rw [hok] at h
  exact ⟨_, _, hok, h.1, h.2.1, by decide, by decide⟩

/-- When the storage is full, nothing is cancelled. -/
theorem cancel_full : ¬ ∀ (env : Env) (clock : NodeId → Time) (db : Db) (n : Node),
    (db.nodes.map (·.id)).Nodup → n ∈ db.nodes →
    ∃ db' selected, cancel env n.owner n.id clock db = .ok (db', selected) ∧
      Records.Rewrites (Cancels db n.owner n.id clock) db.nodes db'.nodes := by
  intro h
  obtain ⟨db', selected, hcancel, -⟩ := h { room := false } (fun _ => 5) Sample.family Sample.top
    (by decide) (by decide)
  have hfull : (cancel { room := false } Sample.top.owner Sample.top.id (fun _ => 5)
      Sample.family).toOption.isNone = true := by decide
  rw [hcancel] at hfull
  cases hfull

end Coordinator

end PythonAI
