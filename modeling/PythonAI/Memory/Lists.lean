import PythonAI.Library.Records
import PythonAI.Library.Txn
import PythonAI.Memory.Conflicts

/-!
# The lists of memories

A memory is active, expired or archived.  The three lists read three columns, which five operations
write; `restore_semantic_memory` clears `archived_at` but not `superseded_by`, so that a memory that
was superseded is then in no list.

* `SemanticMemories.listed_iff` : **every memory stays in exactly one list exactly as long as no
  superseded memory is restored**

No row keeps the time of its archiving, so that the order of the archived memories is left out.
-/

namespace PythonAI

open Library

namespace Memory

variable {C : Type}

/-- The arguments of `add_semantic_memory` and of `update_semantic_memory`. -/
structure Fact (C : Type) where
  subject : String
  predicate : String
  /-- `object_value` -/
  object : String
  confidence : C
  memoryType : String := "fact"
  scope : String := "global"
  /-- `expires_at` -/
  expires : Option Time := none
  deriving DecidableEq, Repr

namespace SemanticMemory

/-- The row is selected by `expired_semantic_memories` at `t`. -/
def expired (t : Time) (m : SemanticMemory C) : Bool :=
  m.supersededBy.isNone && m.archived.isNone && m.expires.any (· ≤ t)

/-- The order of `expired_semantic_memories`. -/
def sooner (m m' : SemanticMemory C) : Bool :=
  toLex (m.expires.getD 0, m.id) ≤ toLex (m'.expires.getD 0, m'.id)

/-- The row that is inserted. -/
def ofFact (fact : Fact C) (t : Time) (id : ℕ) : SemanticMemory C where
  id := id
  subject := fact.subject
  predicate := fact.predicate
  object := fact.object
  memoryType := fact.memoryType
  scope := fact.scope
  confidence := fact.confidence
  updated := some t
  expires := fact.expires

end SemanticMemory

namespace SemanticMemories

/-- A new table. -/
def empty : SemanticMemories C := ⟨[], List.nodup_nil⟩

/-- `UPDATE semantic_memories SET … WHERE id = ?`. -/
def update (id : ℕ) (f : SemanticMemory C → SemanticMemory C) (hf : ∀ m, (f m).id = m.id)
    (db : SemanticMemories C) : SemanticMemories C where
  rows := db.rows.map fun m => if m.id = id then f m else m
  nodup := by
    rw [Records.map_key fun m _ => ?_]
    · exact db.nodup
    · split_ifs
      · exact hf m
      · rfl

/-- The id of the next row; no row is ever deleted. -/
def nextId (db : SemanticMemories C) : ℕ := (db.rows.map (·.id)).foldr max 0 + 1

theorem lt_nextId {db : SemanticMemories C} {m : SemanticMemory C} (hm : m ∈ db.rows) :
    m.id < db.nextId := by
  have hmax : ∀ {ids : List ℕ} {i : ℕ}, i ∈ ids → i ≤ ids.foldr max 0 := by
    intro ids
    induction ids with
    | nil => nofun
    | cons j ids ih =>
      intro i hi
      rcases List.mem_cons.1 hi with rfl | hi
      · exact le_max_left ..
      · exact (ih hi).trans (le_max_right ..)
  exact Nat.lt_succ_of_le (hmax (List.mem_map_of_mem hm))

/-- `INSERT INTO semantic_memories`. -/
def insert (fact : Fact C) (t : Time) (db : SemanticMemories C) : SemanticMemories C where
  rows := db.rows ++ [.ofFact fact t db.nextId]
  nodup := Records.nodup_append db.nodup fun _ hy => Nat.ne_of_lt (lt_nextId hy)

/-- `add_semantic_memory` at `t`; `deleted` says that the source belongs to a deleted
conversation. -/
def addSemanticMemory (deleted : Bool) (fact : Fact C) (t : Time) (db : SemanticMemories C) :
    Except Error (SemanticMemories C × ℕ) := do
  ensure (!deleted) (.permission "Deleted conversation cannot produce new memories")
  pure (db.insert fact t, db.nextId)

/-- `update_semantic_memory` at `t`. -/
def updateSemanticMemory (id : ℕ) (fact : Fact C) (t : Time) (db : SemanticMemories C) :
    SemanticMemories C × Bool :=
  (db.update id (fun m => { m with
      subject := fact.subject
      predicate := fact.predicate
      object := fact.object
      memoryType := fact.memoryType
      scope := fact.scope
      confidence := fact.confidence
      updated := some t
      expires := fact.expires }) fun _ => rfl, db.rows.any (·.id = id))

/-- `supersede_semantic_memory` at `t`; the new memory does not expire. -/
def supersedeSemanticMemory (old : ℕ) (fact : Fact C) (reason : String) (t : Time)
    (db : SemanticMemories C) : SemanticMemories C × ℕ :=
  ((db.insert { fact with expires := none } t).update old (fun m => { m with
      supersededBy := some db.nextId
      archived := some (.other reason)
      updated := some t }) fun _ => rfl, db.nextId)

/-- `restore_semantic_memory` at `t`. -/
def restoreSemanticMemory (id : ℕ) (t : Time) (db : SemanticMemories C) :
    SemanticMemories C × Bool :=
  (db.update id (fun m => { m with archived := none, updated := some t }) fun _ => rfl,
    db.rows.any (·.id = id))

/-- `expired_semantic_memories` at `t`. -/
def expiredSemanticMemories (db : SemanticMemories C) (t : Time) : List (SemanticMemory C) :=
  (db.rows.filter (·.expired t)).mergeSort SemanticMemory.sooner

/-- `archived_semantic_memories`, in some order. -/
def archivedSemanticMemories (db : SemanticMemories C) : List (SemanticMemory C) :=
  db.rows.filter (·.archived.isSome)

/-- The names of the lists. -/
inductive Listing
  | active | expired | archived
  deriving DecidableEq, Repr

/-- The three lists at `t`. -/
def list (db : SemanticMemories C) (t : Time) : Listing → List (SemanticMemory C)
  | .active => db.activeSemanticMemories t
  | .expired => db.expiredSemanticMemories t
  | .archived => db.archivedSemanticMemories

/-! ### Operations in any order -/

/-- An operation, with the time at which it is executed. -/
inductive Op (C : Type)
  | add (deleted : Bool) (fact : Fact C) (t : Time)
  | update (id : ℕ) (fact : Fact C) (t : Time)
  | archive (id : ℕ) (reason : ArchiveReason) (t : Time)
  | supersede (old : ℕ) (fact : Fact C) (reason : String) (t : Time)
  | restore (id : ℕ) (t : Time)

/-- The table after the operation. -/
def perform (db : SemanticMemories C) : Op C → SemanticMemories C
  | .add deleted fact t => settle db (db.addSemanticMemory deleted fact t)
  | .update id fact t => (db.updateSemanticMemory id fact t).1
  | .archive id reason t => db.archiveSemanticMemory id reason t
  | .supersede old fact reason t => (db.supersedeSemanticMemory old fact reason t).1
  | .restore id t => (db.restoreSemanticMemory id t).1

/-- The table after the operations. -/
def run (db : SemanticMemories C) (ops : List (Op C)) : SemanticMemories C := ops.foldl perform db

/-- The memory `id` is not superseded. -/
def Current (db : SemanticMemories C) (id : ℕ) : Prop :=
  ∀ m ∈ db.rows, m.id = id → m.supersededBy = none

/-- The operation restores no superseded memory. -/
def Spares (db : SemanticMemories C) : Op C → Prop
  | .restore id _ => db.Current id
  | _ => True

/-- No operation of the sequence restores a superseded memory. -/
def SparesAll (db : SemanticMemories C) : List (Op C) → Prop
  | [] => True
  | op :: ops => db.Spares op ∧ (db.perform op).SparesAll ops

/-! ### One row -/

variable {db db' : SemanticMemories C} {m : SemanticMemory C} {t : Time} {op : Op C}
  {ops : List (Op C)}

/-- A superseded memory is archived. -/
def Kept (m : SemanticMemory C) : Prop := m.supersededBy = none ∨ m.archived ≠ none

theorem mem_list_active : m ∈ db.list t .active ↔ m ∈ db.rows ∧ m.supersededBy = none ∧
    m.archived = none ∧ ∀ e, m.expires = some e → t < e := by
  rw [list, mem_active, SemanticMemory.active]
  cases m.expires <;> simp [and_assoc]

theorem mem_list_expired : m ∈ db.list t .expired ↔ m ∈ db.rows ∧ m.supersededBy = none ∧
    m.archived = none ∧ ∃ e, m.expires = some e ∧ e ≤ t := by
  rw [list, expiredSemanticMemories, List.mem_mergeSort, List.mem_filter, SemanticMemory.expired]
  cases m.expires <;> simp [and_assoc]

theorem mem_list_archived : m ∈ db.list t .archived ↔ m ∈ db.rows ∧ m.archived ≠ none := by
  rw [list, archivedSemanticMemories, List.mem_filter, Option.isSome_iff_ne_none]

/-- A row is active or expired exactly if it is neither superseded nor archived. -/
theorem listed_open (hm : m ∈ db.rows) : (m ∈ db.list t .active ∨ m ∈ db.list t .expired) ↔
    m.supersededBy = none ∧ m.archived = none := by
  rw [mem_list_active, mem_list_expired]
  constructor
  · rintro (⟨-, hs, ha, -⟩ | ⟨-, hs, ha, -⟩) <;> exact ⟨hs, ha⟩
  · rintro ⟨hs, ha⟩
    by_cases hlive : ∀ e, m.expires = some e → t < e
    · exact .inl ⟨hm, hs, ha, hlive⟩
    · push Not at hlive
      exact .inr ⟨hm, hs, ha, hlive⟩

theorem Kept.of_listed {l : Listing} (hl : m ∈ db.list t l) : Kept m := by
  cases l with
  | active => exact .inl (mem_list_active.1 hl).2.1
  | expired => exact .inl (mem_list_expired.1 hl).2.1
  | archived => exact .inr (mem_list_archived.1 hl).2

/-- A row is in exactly one list exactly if it is kept. -/
theorem listed_once (hm : m ∈ db.rows) : (∃! l, m ∈ db.list t l) ↔ Kept m := by
  constructor
  · rintro ⟨l, hl, -⟩
    exact .of_listed hl
  · intro hkept
    by_cases ha : m.archived = none
    · have hs := hkept.resolve_right (not_not_intro ha)
      have hnot : m ∉ db.list t .archived := fun h => (mem_list_archived.1 h).2 ha
      rcases (listed_open (t := t) hm).2 ⟨hs, ha⟩ with hl | hl
      · refine ⟨.active, hl, fun l h => ?_⟩
        cases l with
        | active => rfl
        | expired =>
          obtain ⟨-, -, -, e, he, hle⟩ := mem_list_expired.1 h
          exact absurd ((mem_list_active.1 hl).2.2.2 e he) (not_lt.2 hle)
        | archived => exact absurd h hnot
      · refine ⟨.expired, hl, fun l h => ?_⟩
        cases l with
        | active =>
          obtain ⟨-, -, -, e, he, hle⟩ := mem_list_expired.1 hl
          exact absurd ((mem_list_active.1 h).2.2.2 e he) (not_lt.2 hle)
        | expired => rfl
        | archived => exact absurd h hnot
    · refine ⟨.archived, mem_list_archived.2 ⟨hm, ha⟩, fun l h => ?_⟩
      cases l with
      | active => exact absurd (mem_list_active.1 h).2.2.1 ha
      | expired => exact absurd (mem_list_expired.1 h).2.2.1 ha
      | archived => rfl

/-! ### The invariant -/

/-- Every memory is kept. -/
def AllKept (db : SemanticMemories C) : Prop := ∀ m ∈ db.rows, Kept m

theorem mem_update {id : ℕ} {f : SemanticMemory C → SemanticMemory C}
    (hrows : db'.rows = db.rows.map fun m => if m.id = id then f m else m) (hm : m ∈ db'.rows) :
    ∃ m₀ ∈ db.rows, m₀.id = id ∧ m = f m₀ ∨ m ∈ db.rows ∧ m.id ≠ id := by
  obtain ⟨m₀, hm₀, rfl⟩ := List.mem_map.1 (hrows ▸ hm)
  refine ⟨m₀, hm₀, ?_⟩
  split_ifs with hid
  · exact .inl ⟨hid, rfl⟩
  · exact .inr ⟨hm₀, hid⟩

theorem AllKept.update {id : ℕ} {f : SemanticMemory C → SemanticMemory C} (h : db.AllKept)
    (hrows : db'.rows = db.rows.map fun m => if m.id = id then f m else m)
    (hkept : ∀ m ∈ db.rows, m.id = id → Kept m → Kept (f m)) : db'.AllKept := by
  intro m hm
  obtain ⟨m₀, hm₀, ⟨hid, rfl⟩ | ⟨hmem, -⟩⟩ := mem_update hrows hm
  · exact hkept m₀ hm₀ hid (h m₀ hm₀)
  · exact h m hmem

theorem AllKept.insert (fact : Fact C) (t : Time) (h : db.AllKept) :
    (db.insert fact t).AllKept := by
  intro m hm
  rcases List.mem_append.1 hm with hm | hm
  · exact h m hm
  · rw [List.mem_singleton.1 hm]
    exact .inl rfl

/-- An operation that restores no superseded memory keeps the invariant. -/
theorem AllKept.perform (h : db.AllKept) (hs : db.Spares op) : (db.perform op).AllKept := by
  cases op with
  | add deleted fact t =>
    refine settle_of (P := AllKept) h fun db' out hadd => ?_
    simp only [addSemanticMemory, bind_eq_ok, pure_eq_ok, Prod.mk.injEq] at hadd
    obtain ⟨-, -, rfl, -⟩ := hadd
    exact h.insert fact t
  | update id fact t => exact h.update rfl fun _ _ _ hk => hk
  | archive id reason t =>
    intro m hm
    obtain ⟨m₀, hm₀, rfl⟩ := List.mem_map.1 hm
    split_ifs
    · exact .inr fun h => by cases h
    · exact h m₀ hm₀
  | supersede old fact reason t =>
    refine AllKept.update (h.insert { fact with expires := none } t) rfl ?_
    intro _ _ _ _
    exact .inr (Option.some_ne_none _)
  | restore id t => exact h.update rfl fun m hm hid _ => .inl (hs m hm hid)

/-- A superseded memory that is restored is in no list. -/
theorem spares_of_kept (h : (db.perform op).AllKept) : db.Spares op := by
  cases op with
  | restore id t =>
    intro m hm hid
    have hmem : { m with archived := none, updated := some t } ∈ (db.perform (.restore id t)).rows :=
      List.mem_map.2 ⟨m, hm, if_pos hid⟩
    exact (h _ hmem).resolve_right (not_not_intro rfl)
  | _ => trivial

theorem kept_run : (∀ pre, pre <+: ops → (db.run pre).AllKept) ↔
    db.AllKept ∧ db.SparesAll ops := by
  induction ops generalizing db with
  | nil =>
    constructor
    · intro h
      exact ⟨h [] List.nil_prefix, trivial⟩
    · rintro ⟨h, -⟩ pre hpre
      rw [List.prefix_nil.1 hpre]
      exact h
  | cons op ops ih =>
    constructor
    · intro h
      have hfirst : (db.perform op).AllKept := h [op] (List.cons_prefix_cons.2 ⟨rfl, List.nil_prefix⟩)
      refine ⟨h [] List.nil_prefix, spares_of_kept hfirst, (ih.1 fun pre hpre => ?_).2⟩
      exact h (op :: pre) (List.cons_prefix_cons.2 ⟨rfl, hpre⟩)
    · rintro ⟨h, hs, hall⟩ pre hpre
      cases pre with
      | nil => exact h
      | cons op' pre =>
        obtain ⟨rfl, hrest⟩ := List.cons_prefix_cons.1 hpre
        exact ih.2 ⟨h.perform hs, hall⟩ pre hrest

/-- The memory `id` is in the list of active or in that of expired memories. -/
def Shows (db : SemanticMemories C) (t : Time) (id : ℕ) : Prop :=
  ∃ m ∈ db.rows, m.id = id ∧ (m ∈ db.list t .active ∨ m ∈ db.list t .expired)

/-- A memory that was restored shows exactly if it was not superseded. -/
theorem shows_restore {id : ℕ} {t' : Time} (h : (db.restoreSemanticMemory id t').2 = true) :
    (db.restoreSemanticMemory id t').1.Shows t id ↔ db.Current id := by
  obtain ⟨m, hm, hid⟩ := List.any_eq_true.1 h
  have hid' : m.id = id := of_decide_eq_true hid
  have hsame : ∀ x ∈ db.rows, x.id = id → x = m := fun x hx hxid =>
    List.inj_on_of_nodup_map db.nodup hx hm (hxid.trans hid'.symm)
  constructor
  · rintro ⟨x, hx, hxid, hopen⟩ y hy hyid
    obtain ⟨x₀, hx₀, ⟨hid₀, rfl⟩ | ⟨-, hne⟩⟩ := mem_update rfl hx
    · rw [hsame y hy hyid, ← hsame x₀ hx₀ hid₀]
      exact ((listed_open hx).1 hopen).1
    · exact absurd hxid hne
  · intro hcurrent
    have hmem : { m with archived := none, updated := some t' } ∈
        (db.restoreSemanticMemory id t').1.rows := List.mem_map.2 ⟨m, hm, if_pos hid'⟩
    exact ⟨_, hmem, hid', (listed_open hmem).2 ⟨hcurrent m hm hid', rfl⟩⟩

/-- **Every memory is listed somewhere.**  In all states of a run from a new table every memory is
in exactly one list, at any time, exactly if the run restores no superseded memory; and a memory that
is restored is then active or expired exactly if it was not superseded. -/
theorem listed_iff (ops : List (Op C)) :
    ((∀ pre, pre <+: ops → ∀ t, ∀ m ∈ (empty.run pre).rows, ∃! l, m ∈ (empty.run pre).list t l) ↔
      empty.SparesAll ops) ∧
    ∀ id t t', ((empty.run ops).restoreSemanticMemory id t').2 = true →
      (((empty.run ops).restoreSemanticMemory id t').1.Shows t id ↔ (empty.run ops).Current id) := by
  refine ⟨?_, fun id t t' h => shows_restore h⟩
  have hempty : (empty : SemanticMemories C).AllKept := fun m hm => nomatch hm
  refine Iff.trans ?_ (kept_run.trans (and_iff_right hempty))
  refine forall₂_congr fun pre _ => ?_
  constructor
  · intro h m hm
    exact (listed_once hm).1 (h 0 m hm)
  · intro h t m hm
    exact (listed_once hm).2 (h m hm)

namespace Sample

/-- A fact. -/
def fact (object : String) : Fact ℕ :=
  { subject := "user", predicate := "likes", object := object, confidence := 1 }

/-- A memory is superseded and then restored. -/
def story : List (Op ℕ) :=
  [.add false (fact "tea") 1, .supersede 1 (fact "coffee") "superseded" 2, .restore 1 3]

/-- The memory that was superseded, after the restore. -/
def lost : SemanticMemory ℕ :=
  { SemanticMemory.ofFact (fact "tea") 3 1 with supersededBy := some 2 }

end Sample

/-- The memory that was restored is in no list. -/
theorem restored_unlisted :
    ((empty.run (Sample.story.take 2)).restoreSemanticMemory 1 3).2 = true ∧
    Sample.lost ∈ (empty.run Sample.story).rows ∧
    (∀ l, Sample.lost ∉ (empty.run Sample.story).list 3 l) ∧
    ¬ (empty.run Sample.story).Shows 3 1 := by
  have hmem : Sample.lost ∈ (empty.run Sample.story).rows := by decide
  have hnot : ¬ Kept Sample.lost := by
    rintro (h | h)
    · exact absurd h (by decide)
    · exact h rfl
  refine ⟨by decide, hmem, fun l hl => hnot (.of_listed hl), ?_⟩
  rintro ⟨m, hm, hid, hopen⟩
  have hlost : m = Sample.lost :=
    List.inj_on_of_nodup_map (empty.run Sample.story).nodup hm hmem hid
  rw [hlost] at hm hopen
  exact hnot (.inl ((listed_open hm).1 hopen).1)

end SemanticMemories

end Memory

end PythonAI
