import Mathlib.Data.Finset.Card
import Mathlib.Data.List.Nodup
import Mathlib.Data.Prod.Lex
import PythonAI.Library.Groups
import PythonAI.Tasks.Types

/-!
# Contradictory memories

`resolve_conflicts` archives the memories of a subject and a predicate that differ from the
*winner*, the memory with the highest rank.  `safe_candidates` leaves out of a prompt the memories
that it calls contradicted: those with another object for the same subject, predicate and scope,
where the predicate is one with a single value.

The first one looks neither at the scope nor at the predicate.

* `SemanticMemories.conflicts_agree` : **the condition under which the two agree**
* `SemanticMemories.conflicts_disagree` : a fact with several values is archived

A `REAL` column has values in a type `C` with an order and a subtraction of which nothing else is
assumed, so that the results hold for floating-point numbers.
-/

namespace PythonAI

open Library

namespace Memory

variable {C : Type*}

/-- `semantic_memories.archive_reason`. -/
inductive ArchiveReason
  | conflictsWith (winner : ℕ)
  /-- another text -/
  | other (text : String)
  deriving DecidableEq, Repr

/-- The text of a reason. -/
def ArchiveReason.text : ArchiveReason → String
  | conflictsWith winner => s!"conflicts_with:{winner}"
  | other text => text

/-- A row of `semantic_memories`. -/
structure SemanticMemory (C : Type*) where
  id : ℕ
  subject : String
  predicate : String
  object : String
  memoryType : String := "fact"
  scope : String := "global"
  confidence : C
  /-- `updated_at`, if the text is a date -/
  updated : Option Time
  /-- `expires_at` -/
  expires : Option Time := none
  supersededBy : Option ℕ := none
  /-- `archive_reason` of a row with an `archived_at` -/
  archived : Option ArchiveReason := none
  deriving DecidableEq, Repr

/-- The table `semantic_memories`. -/
structure SemanticMemories (C : Type*) where
  /-- the rows -/
  rows : List (SemanticMemory C)
  /-- `id` is the primary key -/
  nodup : (rows.map (·.id)).Nodup

/-- `ForgettingPolicyConfig`. -/
structure ForgettingPolicyConfig (C : Type*) where
  semanticConflictMargin : C

namespace SemanticMemory

/-- The row is selected by `active_semantic_memories` at `t`. -/
def active (t : Time) (m : SemanticMemory C) : Bool :=
  m.supersededBy.isNone && m.archived.isNone && m.expires.all (t < ·)

/-- The order of `active_semantic_memories`. -/
def newer (m m' : SemanticMemory C) : Bool :=
  toLex (m'.updated.getD 0, m'.id) ≤ toLex (m.updated.getD 0, m.id)

/-- The key by which `resolve_conflicts` groups. -/
def subjectKey (m : SemanticMemory C) : String × String := (m.subject, m.predicate)

/-- The key by which `safe_candidates` groups. -/
def scopeKey (m : SemanticMemory C) : String × String × String := (m.subject, m.predicate, m.scope)

/-- The key by which `choose_conflict_winner` sorts. -/
def rank (m : SemanticMemory C) : C ×ₗ Time ×ₗ ℕ :=
  toLex (m.confidence, toLex (m.updated.getD 0, m.id))

end SemanticMemory

/-! ### `forgetting` -/

section

variable [LinearOrder C] [Sub C]

/-- `choose_conflict_winner`. -/
def chooseConflictWinner (memories : List (SemanticMemory C)) : Option (SemanticMemory C) :=
  (memories.mergeSort fun m m' => m'.rank ≤ m.rank).head?

/-- The memory is archived when `winner` has won. -/
def loses (policy : ForgettingPolicyConfig C) (winner m : SemanticMemory C) : Bool :=
  m.id ≠ winner.id &&
    (policy.semanticConflictMargin ≤ winner.confidence - m.confidence || m.object ≠ winner.object)

/-- The memories of a group that are archived, each with the winner. -/
def losers (policy : ForgettingPolicyConfig C) (memories : List (SemanticMemory C)) :
    List (SemanticMemory C × SemanticMemory C) :=
  if memories.length < 2 then []
  else match chooseConflictWinner memories with
    | none => []
    | some winner => (memories.filter (loses policy winner)).map fun m => (m, winner)

/-- The memories that `resolve_conflicts` archives among `memories`, each with the winner. -/
def conflicts (policy : ForgettingPolicyConfig C) (memories : List (SemanticMemory C)) :
    List (SemanticMemory C × SemanticMemory C) :=
  (Groups.of SemanticMemory.subjectKey memories).flatMap fun g => losers policy g.2

namespace SemanticMemories

omit [LinearOrder C] [Sub C] in
/-- `active_semantic_memories` at `t`. -/
def activeSemanticMemories (db : SemanticMemories C) (t : Time) : List (SemanticMemory C) :=
  (db.rows.filter (·.active t)).mergeSort SemanticMemory.newer

omit [LinearOrder C] [Sub C] in
/-- `archive_semantic_memory` at `t`. -/
def archiveSemanticMemory (id : ℕ) (reason : ArchiveReason) (t : Time) (db : SemanticMemories C) :
    SemanticMemories C where
  rows := db.rows.map fun m =>
    if m.id = id then { m with archived := some reason, updated := some t } else m
  nodup := by
    rw [List.map_map]
    refine (List.map_congr_left fun m _ => ?_).symm ▸ db.nodup
    simp only [Function.comp]
    split_ifs <;> rfl

/-- `resolve_conflicts` at `t`. -/
def resolveConflicts (policy : ForgettingPolicyConfig C) (t : Time) (db : SemanticMemories C) :
    SemanticMemories C × ℕ :=
  let cs := conflicts policy (db.activeSemanticMemories t)
  (cs.foldl (fun db c => db.archiveSemanticMemory c.1.id (.conflictsWith c.2.id) t) db, cs.length)

end SemanticMemories

end

/-! ### `retrieval` -/

/-- The predicates with a single value. -/
def single : List String :=
  ["prefers_language", "timezone", "primary_language", "prefers_editor", "current_role",
    "active_project", "version"]

/-- The memories of each subject, predicate and scope, where the predicate has a single value. -/
def singleGroups (memories : List (SemanticMemory C)) :
    List ((String × String × String) × List (SemanticMemory C)) :=
  Groups.of SemanticMemory.scopeKey (memories.filter (·.predicate ∈ single))

/-- The group of the memory does not have exactly one object. -/
def contradicted (memories : List (SemanticMemory C)) (m : SemanticMemory C) : Bool :=
  (((Groups.get m.scopeKey (singleGroups memories)).getD [m]).map (·.object)).toFinset.card ≠ 1

/-- `safe_candidates`. -/
def safeCandidates (memories : List (SemanticMemory C)) : List (SemanticMemory C) :=
  memories.filter fun m => m.memoryType ≠ "agent_persona" && !contradicted memories m

/-! ### What `safe_candidates` calls contradicted -/

section

variable {ms : List (SemanticMemory C)} {m x : SemanticMemory C}

/-- Another memory has another object for the same subject, predicate and scope. -/
theorem contradicted_iff (hm : m ∈ ms) : contradicted ms m = true ↔
    m.predicate ∈ single ∧ ∃ x ∈ ms, x.scopeKey = m.scopeKey ∧ x.object ≠ m.object := by
  have hget : Groups.get m.scopeKey (singleGroups ms) =
      if (ms.filter (·.predicate ∈ single)).filter (·.scopeKey = m.scopeKey) = [] then none
      else some ((ms.filter (·.predicate ∈ single)).filter (·.scopeKey = m.scopeKey)) :=
    Groups.get_of
  rw [contradicted, decide_eq_true_iff, hget]
  by_cases hp : m.predicate ∈ single
  · have hgroup : m ∈ (ms.filter (·.predicate ∈ single)).filter (·.scopeKey = m.scopeKey) := by
      simp [hm, hp]
    rw [if_neg (List.ne_nil_of_mem hgroup), Option.getD_some, ← not_iff_not, not_not,
      Finset.card_eq_one]
    constructor
    · rintro ⟨o, ho⟩ ⟨-, x, hx, hkey, hobj⟩
      have hpx : x.predicate ∈ single := by
        rwa [show x.predicate = m.predicate from congrArg (·.2.1) hkey]
      have hin : ∀ y ∈ (ms.filter (·.predicate ∈ single)).filter (·.scopeKey = m.scopeKey),
          y.object = o := fun y hy =>
        Finset.mem_singleton.1 (ho ▸ List.mem_toFinset.2 (List.mem_map_of_mem hy))
      exact hobj ((hin x (by simp [hx, hpx, hkey])).trans (hin m hgroup).symm)
    · intro hno
      refine ⟨m.object, Finset.eq_singleton_iff_unique_mem.2
        ⟨List.mem_toFinset.2 (List.mem_map_of_mem hgroup), fun o ho => ?_⟩⟩
      obtain ⟨x, hx, rfl⟩ := List.mem_map.1 (List.mem_toFinset.1 ho)
      simp only [List.mem_filter, decide_eq_true_eq] at hx
      by_contra hne
      exact hno ⟨hp, x, hx.1.1, hx.2, hne⟩
  · have hnil : (ms.filter (·.predicate ∈ single)).filter (·.scopeKey = m.scopeKey) = [] := by
      refine List.filter_eq_nil_iff.2 fun x hx hkey => hp ?_
      rw [show m.predicate = x.predicate from (congrArg (·.2.1) (of_decide_eq_true hkey)).symm]
      simpa using (List.mem_filter.1 hx).2
    simp [hnil, hp]

end

/-! ### What `resolve_conflicts` archives -/

section

variable [LinearOrder C] [Sub C] {policy : ForgettingPolicyConfig C}
  {ms : List (SemanticMemory C)} {m w : SemanticMemory C}

omit [Sub C] in
/-- Every other memory is ranked below the winner. -/
theorem winner_max (h : chooseConflictWinner ms = some w) : w ∈ ms ∧ ∀ x ∈ ms, x.rank ≤ w.rank := by
  have htrans : ∀ a b c : SemanticMemory C, decide (b.rank ≤ a.rank) → decide (c.rank ≤ b.rank) →
      decide (c.rank ≤ a.rank) := by
    intro a b c hab hbc
    simp only [decide_eq_true_eq] at *
    exact hbc.trans hab
  have htotal : ∀ a b : SemanticMemory C, decide (b.rank ≤ a.rank) || decide (a.rank ≤ b.rank) := by
    intro a b
    simpa using le_total b.rank a.rank
  have hperm := List.mergeSort_perm ms fun m m' => decide (m'.rank ≤ m.rank)
  have hsorted := List.pairwise_mergeSort htrans htotal ms
  unfold chooseConflictWinner at h
  cases hs : ms.mergeSort fun m m' => decide (m'.rank ≤ m.rank) with
  | nil => simp [hs] at h
  | cons y ys =>
    rw [hs] at h hperm hsorted
    obtain rfl : y = w := by simpa using h
    refine ⟨hperm.subset List.mem_cons_self, fun x hx => ?_⟩
    rcases List.mem_cons.1 (hperm.symm.subset hx) with rfl | hmem
    · exact le_rfl
    · simpa using List.rel_of_pairwise_cons hsorted hmem

omit [Sub C] in
theorem winner_exists (hm : m ∈ ms) : ∃ w, chooseConflictWinner ms = some w := by
  cases hw : chooseConflictWinner ms with
  | some w => exact ⟨w, rfl⟩
  | none =>
    have hperm := List.mergeSort_perm ms fun m m' => decide (m'.rank ≤ m.rank)
    rw [show ms.mergeSort (fun m m' => decide (m'.rank ≤ m.rank)) = [] by
      simpa [chooseConflictWinner] using hw] at hperm
    cases hperm.symm.subset hm

omit [Sub C] in
/-- The winner is the memory with the highest rank. -/
theorem winner_iff (hn : (ms.map (·.id)).Nodup) :
    chooseConflictWinner ms = some w ↔ w ∈ ms ∧ ∀ x ∈ ms, x.rank ≤ w.rank := by
  refine ⟨winner_max, fun ⟨hw, hmax⟩ => ?_⟩
  obtain ⟨v, hv⟩ := winner_exists hw
  obtain ⟨hmem, hmaxv⟩ := winner_max hv
  have hrank : v.rank = w.rank := le_antisymm (hmax v hmem) (hmaxv w hw)
  have hid : v.id = w.id := congrArg (fun r => (ofLex (ofLex r).2).2) hrank
  rw [hv, List.inj_on_of_nodup_map hn hmem hw hid]

/-- `w` has the highest rank among the memories with its subject and predicate. -/
def Wins (ms : List (SemanticMemory C)) (w : SemanticMemory C) : Prop :=
  w ∈ ms ∧ ∀ x ∈ ms, x.subjectKey = w.subjectKey → x.rank ≤ w.rank

theorem mem_losers : (m, w) ∈ losers policy ms ↔
    chooseConflictWinner ms = some w ∧ m ∈ ms ∧ loses policy w m = true := by
  constructor
  · intro h
    by_cases hlen : ms.length < 2
    · simp [losers, hlen] at h
    · rw [losers, if_neg hlen] at h
      cases hw : chooseConflictWinner ms with
      | none => simp [hw] at h
      | some v =>
        obtain ⟨x, hx, heq⟩ := List.mem_map.1 (by simpa only [hw] using h)
        cases heq
        exact ⟨rfl, List.mem_filter.1 hx⟩
  · rintro ⟨hw, hm, hl⟩
    have hlen : ¬ ms.length < 2 := by
      have hmem := (winner_max hw).1
      have hne : m.id ≠ w.id := by
        simp only [loses, Bool.and_eq_true, decide_eq_true_eq] at hl
        exact hl.1
      match ms, hm, hmem with
      | [x], hm, hmem =>
        rw [List.mem_singleton.1 hm, List.mem_singleton.1 hmem] at hne
        exact absurd rfl hne
      | _ :: _ :: _, _, _ => simp
    rw [losers, if_neg hlen]
    simp only [hw]
    exact List.mem_map.2 ⟨m, List.mem_filter.2 ⟨hm, hl⟩, rfl⟩

/-- The memories that are archived, each with the winner. -/
theorem mem_conflicts (hn : (ms.map (·.id)).Nodup) : (m, w) ∈ conflicts policy ms ↔
    m ∈ ms ∧ Wins ms w ∧ m.subjectKey = w.subjectKey ∧ loses policy w m = true := by
  have hgroup : ∀ k, ((ms.filter (·.subjectKey = k)).map (·.id)).Nodup := fun k =>
    hn.sublist (List.filter_sublist.map _)
  constructor
  · intro h
    obtain ⟨g, hg, hm⟩ := List.mem_flatMap.1 h
    obtain ⟨hw, hm, hl⟩ := mem_losers.1 hm
    rw [(Groups.mem_of.1 hg).1] at hw hm
    obtain ⟨hwin, hmax⟩ := (winner_iff (hgroup g.1)).1 hw
    simp only [List.mem_filter, decide_eq_true_eq] at hm hwin hmax
    refine ⟨hm.1, ⟨hwin.1, fun x hx hk => hmax x ⟨hx, hk.trans hwin.2⟩⟩, ?_, hl⟩
    rw [hm.2, hwin.2]
  · rintro ⟨hm, ⟨hw, hmax⟩, hk, hl⟩
    have hmem : m ∈ ms.filter (·.subjectKey = w.subjectKey) := by simp [hm, hk]
    refine List.mem_flatMap.2 ⟨(w.subjectKey, ms.filter (·.subjectKey = w.subjectKey)),
      Groups.mem_of.2 ⟨rfl, List.ne_nil_of_mem hmem⟩, mem_losers.2 ⟨?_, hmem, hl⟩⟩
    refine (winner_iff (hgroup _)).2 ⟨by simp [hw], fun x hx => ?_⟩
    simp only [List.mem_filter, decide_eq_true_eq] at hx
    exact hmax x hx.1 hx.2

namespace SemanticMemories

variable {db : SemanticMemories C} {t : Time} {cs : List (SemanticMemory C × SemanticMemory C)}

/-! ### The rows -/

omit [LinearOrder C] [Sub C] in
theorem mem_active : m ∈ db.activeSemanticMemories t ↔ m ∈ db.rows ∧ m.active t = true := by
  rw [activeSemanticMemories, List.mem_mergeSort, List.mem_filter]

omit [LinearOrder C] [Sub C] in
theorem active_nodup : ((db.activeSemanticMemories t).map (·.id)).Nodup :=
  (List.Perm.nodup_iff ((List.mergeSort_perm _ _).map _)).2
    (db.nodup.sublist (List.filter_sublist.map _))

omit [LinearOrder C] [Sub C] in
theorem eq_of_active {x : SemanticMemory C} (hm : m ∈ db.activeSemanticMemories t)
    (hx : x ∈ db.activeSemanticMemories t) (h : m.id = x.id) : m = x :=
  List.inj_on_of_nodup_map active_nodup hm hx h

/-- The archivings of `cs`, one after the other. -/
def archiveAll (cs : List (SemanticMemory C × SemanticMemory C)) (t : Time)
    (db : SemanticMemories C) : SemanticMemories C :=
  cs.foldl (fun db c => db.archiveSemanticMemory c.1.id (.conflictsWith c.2.id) t) db

omit [LinearOrder C] [Sub C] in
theorem archiveAll_append {c : SemanticMemory C × SemanticMemory C} :
    archiveAll (cs ++ [c]) t db =
      (archiveAll cs t db).archiveSemanticMemory c.1.id (.conflictsWith c.2.id) t := by
  rw [archiveAll, List.foldl_append]
  rfl

omit [LinearOrder C] [Sub C] in
/-- A row is as it was, or archived. -/
theorem mem_archiveAll {m' : SemanticMemory C} (h : m' ∈ (archiveAll cs t db).rows) :
    ∃ m ∈ db.rows, m'.id = m.id ∧
      (m' = m ∨ ∃ c ∈ cs, c.1.id = m.id ∧ m'.archived = some (.conflictsWith c.2.id)) := by
  induction cs using List.reverseRecOn generalizing m' with
  | nil => exact ⟨m', h, rfl, .inl rfl⟩
  | append_singleton cs c ih =>
    rw [archiveAll_append] at h
    obtain ⟨x, hx, rfl⟩ := List.mem_map.1 h
    obtain ⟨m, hm, hid, hcase⟩ := ih hx
    by_cases hc : x.id = c.1.id
    · rw [if_pos hc]
      exact ⟨m, hm, hid, .inr ⟨c, by simp, hc.symm.trans hid, rfl⟩⟩
    · rw [if_neg hc]
      refine ⟨m, hm, hid, hcase.imp_right ?_⟩
      rintro ⟨c', hc', hcid, har⟩
      exact ⟨c', List.mem_append_left _ hc', hcid, har⟩

omit [LinearOrder C] [Sub C] in
/-- Each memory of `cs` is archived. -/
theorem archived_of_mem {c : SemanticMemory C × SemanticMemory C} (hc : c ∈ cs) (hm : m ∈ db.rows)
    (hid : c.1.id = m.id) : ∃ m' ∈ (archiveAll cs t db).rows, m'.id = m.id ∧
      ∃ c' ∈ cs, c'.1.id = m.id ∧ m'.archived = some (.conflictsWith c'.2.id) := by
  induction cs using List.reverseRecOn with
  | nil => cases hc
  | append_singleton cs d ih =>
    rw [archiveAll_append]
    by_cases hd : d.1.id = m.id
    · obtain ⟨m', hm', hid'⟩ : ∃ m' ∈ (archiveAll cs t db).rows, m'.id = m.id := by
        clear ih hc
        induction cs using List.reverseRecOn with
        | nil => exact ⟨m, hm, rfl⟩
        | append_singleton cs e ih =>
          obtain ⟨m', hm', hid'⟩ := ih
          rw [archiveAll_append]
          refine ⟨_, List.mem_map_of_mem hm', ?_⟩
          split_ifs <;> exact hid'
      refine ⟨_, List.mem_map_of_mem hm', ?_⟩
      rw [if_pos (hid'.trans hd.symm)]
      exact ⟨hid', d, by simp, hd, rfl⟩
    · have hold : c ∈ cs := by
        rcases List.mem_append.1 hc with h | h
        · exact h
        · rw [List.mem_singleton.1 h] at hid
          exact absurd hid hd
      obtain ⟨m', hm', hid', c', hc', hcid, har⟩ := ih hold
      refine ⟨_, List.mem_map_of_mem hm', ?_⟩
      rw [if_neg fun h => hd (h.symm.trans hid')]
      exact ⟨hid', c', List.mem_append_left _ hc', hcid, har⟩

/-! ### The condition -/

/-- The two treatments agree at `t`: a memory that `resolve_conflicts` archives because of a
memory `w` has a predicate with a single value and the scope of `w`; and if `w` has another object,
it is one that `safe_candidates` excludes as contradicted. -/
def Agrees (policy : ForgettingPolicyConfig C) (t : Time) (db : SemanticMemories C) : Prop :=
  ∀ m ∈ db.activeSemanticMemories t, ∀ m' ∈ (resolveConflicts policy t db).1.rows, m'.id = m.id →
    ∀ winner, m'.archived = some (.conflictsWith winner) →
      ∃ w ∈ db.activeSemanticMemories t, w.id = winner ∧
        m.predicate ∈ single ∧ m.scope = w.scope ∧
        (m.object ≠ w.object → contradicted (db.activeSemanticMemories t) m = true ∧
          ∃ x ∈ db.activeSemanticMemories t, x.scopeKey = m.scopeKey ∧ x.object ≠ m.object)

/-- A memory that differs from the memory with the highest rank for its subject and predicate, in
the object or by the margin in the confidence, has a predicate with a single value and the same
scope. -/
def Separate (policy : ForgettingPolicyConfig C) (ms : List (SemanticMemory C)) : Prop :=
  ∀ m ∈ ms, ∀ w, Wins ms w → m.subjectKey = w.subjectKey → loses policy w m = true →
    m.predicate ∈ single ∧ m.scope = w.scope

theorem Agrees.separate (h : Agrees policy t db) :
    Separate policy (db.activeSemanticMemories t) := by
  intro m hm w hwin hk hl
  have hc : (m, w) ∈ conflicts policy (db.activeSemanticMemories t) :=
    (mem_conflicts active_nodup).2 ⟨hm, hwin, hk, hl⟩
  obtain ⟨m', hm', hid, c, hc', hcid, har⟩ := archived_of_mem (t := t) hc (mem_active.1 hm).1 rfl
  obtain ⟨hcm, hcwin, hck, -⟩ := (mem_conflicts (m := c.1) (w := c.2) active_nodup).1 hc'
  obtain rfl : c.1 = m := eq_of_active hcm hm hcid
  have hrank : c.2.rank = w.rank :=
    le_antisymm (hwin.2 _ hcwin.1 (hck.symm.trans hk)) (hcwin.2 _ hwin.1 (hk.symm.trans hck))
  obtain ⟨v, hv, hvid, hsingle, hscope, -⟩ := h _ hm m' hm' hid _ har
  have hwid : c.2.id = w.id := congrArg (fun r => (ofLex (ofLex r).2).2) hrank
  rw [eq_of_active hv hwin.1 (hvid.trans hwid)] at hscope
  exact ⟨hsingle, hscope⟩

theorem Separate.agrees (h : Separate policy (db.activeSemanticMemories t)) :
    Agrees policy t db := by
  intro m hm m' hm' hid winner har
  obtain ⟨x, hx, hxid, hcase⟩ := mem_archiveAll hm'
  obtain rfl : x = m :=
    List.inj_on_of_nodup_map db.nodup hx (mem_active.1 hm).1 (hxid.symm.trans hid)
  rcases hcase with rfl | ⟨c, hc, hcid, harc⟩
  · have hnone := (mem_active.1 hm).2
    simp [SemanticMemory.active, har] at hnone
  · obtain ⟨hcm, hwin, hk, hl⟩ := (mem_conflicts (m := c.1) (w := c.2) active_nodup).1 hc
    obtain rfl : c.1 = x := eq_of_active hcm hm hcid
    obtain ⟨hsingle, hscope⟩ := h _ hcm c.2 hwin hk hl
    have hwid : c.2.id = winner := by
      rw [harc, Option.some.injEq, ArchiveReason.conflictsWith.injEq] at har
      exact har
    have hscopeKey : c.2.scopeKey = c.1.scopeKey := by
      have hsubject : c.1.subject = c.2.subject := congrArg (·.1) hk
      have hpredicate : c.1.predicate = c.2.predicate := congrArg (·.2) hk
      rw [SemanticMemory.scopeKey, SemanticMemory.scopeKey, hsubject, hpredicate, hscope]
    have hother : c.1.object ≠ c.2.object →
        ∃ x ∈ db.activeSemanticMemories t, x.scopeKey = c.1.scopeKey ∧ x.object ≠ c.1.object :=
      fun hne => ⟨c.2, hwin.1, hscopeKey, hne.symm⟩
    exact ⟨c.2, hwin.1, hwid, hsingle, hscope, fun hne =>
      ⟨(contradicted_iff hcm).2 ⟨hsingle, hother hne⟩, hother hne⟩⟩

/-- **The two treatments of contradictory memories agree** if and only if no memory differs from
the one with the highest rank in another scope, or for a predicate with several values. -/
theorem conflicts_agree (policy : ForgettingPolicyConfig C) (t : Time) (db : SemanticMemories C) :
    Agrees policy t db ↔ Separate policy (db.activeSemanticMemories t) :=
  ⟨Agrees.separate, Separate.agrees⟩

namespace Sample

/-- The user likes tea. -/
def tea : SemanticMemory ℕ :=
  { id := 1, subject := "user", predicate := "likes", object := "tea", confidence := 4
    updated := some 0 }

/-- The user likes coffee. -/
def coffee : SemanticMemory ℕ :=
  { id := 2, subject := "user", predicate := "likes", object := "coffee", confidence := 9
    updated := some 0 }

/-- Both memories are active. -/
def likes : SemanticMemories ℕ where
  rows := [tea, coffee]
  nodup := by decide

end Sample

/-- Of two things that the user likes, one is archived. -/
theorem conflicts_disagree : ¬ Agrees ⟨1⟩ 0 Sample.likes := by
  intro h
  have hcoffee : Wins (Sample.likes.activeSemanticMemories 0) Sample.coffee := by
    refine ⟨mem_active.2 ⟨by decide, rfl⟩, fun x hx _ => ?_⟩
    obtain rfl | rfl : x = Sample.tea ∨ x = Sample.coffee := by
      simpa [Sample.likes] using (mem_active.1 hx).1
    · decide
    · exact le_rfl
  obtain ⟨hsingle, -⟩ := h.separate Sample.tea (mem_active.2 ⟨by decide, rfl⟩) Sample.coffee
    hcoffee rfl (by decide)
  exact absurd hsingle (by decide)

end SemanticMemories

end

end Memory

end PythonAI
