import Mathlib.Data.List.Flatten
import Mathlib.Data.List.Forall2
import PythonAI.Context.Blocks
import PythonAI.Context.Json
import PythonAI.Library.Text

/-!
# What a governed conversation still says

`govern_messages` returns a list that fits.  The blocks that it drops are dropped whole and are not
protected; the only messages that it changes are results after the last call of tools, whose middle
it may cut.

* `governMessages_governed` : **every list that it returns is governed, whatever the request,
  exactly if only messages of the assistant carry calls**.
-/

namespace PythonAI

open Library

namespace Context

variable {codec : Codec} {q : Request} {blocks : List Block} {messages out l l' : List Message}
  {m m' : Message}

/-! ### Cuts -/

/-- The message, or the result of a tool with the middle of its text cut. -/
def Cut (m m' : Message) : Prop :=
  m' = m ∨ m.role = .tool ∧ ∃ s head tail, m.content = .text s ∧ head <+: s.toList ∧
    tail <:+ s.toList ∧
    m' = { m with content := .text (String.ofList head ++ marker ++ String.ofList tail) }

theorem Cut.same (h : Cut m m') : m'.role = m.role ∧ m'.calls = m.calls ∧ m'.callId = m.callId := by
  obtain rfl | ⟨-, s, head, tail, -, -, -, rfl⟩ := h <;> exact ⟨rfl, rfl, rfl⟩

theorem Cut.eq_of_role (h : Cut m m') (hr : m.role ≠ .tool) : m' = m :=
  h.resolve_right fun h => hr h.1

theorem resize_cut {fraction : ℚ} : Cut m (m.resize fraction) := by
  unfold Message.resize
  split_ifs with he
  · simp only [Message.eligible, Bool.and_eq_true, decide_eq_true_eq] at he
    split
    case h_1 s hs =>
      unfold resizeText
      dsimp only
      split_ifs
      · refine .inl ?_
        rw [← hs]
      · exact .inr ⟨he.1, s, _, _, hs, List.take_prefix .., List.drop_suffix .., rfl⟩
    case h_2 => exact .inl rfl
  · exact .inl rfl

theorem forall₂_append_left {a b : List Message} (h : List.Forall₂ Cut (a ++ b) l) :
    ∃ a' b', l = a' ++ b' ∧ List.Forall₂ Cut a a' ∧ List.Forall₂ Cut b b' := by
  induction a generalizing l with
  | nil => exact ⟨[], l, rfl, .nil, h⟩
  | cons m a ih =>
    cases h with
    | cons hm h =>
      obtain ⟨a', b', rfl, ha, hb⟩ := ih h
      exact ⟨_ :: a', b', rfl, .cons hm ha, hb⟩

theorem forall₂_cut_refl : List.Forall₂ Cut l l := List.forall₂_same.2 fun _ _ => .inl rfl

theorem forall₂_callId (h : List.Forall₂ Cut l l') :
    l'.map Message.callId = l.map Message.callId := by
  induction h with
  | nil => rfl
  | cons hm _ ih => rw [List.map_cons, List.map_cons, hm.same.2.2, ih]

theorem forall₂_tool (h : List.Forall₂ Cut l l') (hl : ∀ r ∈ l, r.role = .tool ∧ r.calls = []) :
    ∀ r ∈ l', r.role = .tool ∧ r.calls = [] := by
  induction h with
  | nil => nofun
  | cons hm _ ih =>
    intro r hr
    rcases List.mem_cons.1 hr with rfl | hr
    · rw [hm.same.1, hm.same.2.1]
      exact hl _ List.mem_cons_self
    · exact ih (fun x hx => hl x (List.mem_cons_of_mem _ hx)) r hr

/-- Cuts keep calls and results together. -/
theorem Paired.cut (hp : Paired l) (h : List.Forall₂ Cut l l') : Paired l' := by
  induction hp generalizing l' with
  | nil =>
    cases h
    exact .nil
  | plain ht hc _ ih =>
    cases h with
    | cons hm h =>
      exact .plain (hm.same.1 ▸ ht) (hm.same.2.1 ▸ hc) (ih h)
  | exchange hrole hkeys hn htool hresults _ ih =>
    rw [List.cons_append] at h
    cases h with
    | cons hm h =>
      obtain ⟨results, rest, rfl, hres, hrest⟩ := forall₂_append_left h
      refine .exchange (hm.same.1.trans hrole) ?_ ?_ (forall₂_tool hres htool) ?_ (ih hrest)
      · rw [hm.same.2.1]
        exact hkeys
      · rw [hm.same.2.1]
        exact hn
      · rw [forall₂_callId hres, hm.same.2.1]
        exact hresults

/-- The list, with cuts of results after its last call. -/
def Trims (l l' : List Message) : Prop :=
  ∃ before after after', l = before ++ after ∧ l' = before ++ after' ∧
    List.Forall₂ Cut after after' ∧
    (after' = after ∨ (∃ m, before.getLast? = some m ∧ m.isCall = true) ∧
      ∀ m ∈ after, m.isCall = false)

theorem Trims.refl : Trims l l :=
  ⟨l, [], [], (List.append_nil _).symm, (List.append_nil _).symm, .nil, .inl rfl⟩

theorem Trims.forall₂ (h : Trims l l') : List.Forall₂ Cut l l' := by
  obtain ⟨before, after, after', rfl, rfl, hcut, -⟩ := h
  exact List.rel_append forall₂_cut_refl hcut

/-! ### `fit_latest_evidence` -/

theorem fits_ok (h : fits codec q l = .ok true) : ∃ tokens, messageTokens codec q l = .ok tokens ∧
    (tokens : ℤ) + tokenUpperBound q.tools ≤ q.maxTokens := by
  simp only [fits, bind_eq_ok, pure_eq_ok, decide_eq_true_eq] at h
  exact h

/-- The search returns a fraction that fits. -/
theorem bisect_fit {fit : ℚ → Except Error Bool} {k : ℕ} {low high fraction : ℚ}
    (hlow : fit low = .ok true) (h : bisect fit k low high = .ok fraction) :
    fit fraction = .ok true := by
  induction k generalizing low high with
  | zero =>
    cases h
    exact hlow
  | succ k ih =>
    simp only [bisect, bind_eq_ok] at h
    obtain ⟨b, hb, h⟩ := h
    cases b with
    | true => exact ih hb h
    | false => exact ih hlow h

theorem splitAtCall_eq : splitAtCall l = ((l.reverse.dropWhile fun m => !m.isCall).reverse,
    (l.reverse.takeWhile fun m => !m.isCall).reverse) := by
  have hsplit := congrArg List.reverse
    (List.takeWhile_append_dropWhile (p := fun m => !m.isCall) (l := l.reverse))
  rw [List.reverse_append, List.reverse_reverse] at hsplit
  have htake : ∀ {a b : List Message}, a ++ b = l → l.take (l.length - b.length) = a := by
    rintro a b rfl
    rw [List.length_append, Nat.add_sub_cancel, List.take_left]
  exact Prod.ext (htake hsplit) rfl

theorem splitAtCall_append {c : List Message} (hc : ∀ m ∈ c, m.isCall = false) :
    splitAtCall (l ++ c) = ((splitAtCall l).1, (splitAtCall l).2 ++ c) := by
  have hall : ∀ m ∈ c.reverse, (!m.isCall) = true := by
    intro m hm
    rw [hc m (List.mem_reverse.1 hm)]
    rfl
  rw [splitAtCall_eq, splitAtCall_eq, List.reverse_append, List.takeWhile_append_of_pos hall,
    List.dropWhile_append_of_pos hall, List.reverse_append, List.reverse_reverse]

theorem splitAtCall_append_eq : (splitAtCall l).1 ++ (splitAtCall l).2 = l := by
  rw [splitAtCall_eq, ← List.reverse_append, List.takeWhile_append_dropWhile, List.reverse_reverse]

theorem splitAtCall_snd : ∀ m ∈ (splitAtCall l).2, m.isCall = false := by
  intro m hm
  rw [splitAtCall_eq, List.mem_reverse] at hm
  simpa using List.all_eq_true.1 (List.all_takeWhile ..) m hm

/-- What comes before the split ends in a call. -/
theorem splitAtCall_last (h : (splitAtCall l).1 ≠ []) :
    ∃ m, (splitAtCall l).1.getLast? = some m ∧ m.isCall = true := by
  rw [splitAtCall_eq] at h ⊢
  rw [List.getLast?_reverse]
  have hd : l.reverse.dropWhile (fun m => !m.isCall) ≠ [] := fun he => h (by rw [he]; rfl)
  refine ⟨_, List.head?_eq_some_head hd, ?_⟩
  simpa using List.head_dropWhile_not _ hd

theorem constraints_user : ∀ m ∈ constraints codec q, m.role = .user ∧ m.calls = [] := by
  intro m hm
  unfold constraints at hm
  split_ifs at hm
  · cases hm
  · rw [List.mem_singleton.1 hm]
    exact ⟨rfl, rfl⟩

/-- **The evidence is fitted by cuts after the last call**, and what is returned fits. -/
theorem fitLatestEvidence_ok
    (h : fitLatestEvidence codec q (l ++ constraints codec q) = .ok (some out)) :
    ∃ body, Trims l body ∧ out = body ++ constraints codec q ∧ fits codec q out = .ok true := by
  have hconstraints : ∀ fraction, (constraints codec q).map (Message.resize fraction) =
      constraints codec q := by
    intro fraction
    refine (List.map_congr_left fun m hm => ?_).trans (List.map_id _)
    exact resize_cut.eq_of_role (by rw [(constraints_user m hm).1]; nofun)
  unfold fitLatestEvidence at h
  rw [splitAtCall_append fun m hm => by simp [Message.isCall, (constraints_user m hm).2]] at h
  dsimp only at h
  split_ifs at h with hnone
  · cases h
  simp only [bind_eq_ok] at h
  obtain ⟨b, hzero, h⟩ := h
  cases b with
  | false => cases h
  | true =>
    simp only [if_true, bind_eq_ok, pure_eq_ok, Option.some.injEq] at h
    obtain ⟨fraction, hlow, rfl⟩ := h
    rw [Bool.or_eq_true, not_or, decide_eq_true_eq] at hnone
    refine ⟨(splitAtCall l).1 ++ (splitAtCall l).2.map (Message.resize fraction),
      ⟨_, _, _, splitAtCall_append_eq.symm, rfl, ?_, .inr ⟨splitAtCall_last hnone.1,
        splitAtCall_snd⟩⟩, ?_, bisect_fit hzero hlow⟩
    · exact List.forall₂_map_right_iff.2 (List.forall₂_same.2 fun _ _ => resize_cut)
    · rw [List.map_append, hconstraints, List.append_assoc]

/-! ### The blocks that are kept -/

variable {chosen rest : List ℕ} {b : Block} {i : ℕ}

theorem select_sublist : (select blocks chosen).Sublist blocks.flatten := by
  have hall : (List.range blocks.length).map (fun i => (blocks[i]?).getD []) = blocks := by
    refine List.ext_getElem (by simp) fun i h₁ h₂ => ?_
    simp [h₂]
  calc (select blocks chosen).Sublist _ := List.filter_sublist.flatMap _
    _ = ((List.range blocks.length).map fun i => (blocks[i]?).getD []).flatten := List.flatMap_def ..
    _ = blocks.flatten := by rw [hall]

theorem select_paired (h : ∀ b ∈ blocks, Paired b) : Paired (select blocks chosen) := by
  rw [select, List.flatMap_def]
  refine paired_flatten fun b hb => ?_
  obtain ⟨i, -, rfl⟩ := List.mem_map.1 hb
  cases hi : blocks[i]? with
  | none => exact .nil
  | some b => exact h b (List.mem_of_getElem? hi)

/-- A block that is chosen is in the selection. -/
theorem select_of_mem (hi : i ∈ chosen) (hb : blocks[i]? = some b) :
    ∃ pre post, select blocks chosen = pre ++ b ++ post := by
  have hlt : i < blocks.length := (List.getElem?_eq_some_iff.1 hb).1
  have hmem : i ∈ (List.range blocks.length).filter (· ∈ chosen) :=
    List.mem_filter.2 ⟨List.mem_range.2 hlt, decide_eq_true hi⟩
  obtain ⟨s, t, heq⟩ := List.append_of_mem hmem
  refine ⟨s.flatMap fun i => (blocks[i]?).getD [], t.flatMap fun i => (blocks[i]?).getD [], ?_⟩
  rw [select, heq, List.flatMap_append, List.flatMap_cons, hb, List.append_assoc]
  rfl

/-- The list is the selection of some blocks, the protected ones among them, with cuts of results
after the last call and the retained goal at the end, and it fits. -/
structure Selects (codec : Codec) (q : Request) (blocks : List Block) (out : List Message)
    (chosen : List ℕ) : Prop where
  protects : ∀ i ∈ protectedBlocks codec q.goal blocks, i < blocks.length → i ∈ chosen
  body : ∃ body, Trims (select blocks chosen) body ∧ out = body ++ constraints codec q
  fits : fits codec q out = .ok true

/-- The loop drops no protected block. -/
theorem dropBlocks_ok (h : dropBlocks codec q blocks rest chosen = .ok out)
    (hp : ∀ i ∈ protectedBlocks codec q.goal blocks, i < blocks.length → i ∈ chosen) :
    ∃ chosen, Selects codec q blocks out chosen := by
  induction rest generalizing chosen with
  | nil =>
    simp only [dropBlocks, bind_eq_ok] at h
    obtain ⟨fitted, hfit, h⟩ := h
    cases fitted with
    | none => cases h
    | some fitted =>
      cases h
      obtain ⟨body, htrims, heq, hfits⟩ := fitLatestEvidence_ok hfit
      exact ⟨chosen, hp, ⟨body, htrims, heq⟩, hfits⟩
  | cons i rest ih =>
    unfold dropBlocks at h
    split_ifs at h with hi
    · exact ih h hp
    have hkeep : ∀ j ∈ protectedBlocks codec q.goal blocks, j < blocks.length →
        j ∈ chosen.filter (· ≠ i) := by
      intro j hj hlt
      refine List.mem_filter.2 ⟨hp j hj hlt, decide_eq_true ?_⟩
      rintro rfl
      exact hi hj
    simp only [bind_eq_ok] at h
    obtain ⟨b, hfit, h⟩ := h
    cases b with
    | true =>
      cases h
      exact ⟨_, hkeep, ⟨_, .refl, rfl⟩, hfit⟩
    | false => exact ih h hkeep

theorem governMessages_selects (h : governMessages codec q messages = .ok out) :
    ∃ blocks, normalizeBlocks messages = .ok blocks ∧
      ∃ chosen, Selects codec q blocks out chosen := by
  simp only [governMessages, bind_eq_ok] at h
  obtain ⟨blocks, hblocks, b, hfit, h⟩ := h
  have hall : ∀ i ∈ protectedBlocks codec q.goal blocks, i < blocks.length →
      i ∈ List.range blocks.length := fun i _ hlt => List.mem_range.2 hlt
  refine ⟨blocks, hblocks, ?_⟩
  cases b with
  | true =>
    cases h
    exact ⟨_, hall, ⟨_, .refl, rfl⟩, hfit⟩
  | false => exact dropBlocks_ok h hall

/-! ### The governed list -/

/-- The block is in the list, up to cuts of results. -/
def Holds (out : List Message) (b : Block) : Prop :=
  ∃ pre b' post, out = pre ++ b' ++ post ∧ List.Forall₂ Cut b b'

/-- What a governed list says of the conversation with the given messages and blocks. -/
structure Governed (codec : Codec) (q : Request) (messages : List Message) (blocks : List Block)
    (out : List Message) : Prop where
  /-- it fits, with the schemas of the tools -/
  budget : ∃ tokens, messageTokens codec q out = .ok tokens ∧
    (tokens : ℤ) + tokenUpperBound q.tools ≤ q.maxTokens
  /-- every result belongs to a call, and every call has one result -/
  paired : Paired out
  /-- it is a part of the blocks, with cuts of results after the last call, and the retained goal -/
  content : ∃ kept body, kept.Sublist blocks.flatten ∧ Trims kept body ∧
    out = body ++ constraints codec q
  /-- every message of the system or of a developer is in it -/
  system : ∀ m ∈ messages, m.role = .system ∨ m.role = .developer → m ∈ out
  /-- so is the last message of a user -/
  user : ∀ m, messages.reverse.find? (·.role = .user) = some m → m ∈ out
  /-- every block that mentions an approval is in it -/
  approval : ∀ b ∈ blocks, hasApproval codec b = true → Holds out b
  /-- so is the block of the current goal -/
  goal : ∀ i b, currentBlock q.goal blocks = some i → blocks[i]? = some b → Holds out b
  /-- and the last block with results of tools -/
  tools : ∀ i b, latestTools blocks = some i → blocks[i]? = some b → Holds out b

theorem Selects.holds (h : Selects codec q blocks out chosen)
    (hi : i ∈ protectedBlocks codec q.goal blocks) (hb : blocks[i]? = some b) : Holds out b := by
  obtain ⟨body, htrims, rfl⟩ := h.body
  obtain ⟨pre, post, heq⟩ :=
    select_of_mem (h.protects i hi (List.getElem?_eq_some_iff.1 hb).1) hb
  have hcut := htrims.forall₂
  rw [heq, List.append_assoc] at hcut
  obtain ⟨pre', rest, rfl, -, hcut⟩ := forall₂_append_left hcut
  obtain ⟨b', post', rfl, hb', -⟩ := forall₂_append_left hcut
  exact ⟨pre', b', post' ++ constraints codec q, by simp, hb'⟩

/-- A message that is no result is kept as it is. -/
theorem Holds.mem (h : Holds out b) (hm : m ∈ b) (hr : m.role ≠ .tool) : m ∈ out := by
  obtain ⟨pre, b', post, rfl, hcut⟩ := h
  obtain ⟨l₁, l₂, rfl⟩ := List.append_of_mem hm
  obtain ⟨a, c, rfl, -, hcut⟩ := forall₂_append_left hcut
  cases hcut with
  | cons hm _ =>
    rw [hm.eq_of_role hr]
    simp

theorem mem_indices {p : Block → Bool} : i ∈ indices p blocks ↔
    ∃ b, blocks[i]? = some b ∧ p b = true := by
  rw [indices, List.mem_filter, List.mem_range]
  constructor
  · rintro ⟨hlt, hp⟩
    rw [List.getElem?_eq_getElem hlt] at hp
    exact ⟨_, List.getElem?_eq_getElem hlt, hp⟩
  · rintro ⟨b, hb, hp⟩
    refine ⟨(List.getElem?_eq_some_iff.1 hb).1, ?_⟩
    rw [hb]
    exact hp

/-- The last index of a block that satisfies `p`: no later block does. -/
theorem last_indices {p : Block → Bool} (h : (indices p blocks).getLast? = some i) :
    ∀ j b, blocks[j]? = some b → p b = true → j ≤ i := by
  intro j b hb hp
  have hsorted : (indices p blocks).Pairwise (· < ·) := List.pairwise_lt_range.filter _
  have hmem : j ∈ indices p blocks := mem_indices.2 ⟨b, hb, hp⟩
  obtain ⟨init, heq⟩ := List.getLast?_eq_some_iff.1 h
  rw [heq] at hsorted hmem
  rcases List.mem_append.1 hmem with hj | hj
  · exact Nat.le_of_lt ((List.pairwise_append.1 hsorted).2.2 j hj i (List.mem_singleton_self i))
  · exact Nat.le_of_eq (List.mem_singleton.1 hj)

theorem currentBlock_protected (h : currentBlock q.goal blocks = some i) :
    i ∈ protectedBlocks codec q.goal blocks := by
  refine List.mem_append_right _ ?_
  unfold conversationAnchors
  simp only [h]
  split <;> simp

theorem latestTools_protected (h : latestTools blocks = some i) :
    i ∈ protectedBlocks codec q.goal blocks := by
  simp [protectedBlocks, h]

theorem lastUser_protected (h : lastUser blocks = some i) :
    i ∈ protectedBlocks codec q.goal blocks := by
  simp [protectedBlocks, h]

theorem mem_protected (hb : blocks[i]? = some b)
    (h : hasRole .system b = true ∨ hasRole .developer b = true ∨ hasApproval codec b = true) :
    i ∈ protectedBlocks codec q.goal blocks := by
  have hmem : i ∈ indices (fun b => hasRole .system b || hasRole .developer b ||
      hasApproval codec b) blocks := by
    refine mem_indices.2 ⟨b, hb, ?_⟩
    simpa [or_assoc] using h
  simp [protectedBlocks, hmem]

/-- A message that the normalization keeps is in a block. -/
theorem block_of_stays (h : normalizeBlocks messages = .ok blocks) (hm : m ∈ messages)
    (hs : m.stays = true) : ∃ (i : ℕ) (b : Block), blocks[i]? = some b ∧ m ∈ b := by
  have hmem : m ∈ blocks.flatten.filter Message.stays := by
    rw [normalizeBlocks_others h]
    exact List.mem_filter.2 ⟨hm, hs⟩
  obtain ⟨b, hb, hmb⟩ := List.mem_flatten.1 (List.mem_filter.1 hmem).1
  obtain ⟨i, hi⟩ := List.mem_iff_getElem?.1 hb
  exact ⟨i, b, hi, hmb⟩

/-- The last message of a user is in the last block with one. -/
theorem last_user (h : normalizeBlocks messages = .ok blocks)
    (hm : messages.reverse.find? (·.role = .user) = some m) :
    ∃ (i : ℕ) (b : Block), lastUser blocks = some i ∧ blocks[i]? = some b ∧ m ∈ b := by
  have hrole : m.role = .user := by simpa using List.find?_some hm
  have hstays : ∀ l : List Message, l.reverse.find? (·.role = .user) =
      (l.filter Message.stays).reverse.find? (·.role = .user) := by
    intro l
    rw [← List.filter_reverse, List.find?_filter]
    congr 1
    funext x
    by_cases hx : x.role = .user <;> simp [Message.stays, hx]
  rw [hstays, ← normalizeBlocks_others h, ← hstays] at hm
  have hin : m ∈ blocks.flatten := List.mem_reverse.1 (List.mem_of_find?_eq_some hm)
  obtain ⟨b₀, hb₀, hmb₀⟩ := List.mem_flatten.1 hin
  obtain ⟨j, hj⟩ := List.mem_iff_getElem?.1 hb₀
  have huser : hasRole .user b₀ = true :=
    List.any_eq_true.2 ⟨m, hmb₀, decide_eq_true hrole⟩
  cases hlast : lastUser blocks with
  | none =>
    have hnil := List.getLast?_eq_none_iff.1 hlast
    have hmem := mem_indices.2 ⟨b₀, hj, huser⟩
    rw [hnil] at hmem
    cases hmem
  | some i =>
    obtain ⟨b, hb, hub⟩ := mem_indices.1 (List.mem_of_getLast? hlast)
    refine ⟨i, b, rfl, hb, ?_⟩
    -- no block after the `i`-th has a message of a user, so the search ends in that block
    have hsplit : blocks.flatten = (blocks.take i).flatten ++ b ++ (blocks.drop (i + 1)).flatten := by
      obtain ⟨hlt, rfl⟩ := List.getElem?_eq_some_iff.1 hb
      rw [← List.flatten_concat, ← List.flatten_append, List.take_concat_get' blocks i hlt,
        List.take_append_drop]
    have hafter : (blocks.drop (i + 1)).flatten.reverse.find? (·.role = .user) = none := by
      refine List.find?_eq_none.2 fun x hx hr => ?_
      obtain ⟨c, hc, hxc⟩ := List.mem_flatten.1 (List.mem_reverse.1 hx)
      obtain ⟨k, hk⟩ := List.mem_iff_getElem?.1 hc
      rw [List.getElem?_drop] at hk
      have hle := last_indices hlast _ _ hk (List.any_eq_true.2 ⟨x, hxc, hr⟩)
      omega
    obtain ⟨x, hx, hxr⟩ := List.any_eq_true.1 hub
    rw [hsplit, List.reverse_append, List.find?_append, hafter, Option.none_or, List.reverse_append,
      List.find?_append] at hm
    cases hfind : b.reverse.find? (·.role = .user) with
    | none => exact absurd hxr (List.find?_eq_none.1 hfind x (List.mem_reverse.2 hx))
    | some y =>
      rw [hfind, Option.some_or] at hm
      rw [← Option.some.inj hm]
      exact List.mem_reverse.1 (List.mem_of_find?_eq_some hfind)

/-- A returned list whose calls and results are paired is governed. -/
theorem governed_of_paired (hblocks : normalizeBlocks messages = .ok blocks)
    (hsel : Selects codec q blocks out chosen) (hpaired : Paired out) :
    Governed codec q messages blocks out := by
  obtain ⟨body, htrims, heq⟩ := hsel.body
  refine ⟨fits_ok hsel.fits, hpaired, ⟨_, body, select_sublist, htrims, heq⟩,
    fun m hm hr => ?_, fun m hm => ?_, fun b hb ha => ?_,
    fun i b hi hb => hsel.holds (currentBlock_protected hi) hb,
    fun i b hi hb => hsel.holds (latestTools_protected hi) hb⟩
  · have hs : m.stays = true := by rcases hr with hr | hr <;> simp [Message.stays, hr]
    obtain ⟨i, b, hb, hmb⟩ := block_of_stays hblocks hm hs
    have hrole : hasRole .system b = true ∨ hasRole .developer b = true ∨
        hasApproval codec b = true := by
      rcases hr with hr | hr
      · exact .inl (List.any_eq_true.2 ⟨m, hmb, decide_eq_true hr⟩)
      · exact .inr (.inl (List.any_eq_true.2 ⟨m, hmb, decide_eq_true hr⟩))
    exact (hsel.holds (mem_protected hb hrole) hb).mem hmb (by rcases hr with hr | hr <;> simp [hr])
  · obtain ⟨i, b, hi, hb, hmb⟩ := last_user hblocks hm
    have hrole : m.role = .user := by simpa using List.find?_some hm
    exact (hsel.holds (lastUser_protected hi) hb).mem hmb (by simp [hrole])
  · obtain ⟨i, hi⟩ := List.mem_iff_getElem?.1 hb
    exact hsel.holds (mem_protected hi (.inr (.inr ha))) hi

theorem Selects.paired (hsel : Selects codec q blocks out chosen) (h : ∀ b ∈ blocks, Paired b) :
    Paired out := by
  obtain ⟨body, htrims, rfl⟩ := hsel.body
  refine ((select_paired h).cut htrims.forall₂).append (paired_of_plain fun m hm => ?_)
  obtain ⟨hrole, hcalls⟩ := constraints_user m hm
  exact ⟨by rw [hrole]; nofun, hcalls⟩

theorem select_range : select blocks (List.range blocks.length) = blocks.flatten := by
  have hall : (List.range blocks.length).filter (· ∈ List.range blocks.length) =
      List.range blocks.length :=
    List.filter_eq_self.2 fun i hi => decide_eq_true hi
  rw [select, hall, List.flatMap_def]
  congr 1
  refine List.ext_getElem (by simp) ?_
  intro i _ hi
  simp [hi]

/-- A conversation that fits is returned as it is normalized. -/
theorem governMessages_all (hblocks : normalizeBlocks messages = .ok blocks)
    (hfits : fits codec q (blocks.flatten ++ constraints codec q) = .ok true) :
    governMessages codec q messages = .ok (blocks.flatten ++ constraints codec q) := by
  simp only [governMessages, bind_eq_ok]
  refine ⟨blocks, hblocks, true, ?_, ?_⟩
  · rw [select_range]
    exact hfits
  · rw [if_pos rfl, select_range]
    rfl

/-- **Governed model input**: every list that `govern_messages` returns is governed, whatever the
request, exactly if only messages of the assistant carry calls. -/
theorem governMessages_governed (hblocks : normalizeBlocks messages = .ok blocks) :
    (∀ q out, governMessages codec q messages = .ok out → Governed codec q messages blocks out) ↔
      AssistantCalls messages := by
  constructor
  · intro hall
    -- a limit that the whole conversation fits
    let free : Request := { maxTokens := 0, imageTokens := some 1 }
    obtain ⟨tokens, htokens⟩ : ∃ tokens, messageTokens codec free blocks.flatten = .ok tokens := by
      unfold messageTokens
      dsimp only
      split_ifs
      · exact ⟨_, rfl⟩
      · exact ⟨_, rfl⟩
    let q : Request := { free with maxTokens := tokens + tokenUpperBound free.tools }
    have hfits : fits codec q (blocks.flatten ++ constraints codec q) = .ok true := by
      have hsame : messageTokens codec q (blocks.flatten ++ []) = .ok tokens := by
        rw [List.append_nil]
        exact htokens
      rw [fits, show constraints codec q = [] from rfl, hsame]
      exact congrArg Except.ok (decide_eq_true (Int.le_refl _))
    have hpaired := (hall q _ (governMessages_all hblocks hfits)).paired
    exact assistantCalls_of_blocks hblocks fun m hm =>
      hpaired.assistant (List.mem_append_left _ hm)
  · intro hcalls q out h
    obtain ⟨blocks', hblocks', chosen, hsel⟩ := governMessages_selects h
    cases hblocks.symm.trans hblocks'
    exact governed_of_paired hblocks hsel
      (hsel.paired ((normalizeBlocks_paired_iff hblocks).2 hcalls))

namespace Sample

/-- The JSON text of a message with blanks behind commas and colons; its calls have nothing but an
id. -/
def shown (m : Message) : String :=
  "\x7b" ++ ", ".intercalate (
    (m.role.name.map fun name => "\"role\": " ++ quote name).toList ++
    (m.content.json.map fun content => "\"content\": " ++ content).toList ++
    (if m.calls = [] then [] else ["\"tool_calls\": [" ++ ", ".intercalate (m.calls.map fun call =>
      "\x7b" ++ ((call.key.map fun id => "\"id\": " ++ quote id).getD "") ++ "\x7d") ++ "]"]) ++
    (m.callId.map fun id => "\"tool_call_id\": " ++ quote id).toList) ++ "\x7d"

/-- The JSON texts of such messages. -/
def plain : Codec where
  dumps := dumps
  shows messages := "[" ++ ", ".intercalate (messages.map shown) ++ "]"
  retained goal criteria := "\x7b\"goal\": " ++ quote goal ++ ", \"criteria\": " ++
    criteria.getD "\x7b\x7d" ++ "\x7d"
  space := isSpace

/-- A message with a plain text. -/
def told (role : Role) (s : String) : Message := { role := role, content := .text s }

/-- A call of a tool, its result, and what comes behind it. -/
def exchange (next : Message) : List Message :=
  [{ told .assistant "looking" with calls := [.call (some "a") ""] },
    { told .tool "found" with callId := some "a" }, next]

/-- A question, and an exchange. -/
def talk : List Message := told .user "one" :: exchange (told .user "two")

set_option maxRecDepth 8000 in
theorem talk_blocks :
    normalizeBlocks talk = .ok [[told .user "one"], exchange (told .user "two")] := by
  decide

set_option maxRecDepth 8000 in
theorem talk_governed : governMessages plain { maxTokens := 420 } talk =
    .ok (exchange (told .user "two")) := by
  rfl

/-- A call in a message of a user, behind an exchange. -/
def stray : List Message := exchange { told .user "hi" with calls := [.call (some "b") ""] }

set_option maxRecDepth 8000 in
theorem stray_governed : governMessages plain { maxTokens := 1000 } stray = .ok stray := by rfl

end Sample

/-- The first question is dropped, and the rest is governed. -/
theorem governMessages_governed_talk :
    Governed Sample.plain { maxTokens := 420 } Sample.talk
      [[Sample.told .user "one"], Sample.exchange (Sample.told .user "two")]
      (Sample.exchange (Sample.told .user "two")) :=
  (governMessages_governed Sample.talk_blocks).2 (assistantCalls_of_all (by decide)) _ _
    Sample.talk_governed

/-- A call of a user's message is accepted behind a call of the assistant, and has no result. -/
theorem governMessages_stray :
    normalizeBlocks Sample.stray = .ok [Sample.stray] ∧
    governMessages Sample.plain { maxTokens := 1000 } Sample.stray = .ok Sample.stray ∧
    ¬ Governed Sample.plain { maxTokens := 1000 } Sample.stray [Sample.stray] Sample.stray := by
  refine ⟨by decide, Sample.stray_governed, fun h => ?_⟩
  have hrole := h.paired.assistant (m := { Sample.told .user "hi" with calls := [.call (some "b") ""] })
    (by decide) (by decide)
  cases hrole

end Context

end PythonAI
