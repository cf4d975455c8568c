import PythonAI.Context.Govern

/-!
# The blocks of a conversation

What `normalize_blocks` returns when it accepts the messages: every block is a message alone, or a
call of tools with exactly one result for each of its calls and what the others said meanwhile.
What the others said behind a call is not looked at, and may carry calls itself.

* `normalizeBlocks_paired_iff` : **calls and results are paired in the blocks exactly if only
  messages of the assistant carry calls**;
* `normalizeBlocks_others` : the messages of users, of the system and of developers are kept, in
  their order.
-/

namespace PythonAI

open Library

namespace Context

variable {m : Message} {a b l : List Message} {blocks : List Block}

/-! ### Calls and results -/

/-- **Every result belongs to a call, and every call has one result**: a message of a tool stands
only in the results that follow an assistant's message with calls, one for each of its calls, and
no other message has calls. -/
inductive Paired : List Message → Prop
  | nil : Paired []
  /-- a message without calls and results -/
  | plain {m : Message} {rest : List Message} (ht : m.role ≠ .tool) (hc : m.calls = [])
      (hrest : Paired rest) : Paired (m :: rest)
  /-- a call and its results -/
  | exchange {m : Message} {results rest : List Message} (hrole : m.role = .assistant)
      (hkeys : ∀ call ∈ m.calls, call.key.isSome = true) (hn : (m.calls.map CallValue.key).Nodup)
      (htool : ∀ r ∈ results, r.role = .tool ∧ r.calls = [])
      (hresults : results.map Message.callId = m.calls.map CallValue.key) (hrest : Paired rest) :
      Paired (m :: results ++ rest)

theorem Paired.append (ha : Paired a) (hb : Paired b) : Paired (a ++ b) := by
  induction ha with
  | nil => exact hb
  | plain ht hc _ ih => exact .plain ht hc ih
  | exchange hrole hkeys hn htool hresults _ ih =>
    rw [List.append_assoc]
    exact .exchange hrole hkeys hn htool hresults ih

theorem paired_of_plain (h : ∀ m ∈ l, m.role ≠ .tool ∧ m.calls = []) : Paired l := by
  induction l with
  | nil => exact .nil
  | cons m l ih =>
    obtain ⟨ht, hc⟩ := h m List.mem_cons_self
    exact .plain ht hc (ih fun x hx => h x (List.mem_cons_of_mem _ hx))

theorem paired_flatten (h : ∀ b ∈ blocks, Paired b) : Paired blocks.flatten := by
  induction blocks with
  | nil => exact .nil
  | cons b blocks ih =>
    rw [List.flatten_cons]
    exact (h b List.mem_cons_self).append (ih fun x hx => h x (List.mem_cons_of_mem _ hx))

/-- Only messages of the assistant have calls. -/
theorem Paired.assistant (h : Paired l) (hm : m ∈ l) (hcalls : m.calls ≠ []) :
    m.role = .assistant := by
  induction h with
  | nil => cases hm
  | plain _ hc _ ih =>
    rcases List.mem_cons.1 hm with rfl | hm
    · exact absurd hc hcalls
    · exact ih hm
  | exchange hrole _ _ htool _ _ ih =>
    rcases List.mem_append.1 hm with hm | hm
    · rcases List.mem_cons.1 hm with rfl | hm
      · exact hrole
      · exact absurd (htool m hm).2 hcalls
    · exact ih hm

/-! ### One group -/

/-- The messages that the normalization neither pairs nor drops. -/
def Message.stays (m : Message) : Bool := m.role ≠ .tool && m.role ≠ .assistant

variable {following : List Message} {key : Option String} {r : Message}

theorem resultFor_some (h : resultFor following key = some r) :
    r ∈ following ∧ r.role = .tool ∧ r.callId = key := by
  have hmem := List.mem_of_find?_eq_some h
  rw [List.mem_reverse, List.mem_filter] at hmem
  have hkey := List.find?_some h
  exact ⟨hmem.1, of_decide_eq_true hmem.2, of_decide_eq_true hkey⟩

/-- **Only messages of the assistant carry calls**, among those that the normalization keeps: the
messages of users, of the system and of developers, and the results that are given for calls. -/
structure AssistantCalls (messages : List Message) : Prop where
  /-- the messages of the others -/
  others : ∀ m ∈ messages, m.stays = true → m.calls = []
  /-- the result for a call, before the next message of the assistant -/
  results : ∀ pre m post, messages = pre ++ m :: post → m.role = .assistant → ∀ call ∈ m.calls,
    ∀ r, resultFor (post.takeWhile (·.role ≠ .assistant)) call.key = some r → r.calls = []

theorem assistantCalls_of_all (h : ∀ m ∈ l, m.calls ≠ [] → m.role = .assistant) :
    AssistantCalls l := by
  refine ⟨fun m hm hs => ?_, fun pre m post hl _ call _ r hr => ?_⟩
  · by_contra hcalls
    simp [Message.stays, h m hm hcalls] at hs
  · obtain ⟨hmem, htool, -⟩ := resultFor_some hr
    have hpost : r ∈ l := by
      rw [hl]
      exact List.mem_append_right _ (List.mem_cons_of_mem _ ((List.takeWhile_sublist _).subset hmem))
    by_contra hcalls
    rw [h r hpost hcalls] at htool
    cases htool

theorem AssistantCalls.suffix (h : AssistantCalls (a ++ b)) : AssistantCalls b := by
  refine ⟨fun m hm => h.others m (List.mem_append_right _ hm), fun pre m post hb => ?_⟩
  refine h.results (a ++ pre) m post ?_
  rw [hb, List.append_assoc]

/-- The results of the paired calls, in the order of the calls. -/
theorem results_map {calls : List CallValue}
    (h : ∀ call ∈ calls, (resultFor following call.key).isSome = true) :
    (calls.filterMap fun call => resultFor following call.key).map Message.callId =
      calls.map CallValue.key := by
  induction calls with
  | nil => rfl
  | cons call calls ih =>
    obtain ⟨r, hr⟩ := Option.isSome_iff_exists.1 (h call List.mem_cons_self)
    have hid := (resultFor_some hr).2.2
    simp only [List.filterMap_cons, hr, List.map_cons, hid]
    rw [ih fun c hc => h c (List.mem_cons_of_mem _ hc)]

theorem group_paired (hrole : m.role = .assistant) (hkeys : ∀ call ∈ m.calls, call.key.isSome = true)
    (hn : (m.calls.map CallValue.key).Nodup)
    (hf : ∀ x ∈ following, x.role ≠ .tool → x.calls = [])
    (hresults : ∀ call ∈ m.calls, ∀ r, resultFor following call.key = some r → r.calls = []) :
    ∀ b ∈ group m following, Paired b := by
  have hothers : ∀ x ∈ following.filter (·.role ≠ .tool), x.role ≠ .tool ∧ x.calls = [] := by
    intro x hx
    rw [List.mem_filter] at hx
    have hrole := of_decide_eq_true hx.2
    exact ⟨hrole, hf x hx.1 hrole⟩
  unfold group
  dsimp only
  split_ifs with hpaired hcontent
  · intro b hb
    rw [List.mem_singleton.1 hb]
    refine .exchange hrole (fun call hc => hkeys call (List.mem_of_mem_filter hc))
      (hn.sublist (List.filter_sublist.map _)) (fun r hr => ?_)
      (results_map fun call hc => (List.mem_filter.1 hc).2) (paired_of_plain hothers)
    obtain ⟨call, hcall, hr⟩ := List.mem_filterMap.1 hr
    exact ⟨(resultFor_some hr).2.1, hresults call (List.mem_of_mem_filter hcall) r hr⟩
  all_goals
    intro b hb
    rw [List.mem_append, List.mem_map] at hb
    rcases hb with hb | ⟨x, hx, rfl⟩
  · rw [List.mem_singleton.1 hb]
    exact .plain (by rw [hrole]; nofun) rfl .nil
  · exact paired_of_plain fun y hy => by rw [List.mem_singleton.1 hy]; exact hothers x hx
  · cases hb
  · exact paired_of_plain fun y hy => by rw [List.mem_singleton.1 hy]; exact hothers x hx

/-- The results that a group keeps. -/
theorem group_results {call : CallValue} (hcall : call ∈ m.calls)
    (hr : resultFor following call.key = some r) : r ∈ (group m following).flatten := by
  have hpaired : call ∈ m.calls.filter fun call => (resultFor following call.key).isSome :=
    List.mem_filter.2 ⟨hcall, by rw [hr]; rfl⟩
  unfold group
  dsimp only
  rw [if_pos (List.ne_nil_of_mem hpaired), List.flatten_singleton]
  exact List.mem_append_left _
    (List.mem_cons_of_mem _ (List.mem_filterMap.2 ⟨call, hpaired, hr⟩))

/-- A group keeps the messages of the others. -/
theorem group_others (hrole : m.role = .assistant) :
    (group m following).flatten.filter Message.stays = following.filter Message.stays := by
  have hm : ∀ calls, Message.stays { m with calls := calls } = false := by
    intro calls
    simp [Message.stays, hrole]
  have hothers : (following.filter (·.role ≠ .tool)).filter Message.stays =
      following.filter Message.stays := by
    rw [List.filter_filter]
    refine List.filter_congr fun x _ => ?_
    cases hx : x.stays with
    | false => rfl
    | true =>
      simp only [Message.stays, Bool.and_eq_true] at hx
      simp [hx.1]
  have hresults : ∀ calls : List CallValue,
      (calls.filterMap fun call => resultFor following call.key).filter Message.stays = [] := by
    intro calls
    refine List.filter_eq_nil_iff.2 fun r hr => ?_
    obtain ⟨call, -, hr⟩ := List.mem_filterMap.1 hr
    simp [Message.stays, (resultFor_some hr).2.1]
  have hsingles : ∀ xs : List Message, (xs.map ([·])).flatten = xs := by
    intro xs
    induction xs with
    | nil => rfl
    | cons x xs ih => simp [ih]
  unfold group
  dsimp only
  split_ifs
  · simp only [List.flatten_cons, List.flatten_nil, List.append_nil, List.cons_append,
      List.filter_cons, hm, List.filter_append, hresults, List.nil_append, hothers]
    rfl
  · simp only [List.flatten_cons, List.cons_append, List.nil_append, List.filter_cons, hm, hsingles,
      hothers]
    rfl
  · simp only [List.nil_append, hsingles, hothers]

/-! ### The whole conversation -/

theorem normalizeFrom_cons {blocks' : List Block} {fuel : ℕ} {values : List Message}
    (h : normalizeFrom (fuel + 1) (m :: values) = .ok blocks') :
    m.role = .tool ∧ normalizeFrom fuel values = .ok blocks' ∨
    m.role ≠ .tool ∧ m.calls = [] ∧
      (∃ blocks, normalizeFrom fuel values = .ok blocks ∧ blocks' = [m] :: blocks) ∨
    m.role = .assistant ∧ (∀ call ∈ m.calls, call.key.isSome = true) ∧
      (m.calls.map CallValue.key).Nodup ∧
      ∃ blocks, normalizeFrom fuel (values.dropWhile (·.role ≠ .assistant)) = .ok blocks ∧
        blocks' = group m (values.takeWhile (·.role ≠ .assistant)) ++ blocks := by
  unfold normalizeFrom at h
  split_ifs at h with htool hcalls
  · exact .inl ⟨htool, h⟩
  · simp only [bind_eq_ok, pure_eq_ok] at h
    obtain ⟨blocks, hblocks, rfl⟩ := h
    exact .inr (.inl ⟨htool, hcalls, blocks, hblocks, rfl⟩)
  · simp only [bind_eq_ok, pure_eq_ok, ensure_eq_ok, Bool.and_eq_true, List.all_eq_true,
      decide_eq_true_eq] at h
    obtain ⟨-, hrole, -, ⟨hkeys, hn⟩, blocks, hblocks, rfl⟩ := h
    exact .inr (.inr ⟨hrole, hkeys, hn, blocks, hblocks, rfl⟩)

theorem takeWhile_role {values : List Message} :
    ∀ x ∈ values.takeWhile (·.role ≠ .assistant), x.role ≠ .assistant :=
  fun x hx => by simpa using List.all_eq_true.1 (List.all_takeWhile ..) x hx

theorem normalizeFrom_paired {fuel : ℕ} {values : List Message} (hcalls : AssistantCalls values)
    (h : normalizeFrom fuel values = .ok blocks) : ∀ b ∈ blocks, Paired b := by
  induction fuel generalizing values blocks with
  | zero =>
    cases h
    nofun
  | succ fuel ih =>
    cases values with
    | nil =>
      cases h
      nofun
    | cons m values =>
      have hrest : AssistantCalls values := hcalls.suffix (a := [m])
      obtain ⟨-, hr⟩ | ⟨ht, hc, blocks, hr, rfl⟩ | ⟨hrole, hkeys, hn, blocks, hr, rfl⟩ :=
        normalizeFrom_cons h
      · exact ih hrest hr
      · intro b hb
        rcases List.mem_cons.1 hb with rfl | hb
        · exact .plain ht hc .nil
        · exact ih hrest hr b hb
      · have hfollowing : ∀ x ∈ values.takeWhile (·.role ≠ .assistant), x.role ≠ .tool →
            x.calls = [] := by
          intro x hx ht
          have hstays : x.stays = true := by simp [Message.stays, ht, takeWhile_role x hx]
          exact hrest.others x ((List.takeWhile_sublist _).subset hx) hstays
        have hdrop : AssistantCalls (values.dropWhile (·.role ≠ .assistant)) :=
          AssistantCalls.suffix (a := values.takeWhile (·.role ≠ .assistant))
            (by rwa [List.takeWhile_append_dropWhile])
        intro b hb
        rcases List.mem_append.1 hb with hb | hb
        · exact group_paired hrole hkeys hn hfollowing (hcalls.results [] m values rfl hrole) b hb
        · exact ih hdrop hr b hb

/-- The result for a call is in the blocks: the turns of the loop reach every message of the
assistant. -/
theorem normalizeFrom_results {fuel : ℕ} {values pre post : List Message} {call : CallValue}
    (hfuel : values.length ≤ fuel) (h : normalizeFrom fuel values = .ok blocks)
    (hvalues : values = pre ++ m :: post) (hrole : m.role = .assistant) (hcall : call ∈ m.calls)
    (hr : resultFor (post.takeWhile (·.role ≠ .assistant)) call.key = some r) :
    r ∈ blocks.flatten := by
  induction fuel generalizing values pre blocks with
  | zero =>
    rw [List.length_eq_zero_iff.1 (Nat.le_zero.1 hfuel)] at hvalues
    simp at hvalues
  | succ fuel ih =>
    cases values with
    | nil => simp at hvalues
    | cons x values =>
      have hlen : values.length ≤ fuel := Nat.le_of_succ_le_succ hfuel
      cases pre with
      | nil =>
        rw [List.nil_append, List.cons.injEq] at hvalues
        obtain ⟨rfl, rfl⟩ := hvalues
        obtain ⟨ht, -⟩ | ⟨-, hc, -⟩ | ⟨-, -, -, blocks, -, rfl⟩ := normalizeFrom_cons h
        · rw [hrole] at ht
          cases ht
        · rw [hc] at hcall
          cases hcall
        · rw [List.flatten_append]
          exact List.mem_append_left _ (group_results hcall hr)
      | cons y pre =>
        rw [List.cons_append, List.cons.injEq] at hvalues
        obtain ⟨rfl, hvalues⟩ := hvalues
        obtain ⟨-, hb⟩ | ⟨-, -, blocks, hb, rfl⟩ | ⟨-, -, -, blocks, hb, rfl⟩ := normalizeFrom_cons h
        · exact ih hlen hb hvalues
        · rw [List.flatten_cons]
          exact List.mem_append_right _ (ih hlen hb hvalues)
        · have hdrop : (values.dropWhile (·.role ≠ .assistant)).length ≤ fuel :=
            (List.dropWhile_sublist _).length_le.trans hlen
          have hsplit : values.dropWhile (·.role ≠ .assistant) =
              pre.dropWhile (·.role ≠ .assistant) ++ m :: post := by
            rw [hvalues, List.dropWhile_append]
            split_ifs with hnil
            · rw [List.isEmpty_iff.1 hnil, List.nil_append, List.dropWhile_cons_of_neg]
              simp [hrole]
            · rfl
          rw [List.flatten_append]
          exact List.mem_append_right _ (ih hdrop hb hsplit)

theorem normalizeFrom_others {fuel : ℕ} {values : List Message} (hfuel : values.length ≤ fuel)
    (h : normalizeFrom fuel values = .ok blocks) :
    blocks.flatten.filter Message.stays = values.filter Message.stays := by
  induction fuel generalizing values blocks with
  | zero =>
    cases h
    rw [List.length_eq_zero_iff.1 (Nat.le_zero.1 hfuel)]
    rfl
  | succ fuel ih =>
    cases values with
    | nil =>
      cases h
      rfl
    | cons m values =>
      have hlen : values.length ≤ fuel := Nat.le_of_succ_le_succ hfuel
      obtain ⟨ht, hr⟩ | ⟨-, -, blocks, hr, rfl⟩ | ⟨hrole, -, -, blocks, hr, rfl⟩ := normalizeFrom_cons h
      · rw [ih hlen hr, List.filter_cons_of_neg (by simp [Message.stays, ht])]
      · rw [List.flatten_cons, List.singleton_append, List.filter_cons, List.filter_cons,
          ih hlen hr]
      · have hdrop : (values.dropWhile (·.role ≠ .assistant)).length ≤ fuel :=
          (List.dropWhile_sublist _).length_le.trans hlen
        rw [List.flatten_append, List.filter_append, ih hdrop hr, group_others hrole,
          List.filter_cons_of_neg (by simp [Message.stays, hrole]), ← List.filter_append,
          List.takeWhile_append_dropWhile]

/-- The blocks hold the messages of users, of the system and of developers, in their order. -/
theorem normalizeBlocks_others {messages : List Message}
    (h : normalizeBlocks messages = .ok blocks) :
    blocks.flatten.filter Message.stays = messages.filter Message.stays :=
  normalizeFrom_others le_rfl h

theorem assistantCalls_of_blocks {messages : List Message}
    (h : normalizeBlocks messages = .ok blocks)
    (hcalls : ∀ m ∈ blocks.flatten, m.calls ≠ [] → m.role = .assistant) :
    AssistantCalls messages := by
  refine ⟨fun m hm hs => ?_, fun pre m post hsplit hrole call hcall r hr => ?_⟩
  · have hmem : m ∈ blocks.flatten.filter Message.stays := by
      rw [normalizeBlocks_others h]
      exact List.mem_filter.2 ⟨hm, hs⟩
    by_contra hne
    have hrole := hcalls m (List.mem_filter.1 hmem).1 hne
    simp [Message.stays, hrole] at hs
  · by_contra hne
    have hassistant := hcalls r (normalizeFrom_results le_rfl h hsplit hrole hcall hr) hne
    rw [(resultFor_some hr).2.1] at hassistant
    cases hassistant

/-- **Calls and results are paired in the blocks exactly if only messages of the assistant carry
calls.** -/
theorem normalizeBlocks_paired_iff {messages : List Message}
    (h : normalizeBlocks messages = .ok blocks) :
    (∀ b ∈ blocks, Paired b) ↔ AssistantCalls messages :=
  ⟨fun hpaired => assistantCalls_of_blocks h fun _ => (paired_flatten hpaired).assistant,
    fun hcalls => normalizeFrom_paired hcalls h⟩

end Context

end PythonAI
