import PythonAI.Context.Governed

/-!
# Block normalization is a projection

`normalize_blocks` goes from call to call.  What it returns is told message by message: a call stays
with the last result that is given for it before the next message of the assistant, and every other
message of a tool goes.

* `normalizeBlocks_project` : the blocks, one after the other, are `project messages`;
* `normalizeBlocks_projection` : **every call has its last result, every other message is kept once
  and in order, and the blocks of the blocks are the same**.
-/

namespace PythonAI

open Library

namespace Context

/-! ### The projection -/

/-- The last result that is given for the call before the next message of the assistant. -/
def lastResult (rest : List Message) (call : CallValue) : Option Message :=
  ((rest.takeWhile (·.role ≠ .assistant)).filter fun r =>
    r.role = .tool && r.callId = call.key).getLast?

/-- The calls of the message that have a result. -/
def Message.resolved (m : Message) (rest : List Message) : List CallValue :=
  m.calls.filter fun call => (lastResult rest call).isSome

/-- The message has unresolved calls only, and no content. -/
def Message.silent (m : Message) (rest : List Message) : Bool :=
  m.calls ≠ [] && m.resolved rest = [] && !m.content.truthy

/-- The results of the calls, in the order of the calls. -/
def Message.results (m : Message) (rest : List Message) : List Message :=
  (m.resolved rest).filterMap (lastResult rest)

/-- Every call with its last result, and no other message of a tool. -/
def project : List Message → List Message
  | [] => []
  | m :: rest =>
    if m.role = .tool || m.silent rest then project rest
    else { m with calls := m.resolved rest } :: (m.results rest ++ project rest)

/-- The messages besides those of tools and those with unresolved calls only and no content. -/
def kept : List Message → List Message
  | [] => []
  | m :: rest => if m.role = .tool || m.silent rest then kept rest else m :: kept rest

/-- The message without its calls. -/
def Message.bare (m : Message) : Message := { m with calls := [] }

/-- Only assistants call tools, and the ids of the calls of a message are there and differ. -/
def Callable (messages : List Message) : Prop :=
  ∀ m ∈ messages, m.calls ≠ [] → m.role = .assistant ∧
    (∀ call ∈ m.calls, call.key.isSome = true) ∧ (m.calls.map CallValue.key).Nodup

/-- What a normalized conversation says of the conversation. -/
structure Projection (messages flat : List Message) : Prop where
  /-- every call has one result, behind its message and in the order of the calls, and no result
  stands elsewhere -/
  paired : Paired flat
  /-- the calls of a message are those with a result, and behind it stand their results, the last
  ones given before the next message of the assistant, and what is left of the messages after it -/
  last : ∀ a m b, flat = a ++ m :: b → m.calls ≠ [] → ∃ pre source post results,
    messages = pre ++ source :: post ∧ m = { source with calls := source.resolved post } ∧
      b = results ++ project post ∧ results.map some = m.calls.map (lastResult post)
  /-- the other messages are kept, in their order -/
  others : (flat.filter (·.role ≠ .tool)).map Message.bare = (kept messages).map Message.bare

instance (messages : List Message) : Decidable (Callable messages) :=
  inferInstanceAs (Decidable (∀ m ∈ messages, _))

variable {messages rest a b l : List Message} {m r : Message} {call : CallValue}
  {blocks : List Block}

/-! ### Results -/

theorem resultFor_eq : resultFor (rest.takeWhile (·.role ≠ .assistant)) call.key =
    lastResult rest call := by
  rw [resultFor, lastResult, ← List.getLast?_filter, List.filter_filter]
  congr 2
  funext r
  exact Bool.and_comm ..

theorem lastResult_some (h : lastResult rest call = some r) :
    r ∈ rest ∧ r.role = .tool ∧ r.callId = call.key := by
  have hmem := List.mem_filter.1 (List.mem_of_getLast? h)
  have hboth := hmem.2
  rw [Bool.and_eq_true, decide_eq_true_eq, decide_eq_true_eq] at hboth
  exact ⟨(List.takeWhile_sublist _).subset hmem.1, hboth.1, hboth.2⟩

theorem mem_results (h : r ∈ m.results rest) : r ∈ rest ∧ r.role = .tool := by
  obtain ⟨call, -, hr⟩ := List.mem_filterMap.1 h
  exact ⟨(lastResult_some hr).1, (lastResult_some hr).2.1⟩

/-- Each of the resolved calls has its result. -/
theorem results_some : (m.results rest).map some = (m.resolved rest).map (lastResult rest) := by
  have hall : ∀ call ∈ m.resolved rest, (lastResult rest call).isSome = true := by
    intro call hcall
    exact (List.mem_filter.1 hcall).2
  rw [Message.results]
  revert hall
  induction m.resolved rest with
  | nil => exact fun _ => rfl
  | cons call calls ih =>
    intro hall
    obtain ⟨r, hr⟩ := Option.isSome_iff_exists.1 (hall call List.mem_cons_self)
    rw [List.filterMap_cons_some hr, List.map_cons, List.map_cons, hr,
      ih fun c hc => hall c (List.mem_cons_of_mem _ hc)]

/-! ### The projection of a conversation -/

theorem resolved_nil (h : m.calls = []) : m.resolved rest = [] := by
  rw [Message.resolved, h, List.filter_nil]

theorem silent_nil (h : m.calls = []) : m.silent rest = false := by
  rw [Message.silent, h]
  rfl

/-- A message without calls stays as it is. -/
theorem project_plain (ht : m.role ≠ .tool) (h : m.calls = []) :
    project (m :: rest) = m :: project rest := by
  have hgoes : (decide (m.role = .tool) || m.silent rest) = false := by
    rw [silent_nil h, Bool.or_false]
    exact decide_eq_false ht
  have hsame : { m with calls := m.resolved rest } = m := by
    rw [resolved_nil h, ← h]
  rw [project, if_neg (by rw [hgoes]; exact Bool.false_ne_true), hsame, Message.results,
    resolved_nil h]
  rfl

theorem project_tool (h : m.role = .tool) : project (m :: rest) = project rest := by
  rw [project, if_pos]
  rw [decide_eq_true h, Bool.true_or]

/-- Up to the next message of the assistant, the messages of tools go. -/
theorem project_append (h : ∀ x ∈ a, x.calls = []) :
    project (a ++ b) = a.filter (·.role ≠ .tool) ++ project b := by
  induction a with
  | nil => rfl
  | cons x a ih =>
    have hrest := ih fun y hy => h y (List.mem_cons_of_mem _ hy)
    by_cases ht : x.role = .tool
    · rw [List.cons_append, project_tool ht, hrest, List.filter_cons_of_neg (by simpa using ht)]
    · rw [List.cons_append, project_plain ht (h x List.mem_cons_self), hrest,
        List.filter_cons_of_pos (by simpa using ht), List.cons_append]

theorem Callable.assistantCalls (h : Callable l) : AssistantCalls l :=
  assistantCalls_of_all fun m hm hcalls => (h m hm hcalls).1

theorem Callable.tail (h : Callable (m :: rest)) : Callable rest :=
  fun x hx => h x (List.mem_cons_of_mem _ hx)

/-- The messages between two messages of the assistant call no tools. -/
theorem Callable.takeWhile (h : Callable l) : ∀ x ∈ l.takeWhile (·.role ≠ .assistant), x.calls = [] := by
  intro x hx
  by_contra hcalls
  exact takeWhile_role x hx (h x ((List.takeWhile_sublist _).subset hx) hcalls).1

/-- The blocks of a call. -/
theorem group_flatten (h : Callable (m :: rest)) (hcalls : m.calls ≠ []) :
    (group m (rest.takeWhile (·.role ≠ .assistant))).flatten ++
        project (rest.dropWhile (·.role ≠ .assistant)) = project (m :: rest) := by
  have hassistant := (h m List.mem_cons_self hcalls).1
  have hproject : project rest = (rest.takeWhile (·.role ≠ .assistant)).filter (·.role ≠ .tool) ++
      project (rest.dropWhile (·.role ≠ .assistant)) := by
    rw [← project_append h.tail.takeWhile, List.takeWhile_append_dropWhile]
  have hresult : (fun call : CallValue => resultFor (rest.takeWhile (·.role ≠ .assistant)) call.key) =
      lastResult rest := funext fun _ => resultFor_eq
  have hsingles : ∀ xs : List Message, (xs.map ([·])).flatten = xs := by
    intro xs
    induction xs with
    | nil => rfl
    | cons x xs ih => rw [List.map_cons, List.flatten_cons, ih, List.singleton_append]
  have htool : decide (m.role = .tool) = false := by
    rw [hassistant]
    rfl
  have hpaired : (m.calls.filter fun call =>
      (resultFor (rest.takeWhile (·.role ≠ .assistant)) call.key).isSome) = m.resolved rest := by
    rw [Message.resolved, ← hresult]
  unfold group
  dsimp only
  rw [hpaired, hresult, project, htool, Bool.false_or]
  by_cases hres : m.resolved rest = []
  · rw [if_neg (not_not.2 hres), List.flatten_append, hsingles]
    cases hcontent : m.content.truthy with
    | true =>
      have hsilent : m.silent rest = false := by
        rw [Message.silent, hcontent, Bool.not_true, Bool.and_false]
      rw [if_pos rfl, hsilent, if_neg Bool.false_ne_true, Message.results, hres, hproject]
      rfl
    | false =>
      have hsilent : m.silent rest = true := by
        rw [Message.silent, hcontent, hres]
        simp [hcalls]
      rw [if_neg Bool.false_ne_true, hsilent, if_pos rfl, hproject]
      rfl
  · have hsilent : m.silent rest = false := by
      rw [Message.silent, decide_eq_false hres, Bool.and_false, Bool.false_and]
    rw [if_pos hres, hsilent, if_neg Bool.false_ne_true, List.flatten_singleton, hproject,
      Message.results, List.cons_append, List.cons_append, List.append_assoc]

theorem normalizeFrom_project {fuel : ℕ} (h : Callable messages) (hfuel : messages.length ≤ fuel) :
    ∃ blocks, normalizeFrom fuel messages = .ok blocks ∧ blocks.flatten = project messages := by
  induction fuel generalizing messages with
  | zero =>
    rw [List.length_eq_zero_iff.1 (Nat.le_zero.1 hfuel)]
    exact ⟨[], rfl, rfl⟩
  | succ fuel ih =>
    cases messages with
    | nil => exact ⟨[], rfl, rfl⟩
    | cons m rest =>
      have hlen : rest.length ≤ fuel := Nat.le_of_succ_le_succ hfuel
      by_cases ht : m.role = .tool
      · obtain ⟨blocks, hblocks, hflat⟩ := ih h.tail hlen
        refine ⟨blocks, ?_, hflat.trans (project_tool ht).symm⟩
        rw [normalizeFrom, if_pos ht]
        exact hblocks
      · by_cases hcalls : m.calls = []
        · obtain ⟨blocks, hblocks, hflat⟩ := ih h.tail hlen
          refine ⟨[m] :: blocks, ?_, ?_⟩
          · rw [normalizeFrom, if_neg ht, if_pos hcalls, hblocks]
            rfl
          · rw [project_plain ht hcalls, ← hflat, List.flatten_cons, List.singleton_append]
        · obtain ⟨hrole, hkeys, hn⟩ := h m List.mem_cons_self hcalls
          have hdrop : (rest.dropWhile (·.role ≠ .assistant)).length ≤ fuel :=
            Nat.le_trans (List.dropWhile_sublist _).length_le hlen
          have hsub : Callable (rest.dropWhile (·.role ≠ .assistant)) :=
            fun x hx => h.tail x ((List.dropWhile_sublist _).subset hx)
          obtain ⟨blocks, hblocks, hflat⟩ := ih hsub hdrop
          refine ⟨group m (rest.takeWhile (·.role ≠ .assistant)) ++ blocks, ?_, ?_⟩
          · have hids : (m.calls.all (·.key.isSome) && decide (m.calls.map CallValue.key).Nodup) =
                true := by
              rw [Bool.and_eq_true, List.all_eq_true]
              exact ⟨hkeys, decide_eq_true hn⟩
            rw [normalizeFrom, if_neg ht, if_neg hcalls, decide_eq_true hrole, hids, hblocks]
            rfl
          · rw [List.flatten_append, hflat, group_flatten h hcalls]

/-- **The blocks of a conversation, one after the other, are its projection.** -/
theorem normalizeBlocks_project (h : Callable messages) :
    ∃ blocks, normalizeBlocks messages = .ok blocks ∧ blocks.flatten = project messages :=
  normalizeFrom_project h (Nat.le_refl _)

/-! ### The projection of a projection -/

theorem mem_project (h : m ∈ project l) : m ∈ l ∨ ∃ source ∈ l, ∃ rest,
    m = { source with calls := source.resolved rest } := by
  induction l with
  | nil => cases h
  | cons x l ih =>
    have htail : m ∈ project l → m ∈ x :: l ∨ ∃ source ∈ x :: l, ∃ rest,
        m = { source with calls := source.resolved rest } := by
      intro hm
      obtain hm | ⟨source, hsource, rest, rfl⟩ := ih hm
      · exact .inl (List.mem_cons_of_mem _ hm)
      · exact .inr ⟨source, List.mem_cons_of_mem _ hsource, rest, rfl⟩
    rw [project] at h
    split_ifs at h
    · exact htail h
    · rcases List.mem_cons.1 h with rfl | h
      · exact .inr ⟨x, List.mem_cons_self, l, rfl⟩
      · rcases List.mem_append.1 h with h | h
        · exact .inl (List.mem_cons_of_mem _ (mem_results h).1)
        · exact htail h

theorem Callable.project (h : Callable l) : Callable (project l) := by
  intro m hm hcalls
  obtain hm | ⟨source, hsource, rest, rfl⟩ := mem_project hm
  · exact h m hm hcalls
  · have hne : source.calls ≠ [] := by
      intro hnil
      exact hcalls (resolved_nil hnil)
    obtain ⟨hrole, hkeys, hn⟩ := h source hsource hne
    exact ⟨hrole, fun call hcall => hkeys call (List.mem_of_mem_filter hcall),
      hn.sublist (List.filter_sublist.map _)⟩

/-- Behind the results of a call, no result stands before the next message of the assistant. -/
theorem Paired.takeWhile (h : Paired l) : ∀ x ∈ l.takeWhile (·.role ≠ .assistant), x.role ≠ .tool := by
  induction h with
  | nil => nofun
  | @plain m rest ht hc hrest ih =>
    intro x hx
    rw [List.takeWhile_cons] at hx
    split at hx
    · rcases List.mem_cons.1 hx with rfl | hx
      · exact ht
      · exact ih x hx
    · cases hx
  | @exchange m results rest hrole hkeys hn htool hresults hrest ih =>
    intro x hx
    rw [List.cons_append, List.takeWhile_cons, if_neg (by simpa using hrole)] at hx
    cases hx

/-- The results behind a message are found by its calls. -/
theorem lastResult_of_paired {calls : List CallValue} {results : List Message}
    (hn : (calls.map CallValue.key).Nodup) (htool : ∀ r ∈ results, r.role = .tool ∧ r.calls = [])
    (hresults : results.map Message.callId = calls.map CallValue.key)
    (hrest : ∀ x ∈ rest.takeWhile (·.role ≠ .assistant), x.role ≠ .tool) :
    calls.map (lastResult (results ++ rest)) = results.map some := by
  have htake : (results ++ rest).takeWhile (·.role ≠ .assistant) =
      results ++ rest.takeWhile (·.role ≠ .assistant) := by
    refine List.takeWhile_append_of_pos ?_
    intro r hr
    rw [(htool r hr).1]
    rfl
  have hnone : ∀ call : CallValue, (rest.takeWhile (·.role ≠ .assistant)).filter (fun r =>
      r.role = .tool && r.callId = call.key) = [] := by
    intro call
    refine List.filter_eq_nil_iff.2 ?_
    intro x hx hboth
    rw [Bool.and_eq_true, decide_eq_true_eq] at hboth
    exact hrest x hx hboth.1
  have hfind : ∀ call ∈ calls, lastResult (results ++ rest) call =
      (results.filter fun r => r.callId = call.key).getLast? := by
    intro call _
    rw [lastResult, htake, List.filter_append, hnone, List.append_nil]
    congr 1
    refine List.filter_congr ?_
    intro r hr
    rw [decide_eq_true (htool r hr).1, Bool.true_and]
  rw [List.map_congr_left hfind]
  clear hfind hnone htake htool hrest
  induction calls generalizing results with
  | nil =>
    rw [List.map_nil, List.map_eq_nil_iff] at hresults
    rw [hresults]
    rfl
  | cons call calls ih =>
    cases results with
    | nil => cases hresults
    | cons r results =>
      rw [List.map_cons, List.map_cons, List.cons.injEq] at hresults
      rw [List.map_cons, List.nodup_cons] at hn
      have hother : ∀ c ∈ calls, ((r :: results).filter fun r' => r'.callId = c.key).getLast? =
          (results.filter fun r' => r'.callId = c.key).getLast? := by
        intro c hc
        have hne : r.callId ≠ c.key := by
          intro heq
          rw [hresults.1] at heq
          exact hn.1 (heq ▸ List.mem_map_of_mem hc)
        rw [List.filter_cons_of_neg (by simpa using hne)]
      have hown : (r :: results).filter (fun r' => r'.callId = call.key) = [r] := by
        rw [List.filter_cons_of_pos (by simpa using hresults.1), List.filter_eq_nil_iff.2]
        intro r' hr' heq
        rw [decide_eq_true_eq] at heq
        refine hn.1 ?_
        rw [← heq, ← hresults.2]
        exact List.mem_map_of_mem hr'
      rw [List.map_cons, hown, List.map_congr_left hother, ih hn.2 hresults.2, List.map_cons]
      rfl

/-- **Where calls and results are paired, there is nothing to project.** -/
theorem project_of_paired (hp : Paired l) (h : Callable l) : project l = l := by
  induction hp with
  | nil => rfl
  | @plain m rest ht hc hrest ih =>
    rw [project_plain ht hc, ih h.tail]
  | @exchange m results rest hrole hkeys hn htool hresults hrest ih =>
    have hcall : ∀ call ∈ m.calls, (lastResult (results ++ rest) call).isSome = true := by
      intro call hcall
      have hmem := List.mem_map_of_mem (f := lastResult (results ++ rest)) hcall
      rw [lastResult_of_paired hn htool hresults hrest.takeWhile] at hmem
      obtain ⟨r, -, hr⟩ := List.mem_map.1 hmem
      rw [← hr]
      rfl
    have hresolved : m.resolved (results ++ rest) = m.calls := List.filter_eq_self.2 hcall
    have hback : m.results (results ++ rest) = results := by
      have hsome : (m.results (results ++ rest)).map some = _ := results_some
      rw [hresolved, lastResult_of_paired hn htool hresults hrest.takeWhile] at hsome
      exact List.map_injective_iff.2 (Option.some_injective _) hsome
    have htail : Callable rest := fun x hx => h x (List.mem_append_right _ hx)
    have hgone : results.filter (·.role ≠ .tool) = [] := by
      refine List.filter_eq_nil_iff.2 ?_
      intro r hr hno
      exact of_decide_eq_true hno (htool r hr).1
    have hstays : (decide (m.role = .tool) || m.silent (results ++ rest)) = false := by
      rw [hrole, Message.silent, hresolved]
      by_cases hcalls : m.calls = [] <;> simp [hcalls]
    rw [List.cons_append, project, hstays, if_neg Bool.false_ne_true, hresolved, hback,
      project_append fun r hr => (htool r hr).2, hgone, List.nil_append, ih htail]

/-! ### What is kept -/

theorem project_others (l : List Message) :
    ((project l).filter (·.role ≠ .tool)).map Message.bare = (kept l).map Message.bare := by
  induction l with
  | nil => rfl
  | cons m rest ih =>
    rw [project, kept]
    split_ifs with hgoes
    · exact ih
    · rw [Bool.or_eq_true, not_or, decide_eq_true_eq] at hgoes
      have hresults : (m.results rest).filter (·.role ≠ .tool) = [] := by
        refine List.filter_eq_nil_iff.2 ?_
        intro r hr hno
        exact of_decide_eq_true hno (mem_results hr).2
      rw [List.filter_cons_of_pos (by simpa using hgoes.1), List.filter_append, hresults,
        List.nil_append, List.map_cons, List.map_cons, ih]
      rfl

/-- A call that is kept is one of the conversation, with its last results. -/
theorem project_last (h : Callable l) (hl : project l = a ++ m :: b) (hcalls : m.calls ≠ []) :
    ∃ pre source post results, l = pre ++ source :: post ∧
      m = { source with calls := source.resolved post } ∧ b = results ++ project post ∧
        results.map some = m.calls.map (lastResult post) := by
  induction l generalizing a with
  | nil => cases List.append_eq_nil_iff.1 hl.symm |>.2
  | cons x l ih =>
    have hstep : ∀ a, project l = a ++ m :: b → ∃ pre source post results,
        x :: l = pre ++ source :: post ∧ m = { source with calls := source.resolved post } ∧
          b = results ++ project post ∧ results.map some = m.calls.map (lastResult post) := by
      intro a' ha'
      obtain ⟨pre, source, post, results, rfl, hrest⟩ := ih h.tail ha'
      exact ⟨x :: pre, source, post, results, rfl, hrest⟩
    rw [project] at hl
    split_ifs at hl
    · exact hstep a hl
    · cases a with
      | nil =>
        rw [List.nil_append, List.cons.injEq] at hl
        obtain ⟨rfl, rfl⟩ := hl
        exact ⟨[], x, l, _, rfl, rfl, rfl, results_some⟩
      | cons y a =>
        rw [List.cons_append, List.cons.injEq] at hl
        obtain ⟨a', ha, hb⟩ | ⟨c, hc, hb⟩ := List.append_eq_append_iff.1 hl.2
        · exact hstep a' hb
        · cases c with
          | nil =>
            exact hstep [] hb.symm
          | cons z c =>
            rw [List.cons_append, List.cons.injEq] at hb
            have hmem : m ∈ x.results l := by
              rw [hc, hb.1]
              exact List.mem_append_right _ List.mem_cons_self
            have hassistant := (h m (List.mem_cons_of_mem _ (mem_results hmem).1) hcalls).1
            rw [(mem_results hmem).2] at hassistant
            cases hassistant

/-- **Block normalization is a pairing projection**: it accepts the conversation, every call has one
result, which is the last one given, every other message is kept once and in order, and the
normalization of what it returns is the same list. -/
theorem normalizeBlocks_projection (h : Callable messages) :
    ∃ blocks, normalizeBlocks messages = .ok blocks ∧ blocks.flatten = project messages ∧
      Projection messages blocks.flatten ∧
      (normalizeBlocks blocks.flatten).map List.flatten = .ok blocks.flatten := by
  obtain ⟨blocks, hblocks, hflat⟩ := normalizeBlocks_project h
  have hpaired : Paired blocks.flatten :=
    paired_flatten ((normalizeBlocks_paired_iff hblocks).2 h.assistantCalls)
  have hcallable : Callable blocks.flatten := hflat ▸ h.project
  refine ⟨blocks, hblocks, hflat, ⟨hpaired, ?_, ?_⟩, ?_⟩
  · intro a m b hl hcalls
    exact project_last h (hflat.symm.trans hl) hcalls
  · rw [hflat]
    exact project_others messages
  · obtain ⟨again, hagain, hsame⟩ := normalizeBlocks_project hcallable
    rw [hagain]
    exact congrArg Except.ok (hsame.trans (project_of_paired hpaired hcallable))

namespace Sample

/-- The result of a call. -/
def answer (id s : String) : Message :=
  { role := .tool, content := .text s, callId := some id }

/-- A call with two results, one without any, a question between them, and a result too late. -/
def search : List Message := [
  { role := .assistant, content := .null, calls := [.call (some "a") "", .call (some "b") ""] },
  answer "a" "first", told .user "wait", answer "a" "second", told .assistant "done",
  answer "b" "late"]

end Sample

example : project Sample.search = [
    { role := .assistant, content := .null, calls := [.call (some "a") ""] },
    Sample.answer "a" "second", Sample.told .user "wait", Sample.told .assistant "done"] := by
  decide

theorem normalizeBlocks_projection_search :
    ∃ blocks, normalizeBlocks Sample.search = .ok blocks ∧
      blocks.flatten = project Sample.search ∧ Projection Sample.search blocks.flatten ∧
      (normalizeBlocks blocks.flatten).map List.flatten = .ok blocks.flatten :=
  normalizeBlocks_projection (by decide)

end Context

end PythonAI
