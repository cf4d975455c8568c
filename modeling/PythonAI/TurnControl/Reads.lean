import PythonAI.TurnControl.Progress

/-!
# Reads after a write

A successful write drops the records of all reads of files, with their failures and their refusals.
It finds them through the records, and that suffices: a read that has failed or was refused has a
record (`Backed`).

* `read_after_write` : **a read after a successful write is admitted and not answered from an
  earlier one**.
-/

namespace PythonAI

open Library

namespace TurnControl

variable {env : Env} {s : State} {name : String} {args : Args} {r : Result} {k : Key}
  {f : Family}

/-- Every failure and every refusal of a read has a record. -/
structure Backed (s : State) : Prop where
  /-- a record has the name of its key -/
  name : ∀ x ∈ s.calls, x.name = x.key.name
  /-- a read that was refused has a record -/
  blocked : ∀ k ∈ s.blockedKeys, k.name ∈ fileReads → ∃ x ∈ s.calls, x.key = k
  /-- a read with failures has a record -/
  failures : ∀ k, k.name ∈ fileReads → s.failures (.call k) ≠ none → ∃ x ∈ s.calls, x.key = k
  /-- a call is refused once in the list -/
  nodup : s.blockedKeys.Nodup

/-- There is no record, failure or refusal of a read. -/
structure NoReads (s : State) : Prop where
  /-- no record -/
  calls : ∀ x ∈ s.calls, x.key.name ∉ fileReads
  /-- no refusal -/
  blocked : ∀ k ∈ s.blockedKeys, k.name ∉ fileReads
  /-- no failures -/
  failures : ∀ k, k.name ∈ fileReads → s.failures (.call k) = none

theorem backed_empty : Backed {} := ⟨nofun, nofun, fun _ _ h => absurd rfl h, List.nodup_nil⟩

theorem record_isSome : (s.record k).isSome ↔ ∃ x ∈ s.calls, x.key = k := by
  constructor
  · intro h
    obtain ⟨x, hx⟩ := Option.isSome_iff_exists.1 h
    exact ⟨x, Records.mem_of_find hx, Records.key_of_find hx⟩
  · rintro ⟨x, hx, rfl⟩
    obtain ⟨y, hy⟩ := Records.find_isSome Record.key hx
    rw [State.record, hy]
    rfl

/-- The family of a read is the call itself. -/
theorem family_of_ne (h : name ≠ "run_command") : family name args = .call (key name args) := by
  unfold family
  split
  · rw [if_neg fun hc => h hc.1]
  · rfl

theorem key_of_family (h : family name args = .call k) : key name args = k := by
  unfold family at h
  split at h
  · split_ifs at h
    exact Family.call.inj h
  · exact Family.call.inj h

theorem family_of_read (h : name ∈ fileReads) : family name args = .call (key name args) := by
  refine family_of_ne ?_
  rintro rfl
  exact absurd h (by decide)

theorem mem_foldl_erase (rows : List Record) {keys : List Key} (hn : keys.Nodup) :
    (k ∈ rows.foldl (fun keys x => keys.erase x.key) keys ↔ k ∈ keys ∧ ∀ x ∈ rows, x.key ≠ k) ∧
      (rows.foldl (fun keys x => keys.erase x.key) keys).Nodup := by
  induction rows generalizing keys with
  | nil => simp [hn]
  | cons x rows ih =>
    obtain ⟨hmem, hnodup⟩ := ih (hn.erase x.key)
    refine ⟨?_, hnodup⟩
    rw [List.foldl_cons, hmem, hn.mem_erase_iff, List.forall_mem_cons]
    constructor
    · rintro ⟨⟨hne, hk⟩, hrows⟩
      exact ⟨hk, hne.symm, hrows⟩
    · rintro ⟨hk, hne, hrows⟩
      exact ⟨⟨hne.symm, hk⟩, hrows⟩

/-- A read that is repeated has a record. -/
theorem Backed.of_repeats (h : Backed s) (hname : name ∈ fileReads)
    (hr : repeats s name args = true) : ∃ x ∈ s.calls, x.key = key name args := by
  have hbrowser : name ∉ browserTools := by
    intro hb
    simp only [fileReads, List.mem_cons, List.not_mem_nil, or_false] at hname
    rcases hname with rfl | rfl <;> exact absurd hb (by decide)
  simp only [repeats, Bool.or_eq_true, Bool.and_eq_true, decide_eq_true_eq] at hr
  rcases hr with ((hb | hb) | hb) | hb
  · exact h.blocked _ hb hname
  · exact absurd hb.1 hbrowser
  · obtain ⟨x, hx, -⟩ := (Option.any_eq_true _ _).1 hb.2
    exact record_isSome.1 (by rw [hx]; rfl)
  · rw [family_of_read hname] at hb
    refine h.failures _ hname fun hnone => ?_
    rw [State.failed, hnone] at hb
    exact absurd hb (by decide)

/-- What `before` does to the state: at most it counts a refusal and lists its key. -/
theorem before_state (s : State) (name : String) (args : Args) :
    (before s name args).1 = s ∨ (before s name args).1 = { s with blocked := s.blocked + 1 } ∨
      repeats s name args = true ∧ (before s name args).1 = { s with
        blocked := s.blocked + 1
        blockedKeys := if key name args ∈ s.blockedKeys then s.blockedKeys
          else s.blockedKeys ++ [key name args] } := by
  unfold before
  dsimp only
  by_cases h₁ : name ∈ reusableReads ∧ (s.record (key name args)).any (·.success)
  · rw [if_pos h₁]
    exact .inl rfl
  rw [if_neg h₁]
  by_cases h₂ : name = "search_web" ∧ s.searchResultKey.isSome
  · rw [if_pos h₂]
    exact .inl rfl
  rw [if_neg h₂]
  by_cases h₃ : name = "search_web" ∧ s.searchRateLimited
  · rw [if_pos h₃]
    exact .inr (.inl rfl)
  rw [if_neg h₃]
  by_cases h₄ : (navigation name args).any (· ∈ s.navigationTimeouts)
  · rw [if_pos h₄]
    exact .inr (.inl rfl)
  rw [if_neg h₄]
  by_cases h₅ : repeats s name args
  · rw [if_pos h₅]
    exact .inr (.inr ⟨h₅, rfl⟩)
  · rw [if_neg h₅]
    exact .inl rfl

theorem Backed.before (h : Backed s) : Backed (before s name args).1 := by
  rcases before_state s name args with hs | hs | ⟨hr, hs⟩
  · rw [hs]
    exact h
  · rw [hs]
    exact ⟨h.name, h.blocked, h.failures, h.nodup⟩
  · rw [hs]
    by_cases hmem : key name args ∈ s.blockedKeys
    · rw [if_pos hmem]
      exact ⟨h.name, h.blocked, h.failures, h.nodup⟩
    · rw [if_neg hmem]
      refine ⟨h.name, fun k hk hname => ?_, h.failures, ?_⟩
      · rcases List.mem_append.1 hk with hk | hk
        · exact h.blocked k hk hname
        · rw [List.mem_singleton.1 hk] at hname ⊢
          exact h.of_repeats hname hr
      · refine List.nodup_append.2 ⟨h.nodup, List.nodup_singleton _, ?_⟩
        rintro a ha b hb rfl
        exact hmem (List.mem_singleton.1 hb ▸ ha)

/-- A successful write drops every trace of a read. -/
theorem Backed.dropReads (h : Backed s) : Backed (dropReads s) ∧ NoReads (dropReads s) := by
  have herase (k : Key) := mem_foldl_erase (k := k) (s.calls.filter (·.name ∈ fileReads)) h.nodup
  have hold : ∀ k : Key, k.name ∈ fileReads → (∃ x ∈ s.calls, x.key = k) →
      ∃ x ∈ s.calls.filter (·.name ∈ fileReads), x.key = k := by
    rintro k hk ⟨x, hx, rfl⟩
    refine ⟨x, List.mem_filter.2 ⟨hx, ?_⟩, rfl⟩
    rw [h.name x hx]
    exact decide_eq_true hk
  have hno : NoReads (TurnControl.dropReads s) := by
    refine ⟨fun x hx hk => ?_, fun k hk hname => ?_, fun k hname => ?_⟩
    · obtain ⟨hx, hne⟩ := List.mem_filter.1 hx
      rw [h.name x hx] at hne
      exact of_decide_eq_true hne hk
    · obtain ⟨hkeys, hrows⟩ := (herase k).1.1 hk
      obtain ⟨x, hx, rfl⟩ := hold k hname (h.blocked k hkeys hname)
      exact hrows x hx rfl
    · change (if _ then _ else _) = _
      split_ifs with hany
      · rfl
      · by_contra hf
        obtain ⟨x, hx, rfl⟩ := hold k hname (h.failures k hname hf)
        exact hany (List.any_eq_true.2 ⟨x, hx, decide_eq_true rfl⟩)
  refine ⟨⟨fun x hx => h.name x (List.mem_filter.1 hx).1, ?_, ?_, (herase ⟨"", []⟩).2⟩, hno⟩
  · exact fun k hk hname => absurd hname (hno.blocked k hk)
  · exact fun k hname hf => absurd (hno.failures k hname) hf

theorem Backed.note (h : Backed s) : Backed (note env s name args r) ∧
    (r.success = true → name ∈ writes → NoReads (note env s name args r)) := by
  have hmarked : Backed (marked env s name args r) := ⟨h.name, h.blocked, h.failures, h.nodup⟩
  unfold TurnControl.note
  by_cases hw : r.success ∧ name ∈ writes
  · rw [if_pos hw]
    exact ⟨hmarked.dropReads.1, fun _ _ => hmarked.dropReads.2⟩
  · rw [if_neg hw]
    exact ⟨hmarked, fun hs hn => absurd ⟨hs, hn⟩ hw⟩

theorem call_ne (k : Key) : Family.call k ≠ .environment := nofun

/-- Recording a call changes the failures of its family and of the environment only. -/
theorem failuresOf_of_ne (hf : f ≠ .environment) : failuresOf env s name args r f =
    if family name args = f then some (if r.success then 0 else s.failed f + 1)
    else s.failures f := by
  have hset : (s.failures.set (family name args)
      (if r.success then 0 else s.failed (family name args) + 1)) f =
      if family name args = f then some (if r.success then 0 else s.failed f + 1)
      else s.failures f := by
    rw [Table.set_apply]
    by_cases hfam : family name args = f
    · rw [if_pos hfam.symm, if_pos hfam, hfam]
    · rw [if_neg fun h => hfam h.symm, if_neg hfam]
  rw [← hset]
  by_cases hb : r.success ∧ name ∈ browserTools
  · have hout : failuresOf env s name args r = Table.erase (s.failures.set (family name args)
        (if r.success then 0 else s.failed (family name args) + 1)) .environment := if_pos hb
    rw [hout]
    exact Table.erase_of_ne _ _ hf
  · by_cases he : environmentFamily env name r = true
    · have hout : ∃ n, failuresOf env s name args r = Table.set (s.failures.set (family name args)
          (if r.success then 0 else s.failed (family name args) + 1)) .environment n :=
        ⟨_, (if_neg hb).trans (if_pos he)⟩
      obtain ⟨n, hout⟩ := hout
      rw [hout]
      exact Table.set_of_ne _ _ _ hf
    · have hout : failuresOf env s name args r = s.failures.set (family name args)
          (if r.success then 0 else s.failed (family name args) + 1) :=
        (if_neg hb).trans (if_neg he)
      rw [hout]

theorem Backed.recordCall (h : Backed s) : Backed (recordCall env s name args r) := by
  have hkeep : ∀ k, (∃ x ∈ s.calls, x.key = k) →
      ∃ x ∈ (TurnControl.recordCall env s name args r).calls, x.key = k := by
    rintro k ⟨x, hx, rfl⟩
    by_cases hk : x.key = key name args
    · exact ⟨_, List.mem_append_right _ (List.mem_singleton_self _), hk.symm⟩
    · exact ⟨x, List.mem_append_left _ (List.mem_filter.2 ⟨hx, decide_eq_true hk⟩), rfl⟩
  refine ⟨fun x hx => ?_, fun k hk hname => hkeep k (h.blocked k hk hname), fun k hname hf => ?_,
    h.nodup⟩
  · rcases List.mem_append.1 hx with hx | hx
    · exact h.name x (List.mem_filter.1 hx).1
    · rw [List.mem_singleton.1 hx]
      rfl
  · change failuresOf env s name args r (.call k) ≠ none at hf
    rw [failuresOf_of_ne (call_ne k)] at hf
    by_cases hfam : family name args = .call k
    · exact ⟨_, List.mem_append_right _ (List.mem_singleton_self _), key_of_family hfam⟩
    · rw [if_neg hfam] at hf
      exact hkeep k (h.failures k hname hf)

/-- Recording a call that is no read leaves no trace of one. -/
theorem NoReads.recordCall (h : NoReads s) (hname : name ∉ fileReads) :
    NoReads (recordCall env s name args r) := by
  refine ⟨fun x hx => ?_, h.blocked, fun k hk => ?_⟩
  · rcases List.mem_append.1 hx with hx | hx
    · exact h.calls x (List.mem_filter.1 hx).1
    · rw [List.mem_singleton.1 hx]
      exact hname
  · change failuresOf env s name args r (.call k) = none
    rw [failuresOf_of_ne (call_ne k), if_neg, h.failures k hk]
    intro hfam
    rw [← key_of_family hfam] at hk
    exact hname hk

theorem Backed.observe (h : Backed s) : Backed (observe env s name args r).1 :=
  h.note.1.recordCall

/-- After a successful write there is no trace of a read. -/
theorem Backed.observe_write (h : Backed s) (hr : r.success = true) (hname : name ∈ writes) :
    NoReads (TurnControl.observe env s name args r).1 := by
  refine (h.note.2 hr hname).recordCall fun hread => ?_
  simp only [fileReads, List.mem_cons, List.not_mem_nil, or_false] at hread
  rcases hread with rfl | rfl <;> exact absurd hname (by decide)

/-- A read without a trace is admitted, and not answered from an earlier one. -/
theorem NoReads.admits (h : NoReads s) (hname : name ∈ fileReads) :
    TurnControl.before s name args = (s, none) ∧ reusableRecord s name args = none := by
  have hsearch : name ≠ "search_web" := by
    rintro rfl
    exact absurd hname (by decide)
  have hrecord : s.record (key name args) = none := by
    cases hrec : s.record (key name args) with
    | none => rfl
    | some x =>
      have hx := h.calls x (Records.mem_of_find hrec)
      rw [Records.key_of_find hrec] at hx
      exact absurd hname hx
  have hnav : navigation name args = none := by
    unfold navigation
    rw [if_neg]
    rintro ⟨rfl, -⟩
    exact absurd hname (by decide)
  have hrep : repeats s name args = false := by
    have hbrowser : name ∉ browserTools := by
      intro hb
      simp only [fileReads, List.mem_cons, List.not_mem_nil, or_false] at hname
      rcases hname with rfl | rfl <;> exact absurd hb (by decide)
    have hfail : s.failed (family name args) = 0 := by
      rw [family_of_read hname, State.failed, h.failures _ hname]
      rfl
    have hblocked : key name args ∉ s.blockedKeys := fun hk => h.blocked _ hk hname
    simp [repeats, hbrowser, hblocked, hrecord, hfail]
  constructor
  · simp [TurnControl.before, hrecord, hsearch, hnav, hrep]
  · simp [reusableRecord, hrecord, hsearch]

theorem Backed.setSource (h : Backed s) {source : String} : Backed (setSource s k source) := by
  have hkeep : ∀ k', (∃ x ∈ s.calls, x.key = k') →
      ∃ x ∈ (TurnControl.setSource s k source).calls, x.key = k' := by
    rintro k' ⟨x, hx, rfl⟩
    refine ⟨_, List.mem_map_of_mem hx, ?_⟩
    split_ifs <;> rfl
  refine ⟨fun x hx => ?_, fun k' hk hn => hkeep k' (h.blocked k' hk hn),
    fun k' hn hf => hkeep k' (h.failures k' hn hf), h.nodup⟩
  obtain ⟨y, hy, rfl⟩ := List.mem_map.1 hx
  have hname := h.name y hy
  split_ifs
  · exact hname
  · exact hname

theorem NoReads.setSource (h : NoReads s) {source : String} :
    NoReads (TurnControl.setSource s k source) := by
  refine ⟨fun x hx => ?_, h.blocked, h.failures⟩
  obtain ⟨y, hy, rfl⟩ := List.mem_map.1 hx
  have hname := h.calls y hy
  split_ifs
  · exact hname
  · exact hname

/-! ### The calls of `run_agent` -/

variable {a : Agent} {c : Call} {o : Observation}

theorem Agent.ask_fst (a : Agent) (env : Env) (c : Call) :
    ∃ name args, (a.ask env c).1 = (before a.progress name args).1 := by
  cases c with
  | hooked id name args message => exact ⟨name, args, rfl⟩
  | tool id name args answer shown =>
    refine ⟨name, args, ?_⟩
    rcases h : TurnControl.before a.progress name args with ⟨s, _ | refusal⟩
    · simp only [ask, h]
    · simp only [ask, h]

theorem Agent.backed_step (h : Backed a.progress) : Backed (a.step env c).progress := by
  obtain ⟨name, args, hfst⟩ := a.ask_fst env c
  have hs : Backed (a.ask env c).1 := hfst ▸ h.before
  unfold step
  generalize a.ask env c = out at hs
  obtain ⟨s, _ | o⟩ := out
  · exact hs
  · dsimp only
    cases o.source with
    | none => exact hs.observe
    | some source => exact hs.observe.setSource

/-- In every turn, every failure and every refusal of a read has a record. -/
theorem Agent.backed_run (calls : List Call) : Backed (Agent.run env calls).progress := by
  unfold Agent.run
  induction calls using List.reverseRecOn with
  | nil => exact backed_empty
  | append_singleton calls c ih =>
    rw [List.foldl_append]
    exact Agent.backed_step ih

/-- A call that `before` admits is a call of the tool. -/
theorem Agent.ask_tool {id : String} {answer : Option Result} {shown : Result → Result}
    (h : TurnControl.before a.progress name args = (s, none)) :
    a.ask env (.tool id name args answer shown) =
      (s, answer.map fun r => ⟨name, args, r, some id⟩) := by
  simp only [ask, h]

/-- **A read after a successful write is admitted, not answered from an earlier one, and done
again**, whatever the calls of the turn were. -/
theorem read_after_write (calls : List Call) {s : State}
    (hobserve : (Agent.run env calls).ask env c = (s, some o)) (hwrite : o.name ∈ writes)
    (hsuccess : o.result.success = true) (hread : name ∈ fileReads) :
    let after := (Agent.run env calls).step env c
    before after.progress name args = (after.progress, none) ∧
      reusableRecord after.progress name args = none ∧
      ∀ id answer shown, after.ask env (.tool id name args answer shown) =
        (after.progress, answer.map fun r => ⟨name, args, r, some id⟩) := by
  have hs : Backed s := by
    obtain ⟨name', args', hfst⟩ := (Agent.run env calls).ask_fst env c
    rw [hobserve] at hfst
    dsimp only at hfst
    rw [hfst]
    exact (Agent.backed_run calls).before
  have hno : NoReads (TurnControl.observe env s o.name o.args o.result).1 :=
    hs.observe_write hsuccess hwrite
  have hadmits : before ((Agent.run env calls).step env c).progress name args =
      (((Agent.run env calls).step env c).progress, none) ∧
      reusableRecord ((Agent.run env calls).step env c).progress name args = none := by
    unfold Agent.step
    rw [hobserve]
    dsimp only
    cases o.source with
    | none => exact hno.admits hread
    | some source => exact hno.setSource.admits hread
  exact ⟨hadmits.1, hadmits.2, fun id answer shown => Agent.ask_tool hadmits.1⟩

/-- A read that was reused is done again after its file is written. -/
theorem read_after_write_reused :
    let path : Args := [("path", .str "a")]
    let env : Env := ⟨fun text => text, fun _ => false, fun _ => ""⟩
    let read (id : String) : Call := .tool id "read_file" path (some ⟨true, "old", "", none, none⟩)
      fun r => r
    let write : Call := .tool "w" "write_file" path (some ⟨true, "", "", none, none⟩) fun r => r
    let after := (Agent.run env [read "x", read "y"]).step env write
    before after.progress "read_file" path = (after.progress, none) ∧
      reusableRecord after.progress "read_file" path = none ∧
      ∀ id answer shown, after.ask env (.tool id "read_file" path answer shown) =
        (after.progress, answer.map fun r => ⟨"read_file", path, r, some id⟩) :=
  read_after_write _ rfl (by decide) rfl (by decide)

end TurnControl

end PythonAI
