import PythonAI.TurnControl.Reads

/-!
# Repetitions

A call is a repetition when the last two observations are of it and ended in the same way, when its
family has failed twice since its last success, or, for the tools of the browser, when the
environment has.  `before` refuses it then, and lists its key; nothing but a successful write takes
a key off that list, and only the key of a read.  So a call that was refused once stays refused,
although another step came in between.

A history has its newest event first.

* `refuses_iff` : **`before` refuses exactly the repetitions and the calls that it refused before**;
* `refuses_only_repetitions_iff` : **a call is refused only as a repetition, unless it was asked for
  as one before**;
* `refused_for_good` : a command that is refused after another one has succeeded.
-/

namespace PythonAI

open Library

namespace TurnControl

/-! ### Histories -/

/-- What `observe` is told. -/
structure Seen where
  /-- the name of the tool -/
  name : String
  /-- its arguments -/
  args : Args
  /-- the result -/
  result : Result
  deriving DecidableEq, Repr

/-- The key of an observed call. -/
def Seen.key (o : Seen) : Key := TurnControl.key o.name o.args

/-- The family of an observed call. -/
def Seen.family (o : Seen) : Family := TurnControl.family o.name o.args

/-- A call of a method of `TurnProgress`. -/
inductive Event
  /-- `before` -/
  | before (name : String) (args : Args)
  /-- `observe` -/
  | observe (seen : Seen)
  deriving DecidableEq, Repr

variable (env : Env)

/-- The state after an event. -/
def Event.apply (s : State) : Event → State
  | .before name args => (TurnControl.before s name args).1
  | .observe o => (TurnControl.observe env s o.name o.args o.result).1

/-- The state after a history. -/
def after : List Event → State
  | [] => {}
  | e :: es => e.apply env (after es)

/-- What a history has observed. -/
def observed : List Event → List Seen
  | [] => []
  | .before .. :: es => observed es
  | .observe o :: es => o :: observed es

/-- The last two observations are of the call, with the same outcome. -/
def Twice (k : Key) : List Seen → Prop
  | o :: o' :: _ => o.key = k ∧ o'.key = k ∧ o.result.outcome = o'.result.outcome
  | _ => False

instance (k : Key) : DecidablePred (Twice k)
  | [] | [_] => isFalse id
  | o :: o' :: _ =>
    inferInstanceAs (Decidable (o.key = k ∧ o'.key = k ∧ o.result.outcome = o'.result.outcome))

/-- The failures of a family since its last success. -/
def failures (f : Family) (os : List Seen) : ℕ :=
  ((os.filter (·.family = f)).takeWhile fun o => !o.result.success).length

/-- The failures of the browser's environment since the last success of a tool of the browser. -/
def environmentFailures (os : List Seen) : ℕ :=
  (os.takeWhile fun o => !(o.result.success && o.name ∈ browserTools)).countP fun o =>
    environmentFamily env o.name o.result

/-- The call is a repetition. -/
def Repetition (es : List Event) (name : String) (args : Args) : Prop :=
  Twice (key name args) (observed es) ∨ 2 ≤ failures (family name args) (observed es) ∨
    name ∈ browserTools ∧ 2 ≤ environmentFailures env (observed es)

instance (es : List Event) (name : String) (args : Args) :
    Decidable (Repetition env es name args) :=
  inferInstanceAs (Decidable (_ ∨ _ ∨ _))

/-- The navigation of the call timed out. -/
def TimedOut (es : List Event) (name : String) (args : Args) : Prop :=
  ∃ o ∈ observed es, ∃ url ∈ timedOut env o.name o.args o.result, url ∈ navigation name args

instance (es : List Event) (name : String) (args : Args) :
    Decidable (TimedOut env es name args) :=
  inferInstanceAs (Decidable (∃ o ∈ observed es, _))

variable {env} {s : State} {name : String} {args : Args} {r : Result} {k : Key} {f : Family}
  {es : List Event} {o : Seen} {os : List Seen}

theorem failures_cons : failures f (o :: os) =
    if o.family = f then (if o.result.success then 0 else failures f os + 1) else failures f os := by
  unfold failures
  by_cases hf : o.family = f
  · rw [List.filter_cons_of_pos (by simpa using hf), if_pos hf]
    cases hs : o.result.success with
    | false => simp [hs]
    | true => simp [hs]
  · rw [List.filter_cons_of_neg (by simpa using hf), if_neg hf]

theorem environmentFailures_cons : environmentFailures env (o :: os) =
    if o.result.success ∧ o.name ∈ browserTools then 0
    else environmentFailures env os + if environmentFamily env o.name o.result then 1 else 0 := by
  unfold environmentFailures
  by_cases h : o.result.success ∧ o.name ∈ browserTools
  · rw [if_pos h, List.takeWhile_cons_of_neg (by simpa using h)]
    rfl
  · rw [if_neg h, List.takeWhile_cons_of_pos (by simpa [-not_and, not_and_or] using h),
      List.countP_cons]

/-! ### What a successful write leaves alone -/

/-- The family is neither a read of a file nor the environment. -/
def Lasting (f : Family) : Prop := f ≠ .environment ∧ ∀ k, f = .call k → k.name ∉ fileReads

theorem lasting_family (h : name ∉ fileReads) : Lasting (family name args) := by
  refine ⟨fun hf => ?_, fun k hf => ?_⟩
  · unfold family at hf
    split at hf
    · split_ifs at hf
    · cases hf
  · rw [← key_of_family hf]
    exact h

theorem mem_dropReads (h : Backed s) (hk : k.name ∉ fileReads) :
    k ∈ (dropReads s).blockedKeys ↔ k ∈ s.blockedKeys := by
  refine (mem_foldl_erase _ h.nodup).1.trans (and_iff_left fun x hx hkey => hk ?_)
  obtain ⟨hx, hname⟩ := List.mem_filter.1 hx
  rw [← hkey, ← h.name x hx]
  exact of_decide_eq_true hname

theorem record_dropReads (h : Backed s) (hk : k.name ∉ fileReads) :
    (dropReads s).record k = s.record k := by
  refine Records.find_filter fun x hx hkey => decide_eq_true ?_
  rw [h.name x hx, hkey]
  exact hk

theorem failures_dropReads (h : Backed s) (hf : ∀ k, f = .call k → k.name ∉ fileReads) :
    (dropReads s).failures f = s.failures f := by
  refine if_neg fun hany => ?_
  obtain ⟨x, hx, hxf⟩ := List.any_eq_true.1 hany
  obtain ⟨hx, hname⟩ := List.mem_filter.1 hx
  rw [h.name x hx] at hname
  exact hf x.key (of_decide_eq_true hxf).symm (of_decide_eq_true hname)

/-- What `note` leaves alone of calls that are no reads of files. -/
theorem note_spec (h : Backed s) (env : Env) (name : String) (args : Args) (r : Result) :
    (note env s name args r).lastKey = s.lastKey ∧
    (note env s name args r).navigationTimeouts =
      (marked env s name args r).navigationTimeouts ∧
    (∀ k, k.name ∉ fileReads → (k ∈ (note env s name args r).blockedKeys ↔ k ∈ s.blockedKeys) ∧
      (note env s name args r).record k = s.record k) ∧
    ∀ f, (∀ k, f = .call k → k.name ∉ fileReads) →
      (note env s name args r).failures f = s.failures f := by
  have hmarked : Backed (marked env s name args r) := ⟨h.name, h.blocked, h.failures, h.nodup⟩
  unfold note
  by_cases hw : r.success ∧ name ∈ writes
  · rw [if_pos hw]
    exact ⟨rfl, rfl, fun k hk => ⟨mem_dropReads hmarked hk, record_dropReads hmarked hk⟩,
      fun f hf => failures_dropReads hmarked hf⟩
  · rw [if_neg hw]
    exact ⟨rfl, rfl, fun k _ => ⟨Iff.rfl, rfl⟩, fun f _ => rfl⟩

/-! ### The state of a history -/

variable (env) in
/-- The state has what the history says of calls that are no reads of files. -/
structure Agrees (es : List Event) (s : State) : Prop where
  /-- every failure and every refusal of a read has a record -/
  backed : Backed s
  /-- `last_key` is that of the last observation -/
  last : s.lastKey = (observed es).head?.map Seen.key
  /-- its record counts how often it ended so -/
  record : ∀ o os, observed es = o :: os → o.key.name ∉ fileReads → ∃ x, s.record o.key = some x ∧
    x.outcome = o.result.outcome ∧ 1 ≤ x.repeats ∧ (2 ≤ x.repeats ↔ Twice o.key (o :: os))
  /-- the failures of a family are those since its last success -/
  failures : ∀ f, Lasting f → s.failed f = TurnControl.failures f (observed es)
  /-- and so are those of the environment -/
  environment : s.failed .environment = environmentFailures env (observed es)
  /-- the navigations that timed out -/
  navigation : ∀ url, url ∈ s.navigationTimeouts ↔
    ∃ o ∈ observed es, timedOut env o.name o.args o.result = some url

theorem agrees_nil : Agrees env [] {} where
  backed := backed_empty
  last := rfl
  record := nofun
  failures := fun _ _ => rfl
  environment := rfl
  navigation := fun _ => ⟨nofun, nofun⟩

/-- `before` changes the refusals only. -/
theorem Agrees.before (h : Agrees env es s) :
    Agrees env (.before name args :: es) (before s name args).1 := by
  have hbacked : Backed (TurnControl.before s name args).1 := h.backed.before
  rcases before_state s name args with hs | hs | ⟨-, hs⟩
  all_goals
    rw [hs] at hbacked ⊢
    exact ⟨hbacked, h.last, h.record, h.failures, h.environment, h.navigation⟩

theorem record_recordCall :
    (recordCall env s name args r).record (key name args) =
      some ⟨key name args, r.outcome, repeatsOf s (key name args) r, r.success, name, none⟩ := by
  have hother : ∀ y ∈ s.calls.filter (·.key ≠ key name args), Record.key y ≠
      Record.key ⟨key name args, r.outcome, repeatsOf s (key name args) r, r.success, name, none⟩ :=
    fun y hy => by simpa using (List.mem_filter.1 hy).2
  exact Records.find_append_new hother

theorem repeatsOf_pos : 1 ≤ repeatsOf s k r := by
  unfold repeatsOf
  split
  · split_ifs
    · exact Nat.le_add_left ..
    · exact le_rfl
  · exact le_rfl

/-- The count goes on where the last two observations are of the call and ended in the same way. -/
theorem Agrees.repeatsOf_iff (h : Agrees env es s) (ho : o.key.name ∉ fileReads) :
    2 ≤ repeatsOf (note env s o.name o.args o.result) o.key o.result ↔
      Twice o.key (o :: observed es) := by
  obtain ⟨hlast, -, hkeep, -⟩ := note_spec h.backed env o.name o.args o.result
  unfold repeatsOf
  rw [hlast, (hkeep _ ho).2, h.last]
  cases hes : observed es with
  | nil =>
    refine ⟨fun hle => ?_, False.elim⟩
    split at hle
    · rw [if_neg fun hc => nomatch hc.1] at hle
      omega
    · omega
  | cons o' os =>
    by_cases hk : o'.key = o.key
    · obtain ⟨x, hx, hout, hpos, -⟩ := h.record o' os hes (hk ▸ ho)
      rw [hk] at hx
      rw [hx]
      dsimp only
      by_cases he : x.outcome = o.result.outcome
      · rw [if_pos ⟨congrArg some hk, he⟩]
        exact ⟨fun _ => ⟨rfl, hk, (hout ▸ he).symm⟩, fun _ => by omega⟩
      · rw [if_neg fun hc => he hc.2]
        exact ⟨fun hle => by omega, fun ht => absurd (hout.trans ht.2.2.symm) he⟩
    · refine ⟨fun hle => ?_, fun ht => absurd ht.2.1 hk⟩
      split at hle
      · rw [if_neg fun hc => hk (Option.some.inj hc.1)] at hle
        omega
      · omega

theorem failed_of_eq {t : State} (h : s.failures f = t.failures f) : s.failed f = t.failed f := by
  rw [State.failed, State.failed, h]

/-- The failures of a lasting family after a call. -/
theorem failed_recordCall (hf : Lasting f) : (recordCall env s name args r).failed f =
    if family name args = f then (if r.success then 0 else s.failed f + 1) else s.failed f := by
  refine (congrArg (·.getD 0) (failuresOf_of_ne hf.1)).trans ?_
  split_ifs
  · rfl
  · rfl
  · rfl

/-- The failures of the environment after a call. -/
theorem failed_environment : (recordCall env s name args r).failed .environment =
    if r.success ∧ name ∈ browserTools then 0
    else s.failed .environment + if environmentFamily env name r then 1 else 0 := by
  have hne : Family.environment ≠ family name args := by
    unfold family
    split
    · split_ifs
      · nofun
      · nofun
    · nofun
  have hset := Table.set_of_ne s.failures (family name args)
    (if r.success then 0 else s.failed (family name args) + 1) hne
  change (failuresOf env s name args r .environment).getD 0 = _
  by_cases hb : r.success ∧ name ∈ browserTools
  · have hout : failuresOf env s name args r = Table.erase (s.failures.set (family name args)
        (if r.success then 0 else s.failed (family name args) + 1)) .environment := if_pos hb
    rw [hout, if_pos hb]
    exact congrArg (Option.getD · 0) (Table.erase_same ..)
  · rw [if_neg hb]
    by_cases he : environmentFamily env name r = true
    · have hout : failuresOf env s name args r = Table.set (s.failures.set (family name args)
          (if r.success then 0 else s.failed (family name args) + 1)) .environment
          (((s.failures.set (family name args)
            (if r.success then 0 else s.failed (family name args) + 1)) .environment).getD 0 + 1) :=
        (if_neg hb).trans (if_pos he)
      rw [hout, if_pos he, hset]
      exact congrArg (Option.getD · 0) (Table.set_same ..)
    · have hout : failuresOf env s name args r = s.failures.set (family name args)
          (if r.success then 0 else s.failed (family name args) + 1) :=
        (if_neg hb).trans (if_neg he)
      rw [hout, if_neg he, hset]
      rfl

theorem navigationTimeouts_marked (url : String) :
    url ∈ (marked env s name args r).navigationTimeouts ↔
      url ∈ s.navigationTimeouts ∨ timedOut env name args r = some url := by
  unfold marked
  dsimp only
  cases timedOut env name args r with
  | none => simp
  | some url' =>
    dsimp only
    by_cases hmem : url' ∈ s.navigationTimeouts
    · rw [if_pos hmem]
      refine ⟨.inl, ?_⟩
      rintro (h | h)
      · exact h
      · exact Option.some.inj h ▸ hmem
    · rw [if_neg hmem, List.mem_append, List.mem_singleton]
      refine or_congr_right ⟨?_, ?_⟩
      · rintro rfl
        rfl
      · rintro ⟨⟩
        rfl

/-- One observation. -/
theorem Agrees.observe (h : Agrees env es s) :
    Agrees env (.observe o :: es) (observe env s o.name o.args o.result).1 := by
  obtain ⟨-, hnav, -, hfail⟩ := note_spec h.backed env o.name o.args o.result
  refine ⟨h.backed.observe, rfl, ?_, fun f hf => ?_, ?_, fun url => ?_⟩
  · rintro _ _ ⟨⟩ ho
    exact ⟨_, record_recordCall, rfl, repeatsOf_pos, h.repeatsOf_iff ho⟩
  · refine (failed_recordCall hf).trans ?_
    rw [failed_of_eq (hfail f hf.2), h.failures f hf]
    exact failures_cons.symm
  · refine failed_environment.trans ?_
    rw [failed_of_eq (hfail .environment nofun), h.environment]
    exact environmentFailures_cons.symm
  · change url ∈ (note env s o.name o.args o.result).navigationTimeouts ↔
      ∃ o' ∈ o :: observed es, _
    rw [hnav, navigationTimeouts_marked, h.navigation, List.exists_mem_cons_iff, or_comm]

/-- The state after a history has what the history says. -/
theorem agrees (env : Env) (es : List Event) : Agrees env es (after env es) := by
  induction es with
  | nil => exact agrees_nil
  | cons e es ih =>
    cases e with
    | before name args => exact ih.before
    | observe o => exact ih.observe

/-! ### What `before` refuses -/

theorem not_fileRead (h : name ∉ reusableReads) : name ∉ fileReads := by
  intro hread
  simp only [fileReads, List.mem_cons, List.not_mem_nil, or_false] at hread
  rcases hread with rfl | rfl <;> exact h (by decide)

/-- Only `fetch_url` has arguments that do not count. -/
theorem key_inj {name' : String} {args' : Args} (h : name ∉ reusableReads)
    (hk : key name' args' = key name args) : name' = name ∧ args' = args := by
  have hname : name' = name := congrArg Key.name hk
  have hfetch : name ≠ "fetch_url" := by
    rintro rfl
    exact h (by decide)
  have hargs := congrArg Key.args hk
  unfold key at hargs
  rw [if_neg hfetch, if_neg (hname ▸ hfetch)] at hargs
  exact ⟨hname, hargs⟩

/-- What `before` does with a call that is no reusable read. -/
theorem before_of_not_read (h : name ∉ reusableReads) : before s name args =
    if (navigation name args).any (· ∈ s.navigationTimeouts) then
      ({ s with blocked := s.blocked + 1 }, some .navigation)
    else if repeats s name args then
      ({ s with
        blocked := s.blocked + 1
        blockedKeys := if key name args ∈ s.blockedKeys then s.blockedKeys
          else s.blockedKeys ++ [key name args] }, some .repeated)
    else (s, none) := by
  have hsearch : name ≠ "search_web" := by
    rintro rfl
    exact h (by decide)
  unfold before
  dsimp only
  rw [if_neg fun hc => h hc.1, if_neg fun hc => hsearch hc.1, if_neg fun hc => hsearch hc.1]

theorem navigation_iff (h : Agrees env es s) :
    (navigation name args).any (· ∈ s.navigationTimeouts) = true ↔ TimedOut env es name args := by
  rw [Option.any_eq_true]
  constructor
  · rintro ⟨url, hurl, hmem⟩
    obtain ⟨o, ho, htimed⟩ := (h.navigation url).1 (of_decide_eq_true hmem)
    exact ⟨o, ho, url, htimed, hurl⟩
  · rintro ⟨o, ho, url, htimed, hurl⟩
    exact ⟨url, hurl, decide_eq_true ((h.navigation url).2 ⟨o, ho, htimed⟩)⟩

/-- The last rule of `before`: the call is a repetition, or its key is on the list. -/
theorem Agrees.repeats_iff (h : Agrees env es s) (hname : name ∉ reusableReads) :
    repeats s name args = true ↔ key name args ∈ s.blockedKeys ∨ Repetition env es name args := by
  have hread : (key name args).name ∉ fileReads := not_fileRead hname
  have htwice : (s.lastKey = some (key name args) ∧
      (s.record (key name args)).any (2 ≤ ·.repeats) = true) ↔
      Twice (key name args) (observed es) := by
    rw [h.last]
    cases hes : observed es with
    | nil => exact ⟨fun hc => (nomatch hc.1), False.elim⟩
    | cons o os =>
      by_cases hk : o.key = key name args
      · obtain ⟨x, hx, -, -, hrepeats⟩ := h.record o os hes (hk ▸ hread)
        rw [hk] at hx hrepeats
        rw [hx, ← hrepeats]
        exact ⟨fun hc => of_decide_eq_true hc.2, fun hle => ⟨congrArg some hk, decide_eq_true hle⟩⟩
      · refine ⟨fun hc => absurd (Option.some.inj hc.1) hk, fun ht => ?_⟩
        cases os with
        | nil => exact ht.elim
        | cons o' os => exact absurd ht.1 hk
  rw [repeats]
  simp only [Bool.or_eq_true, Bool.and_eq_true, decide_eq_true_eq]
  rw [htwice, h.environment, h.failures _ (lasting_family (not_fileRead hname))]
  unfold Repetition
  tauto

/-- The keys that `before` lists. -/
theorem Agrees.mem_before {name' : String} {args' : Args} (h : Agrees env es s)
    (hname : name ∉ reusableReads) : key name args ∈ (TurnControl.before s name' args').1.blockedKeys ↔
      key name args ∈ s.blockedKeys ∨ (name' = name ∧ args' = args) ∧
        ¬ TimedOut env es name args ∧ Repetition env es name args := by
  by_cases hsame : name' = name ∧ args' = args
  · obtain ⟨rfl, rfl⟩ := hsame
    rw [before_of_not_read hname]
    by_cases hnav : TimedOut env es name' args'
    · rw [if_pos ((navigation_iff h).2 hnav)]
      exact ⟨.inl, fun hc => hc.elim id fun hr => absurd hnav hr.2.1⟩
    rw [if_neg fun hc => hnav ((navigation_iff h).1 hc)]
    by_cases hrep : repeats s name' args' = true
    · rw [if_pos hrep]
      refine iff_of_true ?_ (((h.repeats_iff hname).1 hrep).imp_right fun hr => ⟨⟨rfl, rfl⟩, hnav, hr⟩)
      dsimp only
      split_ifs with hmem
      · exact hmem
      · exact List.mem_append_right _ (List.mem_singleton_self _)
    · rw [if_neg hrep]
      refine ⟨.inl, fun hc => hc.elim id fun hr => ?_⟩
      exact absurd ((h.repeats_iff hname).2 (.inr hr.2.2)) hrep
  · have hkey : key name args ≠ key name' args' := fun hk => hsame (key_inj hname hk.symm)
    have hold : key name args ∈ (TurnControl.before s name' args').1.blockedKeys ↔
        key name args ∈ s.blockedKeys := by
      rcases before_state s name' args' with hs | hs | ⟨-, hs⟩
      · rw [hs]
      · rw [hs]
      · rw [hs]
        dsimp only
        split_ifs
        · rfl
        · rw [List.mem_append, List.mem_singleton, or_iff_left hkey]
    exact hold.trans ⟨.inl, fun hc => hc.elim id fun hr => absurd hr.1 hsame⟩

theorem TimedOut.cons {e : Event} (h : TimedOut env es name args) :
    TimedOut env (e :: es) name args := by
  obtain ⟨o, ho, hurl⟩ := h
  cases e with
  | before => exact ⟨o, ho, hurl⟩
  | observe => exact ⟨o, List.mem_cons_of_mem _ ho, hurl⟩

/-- The list has the calls that were asked for as repetitions: nothing takes them off. -/
theorem mem_blockedKeys (hname : name ∉ reusableReads) (hnav : ¬ TimedOut env es name args) :
    key name args ∈ (after env es).blockedKeys ↔
      ∃ past, .before name args :: past <:+ es ∧ Repetition env past name args := by
  induction es with
  | nil => exact ⟨nofun, fun ⟨_, hsuffix, _⟩ => nomatch List.suffix_nil.1 hsuffix⟩
  | cons e es ih =>
    have ih := ih fun hc => hnav hc.cons
    have hcons : (∃ past, .before name args :: past <:+ e :: es ∧ Repetition env past name args) ↔
        (e = .before name args ∧ Repetition env es name args) ∨
          ∃ past, .before name args :: past <:+ es ∧ Repetition env past name args := by
      constructor
      · rintro ⟨past, hsuffix, hr⟩
        rcases List.suffix_cons_iff.1 hsuffix with heq | hsuffix
        · obtain ⟨rfl, rfl⟩ := List.cons.inj heq
          exact .inl ⟨rfl, hr⟩
        · exact .inr ⟨past, hsuffix, hr⟩
      · rintro (⟨rfl, hr⟩ | ⟨past, hsuffix, hr⟩)
        · exact ⟨es, List.suffix_rfl, hr⟩
        · exact ⟨past, hsuffix.trans (List.suffix_cons ..), hr⟩
    rw [hcons, ← ih, or_comm]
    cases e with
    | before name' args' =>
      refine ((agrees env es).mem_before hname).trans (or_congr_right ?_)
      constructor
      · rintro ⟨⟨rfl, rfl⟩, -, hr⟩
        exact ⟨rfl, hr⟩
      · rintro ⟨⟨⟩, hr⟩
        exact ⟨⟨rfl, rfl⟩, fun hc => hnav hc.cons, hr⟩
    | observe o =>
      obtain ⟨-, -, hkeep, -⟩ := note_spec (agrees env es).backed env o.name o.args
        o.result
      exact (hkeep (key name args) (not_fileRead hname)).1.trans
        ⟨.inl, fun hc => hc.elim id fun hr => nomatch hr.1⟩

/-- **`before` refuses exactly the repetitions and the calls that were repetitions when they were
asked for before.** -/
theorem refuses_iff (hname : name ∉ reusableReads) (hnav : ¬ TimedOut env es name args) :
    (before (after env es) name args).2.isSome ↔ Repetition env es name args ∨
      ∃ past, .before name args :: past <:+ es ∧ Repetition env past name args := by
  have h := agrees env es
  rw [← mem_blockedKeys hname hnav, or_comm, ← h.repeats_iff hname, before_of_not_read hname,
    if_neg fun hc => hnav ((navigation_iff h).1 hc)]
  by_cases hrep : repeats (after env es) name args = true
  · rw [if_pos hrep]
    exact iff_of_true rfl hrep
  · rw [if_neg hrep]
    exact iff_of_false nofun hrep

/-- **A call is refused only as a repetition, unless it was a repetition when it was asked for
before**: then it is one now, or it is refused without being one. -/
theorem refuses_only_repetitions_iff (hname : name ∉ reusableReads)
    (hnav : ¬ TimedOut env es name args) :
    ((before (after env es) name args).2.isSome → Repetition env es name args) ↔
      Repetition env es name args ∨
        ∀ past, .before name args :: past <:+ es → ¬ Repetition env past name args := by
  rw [refuses_iff hname hnav]
  constructor
  · intro h
    by_cases hr : Repetition env es name args
    · exact .inl hr
    · exact .inr fun past hsuffix hpast => hr (h (.inr ⟨past, hsuffix, hpast⟩))
  · rintro (hr | hnone) hrefused
    · exact hr
    · exact hrefused.elim id fun ⟨past, hsuffix, hpast⟩ => absurd hpast (hnone past hsuffix)

/-- The condition where a command has ended in the same way twice. -/
theorem refuses_only_repetitions_iff_twice :
    let env : Env := ⟨fun text => text, fun _ => false, fun _ => ""⟩
    let pytest : Args := [("command", .list [⟨"pytest", "pytest"⟩])]
    let seen : Event := .observe ⟨"run_command", pytest, { success := true }⟩
    ((before (after env [seen, seen]) "run_command" pytest).2.isSome →
      Repetition env [seen, seen] "run_command" pytest) ↔
      Repetition env [seen, seen] "run_command" pytest ∨
        ∀ past, .before "run_command" pytest :: past <:+ [seen, seen] →
          ¬ Repetition env past "run_command" pytest :=
  refuses_only_repetitions_iff (by decide) (by decide)

/-- A command that ended in the same way twice is refused, and refused again after another one has
succeeded: it is no repetition then. -/
theorem refused_for_good : ¬ ∀ (env : Env) (es : List Event) (name : String) (args : Args),
    name ∉ reusableReads → ¬ TimedOut env es name args →
    (before (after env es) name args).2.isSome → Repetition env es name args := by
  intro h
  let pytest : Args := [("command", .list [⟨"pytest", "pytest"⟩])]
  let seen : Event := .observe ⟨"run_command", pytest, { success := true }⟩
  let edit : Event := .observe ⟨"edit_file", [], { success := true }⟩
  have hrep := h ⟨fun text => text, fun _ => false, fun _ => ""⟩
    [edit, .before "run_command" pytest, seen, seen] "run_command" pytest (by decide) (by decide)
    (by decide)
  revert hrep
  decide

end TurnControl

end PythonAI
