import Mathlib.Data.List.Sort
import PythonAI.Context.Governed
import PythonAI.Context.Merging

/-!
# `BudgetEndpoint.create`: whether a request fits the window as it is sent

Under a budget, the messages of a request are governed and, where the schemas of its tools leave no
room, the tools are reduced; then the tokens are reserved.  What is measured is the governed list;
what is sent is that list with the messages of the system merged.

* `grows_governed` : a governed list grows only if the whole conversation does;
* `create_admitted_iff` : **every request that reaches the provider fits the window, whatever the
  limits are, exactly if the merge does not make the messages grow**.
-/

namespace PythonAI

open Library

namespace Context

/-! ### `fit_tool_schemas` -/

/-- The schema of a tool. -/
structure Schema where
  /-- `schema['function']['name']`, or nothing -/
  name : String
  /-- its JSON text -/
  json : String
  deriving DecidableEq, Repr

/-- The JSON text of the schemas. -/
def toolsJson (tools : List Schema) : String := "[" ++ commas (tools.map Schema.json) ++ "]"

/-- The request, with the schemas of these tools. -/
def Request.withTools (q : Request) (tools : List Schema) : Request :=
  { q with tools := toolsJson tools }

/-- What is read of the conversation to choose tools. -/
structure Reader where
  /-- `str.lower` -/
  lower : String → String
  /-- `str(content or '')` -/
  shown : Content → String
  /-- `call['function']['name']`, if there is one -/
  called : CallValue → Option String

variable (codec : Codec) (reader : Reader) (q : Request) (messages : List Message)

/-- `[a-z0-9_]` -/
def wordChar (c : Char) : Bool :=
  ('a' ≤ c && c ≤ 'z') || ('0' ≤ c && c ≤ '9') || c = '_'

/-- `text` -/
def Reader.text (goal : String) : String :=
  " ".intercalate ((messages.filter (·.role = .user)).map fun m => reader.shown m.content) ++
    (" " ++ goal)

/-- `words` -/
def Reader.words (goal : String) : List (List Char) :=
  ((reader.lower (reader.text messages goal)).toList.splitOnP fun c => !wordChar c).filter (· ≠ [])

/-- `aliases` -/
def Reader.aliases (tool : String) : List (List Char) :=
  (reader.lower tool).toList :: (reader.lower tool).toList.splitOnP (· = '_')

/-- `mentioned` -/
def Reader.mentioned (goal tool : String) : Bool :=
  (reader.aliases tool).any (· ∈ reader.words messages goal) ||
    (tool = "fetch_url" && (contains "http" (reader.lower (reader.text messages goal)) ||
      "url".toList ∈ reader.words messages goal))

/-- The first entry of `priority`. -/
def Reader.rank (goal tool : String) : ℕ :=
  if some tool ∈ (messages.flatMap Message.calls).map reader.called then 0
  else if reader.mentioned messages goal tool then 1
  else if tool = "ask_user" then 2
  else 3

/-- The order of `priority`. -/
def Reader.before (goal : String) (a b : Schema) : Bool :=
  let ra := reader.rank messages goal a.name
  let rb := reader.rank messages goal b.name
  decide (ra < rb) || (decide (ra = rb) &&
    (decide (tokenUpperBound a.json < tokenUpperBound b.json) ||
      (decide (tokenUpperBound a.json = tokenUpperBound b.json) && decide (a.name ≤ b.name))))

/-- One turn of the loop over the tools. -/
def addSchema (selected : List Schema) (schema : Schema) : Except Error (List Schema) :=
  match governMessages codec (q.withTools (selected ++ [schema])) messages with
  | .ok _ => .ok (selected ++ [schema])
  | .error e => if e = contextTooLarge then .ok selected else .error e

/-- `fit_tool_schemas` -/
def fitToolSchemas (tools : List Schema) : Except Error (List Schema) :=
  if tools = [] then .ok []
  else do
    let _ ← governMessages codec (q.withTools []) messages
    (tools.insertionSort fun a b => reader.before messages q.goal a b = true).foldlM
      (addSchema codec q messages) []

/-! ### `BudgetEndpoint.create` -/

/-- The arguments of a request. -/
structure Ask where
  messages : List Message
  tools : Option (List Schema) := none
  /-- `max_tokens` or `max_completion_tokens` -/
  maxTokens : Option ℤ := none
  deriving DecidableEq, Repr

/-- What the model and the active task set. -/
structure Setting where
  /-- `image_input_tokens` of the model, or its default, if it is an integer -/
  imageTokens : Option ℕ := some 8192
  /-- `goal` of the task -/
  goal : String := ""
  /-- the JSON text of its `criteria` -/
  criteria : Option String := none
  deriving DecidableEq, Repr

/-- The limits of a request. -/
structure Limits where
  /-- `budget.max_output` -/
  maxOutput : ℤ
  /-- `context_tokens` of the model -/
  window : ℤ
  /-- `check`, and that the task is not cancelled -/
  check : Except Error Unit := .ok ()
  /-- `slot` and `reserve`, for a prompt and an output of so many tokens -/
  reserve : ℕ → ℤ → Except Error Unit := fun _ _ => .ok ()

/-- What is passed to the provider. -/
structure Passed where
  messages : List Message
  tools : Option (List Schema)
  /-- `max_tokens` or `max_completion_tokens` -/
  output : Option ℤ
  deriving DecidableEq, Repr

/-- The arguments of `govern_messages`. -/
def Setting.request (s : Setting) (limit : ℤ) : Request where
  maxTokens := limit
  goal := s.goal
  criteria := s.criteria
  imageTokens := s.imageTokens

/-- The tools; an empty list counts as none. -/
def Ask.requested (ask : Ask) : Option (List Schema) := ask.tools.filter (· ≠ [])

/-- The governed messages and the tools, reduced where they leave no room. -/
def governTools (tools : Option (List Schema)) :
    Except Error (List Message × Option (List Schema)) :=
  match governMessages codec (q.withTools (tools.getD [])) messages with
  | .ok governed => .ok (governed, tools)
  | .error e =>
    if e = contextTooLarge then do
      let compact ← fitToolSchemas codec reader q messages (tools.getD [])
      ensure (some compact ≠ tools) e
      let governed ← governMessages codec (q.withTools compact) messages
      pure (governed, if compact = [] then none else some compact)
    else .error e

variable (s : Setting) (ask : Ask)

/-- `BudgetEndpoint.create`, up to the call of the provider. -/
def create : Option Limits → Except Error Passed
  | none => .ok {
      messages := providerMessages ask.messages
      tools := ask.requested
      output := ask.maxTokens }
  | some budget => do
    budget.check
    let output := min budget.maxOutput (ask.maxTokens.getD budget.maxOutput)
    ensure (0 < output) (.value "Model output token cap must be positive")
    let q := s.request (budget.window - output)
    let (governed, tools) ← governTools codec reader q ask.messages ask.requested
    let prompt ← messageTokens codec q governed
    budget.reserve (prompt + tokenUpperBound (toolsJson (tools.getD []))) output
    pure { messages := providerMessages governed, tools := tools, output := some output }

/-! ### What is admitted -/

/-- A request that fits the window as it is sent. -/
structure Admitted (budget : Limits) (passed : Passed) : Prop where
  /-- the messages, the tools and the output fit the window -/
  fits : ∃ (tokens : ℕ) (output : ℤ), passed.output = some output ∧
    messageTokens codec (s.request budget.window) passed.messages = .ok tokens ∧
    (tokens : ℤ) + tokenUpperBound (toolsJson (passed.tools.getD [])) + output ≤ budget.window
  /-- the tools are some of the requested ones -/
  tools : (passed.tools.getD []).Subperm (ask.tools.getD [])
  /-- all of them, where they fit -/
  full : ∀ output out, passed.output = some output →
    governMessages codec ((s.request (budget.window - output)).withTools (ask.tools.getD []))
      ask.messages = .ok out → passed.tools.getD [] = ask.tools.getD []

/-- The request is well formed: the cap is positive, the messages have these blocks, and the tokens
of images are known where there are images. -/
def Accepted (blocks : List Block) : Prop :=
  (∀ n, ask.maxTokens = some n → 0 < n) ∧ normalizeBlocks ask.messages = .ok blocks ∧
    ∃ tokens, messageTokens codec (s.request 0) blocks.flatten = .ok tokens

variable {codec reader q messages s ask} {blocks : List Block} {chosen : List ℕ}
  {out body l l' : List Message} {tools compact : List Schema} {budget : Limits} {passed : Passed}
  {governed : List Message} {requested sent : Option (List Schema)} {output : ℤ}

/-! ### The messages of the system in a governed list -/

theorem systems_append (l l' : List Message) : systems (l ++ l') = systems l ++ systems l' :=
  List.filter_append ..

theorem systems_constraints : systems (constraints codec q) = [] := by
  refine List.filter_eq_nil_iff.2 ?_
  intro m hm hrole
  rw [decide_eq_true_eq, (constraints_user m hm).1] at hrole
  cases hrole

theorem systems_cut (h : List.Forall₂ Cut l l') : systems l' = systems l := by
  induction h with
  | nil => rfl
  | @cons m m' l l' hm _ ih =>
    rw [systems, systems, List.filter_cons, List.filter_cons, ← systems, ← systems, ih, hm.same.1]
    split
    · rename_i hrole
      rw [hm.eq_of_role (by rw [of_decide_eq_true hrole]; nofun)]
    · rfl

/-- The blocks that are dropped hold no message of the system. -/
theorem systems_select (h : ∀ i ∈ protectedBlocks codec q.goal blocks, i < blocks.length →
    i ∈ chosen) : systems (select blocks chosen) = systems blocks.flatten := by
  have hdropped : ∀ i ∈ List.range blocks.length, i ∉ chosen →
      systems ((blocks[i]?).getD []) = [] := by
    intro i hi hno
    have hlt := List.mem_range.1 hi
    refine List.filter_eq_nil_iff.2 ?_
    intro m hm hrole
    rw [List.getElem?_eq_getElem hlt, Option.getD_some] at hm
    have hsystem : hasRole .system blocks[i] = true := List.any_eq_true.2 ⟨m, hm, hrole⟩
    exact hno (h i (mem_protected (List.getElem?_eq_getElem hlt) (.inl hsystem)) hlt)
  have hfilter : ∀ is : List ℕ, (∀ i ∈ is, i ∉ chosen → systems ((blocks[i]?).getD []) = []) →
      (is.filter (· ∈ chosen)).flatMap (fun i => systems ((blocks[i]?).getD [])) =
        is.flatMap fun i => systems ((blocks[i]?).getD []) := by
    intro is his
    induction is with
    | nil => rfl
    | cons i is ih =>
      have hrest := ih fun j hj => his j (List.mem_cons_of_mem _ hj)
      by_cases hi : i ∈ chosen
      · rw [List.filter_cons_of_pos (by simpa using hi), List.flatMap_cons, List.flatMap_cons,
          hrest]
      · rw [List.filter_cons_of_neg (by simpa using hi), List.flatMap_cons,
          his i List.mem_cons_self hi, List.nil_append, hrest]
  rw [← select_range, select, select, systems, systems, List.filter_flatMap, List.filter_flatMap]
  refine (hfilter _ hdropped).trans ?_
  rw [List.filter_eq_self.2 fun i hi => decide_eq_true hi]
  rfl

/-- The blocks have the messages of the system, in their order. -/
theorem systems_flatten (hblocks : normalizeBlocks messages = .ok blocks) :
    systems blocks.flatten = systems messages := by
  have hothers := congrArg systems (normalizeBlocks_others hblocks)
  have hstays : ∀ l : List Message, systems (l.filter Message.stays) = systems l := by
    intro l
    rw [systems, List.filter_filter]
    refine List.filter_congr ?_
    intro m _
    by_cases hm : m.role = .system
    · simp [Message.stays, hm]
    · simp [hm]
  rwa [hstays, hstays] at hothers

/-- **A governed list has the messages of the system**, in their order. -/
theorem systems_governed (h : governMessages codec q messages = .ok out) :
    systems out = systems messages := by
  obtain ⟨blocks, hblocks, chosen, hsel⟩ := governMessages_selects h
  obtain ⟨body, htrims, rfl⟩ := hsel.body
  rw [systems_append, systems_constraints, List.append_nil, systems_cut htrims.forall₂,
    systems_select hsel.protects, systems_flatten hblocks]

/-- A part of a list with all its messages of the system starts with one, if the list does. -/
theorem head_of_sublist (hsub : l'.Sublist l) (hsystems : systems l' = systems l)
    (hl : l.head?.any (·.role = .system) = true) : l'.head?.any (·.role = .system) = true := by
  cases hsub with
  | slnil => exact hl
  | @cons _ l m hsub =>
    have hsystem : systems (m :: l) = m :: systems l := List.filter_cons_of_pos hl
    have hle := (hsub.filter (·.role = .system)).length_le
    rw [← systems, ← systems, hsystems, hsystem, List.length_cons] at hle
    omega
  | cons_cons => exact hl

/-- **A governed list grows only if the whole conversation does.** -/
theorem grows_governed (hblocks : normalizeBlocks messages = .ok blocks)
    (h : governMessages codec q messages = .ok out) (hgrows : Grows out) :
    Grows blocks.flatten := by
  have hsame : systems out = systems blocks.flatten := by
    rw [systems_governed h, systems_flatten hblocks]
  rw [Grows, hsame] at hgrows
  rcases hgrows with hlists | ⟨hhead, hmissing⟩
  · exact .inl hlists
  refine .inr ⟨?_, hmissing⟩
  by_contra hfirst
  rw [Bool.not_eq_false] at hfirst
  obtain ⟨blocks', hblocks', chosen, hsel⟩ := governMessages_selects h
  cases hblocks.symm.trans hblocks'
  obtain ⟨body, htrims, rfl⟩ := hsel.body
  have hselect := head_of_sublist select_sublist (systems_select hsel.protects) hfirst
  -- the first message is one of the system, which is kept as it is
  have hcut := htrims.forall₂
  revert hcut hselect
  cases select blocks chosen with
  | nil =>
    intro hm
    cases hm
  | cons m l =>
    rintro hm (_ | ⟨hcut, -⟩)
    rw [List.cons_append, List.head?_cons, Option.any_some, hcut.same.1] at hhead
    rw [List.head?_cons, Option.any_some, hhead] at hm
    cases hm

/-- The retained goal behind it changes nothing. -/
theorem grows_append_constraints (h : Grows l) : Grows (l ++ constraints codec q) := by
  have hsystems : systems (l ++ constraints codec q) = systems l := by
    rw [systems_append, systems_constraints, List.append_nil]
  rw [Grows, hsystems]
  rcases h with hlists | ⟨hhead, hmissing⟩
  · exact .inl hlists
  refine .inr ⟨?_, hmissing⟩
  cases l with
  | nil => cases hmissing
  | cons m l => exact hhead

/-- **Unless the conversation grows, a governed list takes no more bytes merged.** -/
theorem bytes_le_of_not_grows (hblocks : normalizeBlocks messages = .ok blocks)
    (h : governMessages codec q messages = .ok out) (hgrows : ¬ Grows blocks.flatten) :
    bytes (providerMessages out) ≤ bytes out :=
  Nat.not_lt.1 fun hlt => hgrows (grows_governed hblocks h (bytes_lt_iff.1 hlt))

/-! ### The reduced tools -/

theorem addSchema_fold {schemas selected : List Schema}
    (h : schemas.foldlM (addSchema codec q messages) selected = .ok compact) :
    compact.Sublist (selected ++ schemas) := by
  induction schemas generalizing selected with
  | nil =>
    cases h
    exact List.sublist_append_left ..
  | cons schema schemas ih =>
    rw [List.foldlM_cons, bind_eq_ok] at h
    obtain ⟨next, hnext, h⟩ := h
    have hsub := ih h
    rw [addSchema] at hnext
    split at hnext
    · cases hnext
      rwa [List.append_assoc] at hsub
    · split_ifs at hnext
      cases hnext
      exact hsub.trans (List.Sublist.append_left (List.sublist_cons_self ..) _)

theorem fitToolSchemas_subperm (h : fitToolSchemas codec reader q messages tools = .ok compact) :
    compact.Subperm tools := by
  rw [fitToolSchemas] at h
  split_ifs at h with hnil
  · cases h
    exact List.nil_subperm
  · simp only [bind_eq_ok] at h
    obtain ⟨_, -, h⟩ := h
    have hsub := addSchema_fold h
    rw [List.nil_append] at hsub
    exact hsub.subperm.trans (List.perm_insertionSort ..).subperm

/-- The messages are governed with the tools that are sent, which are all of them where they fit. -/
theorem governTools_ok (h : governTools codec reader q messages requested = .ok (governed, sent)) :
    governMessages codec (q.withTools (sent.getD [])) messages = .ok governed ∧
      (sent.getD []).Subperm (requested.getD []) ∧
      ∀ out, governMessages codec (q.withTools (requested.getD [])) messages = .ok out →
        sent = requested := by
  rw [governTools] at h
  split at h
  · rename_i out hgovern
    cases h
    exact ⟨hgovern, List.Subperm.refl _, fun _ _ => rfl⟩
  · rename_i e hgovern
    split_ifs at h with hlarge
    simp only [bind_eq_ok, pure_eq_ok, Prod.mk.injEq] at h
    obtain ⟨compact, hcompact, _, -, governed', hgoverned, rfl, rfl⟩ := h
    have hsent : (if compact = [] then none else some compact : Option (List Schema)).getD [] =
        compact := by
      split_ifs with hnil
      · rw [hnil]
        rfl
      · rfl
    rw [hsent]
    refine ⟨hgoverned, fitToolSchemas_subperm hcompact, ?_⟩
    intro out hout
    rw [hgovern] at hout
    cases hout

/-! ### The tokens of a request -/

/-- The tokens are known iff there is no image or those of an image are. -/
theorem messageTokens_isOk : (∃ tokens, messageTokens codec q l = .ok tokens) ↔
    images l = 0 ∨ ∃ n, q.imageTokens.filter (0 < ·) = some n := by
  unfold messageTokens
  dsimp only
  by_cases hzero : (l.map Message.images).sum = 0
  · rw [if_pos hzero]
    exact ⟨fun _ => .inl hzero, fun _ => ⟨_, rfl⟩⟩
  · rw [if_neg hzero]
    simp only [bind_eq_ok, require_eq_ok]
    constructor
    · rintro ⟨_, n, hn, -⟩
      exact .inr ⟨n, hn⟩
    · rintro (himages | ⟨n, hn⟩)
      · exact absurd himages hzero
      · exact ⟨_, n, hn, rfl⟩

theorem messageTokens_congr {q' : Request} (h : q.imageTokens = q'.imageTokens) :
    messageTokens codec q l = messageTokens codec q' l := by
  rw [messageTokens, messageTokens, h]

theorem images_constraints (l : List Message) :
    images (l ++ constraints codec q) = images l := by
  have hzero : images (constraints codec q) = 0 := by
    rw [constraints]
    split <;> rfl
  rw [images, List.map_append, List.sum_append, ← images, ← images, hzero, Nat.add_zero]

theorem governMessages_whole (h : governMessages codec q messages = .ok out) :
    ∃ blocks, normalizeBlocks messages = .ok blocks ∧
      ∃ tokens, messageTokens codec q blocks.flatten = .ok tokens := by
  simp only [governMessages, bind_eq_ok, fits] at h
  obtain ⟨blocks, hblocks, _, ⟨tokens, htokens, -⟩, -⟩ := h
  rw [select_range] at htokens
  refine ⟨blocks, hblocks, messageTokens_isOk.2 ?_⟩
  have hok := messageTokens_isOk.1 ⟨tokens, htokens⟩
  rwa [images_constraints] at hok

theorem create_ok (h : create codec reader s ask (some budget) = .ok passed) :
    ∃ output governed tokens, output = min budget.maxOutput (ask.maxTokens.getD budget.maxOutput) ∧
      0 < output ∧
      governTools codec reader (s.request (budget.window - output)) ask.messages ask.requested =
        .ok (governed, passed.tools) ∧
      messageTokens codec (s.request (budget.window - output)) governed = .ok tokens ∧
      passed.messages = providerMessages governed ∧ passed.output = some output := by
  simp only [create, bind_eq_ok, pure_eq_ok, ensure_eq_ok, decide_eq_true_eq] at h
  obtain ⟨_, -, _, hpos, ⟨governed, sent⟩, hgovern, tokens, htokens, _, -, rfl⟩ := h
  exact ⟨_, governed, tokens, rfl, hpos, hgovern, htokens, rfl, rfl⟩

theorem requested_getD (ask : Ask) : ask.requested.getD [] = ask.tools.getD [] := by
  rw [Ask.requested]
  cases ask.tools with
  | none => rfl
  | some tools =>
    by_cases hnil : tools = []
    · rw [hnil]
      rfl
    · rw [Option.filter_some, if_pos (decide_eq_true hnil)]

/-- What is sent fits the window, unless the conversation grows. -/
theorem admitted_of_not_grows (hblocks : normalizeBlocks ask.messages = .ok blocks)
    (hgrows : ¬ Grows blocks.flatten)
    (h : create codec.withJson reader s ask (some budget) = .ok passed) :
    Admitted codec.withJson s ask budget passed := by
  obtain ⟨output, governed, tokens, -, -, hgovern, htokens, hmessages, houtput⟩ := create_ok h
  obtain ⟨hgoverned, hsub, hfull⟩ := governTools_ok hgovern
  rw [requested_getD] at hsub hfull
  refine ⟨?_, hsub, ?_⟩
  · have hle := bytes_le_of_not_grows hblocks hgoverned hgrows
    obtain ⟨blocks', -, chosen, hsel⟩ := governMessages_selects hgoverned
    obtain ⟨tokens', htokens', hfits⟩ := fits_ok hsel.fits
    have heq : tokens' = tokens := Except.ok.inj (htokens'.symm.trans htokens)
    obtain ⟨merged, hmerged, hbytes⟩ := messageTokens_merged htokens
    refine ⟨merged, output, houtput, by rw [hmessages]; exact hmerged, ?_⟩
    have hfits' : (tokens' : ℤ) + tokenUpperBound (toolsJson (passed.tools.getD [])) ≤
        budget.window - output := hfits
    omega
  · intro output' out hout hall
    rw [houtput] at hout
    cases hout
    rw [hfull out hall, requested_getD]

/-- **Every request that reaches the provider fits the window as it is sent, whatever the limits,
exactly if its messages are not accepted or the merge does not make them grow.** -/
theorem create_admitted_iff (codec : Codec) (reader : Reader) (s : Setting) (ask : Ask) :
    (∀ budget passed, create codec.withJson reader s ask (some budget) = .ok passed →
      Admitted codec.withJson s ask budget passed) ↔
        ¬ ∃ blocks, Accepted codec.withJson s ask blocks ∧ Grows blocks.flatten := by
  constructor
  · rintro hall ⟨blocks, ⟨hcap, hblocks, htokens⟩, hgrows⟩
    -- the window that the whole conversation just fits
    obtain ⟨tokens, htokens⟩ : ∃ tokens, messageTokens codec.withJson (s.request 0)
        (blocks.flatten ++ constraints codec.withJson (s.request 0)) = .ok tokens := by
      rw [messageTokens_isOk, images_constraints]
      exact messageTokens_isOk.1 htokens
    let tools := tokenUpperBound (toolsJson (ask.requested.getD []))
    let budget : Limits := { maxOutput := 1, window := tokens + tools + 1 }
    let q := (s.request (tokens + tools)).withTools (ask.requested.getD [])
    let whole := blocks.flatten ++ constraints codec.withJson q
    have hwhole : messageTokens codec.withJson q whole = .ok tokens := htokens
    have hgovern : governMessages codec.withJson q ask.messages = .ok whole := by
      refine governMessages_all hblocks ?_
      rw [fits, hwhole]
      exact congrArg Except.ok (decide_eq_true (Int.le_refl _))
    have houtput : min budget.maxOutput (ask.maxTokens.getD budget.maxOutput) = 1 := by
      cases hmax : ask.maxTokens with
      | none => rfl
      | some n =>
        have hpos := hcap n hmax
        exact min_eq_left hpos
    have hlimit : budget.window - 1 = tokens + tools := Int.add_sub_cancel ..
    have hsent : governTools codec.withJson reader (s.request (budget.window - 1)) ask.messages
        ask.requested = .ok (whole, ask.requested) := by
      rw [hlimit, governTools, hgovern]
    have hcreate : create codec.withJson reader s ask (some budget) = .ok {
        messages := providerMessages whole, tools := ask.requested, output := some 1 } := by
      have hreserve : ∀ prompt out, budget.reserve prompt out = .ok () := fun _ _ => rfl
      rw [create]
      dsimp only
      rw [houtput]
      simp only [bind_eq_ok, pure_eq_ok, ensure_eq_ok]
      have himages : (s.request (budget.window - 1)).imageTokens = q.imageTokens := rfl
      have hprompt := (messageTokens_congr himages).trans hwhole
      exact ⟨(), rfl, (), rfl, _, hsent, tokens, hprompt, (), hreserve .., rfl⟩
    -- the merge takes more tokens than that
    obtain ⟨merged, output, hout, hmerged, hle⟩ := (hall budget _ hcreate).fits
    cases hout
    have hbytes : bytes whole < bytes (providerMessages whole) :=
      bytes_lt_iff.2 (grows_append_constraints hgrows)
    obtain ⟨merged', hmerged', hsum⟩ := messageTokens_merged hwhole
    have heq : merged = merged' := Except.ok.inj (hmerged.symm.trans hmerged')
    have hle' : (merged : ℤ) + tools + 1 ≤ tokens + tools + 1 := hle
    omega
  · intro hno budget passed h
    obtain ⟨output, governed, tokens, rfl, hpos, hgovern, -⟩ := create_ok h
    obtain ⟨blocks, hblocks, htokens⟩ := governMessages_whole (governTools_ok hgovern).1
    refine admitted_of_not_grows hblocks (fun hgrows => hno ⟨blocks, ⟨?_, hblocks, htokens⟩, hgrows⟩) h
    intro n hn
    rw [hn, Option.getD_some] at hpos
    exact lt_of_lt_of_le hpos (min_le_right _ _)

namespace Sample

/-- No name, and the texts as they are. -/
def blind : Reader where
  lower := id
  shown _ := ""
  called _ := none

/-- Instructions as a list, more of them as a text, and a question. -/
def mixed : Ask where
  messages := [
    { role := .system, content := .parts [textPart "a"] },
    told .system "b",
    told .user "hi"]

end Sample

set_option maxRecDepth 8000 in
/-- 380 tokens are reserved for a request that takes 405. -/
theorem create_overflows : ∃ passed,
    create Sample.plain.withJson Sample.blind {} Sample.mixed
        (some { maxOutput := 1, window := 380 }) = .ok passed ∧
      ¬ Admitted Sample.plain.withJson {} Sample.mixed { maxOutput := 1, window := 380 } passed := by
  refine ⟨{ messages := providerMessages Sample.mixed.messages, tools := none, output := some 1 },
    by decide, ?_⟩
  rintro ⟨⟨tokens, output, hout, htokens, hle⟩, -, -⟩
  have hmerged : messageTokens Sample.plain.withJson (Setting.request {} 380)
      (providerMessages Sample.mixed.messages) = .ok 274 := by rfl
  have htools : tokenUpperBound (toolsJson []) = 130 := by decide
  cases hout
  cases htokens.symm.trans hmerged
  rw [Option.getD_none, htools] at hle
  have hle' : (274 : ℤ) + 130 + 1 ≤ 380 := hle
  omega

end Context

end PythonAI
