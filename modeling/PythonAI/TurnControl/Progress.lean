import Mathlib.Data.List.Infix
import PythonAI.Library.Records
import PythonAI.Library.Table

/-!
# `TurnProgress`: the calls of a turn

A turn's tool calls are watched: `before` may refuse a call, and `observe` records how it ended.
The state has the last record of every call, the number of failures of every family since its last
success, the key of the last call, and the keys that were refused as repetitions.

`run_agent` asks `before`, runs the tool or answers in its place, and then tells `observe`; a call
that a hook blocks is asked and told as well (`Agent.step`).
-/

namespace PythonAI

open Library

namespace TurnControl

/-! ### Calls -/

/-- An item of a list in the arguments. -/
structure Item where
  /-- its JSON text -/
  json : String
  /-- `str(item).lower()` -/
  lower : String
  deriving DecidableEq, Repr

/-- A value of an argument. -/
inductive Value
  /-- a string -/
  | str (text : String)
  /-- a list -/
  | list (items : List Item)
  /-- another one, with its JSON text: whether it is true, and the integer it equals, if any -/
  | other (json : String) (truthy : Bool) (number : Option ℤ)
  deriving DecidableEq, Repr

/-- `bool(value)` -/
def Value.truthy : Value → Bool
  | .str text => text ≠ ""
  | .list items => items ≠ []
  | .other _ truthy _ => truthy

/-- `value == n` for an integer, or for a truth value as the integer it is. -/
def Value.equals (n : ℤ) : Value → Bool
  | .other _ _ (some m) => m = n
  | _ => false

/-- The arguments of a call, in the order of their names. -/
abbrev Args := List (String × Value)

/-- What `key` is the digest of. -/
structure Key where
  /-- the name of the tool -/
  name : String
  /-- the arguments that count -/
  args : Args
  deriving DecidableEq, Repr

/-- The option of `fetch_url` has its default. -/
def isDefault (option : String) (value : Value) : Bool :=
  match option with
  | "raw" => value.equals 0
  | "contains" => value = .str ""
  | "max_time" => value.equals 20
  | "follow_redirects" => value.equals 1
  | _ => false

/-- `TurnProgress.key` -/
def key (name : String) (args : Args) : Key :=
  ⟨name, if name = "fetch_url" then args.filter fun arg => !isDefault arg.1 arg.2 else args⟩

/-- A family of calls that share their failures. -/
inductive Family
  /-- one call -/
  | call (key : Key)
  /-- a command of `run_command` -/
  | command (name : String)
  /-- `BROWSER_ENVIRONMENT_FAMILY` -/
  | environment
  deriving DecidableEq, Repr

/-- The commands with a family of their own. -/
def familyCommands : List String := ["mkdir", "md", "dir", "ls", "type"]

/-- `TurnProgress.family` -/
def family (name : String) (args : Args) : Family :=
  match args.lookup "command" with
  | some (.list (item :: _)) =>
    if name = "run_command" ∧ item.lower ∈ familyCommands then .command item.lower
    else .call (key name args)
  | _ => .call (key name args)

/-- `REUSABLE_READS` -/
def reusableReads : List String :=
  ["fetch_url", "browse_webpage", "read_file", "list_files", "search_web"]

/-- `BROWSER_TOOLS` -/
def browserTools : List String := ["browser_vision", "browser_session", "browse_webpage"]

/-- The tools whose success makes earlier reads of files stale. -/
def writes : List String :=
  ["write_file", "edit_file", "create_directory", "run_command", "apply_project_patch"]

/-- The reads of files. -/
def fileReads : List String := ["read_file", "list_files"]

/-- `args['url']` without its fragment, if it is a string and there are no `actions`. -/
def navigation (name : String) (args : Args) : Option String :=
  if name = "browser_session" ∧ ¬ (args.lookup "actions").any Value.truthy then
    match args.lookup "url" with
    | some (.str url) => some (String.ofList (url.toList.takeWhile (· ≠ '#')))
    | _ => none
  else none

/-! ### Results -/

/-- A `ToolResult`. -/
structure Result where
  success : Bool
  output : String := ""
  error : String := ""
  /-- `evidence['kind']` -/
  kind : Option String := none
  /-- `evidence['http_status']` -/
  httpStatus : Option ℤ := none
  deriving DecidableEq, Repr

/-- What `outcome` is the digest of. -/
structure Outcome where
  success : Bool
  output : String
  error : String
  deriving DecidableEq, Repr

/-- The outcome of a result. -/
def Result.outcome (r : Result) : Outcome := ⟨r.success, r.output, r.error⟩

/-- A refusal of `before`. -/
inductive Refusal
  /-- the read already succeeded -/
  | readReuse
  /-- a search already returned usable results -/
  | searchReuse
  /-- the search provider returned HTTP 429 -/
  | searchLimited
  /-- `navigation_timeout_guidance` -/
  | navigation
  /-- `repeated_operation` -/
  | repeated
  deriving DecidableEq, Repr

/-- What the program computes with texts. -/
structure Env where
  /-- `str.casefold` -/
  casefold : String → String
  /-- the output is a JSON list with an item whose `href` starts with `http://` or `https://` -/
  usable : String → Bool
  /-- the text of a refusal -/
  text : Refusal → String

/-- `needle in text` -/
def contains (text needle : String) : Bool := needle.toList <:+: text.toList

/-- `TurnProgress.environment_family`: the error is that of the browser's environment. -/
def environmentFamily (env : Env) (name : String) (r : Result) : Bool :=
  let detail := env.casefold (r.error ++ "\n" ++ r.output)
  name ∈ browserTools && !r.success &&
    (contains detail "executable doesn't exist" && contains detail "browser"
      || (contains detail "no module named" || contains detail "modulenotfounderror")
        && contains detail "playwright"
      || contains detail "agent-browser is unavailable"
      || contains detail "agent-browser executable is not installed"
      || contains detail "playwright install" || contains detail "agent-browser install")

/-- The navigation of the call has timed out. -/
def timedOut (env : Env) (name : String) (args : Args) (r : Result) : Option String :=
  if !r.success && contains (env.casefold r.error) "page.goto:" &&
    contains (env.casefold r.error) "timeout" then navigation name args else none

/-! ### The state -/

/-- The last record of a call. -/
structure Record where
  /-- its key in `calls` -/
  key : Key
  outcome : Outcome
  repeats : ℕ
  success : Bool
  name : String
  sourceId : Option String := none
  deriving DecidableEq, Repr

/-- `TurnProgress.state` -/
structure State where
  calls : List Record := []
  failures : Table Family ℕ := .empty
  blocked : ℕ := 0
  blockedKeys : List Key := []
  lastKey : Option Key := none
  readReuses : ℕ := 0
  navigationTimeouts : List String := []
  searchRateLimited : Bool := false
  searchResultKey : Option Key := none

namespace State

/-- `calls.get(key)` -/
def record (s : State) (k : Key) : Option Record := Records.find Record.key k s.calls

/-- `failures.get(family, 0)` -/
def failed (s : State) (f : Family) : ℕ := (s.failures f).getD 0

end State

/-- The call is repeated: its last rule in `before`. -/
def repeats (s : State) (name : String) (args : Args) : Bool :=
  let k := key name args
  k ∈ s.blockedKeys || name ∈ browserTools && 2 ≤ s.failed .environment
    || s.lastKey = some k && (s.record k).any (2 ≤ ·.repeats)
    || 2 ≤ s.failed (family name args)

/-- `TurnProgress.before` -/
def before (s : State) (name : String) (args : Args) : State × Option Refusal :=
  let k := key name args
  if name ∈ reusableReads ∧ (s.record k).any (·.success) then (s, some .readReuse)
  else if name = "search_web" ∧ s.searchResultKey.isSome then (s, some .searchReuse)
  else if name = "search_web" ∧ s.searchRateLimited then
    ({ s with blocked := s.blocked + 1 }, some .searchLimited)
  else if (navigation name args).any (· ∈ s.navigationTimeouts) then
    ({ s with blocked := s.blocked + 1 }, some .navigation)
  else if repeats s name args then
    ({ s with
      blocked := s.blocked + 1
      blockedKeys := if k ∈ s.blockedKeys then s.blockedKeys else s.blockedKeys ++ [k] },
      some .repeated)
  else (s, none)

/-! ### `TurnProgress.observe` -/

/-- What a successful write drops: the records of reads, their failures and their refusals. -/
def dropReads (s : State) : State :=
  let old := s.calls.filter (·.name ∈ fileReads)
  { s with
    calls := s.calls.filter fun r => r.name ∉ fileReads
    failures := fun f => if old.any fun r => .call r.key = f then none else s.failures f
    blockedKeys := old.foldl (fun keys r => keys.erase r.key) s.blockedKeys }

/-- The notes about reuse, navigation and search. -/
def marked (env : Env) (s : State) (name : String) (args : Args) (r : Result) : State :=
  { s with
    readReuses := if r.kind = some "reuse_prior_read" then s.readReuses + 1 else 0
    navigationTimeouts := match timedOut env name args r with
      | some url =>
        if url ∈ s.navigationTimeouts then s.navigationTimeouts else s.navigationTimeouts ++ [url]
      | none => s.navigationTimeouts
    searchRateLimited := s.searchRateLimited ||
      (name = "search_web" && !r.success && r.httpStatus = some 429) }

/-- The notes taken before the call is recorded. -/
def note (env : Env) (s : State) (name : String) (args : Args) (r : Result) : State :=
  if r.success ∧ name ∈ writes then dropReads (marked env s name args r)
  else marked env s name args r

/-- How often the call has ended so, without another one in between. -/
def repeatsOf (s : State) (k : Key) (r : Result) : ℕ :=
  match s.record k with
  | some old => if s.lastKey = some k ∧ old.outcome = r.outcome then old.repeats + 1 else 1
  | none => 1

/-- The failures after a call. -/
def failuresOf (env : Env) (s : State) (name : String) (args : Args) (r : Result) :
    Table Family ℕ :=
  let f := family name args
  let failures := s.failures.set f (if r.success then 0 else s.failed f + 1)
  if r.success ∧ name ∈ browserTools then failures.erase .environment
  else if environmentFamily env name r then
    failures.set .environment ((failures .environment).getD 0 + 1)
  else failures

/-- The call is recorded. -/
def recordCall (env : Env) (s : State) (name : String) (args : Args) (r : Result) : State :=
  let k := key name args
  { s with
    lastKey := some k
    calls := s.calls.filter (·.key ≠ k) ++ [⟨k, r.outcome, repeatsOf s k r, r.success, name, none⟩]
    searchResultKey :=
      if name = "search_web" ∧ r.success ∧ r.kind = some "duckduckgo_search" ∧ env.usable r.output
      then some k else s.searchResultKey
    failures := failuresOf env s name args r }

/-- What `observe` answers. -/
inductive Feedback
  /-- nothing -/
  | none
  /-- `navigation_timeout_guidance` -/
  | navigation
  /-- `Progress warning` -/
  | warning
  deriving DecidableEq, Repr

/-- The answer of `observe`. -/
def feedback (env : Env) (s : State) (name : String) (args : Args) (r : Result) : Feedback :=
  if (timedOut env name args r).isSome then .navigation
  else if (s.record (key name args)).any (2 ≤ ·.repeats) ∨ 2 ≤ s.failed (family name args) ∨
      environmentFamily env name r ∧ 2 ≤ s.failed .environment then .warning
  else .none

/-- `TurnProgress.observe` -/
def observe (env : Env) (s : State) (name : String) (args : Args) (r : Result) : State × Feedback :=
  let s := recordCall env (note env s name args r) name args r
  (s, feedback env s name args r)

/-- `TurnProgress.reusable_record` -/
def reusableRecord (s : State) (name : String) (args : Args) : Option Record :=
  let own := s.record (key name args)
  let found :=
    if name = "search_web" ∧ ¬ own.any (·.success) ∧ s.searchResultKey.isSome then
      s.searchResultKey.bind s.record
    else own
  found.filter (·.success)

/-! ### The calls that `run_agent` makes -/

/-- What `run_agent` keeps of the calls of a turn. -/
structure Agent where
  progress : State := {}
  /-- `tool_results`: the success and the output under the id of a call -/
  results : Table String Result := .empty

/-- A call of the model. -/
inductive Call
  /-- a hook blocks it, with a message -/
  | hooked (id name : String) (args : Args) (message : String)
  /-- the tool is called: its answer, if it does not raise, and what hooks make of a result -/
  | tool (id name : String) (args : Args) (answer : Option Result) (shown : Result → Result)

/-- `normalize_result` of the text of an error. -/
def errorResult (name text : String) : Result where
  success := false
  output := text
  error :=
    if name = "run_test_suite" then "Test output has no structured execution evidence" else text

/-- The answer in the place of a refused call, and the id of the call it comes from. -/
def answerInstead (env : Env) (a : Agent) (id name : String) (args : Args) (refusal : Refusal) :
    Result × String :=
  let source := (reusableRecord a.progress name args).bind (·.sourceId)
  match source, source.bind a.results with
  | some source, some previous =>
    if name ∈ reusableReads ∧ previous.success then
      ({ success := true
         output := "Reused earlier read; no new network/filesystem read was performed.\n"
           ++ previous.output
         kind := some "reuse_prior_read" }, source)
    else ({ success := false, error := env.text refusal, kind := some "repeat_prevented" }, id)
  | _, _ => ({ success := false, error := env.text refusal, kind := some "repeat_prevented" }, id)

/-- `progress.state['calls'][key]['source_id'] = source_id` -/
def setSource (s : State) (k : Key) (source : String) : State :=
  { s with calls := s.calls.map fun r => if r.key = k then { r with sourceId := some source } else r }

/-- What `run_agent` observes of a call. -/
structure Observation where
  /-- the name of the tool -/
  name : String
  /-- its arguments -/
  args : Args
  /-- the result -/
  result : Result
  /-- the id of the call that the result comes from, if it is noted -/
  source : Option String

/-- `before` is asked, and the call is answered: what is observed, unless the tool raises. -/
def Agent.ask (env : Env) (a : Agent) : Call → State × Option Observation
  | .hooked _ name args message =>
    match before a.progress name args with
    | (s, refusal) =>
      let text := "Error: " ++ message ++ ((refusal.map fun x => "\n" ++ env.text x).getD "")
      (s, some ⟨name, args, errorResult name text, none⟩)
  | .tool id name args answer _ =>
    match before a.progress name args with
    | (s, some refusal) =>
      match answerInstead env { a with progress := s } id name args refusal with
      | (r, source) => (s, some ⟨name, args, r, some source⟩)
    | (s, none) => (s, answer.map fun r => ⟨name, args, r, some id⟩)

/-- What hooks make of a result. -/
def Call.shown : Call → Result → Result
  | .hooked .. => id
  | .tool _ _ _ _ shown => shown

/-- The id of a call. -/
def Call.id : Call → String
  | .hooked id .. | .tool id .. => id

/-- One call in `run_agent`. -/
def Agent.step (env : Env) (a : Agent) (c : Call) : Agent :=
  match a.ask env c with
  | (s, none) => { a with progress := s }
  | (s, some o) =>
    let s := (observe env s o.name o.args o.result).1
    { progress := match o.source with
        | some source => setSource s (key o.name o.args) source
        | none => s
      results := a.results.set c.id (c.shown o.result) }

/-- The calls of a turn, one after the other. -/
def Agent.run (env : Env) (calls : List Call) : Agent := calls.foldl (Agent.step env) {}

end TurnControl

end PythonAI
