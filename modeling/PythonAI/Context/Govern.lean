import Mathlib.Data.List.Infix
import Mathlib.Data.Rat.Floor
import PythonAI.Errors
import PythonAI.Library.Txn

/-!
# `govern_messages`: the messages of a model call

A conversation is normalized into blocks: a call of tools with its results and what follows them,
or one message alone.  While the blocks exceed the context of the model, the oldest ones that are
not protected are dropped, and at last the results of the latest call are cut.

The JSON texts of messages are a parameter (`Codec`): what is counted is their length, and what is
searched for an approval is the text of a block.
-/

namespace PythonAI

open Library

namespace Context

/-! ### Messages -/

/-- `role`. -/
inductive Role
  | system | developer | user | assistant | tool
  /-- another role, if there is one -/
  | other (name : Option String)
  deriving DecidableEq, Repr

/-- A value of `tool_calls`. -/
inductive CallValue
  /-- an object with an `id`, if it has one -/
  | call (id : Option String) (body : String)
  /-- no object -/
  | other (body : String)
  deriving DecidableEq, Repr

/-- `call['id']`, if the value is an object with an id that is not empty. -/
def CallValue.key : CallValue → Option String
  | call id _ => id.filter (· ≠ "")
  | other _ => none

/-- A part of a `content` that is a list. -/
structure Part where
  /-- it is an object -/
  isObject : Bool := true
  text : Option String := none
  /-- the URL of the image, if the type is `image_url` -/
  image : Option String := none
  /-- the other fields -/
  body : String := ""
  deriving DecidableEq, Repr

/-- `content`. -/
inductive Content
  /-- there is none -/
  | missing
  /-- it is `None` -/
  | null
  | text (s : String)
  | parts (ps : List Part)
  deriving DecidableEq, Repr

/-- The content is neither missing nor empty. -/
def Content.truthy : Content → Bool
  | missing | null => false
  | text s => s ≠ ""
  | parts ps => ps ≠ []

/-- A message; `tool_calls` that are empty or `None` count as missing, and are one of the other
fields. -/
structure Message where
  role : Role
  content : Content
  /-- `tool_calls` -/
  calls : List CallValue := []
  /-- `tool_call_id` -/
  callId : Option String := none
  /-- the JSON texts of the other fields -/
  rest : List String := []
  deriving DecidableEq, Repr

/-- The messages that stay or go together. -/
abbrev Block := List Message

/-- The texts that the code computes of messages. -/
structure Codec where
  /-- `json.dumps(messages,ensure_ascii=False,separators=(',', ':'))` -/
  dumps : List Message → String
  /-- `json.dumps(block,ensure_ascii=False)` -/
  shows : Block → String
  /-- `json.dumps({'goal':goal,'criteria':criteria or {}},ensure_ascii=False)` -/
  retained : String → Option String → String
  /-- `str.isspace`, of one character -/
  space : Char → Bool

/-- The arguments of `govern_messages` besides the messages. -/
structure Request where
  maxTokens : ℤ
  /-- the JSON text of `tools or []` -/
  tools : String := "[]"
  goal : String := ""
  /-- the JSON text of `criteria`, if it is not empty -/
  criteria : Option String := none
  /-- `image_tokens`, or its default, if it is an integer -/
  imageTokens : Option ℕ := some 8192
  deriving DecidableEq, Repr

/-! ### `message_tokens` -/

/-- `token_upper_bound`, of a value with this JSON text. -/
def tokenUpperBound (s : String) : ℕ := s.utf8ByteSize + 128

/-- The part is an image. -/
def Part.isImage (p : Part) : Bool := p.isObject && p.image.any (· ≠ "")

/-- The message without its images. -/
def Message.withoutImages (m : Message) : Message :=
  match m.content with
  | .parts ps => { m with
      content := .parts (ps.map fun p => if p.isImage then { p with image := some "<image>" } else p) }
  | _ => m

/-- The number of images in a message. -/
def Message.images (m : Message) : ℕ :=
  match m.content with
  | .parts ps => ps.countP Part.isImage
  | _ => 0

variable (codec : Codec) (q : Request)

/-- `message_tokens`. -/
def messageTokens (messages : List Message) : Except Error ℕ :=
  let images := (messages.map Message.images).sum
  let text := tokenUpperBound (codec.dumps (messages.map Message.withoutImages))
  if images = 0 then .ok text
  else do
    let reservation ← require (q.imageTokens.filter (0 < ·))
      (.value "Image token reservation must be a positive integer")
    pure (text + images * reservation)

/-- The messages fit into the context, with the schemas of the tools. -/
def fits (messages : List Message) : Except Error Bool := do
  let tokens ← messageTokens codec q messages
  pure (decide ((tokens : ℤ) + tokenUpperBound q.tools ≤ q.maxTokens))

/-! ### `normalize_blocks` -/

/-- `results`: the last result under an id counts. -/
def resultFor (following : List Message) (key : Option String) : Option Message :=
  (following.filter (·.role = .tool)).reverse.find? (·.callId = key)

/-- The blocks of an assistant message with calls and of the messages up to the next assistant
message. -/
def group (message : Message) (following : List Message) : List Block :=
  let paired := message.calls.filter fun call => (resultFor following call.key).isSome
  let others := following.filter (·.role ≠ .tool)
  if paired ≠ [] then
    [{ message with calls := paired } ::
      paired.filterMap (fun call => resultFor following call.key) ++ others]
  else
    (if message.content.truthy then [[{ message with calls := [] }]] else []) ++ others.map ([·])

/-- The loop of `normalize_blocks`; each turn takes a message at least. -/
def normalizeFrom : ℕ → List Message → Except Error (List Block)
  | 0, _ => .ok []
  | _, [] => .ok []
  | fuel + 1, message :: values =>
    if message.role = .tool then normalizeFrom fuel values
    else if message.calls = [] then do
      let blocks ← normalizeFrom fuel values
      pure ([message] :: blocks)
    else do
      ensure (message.role = .assistant) (.value "Only assistant messages may contain tool calls")
      ensure (message.calls.all (·.key.isSome) && (message.calls.map CallValue.key).Nodup)
        (.value "Tool calls require unique IDs")
      let blocks ← normalizeFrom fuel (values.dropWhile (·.role ≠ .assistant))
      pure (group message (values.takeWhile (·.role ≠ .assistant)) ++ blocks)

/-- `normalize_blocks`. -/
def normalizeBlocks (messages : List Message) : Except Error (List Block) :=
  normalizeFrom messages.length messages

/-! ### What is protected -/

/-- `part in s`. -/
def contains (part s : String) : Bool := decide (part.toList <:+: s.toList)

/-- The text mentions an approval. -/
def mentionsApproval (s : String) : Bool := contains "approval_required:" s || contains "approval_id" s

/-- `has_approval`. -/
def hasApproval (block : Block) : Bool := mentionsApproval (codec.shows block)

/-- A message of the block has the role. -/
def hasRole (role : Role) (block : Block) : Bool := block.any (·.role = role)

/-- The indices of the blocks that satisfy `p`, in order. -/
def indices (p : Block → Bool) (blocks : List Block) : List ℕ :=
  (List.range blocks.length).filter fun i => blocks[i]?.any p

/-- `text`. -/
def Message.text (m : Message) : String :=
  match m.content with
  | .missing | .null => ""
  | .text s => s
  | .parts ps => "\n".intercalate ((ps.filter Part.isObject).map fun p => p.text.getD "")

/-- The block holds the message that states the goal; a goal is cut at 16000 characters. -/
def statesGoal (goal : String) (block : Block) : Bool :=
  goal ≠ "" && block.any fun m => m.role = .user &&
    (m.text = goal || (goal.length = 16000 && decide (goal.toList <+: m.text.toList)))

/-- `text(message).lstrip()`. -/
def Message.body (m : Message) : List Char := m.text.toList.dropWhile codec.space

/-- The block holds an answer of the assistant. -/
def repliesIn (block : Block) : Bool :=
  block.any fun m => m.role = .assistant && m.body codec ≠ [] &&
    !decide ("Error:".toList <+: m.body codec) && m.calls = []

/-- `current`, in `conversation_anchors`: the block of the active goal, or the last one of a user. -/
def currentBlock (goal : String) (blocks : List Block) : Option ℕ :=
  let users := indices (hasRole .user) blocks
  ((users.filter fun i => blocks[i]?.any (statesGoal goal)).getLast?).or users.getLast?

/-- `conversation_anchors`. -/
def conversationAnchors (goal : String) (blocks : List Block) : List ℕ :=
  let users := indices (hasRole .user) blocks
  match currentBlock goal blocks with
  | none => []
  | some current =>
    match ((indices (repliesIn codec) blocks).filter (· < current)).getLast? with
    | none => [current]
    | some reply =>
      current :: reply :: users.filter (fun i => reply < i && i < current) ++
        (users.filter (· < reply)).getLast?.toList

/-- The last block with the result of a tool. -/
def latestTools (blocks : List Block) : Option ℕ := (indices (hasRole .tool) blocks).getLast?

/-- The last block with a message of a user. -/
def lastUser (blocks : List Block) : Option ℕ := (indices (hasRole .user) blocks).getLast?

/-- `protected`. -/
def protectedBlocks (goal : String) (blocks : List Block) : List ℕ :=
  indices (fun b => hasRole .system b || hasRole .developer b || hasApproval codec b) blocks ++
    (latestTools blocks).toList ++ (lastUser blocks).toList ++ conversationAnchors codec goal blocks

/-! ### `fit_latest_evidence` -/

/-- The message is an assistant's call of tools. -/
def Message.isCall (m : Message) : Bool := m.role = .assistant && m.calls ≠ []

/-- What stands in place of the middle of a result. -/
def marker : String :=
  "\n[Tool output truncated for model context; complete evidence remains in task history.]\n"

/-- The result may be cut. -/
def Message.eligible (m : Message) : Bool :=
  m.role = .tool && match m.content with
    | .text s => !mentionsApproval s
    | _ => false

/-- The text with the given fraction of its characters. -/
def resizeText (fraction : ℚ) (original : String) : String :=
  let keep := (original.length * fraction).floor.toNat
  if original.length ≤ keep then original
  else
    let head := keep * 3 / 4
    let tail := keep - head
    String.ofList (original.toList.take head) ++ marker ++
      String.ofList (original.toList.drop (original.length - tail))

/-- The message as `resize` leaves it. -/
def Message.resize (fraction : ℚ) (m : Message) : Message :=
  if m.eligible then
    match m.content with
    | .text s => { m with content := .text (resizeText fraction s) }
    | _ => m
  else m

/-- The search for the largest fraction that fits. -/
def bisect (fit : ℚ → Except Error Bool) : ℕ → ℚ → ℚ → Except Error ℚ
  | 0, low, _ => .ok low
  | k + 1, low, high => do
    let middle := (low + high) / 2
    if ← fit middle then bisect fit k middle high else bisect fit k low middle

/-- The messages up to the last call of tools, and those after it. -/
def splitAtCall (messages : List Message) : List Message × List Message :=
  let after := (messages.reverse.takeWhile fun m => !m.isCall).reverse
  (messages.take (messages.length - after.length), after)

/-- `fit_latest_evidence`. -/
def fitLatestEvidence (messages : List Message) : Except Error (Option (List Message)) :=
  let (before, after) := splitAtCall messages
  if before = [] || !after.any Message.eligible then .ok none
  else do
    let resized (fraction : ℚ) := before ++ after.map (Message.resize fraction)
    let fit (fraction : ℚ) := fits codec q (resized fraction)
    if ← fit 0 then do
      let low ← bisect fit 18 0 1
      pure (some (resized low))
    else pure none

/-! ### `govern_messages` -/

/-- `constraints`. -/
def constraints : List Message :=
  if q.goal = "" ∧ q.criteria = none then []
  else [{
    role := .user
    content := .text ("Retained task goal and acceptance data:\n" ++
      codec.retained q.goal q.criteria) }]

/-- The blocks at the indices `chosen`, in order. -/
def select (blocks : List Block) (chosen : List ℕ) : List Message :=
  ((List.range blocks.length).filter (· ∈ chosen)).flatMap fun i => (blocks[i]?).getD []

/-- The error of a conversation that cannot be made to fit. -/
def contextTooLarge : Error :=
  .value ("Protected instructions, goal, previous conversation exchange, approvals or latest input " ++
    "exceed model context budget")

/-- The loop that drops blocks, the oldest first. -/
def dropBlocks (blocks : List Block) : List ℕ → List ℕ → Except Error (List Message)
  | [], chosen => do
    match ← fitLatestEvidence codec q (select blocks chosen ++ constraints codec q) with
    | some fitted => pure fitted
    | none => .error contextTooLarge
  | i :: rest, chosen =>
    if i ∈ protectedBlocks codec q.goal blocks then dropBlocks blocks rest chosen
    else do
      let chosen := chosen.filter (· ≠ i)
      let messages := select blocks chosen ++ constraints codec q
      if ← fits codec q messages then pure messages else dropBlocks blocks rest chosen

/-- `govern_messages`. -/
def governMessages (messages : List Message) : Except Error (List Message) := do
  let blocks ← normalizeBlocks messages
  let all := List.range blocks.length
  let whole := select blocks all ++ constraints codec q
  if ← fits codec q whole then pure whole else dropBlocks codec q blocks all all

end Context

end PythonAI
