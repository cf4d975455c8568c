import PythonAI.Context.Govern

/-!
# The JSON texts of messages and their sizes

`json.dumps(messages, ensure_ascii=False, separators=(',', ':'))`, whose bytes are what
`token_upper_bound` counts.  The size of a list of messages is the sum of those of its messages,
and the size of a message is that of its content and that of its other fields.
-/

namespace PythonAI

open Library

namespace Context

/-! ### Texts -/

/-- The texts of a list, with commas between them. -/
def commas : List String → String
  | [] => ""
  | [s] => s
  | s :: rest => s ++ "," ++ commas rest

/-- A digit of a code point. -/
def hexDigit (n : ℕ) : Char := if n < 10 then Char.ofNat (48 + n) else Char.ofNat (87 + n)

/-- A character inside of quotes. -/
def escape (c : Char) : String :=
  if c = '\x22' then "\\\""
  else if c = '\x5c' then "\\\\"
  else if c = '\n' then "\\n"
  else if c = '\r' then "\\r"
  else if c = '\t' then "\\t"
  else if c = '\x08' then "\\b"
  else if c = '\x0c' then "\\f"
  else if c.toNat < 32 then
    "\\u00" ++ String.ofList [hexDigit (c.toNat / 16), hexDigit (c.toNat % 16)]
  else String.singleton c

/-- The characters of a text inside of quotes. -/
def escaped (s : String) : String := s.toList.foldr (fun c t => escape c ++ t) ""

/-- The JSON text of a text. -/
def quote (s : String) : String := "\"" ++ escaped s ++ "\""

/-- The JSON text of a part; `body` is that of its other fields. -/
def Part.json (p : Part) : String :=
  if p.isObject then
    "\x7b" ++ commas ([p.body].filter (· ≠ "") ++ (p.text.map fun t => "\"text\":" ++ quote t).toList ++
      (p.image.map fun url => "\"image_url\":\x7b\"url\":" ++ quote url ++ "\x7d").toList) ++ "\x7d"
  else p.body

/-- The JSON text of a content, if there is one. -/
def Content.json : Content → Option String
  | .missing => none
  | .null => some "null"
  | .text s => some (quote s)
  | .parts ps => some ("[" ++ commas (ps.map Part.json) ++ "]")

/-- The name of a role, if there is one. -/
def Role.name : Role → Option String
  | .system => some "system"
  | .developer => some "developer"
  | .user => some "user"
  | .assistant => some "assistant"
  | .tool => some "tool"
  | .other name => name

/-- The JSON text of a value of `tool_calls`. -/
def CallValue.json : CallValue → String
  | .call (some id) body => "\x7b\"id\":" ++ quote id ++ body ++ "\x7d"
  | .call none body => "\x7b" ++ body ++ "\x7d"
  | .other body => body

/-- The fields of a message besides its role and its content. -/
def Message.others (m : Message) : List String :=
  (if m.calls = [] then [] else ["\"tool_calls\":[" ++ commas (m.calls.map CallValue.json) ++ "]"]) ++
    (m.callId.map fun id => "\"tool_call_id\":" ++ quote id).toList ++ m.rest

/-- The fields of a message. -/
def Message.fields (m : Message) : List String :=
  (m.role.name.map fun name => "\"role\":" ++ quote name).toList ++
    (m.content.json.map fun content => "\"content\":" ++ content).toList ++ m.others

/-- The JSON text of a message. -/
def Message.json (m : Message) : String := "\x7b" ++ commas m.fields ++ "\x7d"

/-- The JSON text of messages. -/
def dumps (messages : List Message) : String := "[" ++ commas (messages.map Message.json) ++ "]"

/-- The texts of a codec, with the JSON texts of messages. -/
def Codec.withJson (codec : Codec) : Codec := { codec with dumps := Context.dumps }

/-! ### Sizes -/

variable {s t : String} {m : Message} {messages : List Message} {codec : Codec} {q : Request}

theorem size_commas (l : List String) :
    (commas l).utf8ByteSize = (l.map String.utf8ByteSize).sum + (l.length - 1) := by
  induction l with
  | nil => rfl
  | cons s rest ih =>
    cases rest with
    | nil => rfl
    | cons t rest =>
      have hcomma : ",".utf8ByteSize = 1 := rfl
      rw [commas, String.utf8ByteSize_append, String.utf8ByteSize_append, ih, hcomma]
      · simp only [List.map_cons, List.sum_cons, List.length_cons]
        omega
      · nofun

theorem escaped_append (s t : String) : escaped (s ++ t) = escaped s ++ escaped t := by
  rw [escaped, String.toList_append, List.foldr_append, escaped, escaped]
  generalize List.foldr _ "" t.toList = rest
  induction s.toList with
  | nil => rw [List.foldr_nil, List.foldr_nil, String.empty_append]
  | cons c l ih => rw [List.foldr_cons, List.foldr_cons, ih, String.append_assoc]

theorem size_quote (s : String) : (quote s).utf8ByteSize = (escaped s).utf8ByteSize + 2 := by
  rw [quote, String.utf8ByteSize_append, String.utf8ByteSize_append]
  have hquote : ("\"".utf8ByteSize : ℕ) = 1 := rfl
  rw [hquote]
  omega

/-- The bytes of a part, as they are counted: an image has the URL `<image>`. -/
def Part.size (p : Part) : ℕ :=
  (if p.isImage then { p with image := some "<image>" } else p).json.utf8ByteSize

/-- The bytes of fields, each with a comma. -/
def fieldBytes (l : List String) : ℕ := (l.map fun s => s.utf8ByteSize + 1).sum

theorem fieldBytes_cons (s : String) (l : List String) :
    fieldBytes (s :: l) = s.utf8ByteSize + 1 + fieldBytes l := List.sum_cons

theorem fieldBytes_append (l l' : List String) :
    fieldBytes (l ++ l') = fieldBytes l + fieldBytes l' := by
  rw [fieldBytes, List.map_append, List.sum_append]
  rfl

theorem size_commas_cons (s : String) (l : List String) :
    (commas (s :: l)).utf8ByteSize = s.utf8ByteSize + fieldBytes l := by
  rw [size_commas, List.map_cons, List.sum_cons, List.length_cons, Nat.add_sub_cancel,
    Nat.add_assoc, fieldBytes]
  congr 1
  induction l with
  | nil => rfl
  | cons t l ih =>
    simp only [List.map_cons, List.sum_cons, List.length_cons] at ih ⊢
    omega

/-- The bytes of the content of a message, with its name and a comma. -/
def Content.size : Content → ℕ
  | .missing => 0
  | .null => 15
  | .text s => (quote s).utf8ByteSize + 11
  | .parts ps => (ps.map Part.size).sum + (ps.length - 1) + 13

/-- The bytes of a message, as they are counted. -/
def Message.size (m : Message) : ℕ := m.withoutImages.json.utf8ByteSize

/-- The bytes of the fields of a message besides its role and its content. -/
def Message.extra (m : Message) : ℕ := fieldBytes m.others

theorem size_content (m : Message) : fieldBytes
    (m.withoutImages.content.json.map fun content => "\"content\":" ++ content).toList =
      m.content.size := by
  have hname : "\"content\":".utf8ByteSize = 10 := rfl
  have hnull : "null".utf8ByteSize = 4 := rfl
  obtain ⟨role, content, calls, callId, rest⟩ := m
  cases content with
  | missing => rfl
  | null => rfl
  | text s =>
    simp only [Message.withoutImages, Content.json, Option.map_some, Option.toList_some,
      fieldBytes_cons, String.utf8ByteSize_append, hname, Content.size]
    simp only [fieldBytes, List.map_nil, List.sum_nil]
    omega
  | parts ps =>
    have hopen : "[".utf8ByteSize = 1 := rfl
    have hclose : "]".utf8ByteSize = 1 := rfl
    have hsum : (ps.map Part.size).sum = (ps.map fun p =>
        (if p.isImage then { p with image := some "<image>" } else p).json.utf8ByteSize).sum := rfl
    simp only [Message.withoutImages, Content.json, Option.map_some, Option.toList_some,
      fieldBytes_cons, String.utf8ByteSize_append, hname, Content.size, size_commas, List.map_map,
      List.length_map, Function.comp_def, hopen, hclose]
    simp only [fieldBytes, List.map_nil, List.sum_nil]
    omega

theorem withoutImages_fields (m : Message) :
    m.withoutImages.role = m.role ∧ m.withoutImages.others = m.others := by
  obtain ⟨role, content, calls, callId, rest⟩ := m
  cases content <;> exact ⟨rfl, rfl⟩

/-- The bytes of a message of the system are those of its content and of its other fields. -/
theorem size_system (h : m.role = .system) : m.size = 17 + m.content.size + m.extra := by
  have hopen : "\x7b".utf8ByteSize = 1 := rfl
  have hclose : "\x7d".utf8ByteSize = 1 := rfl
  have hrole : ("\"role\":" ++ quote "system").utf8ByteSize = 15 := by decide
  obtain ⟨hsame, hothers⟩ := withoutImages_fields m
  rw [Message.size, Message.json, Message.fields, hsame, hothers, h, Role.name, Option.map_some,
    Option.toList_some, List.singleton_append, String.utf8ByteSize_append,
    String.utf8ByteSize_append, List.cons_append, size_commas_cons, fieldBytes_append,
    size_content, hopen, hclose, hrole, Message.extra]
  omega

/-- One of the texts of a list. -/
theorem size_commas_append (l l' : List String) :
    ∃ n, ∀ s, (commas (l ++ s :: l')).utf8ByteSize = n + s.utf8ByteSize := by
  refine ⟨(l.map String.utf8ByteSize).sum + (l'.map String.utf8ByteSize).sum +
    (l.length + l'.length), fun s => ?_⟩
  simp only [size_commas, List.map_append, List.map_cons, List.sum_append, List.sum_cons,
    List.length_append, List.length_cons]
  omega

/-- The bytes of a message whose content is a text are those of the text and of the rest. -/
theorem size_text (m : Message) : ∃ n, ∀ s,
    (Message.json { m with content := .text s }).utf8ByteSize = n + (quote s).utf8ByteSize := by
  have hopen : "\x7b".utf8ByteSize = 1 := rfl
  have hname : "\"content\":".utf8ByteSize = 10 := rfl
  have hclose : "\x7d".utf8ByteSize = 1 := rfl
  obtain ⟨n, hn⟩ := size_commas_append
    (m.role.name.map fun name => "\"role\":" ++ quote name).toList m.others
  refine ⟨n + 12, fun s => ?_⟩
  have hfields : Message.fields { m with content := .text s } =
      (m.role.name.map fun name => "\"role\":" ++ quote name).toList ++
        ("\"content\":" ++ quote s) :: m.others := List.append_assoc ..
  rw [Message.json, hfields, String.utf8ByteSize_append, String.utf8ByteSize_append, hn,
    String.utf8ByteSize_append, hopen, hname, hclose]
  omega

/-- The bytes of a list of messages. -/
def sizes (messages : List Message) : ℕ := (messages.map Message.size).sum

theorem size_dumps (messages : List Message) :
    (dumps (messages.map Message.withoutImages)).utf8ByteSize =
      sizes messages + (messages.length - 1) + 2 := by
  have hopen : "[".utf8ByteSize = 1 := rfl
  have hclose : "]".utf8ByteSize = 1 := rfl
  have hsizes : sizes messages =
      (messages.map fun m => m.withoutImages.json.utf8ByteSize).sum := rfl
  simp only [dumps, String.utf8ByteSize_append, size_commas, List.map_map, List.length_map,
    Function.comp_def, hopen, hclose]
  omega

end Context

end PythonAI
