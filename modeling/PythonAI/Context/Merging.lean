import Mathlib.Algebra.Order.BigOperators.Group.List
import PythonAI.Context.Json

/-!
# `provider_messages`: one message of the system

Just before a request the messages of the system become one, at the front.  Their texts are put
together; where one of them is a list, the others become parts of a list, with an empty line as a
part between them.

* `merge_texts` : texts take no more bytes together than apart, unless there is only one message
  and it has no content;
* `merge_lists` : **where there is a list, each text takes 25 bytes more, and only the other fields
  of the later messages are saved**;
* `bytes_lt_iff` : **the merge takes more bytes exactly if the messages grow**;
* `messageTokens_merged` : the tokens of the merged list differ by as much.
-/

namespace PythonAI

open Library

namespace Context

/-! ### The merge -/

/-- `message.get('content') or ''` -/
def Content.orEmpty (c : Content) : Content := if c.truthy then c else .text ""

/-- `isinstance(content, str)`, of such a content -/
def Content.isText : Content → Bool
  | .parts _ => false
  | _ => true

/-- The text. -/
def Content.string : Content → String
  | .text s => s
  | _ => ""

/-- `'\n\n'.join(contents)` -/
def paragraphs : List String → String
  | [] => ""
  | [s] => s
  | s :: rest => s ++ ("\n\n" ++ paragraphs rest)

/-- `{'type': 'text', 'text': value}` -/
def textPart (value : String) : Part := { text := some value, body := "\"type\":\"text\"" }

/-- The parts of a value. -/
def Content.toParts : Content → List Part
  | .parts ps => ps
  | c => [textPart c.string]

/-- The loop over the contents. -/
def mergeParts : List Part → List Content → List Part
  | content, [] => content
  | content, value :: values =>
    mergeParts (content ++ (if content = [] then [] else [textPart "\n\n"]) ++ value.toParts) values

/-- `content` -/
def mergeContents (contents : List Content) : Content :=
  if contents.all Content.isText then .text (paragraphs (contents.map Content.string))
  else .parts (mergeParts [] contents)

/-- `systems` -/
def systems (messages : List Message) : List Message := messages.filter (·.role = .system)

/-- `provider_messages` -/
def providerMessages (messages : List Message) : List Message :=
  match systems messages with
  | [] => messages
  | first :: others =>
    if others = [] ∧ messages.head?.any (·.role = .system) then messages
    else { first with content := mergeContents ((first :: others).map fun m => m.content.orEmpty) } ::
      messages.filter (·.role ≠ .system)

/-- The bytes that a content takes more as a part of a list. -/
def Content.gain : Content → ℕ
  | .missing => 38
  | .null => 23
  | .text _ => 25
  | .parts ps => if ps = [] then 25 else 0

/-- The merge takes more bytes: there is a list, and the other fields of the later messages take
fewer bytes than the contents take more; or the only message of the system, which is not the first
one, has no content, and gets an empty text. -/
def Grows (messages : List Message) : Prop :=
  ((systems messages).any fun m => !m.content.orEmpty.isText) = true ∧
      (((systems messages).drop 1).map Message.extra).sum <
        ((systems messages).map fun m => m.content.gain).sum ∨
    messages.head?.any (·.role = .system) = false ∧
      (systems messages).map Message.content = [.missing]

instance (messages : List Message) : Decidable (Grows messages) :=
  inferInstanceAs (Decidable (_ ∧ _ ∨ _ ∧ _))

variable {c : Content} {cs : List Content} {ps : List Part} {first m : Message}
  {others messages : List Message} {codec : Codec} {q : Request}

/-! ### The bytes of contents -/

theorem size_paragraphs (l : List String) : (escaped (paragraphs l)).utf8ByteSize =
    (l.map fun s => (escaped s).utf8ByteSize).sum + 4 * (l.length - 1) := by
  induction l with
  | nil => rfl
  | cons s rest ih =>
    cases rest with
    | nil => rfl
    | cons t rest =>
      have hsep : (escaped "\n\n").utf8ByteSize = 4 := by decide
      rw [paragraphs, escaped_append, escaped_append, String.utf8ByteSize_append,
        String.utf8ByteSize_append, ih, hsep]
      · simp only [List.map_cons, List.sum_cons, List.length_cons]
        omega
      · nofun

theorem orEmpty_of_truthy (h : c.truthy = true) : c.orEmpty = c := if_pos h

/-- The bytes of the parts of a list, each with a comma. -/
def partBytes (ps : List Part) : ℕ := (ps.map fun p => p.size + 1).sum

theorem partBytes_eq (ps : List Part) : partBytes ps = (ps.map Part.size).sum + ps.length := by
  induction ps with
  | nil => rfl
  | cons p ps ih =>
    rw [partBytes, List.map_cons, List.sum_cons, ← partBytes, ih, List.map_cons, List.sum_cons,
      List.length_cons]
    omega

theorem partBytes_append (ps ps' : List Part) :
    partBytes (ps ++ ps') = partBytes ps + partBytes ps' := by
  rw [partBytes, List.map_append, List.sum_append]
  rfl

theorem size_parts (h : ps ≠ []) : (Content.parts ps).size = partBytes ps + 12 := by
  have hpos := List.length_pos_iff.2 h
  rw [Content.size, partBytes_eq]
  omega

theorem partBytes_textPart (s : String) :
    partBytes [textPart s] = (Content.text s).size + 13 := by
  have hbody : "\"type\":\"text\"".utf8ByteSize = 13 := rfl
  have htext : "\"text\":".utf8ByteSize = 7 := rfl
  have hopen : "\x7b".utf8ByteSize = 1 := rfl
  have hclose : "\x7d".utf8ByteSize = 1 := rfl
  have hsize : (textPart s).size = (Content.text s).size + 12 := by
    have himage : (textPart s).isImage = false := rfl
    have hobject : (textPart s).isObject = true := rfl
    have hfields : ["\"type\":\"text\""].filter (· ≠ "") = ["\"type\":\"text\""] := by
      decide
    rw [Part.size, himage, if_neg Bool.false_ne_true, Part.json, if_pos hobject,
      show [(textPart s).body] = ["\"type\":\"text\""] from rfl, hfields]
    simp only [textPart, Option.map_some, Option.map_none, Option.toList_some, Option.toList_none,
      List.append_nil, List.cons_append, List.nil_append, String.utf8ByteSize_append, size_commas,
      List.map_cons, List.map_nil, List.sum_cons, List.sum_nil, List.length_cons, List.length_nil,
      hbody, htext, hopen, hclose, Content.size]
    omega
  rw [partBytes_eq, List.map_singleton, List.sum_singleton, hsize, List.length_singleton]

/-- What a content takes as a part of a list, with the brackets and the name of the field. -/
theorem partBytes_orEmpty (c : Content) :
    partBytes c.orEmpty.toParts + 12 = c.size + c.gain := by
  cases c with
  | missing => decide
  | null => decide
  | text s =>
    have hparts : (Content.text s).orEmpty.toParts = [textPart s] := by
      by_cases hs : s = ""
      · rw [hs]
        rfl
      · have htrue : (Content.text s).truthy = true := decide_eq_true hs
        rw [orEmpty_of_truthy htrue]
        rfl
    rw [hparts, partBytes_textPart]
    rfl
  | parts ps =>
    by_cases hps : ps = []
    · rw [hps]
      decide
    · have htrue : (Content.parts ps).truthy = true := decide_eq_true hps
      rw [orEmpty_of_truthy htrue, size_parts hps, Content.gain, if_neg hps]
      rfl

theorem toParts_orEmpty (c : Content) : c.orEmpty.toParts ≠ [] := by
  have hparts := partBytes_orEmpty c
  have hsize : 13 ≤ c.size + c.gain := by
    cases c with
    | missing => decide
    | null => decide
    | text s => exact (Nat.le_add_left 25 _).trans' (by decide)
    | parts ps => exact Nat.le_add_right_of_le (Nat.le_add_left 13 _)
  intro hnil
  rw [hnil, show partBytes [] = 0 from rfl] at hparts
  omega

/-! ### The bytes of a merge -/

/-- Every value behind the first one brings an empty line. -/
theorem partBytes_mergeParts (hps : ps ≠ []) (cs : List Content) :
    partBytes (mergeParts ps (cs.map Content.orEmpty)) =
      partBytes ps + (cs.map fun c => c.size + c.gain).sum + 18 * cs.length := by
  induction cs generalizing ps with
  | nil => rfl
  | cons c cs ih =>
    have hsep : partBytes [textPart "\n\n"] = 30 := by decide
    have hparts := partBytes_orEmpty c
    rw [List.map_cons, mergeParts, if_neg hps]
    have hne : ps ++ [textPart "\n\n"] ++ c.orEmpty.toParts ≠ [] := by simp
    have hrest := ih hne
    rw [partBytes_append, partBytes_append, hsep] at hrest
    rw [List.map_cons, List.sum_cons, List.length_cons]
    omega

theorem mergeParts_ne_nil (hps : ps ≠ []) (cs : List Content) : mergeParts ps cs ≠ [] := by
  induction cs generalizing ps with
  | nil => exact hps
  | cons c cs ih => exact ih (by simp [hps])

/-- A text takes no more bytes than its field, and 13 less if there is one. -/
theorem size_string (h : c.orEmpty.isText = true) :
    (escaped c.orEmpty.string).utf8ByteSize ≤ c.size ∧
      (c ≠ .missing → (escaped c.orEmpty.string).utf8ByteSize + 13 ≤ c.size) := by
  cases c with
  | missing => exact ⟨by decide, fun hno => absurd rfl hno⟩
  | null => exact ⟨by decide, fun _ => by decide⟩
  | text s =>
    have hstring : (Content.text s).orEmpty.string = s := by
      by_cases hs : s = ""
      · rw [hs]
        rfl
      · have htrue : (Content.text s).truthy = true := decide_eq_true hs
        exact congrArg Content.string (orEmpty_of_truthy htrue)
    have hquote := size_quote s
    rw [hstring]
    refine ⟨?_, fun _ => ?_⟩
    · rw [Content.size]
      omega
    · rw [Content.size]
      omega
  | parts ps =>
    by_cases hps : ps = []
    · rw [hps]
      exact ⟨by decide, fun _ => by decide⟩
    · have htrue : (Content.parts ps).truthy = true := decide_eq_true hps
      rw [orEmpty_of_truthy htrue] at h
      cases h

/-- The merge of texts. -/
theorem size_mergeTexts (h : ((c :: cs).map Content.orEmpty).all Content.isText = true) :
    (mergeContents ((c :: cs).map Content.orEmpty)).size =
      ((c :: cs).map fun d => (escaped d.orEmpty.string).utf8ByteSize).sum + 4 * cs.length + 13 := by
  have hcomp : (fun d : Content => (escaped d.orEmpty.string).utf8ByteSize) =
      (((fun s => (escaped s).utf8ByteSize) ∘ Content.string) ∘ Content.orEmpty) := rfl
  rw [mergeContents, if_pos h, Content.size, size_quote, size_paragraphs, List.map_map,
    List.map_map, List.length_map, List.length_map, List.length_cons, hcomp, Nat.add_sub_cancel]

/-- The merge with a list. -/
theorem size_mergeLists (h : ¬ ((c :: cs).map Content.orEmpty).all Content.isText = true) :
    (mergeContents ((c :: cs).map Content.orEmpty)).size =
      ((c :: cs).map fun d => d.size + d.gain).sum + 18 * cs.length := by
  have hfirst := partBytes_orEmpty c
  have hne := toParts_orEmpty c
  have hmerge := partBytes_mergeParts hne cs
  have hparts : mergeParts [] ((c :: cs).map Content.orEmpty) =
      mergeParts c.orEmpty.toParts (cs.map Content.orEmpty) := by
    rw [List.map_cons, mergeParts]
    rfl
  rw [mergeContents, if_neg h, hparts, size_parts (mergeParts_ne_nil hne _), List.map_cons,
    List.sum_cons]
  omega

/-! ### The bytes of messages -/

/-- The bytes of a list of messages, with the commas. -/
def bytes (messages : List Message) : ℕ := sizes messages + (messages.length - 1)

theorem sizes_cons (m : Message) (messages : List Message) :
    sizes (m :: messages) = m.size + sizes messages := List.sum_cons

/-- A sum over the messages, those of the system first. -/
theorem sum_systems (f : Message → ℕ) (messages : List Message) :
    (messages.map f).sum =
      ((systems messages).map f).sum + ((messages.filter (·.role ≠ .system)).map f).sum := by
  induction messages with
  | nil => rfl
  | cons m messages ih =>
    rw [List.map_cons, List.sum_cons, ih]
    by_cases hm : m.role = .system
    · have hsystem : systems (m :: messages) = m :: systems messages :=
        List.filter_cons_of_pos (decide_eq_true hm)
      rw [hsystem, List.filter_cons_of_neg (by simpa using hm), List.map_cons, List.sum_cons]
      omega
    · have hsystem : systems (m :: messages) = systems messages :=
        List.filter_cons_of_neg (by simpa using hm)
      rw [hsystem, List.filter_cons_of_pos (by simpa using hm), List.map_cons, List.sum_cons]
      omega

theorem sizes_systems (messages : List Message) :
    sizes messages = sizes (systems messages) + sizes (messages.filter (·.role ≠ .system)) :=
  sum_systems _ messages

theorem length_systems (messages : List Message) :
    messages.length = (systems messages).length + (messages.filter (·.role ≠ .system)).length := by
  have hsum := sum_systems (fun _ => 1) messages
  simpa only [List.map_const', List.sum_replicate_nat, Nat.mul_one] using hsum

/-- The later messages of the system: their contents and their other fields, and 18 bytes for each
with its comma. -/
theorem sizes_later (h : ∀ m ∈ others, m.role = .system) :
    sizes others = ((others.map Message.content).map Content.size).sum + 17 * others.length +
      (others.map Message.extra).sum := by
  induction others with
  | nil => rfl
  | cons m others ih =>
    have hrest := ih fun x hx => h x (List.mem_cons_of_mem _ hx)
    rw [sizes_cons, size_system (h m List.mem_cons_self), hrest]
    simp only [List.map_cons, List.sum_cons, List.length_cons]
    omega

/-- The list that a merge sends. -/
theorem bytes_merge (hsystems : systems messages = first :: others) (content : Content) :
    bytes ({ first with content := content } :: messages.filter (·.role ≠ .system)) +
        ((others.map Message.content).map Content.size).sum + first.content.size +
        18 * others.length + (others.map Message.extra).sum =
      bytes messages + content.size := by
  have hsizes := sizes_systems messages
  have hlength := length_systems messages
  have hrole : ∀ m ∈ first :: others, m.role = .system := by
    intro m hm
    rw [← hsystems] at hm
    exact of_decide_eq_true (List.mem_filter.1 hm).2
  have hlater := sizes_later fun m hm => hrole m (List.mem_cons_of_mem _ hm)
  have hfirst := size_system (hrole first List.mem_cons_self)
  have hmerged : Message.size { first with content := content } =
      17 + content.size + first.extra := size_system (hrole first List.mem_cons_self)
  rw [hsystems, sizes_cons, hlater] at hsizes
  rw [hsystems, List.length_cons] at hlength
  rw [bytes, bytes, sizes_cons, hmerged, List.length_cons]
  omega

theorem contents_orEmpty (first : Message) (others : List Message) :
    ((first :: others).map fun m => m.content.orEmpty) =
      (first.content :: others.map Message.content).map Content.orEmpty := by
  rw [← List.map_cons, List.map_map]
  rfl

/-- **Texts take no more bytes together than apart**, but an empty text takes 13 bytes where there
was no content. -/
theorem merge_texts (h : ¬ ((systems messages).any fun m => !m.content.orEmpty.isText) = true) :
    bytes messages < bytes (providerMessages messages) ↔
      messages.head?.any (·.role = .system) = false ∧
        (systems messages).map Message.content = [.missing] := by
  rw [providerMessages]
  split
  · rename_i hsystems
    simp [hsystems]
  rename_i first others hsystems
  split
  · rename_i hone
    simp [hone.2]
  rename_i hmerges
  have htexts : ∀ m ∈ first :: others, m.content.orEmpty.isText = true := by
    intro m hm
    by_contra hno
    rw [← hsystems] at hm
    exact h (List.any_eq_true.2 ⟨m, hm, by simpa using hno⟩)
  have hall : ((first.content :: others.map Message.content).map Content.orEmpty).all
      Content.isText = true := by
    rw [← contents_orEmpty]
    simpa using htexts
  have hmap := contents_orEmpty first others
  have hsize := size_mergeTexts hall
  have hbytes := bytes_merge hsystems
    (mergeContents ((first.content :: others.map Message.content).map Content.orEmpty))
  obtain ⟨hle, hthere⟩ := size_string (htexts first List.mem_cons_self)
  have hlater : ((others.map Message.content).map fun d =>
      (escaped d.orEmpty.string).utf8ByteSize).sum ≤
        ((others.map Message.content).map Content.size).sum := by
    rw [List.map_map, List.map_map]
    exact List.sum_le_sum fun m hm => (size_string (htexts m (List.mem_cons_of_mem _ hm))).1
  have hsum : ((first.content :: others.map Message.content).map fun d =>
      (escaped d.orEmpty.string).utf8ByteSize).sum =
        (escaped first.content.orEmpty.string).utf8ByteSize +
          ((others.map Message.content).map fun d =>
            (escaped d.orEmpty.string).utf8ByteSize).sum := by
    rw [List.map_cons, List.sum_cons]
  rw [hsum, List.length_map] at hsize
  rw [hmap, hsystems]
  generalize mergeContents ((first.content :: others.map Message.content).map Content.orEmpty) =
    content at hsize hbytes ⊢
  cases others with
  | nil =>
    have hhead : messages.head?.any (·.role = .system) = false := by simpa using hmerges
    simp only [List.map_nil, List.sum_nil, List.length_nil] at hsize hbytes hlater
    simp only [hhead, List.map_cons, List.map_nil, List.cons.injEq, and_true, true_and]
    constructor
    · intro hlt
      by_contra hno
      have := hthere hno
      omega
    · intro hmissing
      have hzero : first.content.size = 0 := by rw [hmissing]; rfl
      omega
  | cons m others =>
    -- every later message saves 14 bytes at least
    simp only [List.length_cons] at hsize hbytes
    constructor
    · intro hlt
      omega
    · rintro ⟨-, hno⟩
      simp at hno

/-- A list takes no more bytes as a part of a list. -/
theorem gain_of_list (h : c.orEmpty.isText = false) : c.gain = 0 := by
  cases c with
  | missing | null => cases h
  | text s =>
    rw [Content.orEmpty] at h
    split at h <;> cases h
  | parts ps =>
    by_cases hps : ps = []
    · rw [hps] at h
      cases h
    · exact if_neg hps

/-- **Where there is a list, each text takes more bytes than before, and the other fields of the
later messages are saved.** -/
theorem merge_lists (h : ((systems messages).any fun m => !m.content.orEmpty.isText) = true) :
    bytes (providerMessages messages) +
        (((systems messages).drop 1).map Message.extra).sum =
      bytes messages + ((systems messages).map fun m => m.content.gain).sum := by
  rw [providerMessages]
  split
  · rename_i hsystems
    rw [hsystems] at h
    cases h
  · rename_i first others hsystems
    rw [hsystems]
    rw [hsystems] at h
    split
    · rename_i hone
      rw [hone.1, List.any_cons, List.any_nil, Bool.or_false, Bool.not_eq_true'] at h
      rw [hone.1, List.drop_one, List.tail_cons, List.map_singleton, List.sum_singleton,
        gain_of_list h]
      rfl
    · have hmap := contents_orEmpty first others
      have hlist : ¬ ((first.content :: others.map Message.content).map Content.orEmpty).all
          Content.isText = true := by
        intro hall
        obtain ⟨m, hm, hno⟩ := List.any_eq_true.1 h
        rw [← hmap] at hall
        have htext := List.all_eq_true.1 hall _ (List.mem_map_of_mem hm)
        rw [htext] at hno
        cases hno
      have hsize := size_mergeLists hlist
      have hbytes := bytes_merge hsystems
        (mergeContents ((first.content :: others.map Message.content).map Content.orEmpty))
      have hgains : ∀ ms : List Message,
          ((ms.map Message.content).map fun d => d.size + d.gain).sum =
            ((ms.map Message.content).map Content.size).sum +
              (ms.map fun m => m.content.gain).sum := by
        intro ms
        induction ms with
        | nil => rfl
        | cons m ms ih =>
          simp only [List.map_cons, List.sum_cons, ih]
          omega
      have hsum : ((first.content :: others.map Message.content).map fun d => d.size + d.gain).sum =
          first.content.size + first.content.gain +
            ((others.map Message.content).map fun d => d.size + d.gain).sum := by
        rw [List.map_cons, List.sum_cons]
      rw [hsum, List.length_map, hgains] at hsize
      have hgain : ((first :: others).map fun m => m.content.gain).sum =
          first.content.gain + (others.map fun m => m.content.gain).sum := by
        rw [List.map_cons, List.sum_cons]
      rw [hmap, hgain, List.drop_one, List.tail_cons]
      omega

/-- **The merge takes more bytes exactly if the messages grow.** -/
theorem bytes_lt_iff : bytes messages < bytes (providerMessages messages) ↔ Grows messages := by
  by_cases hlist : ((systems messages).any fun m => !m.content.orEmpty.isText) = true
  · have hmerge := merge_lists hlist
    have hmissing : ¬ (systems messages).map Message.content = [.missing] := by
      intro hno
      obtain ⟨m, hm, hparts⟩ := List.any_eq_true.1 hlist
      have hcontent := List.mem_map_of_mem (f := Message.content) hm
      rw [hno, List.mem_singleton] at hcontent
      rw [hcontent] at hparts
      cases hparts
    rw [Grows, and_iff_right hlist, or_iff_left fun hno => hmissing hno.2]
    omega
  · rw [Grows, merge_texts hlist, or_iff_right fun hno => hlist hno.1]

/-! ### The tokens of a merge -/

/-- The images of contents. -/
def Content.images (c : Content) : ℕ := c.toParts.countP Part.isImage

theorem images_content (m : Message) : m.images = m.content.images := by
  rw [Message.images, Content.images]
  cases m.content with
  | missing => rfl
  | null => rfl
  | text s => rfl
  | parts ps => rfl

theorem images_orEmpty (c : Content) : c.orEmpty.images = c.images := by
  rw [Content.orEmpty]
  split
  · rfl
  · rename_i h
    cases c with
    | missing => rfl
    | null => rfl
    | text s => rfl
    | parts ps =>
      simp only [Content.truthy, decide_eq_true_eq, not_not] at h
      rw [h]
      rfl

theorem images_mergeParts (ps : List Part) (cs : List Content) :
    (mergeParts ps cs).countP Part.isImage =
      ps.countP Part.isImage + (cs.map Content.images).sum := by
  induction cs generalizing ps with
  | nil => rfl
  | cons c cs ih =>
    have hsep : (if ps = [] then [] else [textPart "\n\n"]).countP Part.isImage = 0 := by
      split <;> rfl
    rw [mergeParts, ih, List.countP_append, List.countP_append, hsep, List.map_cons, List.sum_cons,
      Content.images]
    omega

theorem images_mergeContents (cs : List Content) :
    (mergeContents cs).images = (cs.map Content.images).sum := by
  rw [mergeContents]
  split
  · rename_i h
    have hzero : (cs.map Content.images).sum = 0 := by
      refine List.sum_eq_zero ?_
      intro n hn
      obtain ⟨c, hc, rfl⟩ := List.mem_map.1 hn
      have htext := List.all_eq_true.1 h c hc
      cases c with
      | missing => rfl
      | null => rfl
      | text s => rfl
      | parts ps => cases htext
    rw [hzero]
    rfl
  · exact (images_mergeParts [] cs).trans (Nat.zero_add _)

/-- The images of a list of messages. -/
def images (messages : List Message) : ℕ := (messages.map Message.images).sum

theorem images_systems (messages : List Message) :
    images messages = images (systems messages) + images (messages.filter (·.role ≠ .system)) :=
  sum_systems _ messages

/-- **The merge keeps the images.** -/
theorem images_providerMessages (messages : List Message) :
    images (providerMessages messages) = images messages := by
  rw [providerMessages]
  split
  · rfl
  · rename_i first others hsystems
    split
    · rfl
    · have hcontents : (((first :: others).map fun m => m.content.orEmpty).map Content.images).sum =
          images (first :: others) := by
        have himages : ∀ m : Message, m.content.orEmpty.images = m.images := by
          intro m
          rw [images_orEmpty, images_content]
        rw [images, List.map_map]
        exact congrArg List.sum (List.map_congr_left fun m _ => himages m)
      rw [images_systems messages, hsystems, ← hcontents, ← images_mergeContents]
      rw [images, List.map_cons, List.sum_cons, images_content]
      rfl

/-- **The tokens of the merged list differ from those of the list by their bytes.** -/
theorem messageTokens_merged {tokens : ℕ}
    (h : messageTokens codec.withJson q messages = .ok tokens) : ∃ merged,
    messageTokens codec.withJson q (providerMessages messages) = .ok merged ∧
      merged + bytes messages = tokens + bytes (providerMessages messages) := by
  have hupper : ∀ l : List Message,
      tokenUpperBound (codec.withJson.dumps (l.map Message.withoutImages)) = bytes l + 130 := by
    intro l
    rw [tokenUpperBound, show codec.withJson.dumps = dumps from rfl, size_dumps, bytes]
  have himages := images_providerMessages messages
  rw [images, images] at himages
  unfold messageTokens at h ⊢
  dsimp only at h ⊢
  rw [hupper] at h ⊢
  rw [himages]
  split_ifs at h ⊢ with hzero
  · cases h
    exact ⟨_, rfl, by omega⟩
  · simp only [bind_eq_ok, pure_eq_ok] at h
    obtain ⟨reservation, hreservation, rfl⟩ := h
    refine ⟨_, by rw [hreservation]; rfl, ?_⟩
    omega

end Context

end PythonAI
