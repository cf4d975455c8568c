import Mathlib.Algebra.Order.BigOperators.Group.List
import Mathlib.Algebra.Order.Floor.Ring
import Mathlib.Data.Finset.Lattice.Fold
import Mathlib.Tactic.Linarith
import Mathlib.Tactic.FieldSimp
import PythonAI.Context.Governed

/-!
# When a cut makes room

`fit_latest_evidence` first puts the marker in place of every result that it may cut.  A result
that is shorter than the marker grows by that, and so does one that loses a few characters only.

* `fitLatestEvidence_truncation` : **where cutting the long results would do, it finds a list
  exactly if no result is shorter than the marker**, and no result ever grows exactly if every one
  of them is empty or very long.
-/

namespace PythonAI

open Library

namespace Context

variable {codec : Codec} {q : Request} {size : String → ℕ} {messages a l out : List Message}
  {m : Message} {s : String} {φ : String → String} {fraction : ℚ} {t : ℕ}

/-! ### Other texts in the place of results -/

/-- The text of a result that may be cut. -/
def Message.evidence (m : Message) : Option String :=
  if m.eligible then
    match m.content with
    | .text s => some s
    | _ => none
  else none

/-- The message with another text, if it is a result that may be cut. -/
def Message.retext (φ : String → String) (m : Message) : Message :=
  match m.evidence with
  | some s => { m with content := .text (φ s) }
  | none => m

/-- The texts of the results that may be cut. -/
def evidence (l : List Message) : List String := l.filterMap Message.evidence

/-- The text, or the marker where the marker is smaller. -/
def shorter (size : String → ℕ) (s : String) : String := if size marker < size s then marker else s

/-- The list with the marker in place of every larger result after the last call. -/
def shortened (size : String → ℕ) (messages : List Message) : List Message :=
  match splitAtCall messages with
  | ([], after) => after
  | (before, after) => before ++ after.map (Message.retext (shorter size))

/-- The results after the last call that may be cut. -/
def latestEvidence (messages : List Message) : List String :=
  match splitAtCall messages with
  | ([], _) => []
  | (_, after) => evidence after

/-- The request, for another size of the context. -/
def Request.within (q : Request) (limit : ℤ) : Request := { q with maxTokens := limit }

/-- The bytes of a JSON text follow the sizes of the texts in it. -/
structure Codec.Sized (codec : Codec) (size : String → ℕ) : Prop where
  /-- no text is smaller than the empty one -/
  empty : ∀ s, size "" ≤ size s
  /-- another text in a message makes the difference of the two sizes -/
  swap : ∀ (a b : List Message) (m : Message) (s s' : String),
    (codec.dumps (a ++ { m with content := .text s } :: b)).utf8ByteSize + size s' =
      (codec.dumps (a ++ { m with content := .text s' } :: b)).utf8ByteSize + size s

theorem evidence_eq_some : m.evidence = some s ↔ m.eligible = true ∧ m.content = .text s := by
  unfold Message.evidence
  cases he : m.eligible with
  | false => simp
  | true => cases hc : m.content <;> simp

theorem retext_of_some (h : m.evidence = some s) :
    m.retext φ = { m with content := .text (φ s) } := by
  rw [Message.retext, h]

theorem retext_of_none (h : m.evidence = none) : m.retext φ = m := by
  rw [Message.retext, h]

theorem resize_eq : m.resize fraction = m.retext (resizeText fraction) := by
  cases h : m.evidence with
  | some s =>
    obtain ⟨he, hc⟩ := evidence_eq_some.1 h
    rw [retext_of_some h, Message.resize, if_pos he, hc]
  | none =>
    rw [retext_of_none h]
    unfold Message.resize
    split_ifs with he
    · split
      case h_1 s hc =>
        rw [evidence_eq_some.2 ⟨he, hc⟩] at h
        cases h
      case h_2 => rfl
    · rfl

theorem withoutImages_text (h : m.content = .text s) : m.withoutImages = m := by
  rw [Message.withoutImages, h]

theorem evidence_withoutImages : m.withoutImages.evidence = m.evidence := by
  cases hc : m.content with
  | missing | null => rw [Message.withoutImages, hc]
  | text s => rw [withoutImages_text hc]
  | parts ps =>
    rw [Message.withoutImages, hc]
    simp [Message.evidence, hc]

theorem withoutImages_retext : (m.retext φ).withoutImages = m.withoutImages.retext φ := by
  cases h : m.evidence with
  | some s =>
    have hc := (evidence_eq_some.1 h).2
    rw [retext_of_some h, withoutImages_text hc, retext_of_some h, withoutImages_text rfl]
  | none => rw [retext_of_none h, retext_of_none (evidence_withoutImages.trans h)]

theorem images_retext : (m.retext φ).images = m.images := by
  cases h : m.evidence with
  | some s =>
    rw [retext_of_some h, Message.images, Message.images, (evidence_eq_some.1 h).2]
  | none => rw [retext_of_none h]

/-- The sizes of the results, with `φ` applied to them. -/
def bulk (size : String → ℕ) (φ : String → String) (l : List Message) : ℕ :=
  ((evidence l).map fun s => size (φ s)).sum

theorem bulk_cons : bulk size φ (m :: l) =
    (m.evidence.elim 0 fun s => size (φ s)) + bulk size φ l := by
  cases h : m.evidence with
  | some s => simp [bulk, evidence, h]
  | none => simp [bulk, evidence, h]

/-- The bytes of the whole follow the sizes of the results. -/
theorem Codec.Sized.dumps_retext (hsize : codec.Sized size) :
    (codec.dumps (a ++ l.map (Message.retext φ))).utf8ByteSize + bulk size id l =
      (codec.dumps (a ++ l)).utf8ByteSize + bulk size φ l := by
  induction l generalizing a with
  | nil => rfl
  | cons m l ih =>
    have hrest := @ih (a ++ [m])
    rw [List.append_assoc, List.append_assoc, List.singleton_append, List.singleton_append] at hrest
    rw [List.map_cons, bulk_cons, bulk_cons]
    cases h : m.evidence with
    | none =>
      rw [retext_of_none h]
      simp only [Option.elim_none]
      omega
    | some s =>
      rw [retext_of_some h]
      have hhead := hsize.swap a (l.map (Message.retext φ)) m (φ s) s
      rw [show ({ m with content := .text s } : Message) = m by
        rw [← (evidence_eq_some.1 h).2]] at hhead
      simp only [Option.elim_some, id]
      omega

theorem bulk_withoutImages : bulk size φ (l.map Message.withoutImages) = bulk size φ l := by
  rw [bulk, bulk, evidence, evidence, List.filterMap_map]
  congr 3
  funext m
  exact evidence_withoutImages

/-- The count of a list with other results. -/
theorem Codec.Sized.messageTokens_retext (hsize : codec.Sized size)
    (h : messageTokens codec q (a ++ l) = .ok t) :
    ∃ n, messageTokens codec q (a ++ l.map (Message.retext φ)) = .ok n ∧
      n + bulk size id l = t + bulk size φ l := by
  have himages : ((a ++ l.map (Message.retext φ)).map Message.images).sum =
      ((a ++ l).map Message.images).sum := by
    rw [List.map_append, List.map_append, List.map_map]
    congr 3
    funext m
    exact images_retext
  have htext : (a ++ l.map (Message.retext φ)).map Message.withoutImages =
      a.map Message.withoutImages ++ (l.map Message.withoutImages).map (Message.retext φ) := by
    rw [List.map_append, List.map_map, List.map_map]
    congr 2
    funext m
    exact withoutImages_retext
  have hbytes := hsize.dumps_retext (a := a.map Message.withoutImages)
    (l := l.map Message.withoutImages) (φ := φ)
  rw [bulk_withoutImages, bulk_withoutImages, ← List.map_append] at hbytes
  unfold messageTokens at h ⊢
  simp only [himages, htext, tokenUpperBound] at h ⊢
  split_ifs at h ⊢ with hnone
  · cases h
    exact ⟨_, rfl, by omega⟩
  · simp only [bind_eq_ok, pure_eq_ok] at h ⊢
    obtain ⟨r, hr, rfl⟩ := h
    exact ⟨_, ⟨r, hr, rfl⟩, by omega⟩

/-! ### One trial and the search -/

variable {before after : List Message} {limit : ℤ} {k : ℕ}

/-- The list fits after cuts that keep the given fraction of each result. -/
def trial (codec : Codec) (q : Request) (before after : List Message) (fraction : ℚ) :
    Except Error Bool :=
  fits codec q (before ++ after.map (Message.resize fraction))

theorem fits_within (h : messageTokens codec q l = .ok t) :
    fits codec (q.within limit) l = .ok (decide ((t : ℤ) + tokenUpperBound q.tools ≤ limit)) := by
  change (messageTokens codec q l >>= fun n => pure (decide _)) = _
  rw [h]
  rfl

theorem any_eligible : l.any Message.eligible = true ↔ evidence l ≠ [] := by
  induction l with
  | nil => simp [evidence]
  | cons m l ih =>
    rw [List.any_cons, Bool.or_eq_true, ih]
    cases h : m.evidence with
    | some s => simp [evidence, h, (evidence_eq_some.1 h).1]
    | none =>
      have hm : m.eligible ≠ true := by
        intro he
        unfold Message.evidence at h
        rw [if_pos he] at h
        cases hc : m.content <;> simp_all [Message.eligible]
      simp [evidence, h, hm]

theorem retext_of_evidence (h : evidence l = []) : l.map (Message.retext φ) = l := by
  refine (List.map_congr_left fun m hm => ?_).trans (List.map_id l)
  exact retext_of_none (List.filterMap_eq_nil_iff.1 h m hm)

/-- Without a result to cut there is nothing to try. -/
theorem latestEvidence_nil (codec : Codec) (q : Request) (size : String → ℕ)
    (h : latestEvidence messages = []) :
    shortened size messages = messages ∧ fitLatestEvidence codec q messages = .ok none := by
  have happ := splitAtCall_append_eq (l := messages)
  unfold latestEvidence at h
  unfold shortened fitLatestEvidence
  generalize splitAtCall messages = split at happ h ⊢
  obtain ⟨before, after⟩ := split
  cases before with
  | nil => exact ⟨happ, rfl⟩
  | cons b before =>
    have hnone : after.any Message.eligible = false := by
      rw [← Bool.not_eq_true, any_eligible, not_not]
      exact h
    dsimp only at happ ⊢
    rw [retext_of_evidence h, hnone]
    exact ⟨happ, rfl⟩

/-- With a result to cut, the list ends in a call and what follows it. -/
theorem latestEvidence_split (codec : Codec) (size : String → ℕ)
    (h : latestEvidence messages ≠ []) : ∃ before after,
    messages = before ++ after ∧ evidence after = latestEvidence messages ∧
    shortened size messages = before ++ after.map (Message.retext (shorter size)) ∧
    ∀ (q : Request) (out : List Message), fitLatestEvidence codec q messages = .ok (some out) ↔
      trial codec q before after 0 = .ok true ∧
        ∃ low, bisect (trial codec q before after) 18 0 1 = .ok low ∧
          out = before ++ after.map (Message.resize low) := by
  have happ := splitAtCall_append_eq (l := messages)
  unfold latestEvidence at h ⊢
  unfold shortened fitLatestEvidence
  generalize splitAtCall messages = split at happ h ⊢
  obtain ⟨before, after⟩ := split
  cases before with
  | nil => exact absurd rfl h
  | cons b before =>
    have hany : after.any Message.eligible = true := any_eligible.2 h
    refine ⟨b :: before, after, happ.symm, rfl, rfl, fun q out => ?_⟩
    simp only [hany, Bool.not_true, Bool.or_false, decide_eq_true_eq, reduceCtorEq, if_false,
      bind_eq_ok]
    constructor
    · rintro ⟨ok, hzero, h⟩
      cases ok with
      | false => cases h
      | true =>
        simp only [if_true, bind_eq_ok, pure_eq_ok, Option.some.injEq] at h
        obtain ⟨low, hlow, rfl⟩ := h
        exact ⟨hzero, low, hlow, rfl⟩
    · rintro ⟨hzero, low, hlow, rfl⟩
      refine ⟨true, hzero, ?_⟩
      simp only [if_true, bind_eq_ok, pure_eq_ok, Option.some.injEq]
      exact ⟨low, hlow, rfl⟩

section

variable {fit : ℚ → Except Error Bool} {low high : ℚ}

theorem bisect_ok (h : ∀ f, ∃ b, fit f = .ok b) (k : ℕ) (low high : ℚ) :
    ∃ f, bisect fit k low high = .ok f := by
  induction k generalizing low high with
  | zero => exact ⟨low, rfl⟩
  | succ k ih =>
    obtain ⟨b, hb⟩ := h ((low + high) / 2)
    cases b with
    | true =>
      obtain ⟨f, hf⟩ := ih ((low + high) / 2) high
      exact ⟨f, by simp only [bisect, hb, bind_eq_ok]; exact ⟨true, rfl, hf⟩⟩
    | false =>
      obtain ⟨f, hf⟩ := ih low ((low + high) / 2)
      exact ⟨f, by simp only [bisect, hb, bind_eq_ok]; exact ⟨false, rfl, hf⟩⟩

/-- The search never reaches the upper end. -/
theorem bisect_le (hle : low ≤ high) (h : bisect fit k low high = .ok fraction) :
    fraction ≤ high - (high - low) / 2 ^ k := by
  induction k generalizing low high with
  | zero =>
    cases h
    simp
  | succ k ih =>
    simp only [bisect, bind_eq_ok] at h
    obtain ⟨b, -, h⟩ := h
    cases b with
    | true =>
      refine (ih (by linarith) h).trans (le_of_eq ?_)
      rw [pow_succ]
      field_simp
      ring
    | false =>
      have hstep := ih (by linarith) h
      have hhalf : ((low + high) / 2 - low) / 2 ^ k = (high - low) / 2 ^ (k + 1) := by
        rw [pow_succ]
        field_simp
        ring
      rw [hhalf] at hstep
      linarith

/-- If everything fits, the search comes as close to the upper end as it can. -/
theorem bisect_all {j : ℕ} (h : ∀ i ≤ j + k, fit (1 - 1 / 2 ^ i) = .ok true) :
    bisect fit k (1 - 1 / 2 ^ j) 1 = .ok (1 - 1 / 2 ^ (j + k)) := by
  induction k generalizing j with
  | zero => rfl
  | succ k ih =>
    have hmid : (1 - 1 / 2 ^ j + 1 : ℚ) / 2 = 1 - 1 / 2 ^ (j + 1) := by
      rw [pow_succ]
      field_simp
      ring
    simp only [bisect, bind_eq_ok]
    rw [hmid]
    refine ⟨true, h _ (by omega), ?_⟩
    rw [if_pos rfl, ih fun i hi => h i (by omega), show j + 1 + k = j + (k + 1) by omega]

end

/-! ### The shorter texts -/

theorem resizeText_zero : resizeText 0 s = if s = "" then "" else marker := by
  unfold resizeText
  by_cases hs : s = ""
  · subst hs
    rfl
  · have hkeep : (s.length * (0 : ℚ)).floor.toNat = 0 := by
      rw [mul_zero]
      rfl
    have hlen : s.length ≠ 0 := fun h => hs (String.length_eq_zero_iff.1 h)
    dsimp only
    rw [hkeep, if_neg (by omega), if_neg hs]
    have hdrop : s.toList.drop s.length = [] := List.drop_of_length_le (by rw [String.length_toList])
    simp [hdrop]

theorem size_shorter_le (hsize : codec.Sized size) :
    size (shorter size s) ≤ size (resizeText 0 s) := by
  have hempty := hsize.empty marker
  rw [resizeText_zero]
  unfold shorter
  split_ifs with hlt hs hs
  · rw [hs] at hlt
    omega
  · exact le_rfl
  · rw [hs]
  · omega

theorem bulk_shorter_lt (hsize : codec.Sized size) (hs : s ∈ evidence l) (hne : s ≠ "")
    (hlt : size s < size marker) :
    bulk size (shorter size) l < bulk size (resizeText 0) l := by
  refine List.sum_lt_sum _ _ (fun _ _ => size_shorter_le hsize) ⟨s, hs, ?_⟩
  rw [resizeText_zero, if_neg hne, shorter, if_neg (by omega)]
  exact hlt

theorem bulk_shorter_eq (hsize : codec.Sized size)
    (h : ∀ s ∈ evidence l, s = "" ∨ size marker ≤ size s) :
    bulk size (shorter size) l = bulk size (resizeText 0) l := by
  refine congrArg List.sum (List.map_congr_left fun s hs => ?_)
  rw [resizeText_zero]
  have hempty := hsize.empty marker
  unfold shorter
  rcases h s hs with rfl | hle
  · rw [if_pos rfl, if_neg (by omega)]
  · split_ifs with h₁ h₂ h₃
    · rw [h₂] at h₁
      omega
    · rfl
    · rw [h₃]
    · omega

/-- **Where the shorter texts fit, a list is found** for every limit exactly if there is a result
to cut and every one that is not empty is as large as the marker. -/
theorem fitLatestEvidence_finds (hsize : codec.Sized size)
    (hcount : messageTokens codec q messages = .ok t) :
    (∀ limit, fits codec (q.within limit) (shortened size messages) = .ok true →
      ∃ out, fitLatestEvidence codec (q.within limit) messages = .ok (some out) ∧
        fits codec (q.within limit) out = .ok true) ↔
    latestEvidence messages ≠ [] ∧
      ∀ s ∈ latestEvidence messages, s = "" ∨ size marker ≤ size s := by
  by_cases hnil : latestEvidence messages = []
  · -- nothing can be cut, and a limit that the list itself meets is not met by a result
    refine iff_of_false (fun hall => ?_) fun h => h.1 hnil
    obtain ⟨hsame, -⟩ := latestEvidence_nil codec q size hnil
    have hfits : fits codec (q.within (t + tokenUpperBound q.tools)) messages = .ok true := by
      rw [fits_within hcount, decide_eq_true le_rfl]
    obtain ⟨out, hout, -⟩ := hall _ (hsame.symm ▸ hfits)
    rw [(latestEvidence_nil _ _ size hnil).2] at hout
    cases hout
  obtain ⟨before, after, rfl, hevidence, hshort, hfit⟩ := latestEvidence_split codec size hnil
  rw [← hevidence] at hnil ⊢
  obtain ⟨n, hn, hbulk⟩ := hsize.messageTokens_retext (φ := shorter size) hcount
  obtain ⟨n₀, hn₀, hbulk₀⟩ := hsize.messageTokens_retext (φ := resizeText 0) hcount
  have htrial : ∀ limit, trial codec (q.within limit) before after 0 =
      .ok (decide ((n₀ : ℤ) + tokenUpperBound q.tools ≤ limit)) := by
    intro limit
    rw [trial, List.map_congr_left fun m _ => resize_eq]
    exact fits_within hn₀
  rw [hshort]
  constructor
  · intro hall
    refine ⟨hnil, fun s hs => or_iff_not_imp_left.2 fun hne => ?_⟩
    by_contra hlt
    obtain ⟨out, hout, -⟩ := hall (n + tokenUpperBound q.tools)
      (by rw [fits_within hn, decide_eq_true le_rfl])
    have hzero := ((hfit _ _).1 hout).1
    rw [htrial, Except.ok.injEq, decide_eq_true_eq] at hzero
    have hsmaller := bulk_shorter_lt hsize hs hne (by omega)
    omega
  · rintro ⟨-, hlarge⟩ limit hfits
    rw [fits_within hn, Except.ok.injEq, decide_eq_true_eq] at hfits
    have heq := bulk_shorter_eq hsize hlarge
    have hzero : trial codec (q.within limit) before after 0 = .ok true := by
      rw [htrial, decide_eq_true]
      omega
    have hok : ∀ f, ∃ b, trial codec (q.within limit) before after f = .ok b := by
      intro f
      obtain ⟨i, hi, -⟩ := hsize.messageTokens_retext (φ := resizeText f) hcount
      rw [trial, List.map_congr_left fun m _ => resize_eq]
      exact ⟨_, fits_within hi⟩
    obtain ⟨low, hlow⟩ := bisect_ok hok 18 0 1
    exact ⟨_, (hfit _ _).2 ⟨hzero, low, hlow, rfl⟩, bisect_fit hzero hlow⟩

/-! ### Results that grow -/

theorem resizeText_length (h : (s.length * fraction).floor.toNat < s.length) :
    (resizeText fraction s).length = (s.length * fraction).floor.toNat + marker.length := by
  unfold resizeText
  dsimp only
  rw [if_neg (by omega)]
  simp only [String.length_append, String.length_ofList, List.length_take, List.length_drop,
    String.length_toList]
  omega

/-- The text grows exactly if it is cut by fewer characters than the marker has. -/
theorem resizeText_length_le : (resizeText fraction s).length ≤ s.length ↔
    s.length ≤ (s.length * fraction).floor.toNat ∨
      (s.length * fraction).floor.toNat + marker.length ≤ s.length := by
  by_cases h : s.length ≤ (s.length * fraction).floor.toNat
  · refine iff_of_true ?_ (.inl h)
    unfold resizeText
    dsimp only
    rw [if_pos h]
  · rw [resizeText_length (by omega)]
    omega

theorem marker_length : marker.length = 87 := by rfl

/-- The fractions of the search are too far from the whole only for very long texts. -/
theorem resizeText_short (hf : fraction ≤ 1 - 1 / 2 ^ 18)
    (h : s = "" ∨ 2 ^ 18 * (marker.length - 1) < s.length) :
    (resizeText fraction s).length ≤ s.length := by
  rw [resizeText_length_le]
  rcases h with rfl | h
  · exact .inl (Nat.zero_le _)
  refine .inr ?_
  rw [marker_length] at h ⊢
  have hlong : (2 ^ 18 * 86 : ℚ) < s.length := by exact_mod_cast h
  have hfloor : (s.length * fraction).floor < s.length - 86 := by
    rw [Rat.floor_lt_iff]
    push_cast
    nlinarith
  omega

theorem resizeText_long (h : (resizeText (1 - 1 / 2 ^ 18) s).length ≤ s.length) :
    s = "" ∨ 2 ^ 18 * (marker.length - 1) < s.length := by
  refine or_iff_not_imp_left.2 fun hne => ?_
  have hpos : 0 < s.length := Nat.pos_of_ne_zero fun h => hne (String.length_eq_zero_iff.1 h)
  have hpos' : (0 : ℚ) < s.length := by exact_mod_cast hpos
  have hlt : (s.length * (1 - 1 / 2 ^ 18) : ℚ).floor < s.length := by
    rw [Rat.floor_lt_iff]
    push_cast
    nlinarith
  rw [resizeText_length_le, marker_length] at h
  have hfloor : (s.length * (1 - 1 / 2 ^ 18) : ℚ).floor < s.length - 86 := by omega
  rw [Rat.floor_lt_iff] at hfloor
  push_cast at hfloor
  have hlong : (2 ^ 18 * 86 : ℚ) < s.length := by nlinarith
  rw [marker_length]
  exact_mod_cast hlong

/-- The text of the second message is not longer. -/
def NotLonger (m m' : Message) : Prop := m'.text.length ≤ m.text.length

theorem notLonger_resize : NotLonger m (m.resize fraction) ↔
    ∀ s, m.evidence = some s → (resizeText fraction s).length ≤ s.length := by
  rw [resize_eq, NotLonger]
  cases h : m.evidence with
  | some s =>
    rw [retext_of_some h, Message.text, Message.text, (evidence_eq_some.1 h).2]
    simp
  | none =>
    rw [retext_of_none h]
    simp

theorem mem_evidence : s ∈ evidence l ↔ ∃ m ∈ l, m.evidence = some s := List.mem_filterMap

/-- **No result grows**, for any limit, exactly if every one is empty or very long. -/
theorem fitLatestEvidence_notLonger (hsize : codec.Sized size)
    (hcount : messageTokens codec q messages = .ok t) :
    (∀ limit out, fitLatestEvidence codec (q.within limit) messages = .ok (some out) →
      List.Forall₂ NotLonger messages out) ↔
    ∀ s ∈ latestEvidence messages, s = "" ∨ 2 ^ 18 * (marker.length - 1) < s.length := by
  by_cases hnil : latestEvidence messages = []
  · refine iff_of_true (fun limit out hout => ?_) fun s hs => ?_
    · rw [(latestEvidence_nil _ _ size hnil).2] at hout
      cases hout
    · rw [hnil] at hs
      cases hs
  obtain ⟨before, after, rfl, hevidence, -, hfit⟩ := latestEvidence_split codec size hnil
  rw [← hevidence]
  constructor
  · intro hall s hs
    obtain ⟨m, hm, hms⟩ := mem_evidence.1 hs
    -- with a limit that every trial meets, the search ends as close to the whole as it can
    choose count hn _ using fun f => hsize.messageTokens_retext (φ := resizeText f) hcount
    let limit : ℤ := ((Finset.range 19).sup fun i => count (1 - 1 / 2 ^ i) : ℕ) +
      tokenUpperBound q.tools
    have htrial : ∀ i ≤ 18, trial codec (q.within limit) before after (1 - 1 / 2 ^ i) = .ok true := by
      intro i hi
      have hle := Finset.le_sup (f := fun i => count (1 - 1 / 2 ^ i))
        (Finset.mem_range.2 (Nat.lt_succ_of_le hi))
      rw [trial, List.map_congr_left fun m _ => resize_eq, fits_within (hn _), decide_eq_true]
      have hle' : (count (1 - 1 / 2 ^ i) : ℤ) ≤
          ((Finset.range 19).sup fun i => count (1 - 1 / 2 ^ i) : ℕ) := by exact_mod_cast hle
      exact add_le_add_left hle' _
    have hzero := htrial 0 (Nat.zero_le _)
    have hsearch := bisect_all (k := 18) (j := 0) htrial
    rw [pow_zero, div_one, sub_self] at hzero hsearch
    have hgrow := hall limit _ ((hfit _ _).2 ⟨hzero, _, hsearch, rfl⟩)
    have hafter := List.forall₂_drop before.length hgrow
    rw [List.drop_left, List.drop_left, List.forall₂_map_right_iff, List.forall₂_same] at hafter
    exact resizeText_long (notLonger_resize.1 (hafter m hm) s hms)
  · intro hlong limit out hout
    obtain ⟨-, low, hlow, rfl⟩ := (hfit _ _).1 hout
    have hle := bisect_le zero_le_one hlow
    rw [sub_zero] at hle
    refine List.rel_append (List.forall₂_same.2 fun m _ => Nat.le_refl m.text.length)
      (List.forall₂_map_right_iff.2 (List.forall₂_same.2 fun m hm => ?_))
    exact notLonger_resize.2 fun s hs => resizeText_short hle (hlong s (mem_evidence.2 ⟨m, hm, hs⟩))

/-- **When cutting the latest results does what it is for**, whatever the limit: it finds a list
whenever the shorter texts fit exactly if there is a result to cut and none but an empty one is
smaller than the marker; and it leaves no result longer than it was exactly if each of them is
empty or longer than `2 ^ 18` times the marker. -/
theorem fitLatestEvidence_truncation (hsize : codec.Sized size)
    (hcount : messageTokens codec q messages = .ok t) :
    ((∀ limit, fits codec (q.within limit) (shortened size messages) = .ok true →
        ∃ out, fitLatestEvidence codec (q.within limit) messages = .ok (some out) ∧
          fits codec (q.within limit) out = .ok true) ↔
      latestEvidence messages ≠ [] ∧
        ∀ s ∈ latestEvidence messages, s = "" ∨ size marker ≤ size s) ∧
    ((∀ limit out, fitLatestEvidence codec (q.within limit) messages = .ok (some out) →
        List.Forall₂ NotLonger messages out) ↔
      ∀ s ∈ latestEvidence messages, s = "" ∨ 2 ^ 18 * (marker.length - 1) < s.length) :=
  ⟨fitLatestEvidence_finds hsize hcount, fitLatestEvidence_notLonger hsize hcount⟩

/-! ### Many short results beside a long one -/

namespace Sample

/-- The JSON texts of messages. -/
def json : Codec := plain.withJson

/-- The bytes of the JSON text of a text. -/
def jsonSize (s : String) : ℕ := (quote s).utf8ByteSize

theorem json_sized : json.Sized jsonSize where
  empty s := by
    rw [jsonSize, jsonSize, size_quote, size_quote]
    exact Nat.add_le_add_right (Nat.zero_le _) 2
  swap a b m s s' := by
    obtain ⟨n, hn⟩ := size_text m
    have hdumps : ∀ s, (json.dumps (a ++ { m with content := .text s } :: b)).utf8ByteSize =
        ((a ++ b).map fun x => x.json.utf8ByteSize).sum + (n + jsonSize s) +
          (a.length + b.length) + 2 := by
      intro s
      have hopen : "[".utf8ByteSize = 1 := rfl
      have hclose : "]".utf8ByteSize = 1 := rfl
      have hsize : (Message.json { m with content := .text s }).utf8ByteSize = n + jsonSize s := hn s
      rw [show json.dumps = dumps from rfl, dumps]
      simp only [String.utf8ByteSize_append, size_commas, List.map_append, List.map_cons,
        List.map_map, List.sum_append, List.sum_cons, List.length_append, List.length_map,
        List.length_cons, Function.comp_def, hopen, hclose, hsize]
      omega
    rw [hdumps, hdumps]
    omega

/-- A call of two tools, a short result and a long one. -/
def results : List Message :=
  [{ role := .assistant
     content := .null
     calls := ["a", "b"].map fun id => .call (some id) "" },
    { told .tool "ok" with callId := some "a" },
    { told .tool (String.ofList (List.replicate 100 'x')) with callId := some "b" }]

set_option maxRecDepth 8000 in
theorem results_count : messageTokens json { maxTokens := 525 } results = .ok 400 := by
  rfl

theorem short_size : jsonSize "ok" = 4 := by rfl

set_option maxRecDepth 4000 in
theorem long_size : jsonSize (String.ofList (List.replicate 100 'x')) = 102 := by
  rfl

set_option maxRecDepth 4000 in
theorem marker_size : jsonSize marker = 91 := by rfl

theorem results_split : splitAtCall results = (results.take 1, results.drop 1) := by rfl

theorem results_tools : tokenUpperBound ({ maxTokens := 525 } : Request).tools = 130 := by rfl

set_option maxRecDepth 4000 in
theorem results_evidence :
    evidence (results.drop 1) = ["ok", String.ofList (List.replicate 100 'x')] := by rfl

theorem results_bulk (φ : String → String) : bulk jsonSize φ (results.drop 1) =
    jsonSize (φ "ok") + jsonSize (φ (String.ofList (List.replicate 100 'x'))) := by
  rw [bulk, results_evidence]
  simp

/-- The count with other results. -/
theorem results_retext (φ : String → String) : ∃ n,
    messageTokens json { maxTokens := 525 }
      (results.take 1 ++ (results.drop 1).map (Message.retext φ)) = .ok n ∧
    n = 294 + jsonSize (φ "ok") + jsonSize (φ (String.ofList (List.replicate 100 'x'))) := by
  obtain ⟨n, hn, hbulk⟩ := json_sized.messageTokens_retext (φ := φ)
    (a := results.take 1) (l := results.drop 1) results_count
  refine ⟨n, hn, ?_⟩
  rw [results_bulk, results_bulk, id, id, short_size, long_size] at hbulk
  omega

theorem results_fit : fits json { maxTokens := 525 } (shortened jsonSize results) = .ok true := by
  obtain ⟨n, hn, hcount⟩ := results_retext (shorter jsonSize)
  have hshort : shortened jsonSize results =
      results.take 1 ++ (results.drop 1).map (Message.retext (shorter jsonSize)) := by
    rw [shortened, results_split]
    rfl
  rw [shorter, shorter, short_size, long_size, marker_size, if_neg (by omega), if_pos (by omega),
    short_size, marker_size] at hcount
  have hfit : fits json (({ maxTokens := 525 } : Request).within 525) _ = _ := fits_within hn
  rw [results_tools, decide_eq_true (by omega)] at hfit
  rw [hshort]
  exact hfit

theorem results_none : fitLatestEvidence json { maxTokens := 525 } results = .ok none := by
  obtain ⟨n, hn, hcount⟩ := results_retext (resizeText 0)
  have hlong : String.ofList (List.replicate 100 'x') ≠ "" := by
    intro h
    have hsize := long_size
    rw [h] at hsize
    cases hsize
  rw [resizeText_zero, resizeText_zero, if_neg (by decide), if_neg hlong, marker_size] at hcount
  have hfit : fits json (({ maxTokens := 525 } : Request).within 525) _ = _ := fits_within hn
  rw [results_tools, decide_eq_false (by omega), List.map_congr_left fun m _ => resize_eq.symm] at hfit
  have hany : (results.drop 1).any Message.eligible = true := by
    rw [any_eligible, results_evidence]
    simp
  have hbefore : results.take 1 ≠ [] := nofun
  rw [fitLatestEvidence, results_split]
  simp only [hany, hbefore, decide_false, Bool.not_true, Bool.or_false, Bool.false_eq_true, if_false]
  change (fits json (({ maxTokens := 525 } : Request).within 525) _ >>= _) = _
  rw [hfit]
  rfl

end Sample

/-- The short results grow by the marker, so that nothing fits, where a marker for the long one
would do. -/
theorem fitLatestEvidence_short_results :
    Sample.json.Sized Sample.jsonSize ∧
    fits Sample.json { maxTokens := 525 } (shortened Sample.jsonSize Sample.results) = .ok true ∧
    fitLatestEvidence Sample.json { maxTokens := 525 } Sample.results = .ok none :=
  ⟨Sample.json_sized, Sample.results_fit, Sample.results_none⟩

/-- The three results decide that cutting fails for some limit, and that some result grows. -/
theorem fitLatestEvidence_truncation_results :
    ((∀ limit, fits Sample.json (({ maxTokens := 525 } : Request).within limit)
          (shortened Sample.jsonSize Sample.results) = .ok true →
        ∃ out, fitLatestEvidence Sample.json (({ maxTokens := 525 } : Request).within limit)
            Sample.results = .ok (some out) ∧
          fits Sample.json (({ maxTokens := 525 } : Request).within limit) out = .ok true) ↔
      latestEvidence Sample.results ≠ [] ∧
        ∀ s ∈ latestEvidence Sample.results, s = "" ∨ Sample.jsonSize marker ≤ Sample.jsonSize s) ∧
    ((∀ limit out, fitLatestEvidence Sample.json (({ maxTokens := 525 } : Request).within limit)
          Sample.results = .ok (some out) → List.Forall₂ NotLonger Sample.results out) ↔
      ∀ s ∈ latestEvidence Sample.results, s = "" ∨ 2 ^ 18 * (marker.length - 1) < s.length) :=
  fitLatestEvidence_truncation Sample.json_sized Sample.results_count

end Context

end PythonAI
