import Mathlib.Data.List.GetD
import Mathlib.Data.List.Induction
import Mathlib.Data.List.TakeWhile
import PythonAI.CodeIndex.Syntax
import PythonAI.Library.Lines

/-!
# The positions of `extract`

`point` counts the line feeds among the bytes before a position, and decodes the bytes after the
last one.  In UTF-8 the byte of a line feed occurs in no other character, so that `point` gives the
line and the column of the character, with line feeds as the only ends of lines.

* `point_take` : **`point` numbers the characters by `Convention.feed`**;
* `point_inj` : different positions have different points.
-/

namespace PythonAI

open Library

namespace CodeIndex

variable {text pre post z : List Char} {c : Char} {p n : ℕ} {xs ys : List UInt8}

/-! ### Line feeds in UTF-8 -/

theorem ne_ofNat {n : ℕ} (h : n < 256) (hn : n ≠ 10) : (10 : UInt8) ≠ UInt8.ofNat n := by
  intro heq
  have hnat := congrArg UInt8.toNat heq
  rw [UInt8.toNat_ofNat', Nat.mod_eq_of_lt h] at hnat
  exact hn hnat.symm

theorem mem_utf8EncodeChar : 10 ∈ String.utf8EncodeChar c ↔ c = '\n' := by
  have hc : c = '\n' ↔ c.val.toNat = 10 := by
    rw [← Char.val_inj, ← UInt32.toNat_inj]
    rfl
  rw [hc]
  unfold String.utf8EncodeChar
  dsimp only
  split_ifs with h₁ h₂ h₃
  · rw [List.mem_singleton]
    constructor
    · intro h
      by_contra hne
      exact ne_ofNat (by omega) hne h
    · intro h
      rw [h]
      rfl
  all_goals
    refine iff_of_false ?_ (by omega)
    simp only [List.mem_cons, List.not_mem_nil, or_false, not_or]
  · exact ⟨ne_ofNat (by omega) (by omega), ne_ofNat (by omega) (by omega)⟩
  · exact ⟨ne_ofNat (by omega) (by omega), ne_ofNat (by omega) (by omega),
      ne_ofNat (by omega) (by omega)⟩
  · exact ⟨ne_ofNat (by omega) (by omega), ne_ofNat (by omega) (by omega),
      ne_ofNat (by omega) (by omega), ne_ofNat (by omega) (by omega)⟩

theorem feeds_append : feeds (xs ++ ys) n = feeds xs n ++ feeds ys (n + xs.length) := by
  unfold feeds
  rw [List.zipIdx_append, List.filterMap_append]

theorem feeds_bounds {m : ℕ} (h : m ∈ feeds xs n) : n < m ∧ m ≤ n + xs.length := by
  obtain ⟨⟨b, i⟩, hi, hm⟩ := List.mem_filterMap.1 h
  have hle := List.le_snd_of_mem_zipIdx hi
  have hlt := List.snd_lt_of_mem_zipIdx hi
  dsimp only at hm hle hlt
  split_ifs at hm
  cases hm
  omega

theorem length_feeds : (feeds xs n).length = xs.count 10 := by
  induction xs generalizing n with
  | nil => rfl
  | cons b xs ih =>
    have hcons : b :: xs = [b] ++ xs := rfl
    rw [hcons, feeds_append, List.length_append, ih, List.count_append]
    congr 1
    by_cases hb : b = 10
    · rw [hb]
      rfl
    · rw [List.count_eq_zero_of_not_mem (by simpa using fun h => hb h.symm)]
      simp [feeds, hb]

/-- The bytes of a text. -/
def bytes (text : List Char) : List UInt8 := text.flatMap String.utf8EncodeChar

theorem utf8Encode_data : text.utf8Encode.data.toList = bytes text := by
  rw [List.utf8Encode, List.data_toByteArray]
  rfl

theorem utf8Encode_size : text.utf8Encode.size = (bytes text).length := by
  rw [List.utf8Encode, List.size_toByteArray]
  rfl

theorem bytes_append : bytes (pre ++ post) = bytes pre ++ bytes post := List.flatMap_append

/-- There are as many bytes of line feeds as line feeds. -/
theorem count_bytes : (bytes text).count 10 = text.count '\n' := by
  induction text with
  | nil => rfl
  | cons c rest ih =>
    have hcons : bytes (c :: rest) = String.utf8EncodeChar c ++ bytes rest := rfl
    rw [hcons, List.count_append, ih, List.count_cons]
    by_cases hc : c = '\n'
    · rw [hc]
      exact Nat.add_comm ..
    · rw [List.count_eq_zero_of_not_mem fun h => hc (mem_utf8EncodeChar.1 h), Nat.zero_add,
        if_neg (by simpa using hc), Nat.add_zero]

theorem feeds_eq_nil (h : '\n' ∉ z) : feeds (bytes z) n = [] := by
  refine List.length_eq_zero_iff.1 ?_
  rw [length_feeds, count_bytes]
  exact List.count_eq_zero_of_not_mem h

/-! ### The last line -/

/-- A text is a number of ended lines and a last one. -/
theorem exists_last_line (pre : List Char) :
    ∃ a z, pre = a ++ z ∧ '\n' ∉ z ∧ (a = [] ∨ ∃ a', a = a' ++ ['\n']) := by
  induction pre using List.reverseRecOn with
  | nil => exact ⟨[], [], rfl, List.not_mem_nil, .inl rfl⟩
  | append_singleton pre c ih =>
    by_cases hc : c = '\n'
    · exact ⟨pre ++ ['\n'], [], by rw [hc, List.append_nil], List.not_mem_nil, .inr ⟨pre, rfl⟩⟩
    · obtain ⟨a, z, rfl, hz, ha⟩ := ih
      refine ⟨a, z ++ [c], List.append_assoc .., fun h => ?_, ha⟩
      rcases List.mem_append.1 h with h | h
      · exact hz h
      · exact hc (List.mem_singleton.1 h).symm

theorem locate_line (h : '\n' ∉ z) : Convention.feed.locate (z ++ post) z.length = (0, z.length) := by
  induction z with
  | nil => cases post <;> rfl
  | cons c z ih =>
    have hc : c ≠ '\n' := fun hc => h (hc ▸ List.mem_cons_self)
    rw [List.cons_append, List.length_cons, Convention.locate_succ,
      ih fun hz => h (List.mem_cons_of_mem _ hz), if_neg fun hs => hc (Convention.feed_stops.1 hs)]
    rfl

theorem locate_lines (a' post : List Char) (h : '\n' ∉ z) :
    Convention.feed.locate (a' ++ '\n' :: (z ++ post)) (a'.length + 1 + z.length) =
      (a'.count '\n' + 1, z.length) := by
  induction a' with
  | nil =>
    rw [List.nil_append, List.length_nil, Nat.zero_add, Nat.add_comm, Convention.locate_succ,
      locate_line h, if_pos Convention.stops_newline]
    rfl
  | cons c a' ih =>
    have hp : (c :: a').length + 1 + z.length = a'.length + 1 + z.length + 1 := by
      rw [List.length_cons]
      omega
    rw [hp, List.cons_append, Convention.locate_succ, ih, List.count_cons]
    by_cases hc : c = '\n'
    · rw [if_pos (Convention.feed_stops.2 hc), if_pos (by simpa using hc)]
    · rw [if_neg fun hs => hc (Convention.feed_stops.1 hs), if_neg (Nat.succ_ne_zero _),
        if_neg (by simpa using hc)]

/-- The line and the column of a character, with line feeds as the only ends of lines. -/
theorem locate_split {a : List Char} (post : List Char) (hz : '\n' ∉ z) (ha : a = [] ∨ ∃ a', a = a' ++ ['\n']) :
    Convention.feed.locate (a ++ z ++ post) (a ++ z).length = (a.count '\n', z.length) := by
  rcases ha with rfl | ⟨a', rfl⟩
  · exact locate_line hz
  · have h := locate_lines a' post hz
    rw [List.count_append]
    simpa [List.append_assoc, Nat.add_assoc, Nat.add_comm 1] using h

/-- The byte after the last line feed is the first one of the line. -/
theorem point_split {a : List Char} (post : List Char) (hz : '\n' ∉ z) (ha : a = [] ∨ ∃ a', a = a' ++ ['\n']) :
    point (a ++ z ++ post).utf8Encode (a ++ z).utf8Encode.size =
      some (a.count '\n' + 1, z.length) := by
  have hstarts : starts (a ++ z ++ post).utf8Encode =
      (0 :: feeds (bytes a) 0) ++ feeds (bytes post) (bytes (a ++ z)).length := by
    rw [starts, utf8Encode_data, bytes_append, feeds_append, Nat.zero_add, bytes_append,
      feeds_append, feeds_eq_nil hz, List.append_nil]
    rfl
  have hrow : bisectRight (starts (a ++ z ++ post).utf8Encode) (a ++ z).utf8Encode.size =
      a.count '\n' + 1 := by
    have hbefore : ∀ m ∈ 0 :: feeds (bytes a) 0, decide (m ≤ (bytes (a ++ z)).length) = true := by
      intro m hm
      rw [decide_eq_true_eq, bytes_append, List.length_append]
      rcases List.mem_cons.1 hm with rfl | hm
      · omega
      · have hbounds := feeds_bounds hm
        omega
    have hafter : (feeds (bytes post) (bytes (a ++ z)).length).takeWhile
        (· ≤ (bytes (a ++ z)).length) = [] := by
      cases hfeeds : feeds (bytes post) (bytes (a ++ z)).length with
      | nil => rfl
      | cons m ms =>
        have hbounds := feeds_bounds (hfeeds ▸ List.mem_cons_self)
        exact List.takeWhile_cons_of_neg (by simpa using hbounds.1)
    rw [hstarts, utf8Encode_size, bisectRight, List.takeWhile_append_of_pos hbefore, hafter,
      List.append_nil, List.length_cons, length_feeds, count_bytes]
  have hstart : (starts (a ++ z ++ post).utf8Encode).getD (a.count '\n') 0 = a.utf8Encode.size := by
    rw [hstarts, utf8Encode_size]
    rcases ha with rfl | ⟨a', rfl⟩
    · rfl
    · rw [bytes_append, feeds_append, List.count_append]
      have hlen : (0 :: feeds (bytes a') 0).length = a'.count '\n' + 1 := by
        rw [List.length_cons, length_feeds, count_bytes]
      rw [← List.cons_append, List.append_assoc,
        List.getD_append_right _ _ _ _ (by rw [hlen]; exact Nat.le_refl _), hlen]
      simp [feeds, bytes, String.utf8EncodeChar]
  have hline : (a ++ z ++ post).utf8Encode.extract a.utf8Encode.size (a ++ z).utf8Encode.size =
      z.utf8Encode := by
    have haz : (a ++ z).utf8Encode = a.utf8Encode ++ z.utf8Encode := List.utf8Encode_append
    rw [List.append_assoc, List.utf8Encode_append, haz, ByteArray.size_append]
    have h := ByteArray.extract_append_size_add (a := a.utf8Encode) (b := (z ++ post).utf8Encode)
      (i := 0) (j := z.utf8Encode.size)
    rw [Nat.add_zero] at h
    rw [h, List.utf8Encode_append]
    exact ByteArray.extract_append_eq_left rfl
  unfold point decode
  dsimp only
  rw [hrow, Nat.add_sub_cancel, hstart, hline, List.utf8Decode?_utf8Encode]
  simp

/-- **`point` gives the line and the column of a character, with line feeds as the only ends of
lines.** -/
theorem point_take (hp : p ≤ text.length) :
    point text.utf8Encode (text.take p).utf8Encode.size =
      some ((Convention.feed.locate text p).1 + 1, (Convention.feed.locate text p).2) := by
  obtain ⟨a, z, hpre, hz, ha⟩ := exists_last_line (text.take p)
  have htext : text = a ++ z ++ text.drop p := by rw [← hpre, List.take_append_drop]
  have hlen : p = (a ++ z).length := by
    rw [← hpre, List.length_take]
    omega
  have hloc := locate_split (text.drop p) hz ha
  rw [← htext, ← hlen] at hloc
  have hpoint := point_split (text.drop p) hz ha
  rw [← htext, ← hpre] at hpoint
  rw [hloc, hpoint]

theorem start_le (content : ByteArray) (b : ℕ) :
    (starts content).getD (bisectRight (starts content) b - 1) 0 ≤ b := by
  have hpre : (starts content).takeWhile (· ≤ b) <+: starts content := List.takeWhile_prefix _
  have hhead : (starts content).takeWhile (· ≤ b) =
      0 :: (feeds content.data.toList 0).takeWhile (· ≤ b) :=
    List.takeWhile_cons_of_pos (by simp)
  have hlt : bisectRight (starts content) b - 1 < bisectRight (starts content) b := by
    rw [bisectRight, hhead, List.length_cons]
    omega
  rw [List.getD_eq_getElem _ _ (hlt.trans_le hpre.length_le), ← hpre.getElem hlt]
  have hle := List.mem_takeWhile_imp (List.getElem_mem hlt)
  simpa using hle

theorem extract_of_decode {content : ByteArray} {i j : ℕ} {s : String}
    (h : decode content i j = some s) : content.extract i j = s.toList.utf8Encode := by
  obtain ⟨chars, hchars, rfl⟩ := Option.map_eq_some_iff.1 h
  have hget := ByteArray.utf8Encode_get_utf8Decode? (b := content.extract i j)
    (h := by rw [hchars]; rfl)
  rw [← hget, String.toList_ofList]
  simp [hchars]

/-- Different positions have different points. -/
theorem point_inj {content : ByteArray} {b b' : ℕ} {x : ℕ × ℕ} (hb : b ≤ content.size)
    (hb' : b' ≤ content.size) (h : point content b = some x) (h' : point content b' = some x) :
    b = b' := by
  wlog hle : b ≤ b' generalizing b b'
  · exact (this hb' hb h' h (Nat.le_of_not_le hle)).symm
  rw [point, Option.map_eq_some_iff] at h h'
  obtain ⟨s, hs, rfl⟩ := h
  obtain ⟨s', hs', heq⟩ := h'
  obtain ⟨hrow, hlength⟩ := Prod.mk.inj heq
  rw [Nat.add_right_cancel hrow] at hs'
  have hstart := start_le content b
  have hsplit := ByteArray.extract_eq_extract_append_extract (a := content) b hstart hle
  rw [extract_of_decode hs, extract_of_decode hs'] at hsplit
  have hpre := List.isPrefix_of_utf8Encode_append_eq_utf8Encode _ hsplit.symm
  have hsame : s.toList = s'.toList := hpre.eq_of_length hlength.symm
  have hsize := congrArg ByteArray.size hsplit
  rw [hsame, ByteArray.size_append, ByteArray.size_extract] at hsize
  omega

end CodeIndex

end PythonAI
