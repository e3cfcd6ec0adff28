import Mathlib.Data.List.TakeWhile
import Mathlib.Data.String.Basic
import TaggedMarkup.Text.Trim

/-!
# Trimming takes whole characters, and is done once

The reference trims **characters**: `front` drops the leading run of blanks if there is a newline in it, and
`back` does the same at the end of what is left. Trimming walks over bytes, but each blank is one byte, and no
other character has such a byte anywhere in it. So a walk over bytes goes as far as one over characters
(`takeWhile_flatMap`), both cuts fall between characters, and what is left is what the reference leaves
(`toList_text`).

A run of blanks that trimming keeps has no newline in it. So nothing is left to trim: at the start because
the leading run of what remains is part of the run that was kept, at the end because the end is trimmed
last.
-/

namespace TaggedMarkup.Trim

/-! ## By characters -/

/-- Space, tab, carriage return and newline. -/
def isBlank (c : Char) : Bool := c == ' ' || c == '\t' || c == '\r' || c == '\n'

/-- Drop the leading run of blanks if it breaks the line. -/
def front (cs : List Char) : List Char :=
  if '\n' ∈ cs.takeWhile isBlank then cs.dropWhile isBlank else cs

/-- Drop the trailing run of blanks if it breaks the line. -/
def back (cs : List Char) : List Char := (front cs.reverse).reverse

/-- Drop layout at both ends. -/
def chars (cs : List Char) : List Char := back (front cs)

/-- What is dropped at the start. -/
def layout (cs : List Char) : List Char :=
  if '\n' ∈ cs.takeWhile isBlank then cs.takeWhile isBlank else []

theorem layout_append_front (cs : List Char) : layout cs ++ front cs = cs := by
  unfold layout front
  split
  · exact List.takeWhile_append_dropWhile
  · rfl

theorem back_append_layout (cs : List Char) : back cs ++ (layout cs.reverse).reverse = cs := by
  rw [back, ← List.reverse_append, layout_append_front, List.reverse_reverse]

theorem isBlank_of_mem_layout {cs : List Char} {c : Char} (h : c ∈ layout cs) : isBlank c = true := by
  unfold layout at h
  split at h
  · exact List.mem_takeWhile_imp h
  · cases h

/-- Blanks alone are dropped together, or kept together. -/
theorem chars_of_blank {cs : List Char} (h : ∀ c ∈ cs, isBlank c = true) :
    chars cs = if '\n' ∈ cs then [] else cs := by
  have hfront : ∀ ds : List Char, (∀ c ∈ ds, isBlank c = true) →
      front ds = if '\n' ∈ ds then [] else ds := by
    intro ds hds
    rw [front, List.takeWhile_eq_self_iff.mpr hds, List.dropWhile_eq_nil_iff.mpr hds]
  rw [chars, hfront cs h]
  split
  · rfl
  · rename_i hnone
    rw [back, hfront _ fun c hc => h c (List.mem_reverse.mp hc), if_neg (hnone ∘ List.mem_reverse.mp),
      List.reverse_reverse]

/-! ## Once -/

/-- No leading run of blanks breaks the line. -/
def IsFlush (cs : List Char) : Prop := '\n' ∉ cs.takeWhile isBlank

theorem front_of_isFlush {cs : List Char} (h : IsFlush cs) : front cs = cs := if_neg h

theorem isFlush_front (cs : List Char) : IsFlush (front cs) := by
  unfold front
  split
  · -- what remains starts with no blank at all
    have hnone : (cs.dropWhile isBlank).takeWhile isBlank = [] := by
      rw [List.takeWhile_eq_nil_iff]
      exact fun hlt => List.dropWhile_get_zero_not isBlank cs hlt
    rw [IsFlush, hnone]
    exact List.not_mem_nil
  · assumption

/-- The start of a flush text is flush. -/
theorem IsFlush.of_isPrefix {cs more : List Char} (h : IsFlush more) (hcs : cs <+: more) :
    IsFlush cs := by
  obtain ⟨rest, rfl⟩ := hcs
  intro hmem
  apply h
  rw [List.takeWhile_append]
  split
  · rename_i hall
    rw [(List.takeWhile_prefix isBlank).eq_of_length hall] at hmem
    exact List.mem_append_left _ hmem
  · exact hmem

/-- Only the end is taken away at the end. -/
theorem isPrefix_back (cs : List Char) : back cs <+: cs := ⟨_, back_append_layout cs⟩

theorem chars_chars (cs : List Char) : chars (chars cs) = chars cs := by
  have hfront : front (back (front cs)) = back (front cs) :=
    front_of_isFlush ((isFlush_front cs).of_isPrefix (isPrefix_back _))
  have hback : back (back (front cs)) = back (front cs) := by
    simp only [back, List.reverse_reverse, front_of_isFlush (isFlush_front _)]
  rw [chars, chars, hfront, hback]

/-! ## The walks -/

theorem forwards_eq (bytes : ByteArray) (i : Nat) (broken : Bool) :
    forwards bytes i broken =
      (i + ((bytes.data.toList.drop i).takeWhile isBlankByte).length,
        broken || decide (newline ∈ (bytes.data.toList.drop i).takeWhile isBlankByte)) := by
  fun_induction forwards bytes i broken with
  | case1 i broken hlt hblank ih =>
    have hcons := List.drop_eq_getElem_cons (l := bytes.data.toList) hlt
    rw [Array.getElem_toList, ← ByteArray.getElem_eq_getElem_data] at hcons
    rw [ih, hcons, List.takeWhile_cons_of_pos hblank, List.length_cons, Bool.or_assoc, Nat.add_assoc,
      Nat.add_comm 1]
    simp only [List.mem_cons, Bool.decide_or, beq_eq_decide, eq_comm]
  | case2 i broken hlt hblank =>
    have hcons := List.drop_eq_getElem_cons (l := bytes.data.toList) hlt
    rw [Array.getElem_toList, ← ByteArray.getElem_eq_getElem_data] at hcons
    rw [hcons, List.takeWhile_cons_of_neg hblank]
    simp
  | case3 i broken hge =>
    rw [List.drop_eq_nil_of_le (Nat.le_of_not_lt hge)]
    simp

theorem backwards_eq (bytes : ByteArray) (low : Nat) {i : Nat} (hi : i ≤ bytes.size) (broken : Bool) :
    backwards bytes low i broken =
      (i - (((bytes.data.toList.take i).drop low).reverse.takeWhile isBlankByte).length,
        broken || decide (newline ∈ ((bytes.data.toList.take i).drop low).reverse.takeWhile isBlankByte)) := by
  induction i generalizing broken with
  | zero => simp [backwards]
  | succ i ih =>
    have hlt : i < bytes.data.toList.length := hi
    have htake : bytes.data.toList.take (i + 1) = bytes.data.toList.take i ++ [bytes[i]!] := by
      rw [List.take_succ_eq_append_getElem hlt, Array.getElem_toList, getElem!_pos bytes i hi,
        ByteArray.getElem_eq_getElem_data]
    rw [backwards, htake]
    by_cases hlow : low ≤ i
    · rw [List.drop_append_of_le_length (by rw [List.length_take]; omega), List.reverse_concat]
      by_cases hblank : isBlankByte bytes[i]! = true
      · rw [if_pos (by simp [hlow, hblank]), ih (Nat.le_of_succ_le hi), List.takeWhile_cons_of_pos hblank,
          List.length_cons, Bool.or_assoc, Nat.add_sub_add_right]
        simp only [List.mem_cons, Bool.decide_or, beq_eq_decide, eq_comm]
      · rw [if_neg (by simp [hblank]), List.takeWhile_cons_of_neg hblank]
        simp
    · rw [if_neg (by simp [hlow]), List.drop_eq_nil_of_le (by simp; omega)]
      simp

/-! ## Bytes and characters -/

/-- A way to write characters as bytes in which each blank is one byte, and no other character has the byte of a
blank in it. -/
structure ShowsBlanks (bytesOf : Char → List UInt8) : Prop where
  blank : ∀ c, isBlank c = true →
    ∃ b, bytesOf c = [b] ∧ isBlankByte b = true ∧ (b = newline ↔ c = '\n')
  other : ∀ c, isBlank c = false → bytesOf c ≠ [] ∧ ∀ b ∈ bytesOf c, isBlankByte b = false

theorem isBlankByte_ofNat {n : Nat} (h : n < 256) (hother : n ≠ 32 ∧ n ≠ 9 ∧ n ≠ 13 ∧ n ≠ 10) :
    isBlankByte (UInt8.ofNat n) = false := by
  have hne : ∀ b : UInt8, b.toNat ≠ n → (UInt8.ofNat n == b) = false := by
    intro b hb
    rw [beq_eq_false_iff_ne]
    rintro rfl
    exact hb (UInt8.toNat_ofNat_of_lt h)
  rw [isBlankByte, hne 32 hother.1.symm, hne 9 hother.2.1.symm, hne 13 hother.2.2.1.symm,
    hne newline hother.2.2.2.symm]
  rfl

theorem toNat_ne_of_not_isBlank {c : Char} (h : isBlank c = false) :
    c.toNat ≠ 32 ∧ c.toNat ≠ 9 ∧ c.toNat ≠ 13 ∧ c.toNat ≠ 10 := by
  refine ⟨?_, ?_, ?_, ?_⟩
  all_goals
    intro hc
    rw [← Char.ofNat_toNat c, hc] at h
    cases h

theorem showsBlanks_utf8 : ShowsBlanks String.utf8EncodeChar where
  blank c h := by
    simp only [isBlank, Bool.or_eq_true, beq_iff_eq] at h
    obtain ((rfl | rfl) | rfl) | rfl := h <;> exact ⟨_, rfl, by decide, by decide⟩
  other c h := by
    refine ⟨String.utf8EncodeChar_ne_nil, fun b hb => ?_⟩
    have hc := toNat_ne_of_not_isBlank h
    rw [Char.toNat] at hc
    unfold String.utf8EncodeChar at hb
    dsimp only at hb
    -- a character of one byte is its byte, and all bytes of a longer one are above 127
    split at hb
    · rw [List.mem_singleton.mp hb]
      exact isBlankByte_ofNat (by omega) hc
    · split at hb
      · simp only [List.mem_cons, List.not_mem_nil, or_false] at hb
        obtain rfl | rfl := hb <;> exact isBlankByte_ofNat (by omega) (by omega)
      · split at hb
        · simp only [List.mem_cons, List.not_mem_nil, or_false] at hb
          obtain rfl | rfl | rfl := hb <;> exact isBlankByte_ofNat (by omega) (by omega)
        · simp only [List.mem_cons, List.not_mem_nil, or_false] at hb
          obtain rfl | rfl | rfl | rfl := hb <;> exact isBlankByte_ofNat (by omega) (by omega)

/-- Written backwards, blanks show as well. -/
theorem ShowsBlanks.reverse {bytesOf : Char → List UInt8} (h : ShowsBlanks bytesOf) :
    ShowsBlanks (List.reverse ∘ bytesOf) where
  blank c hc := by
    obtain ⟨b, hb, hblank⟩ := h.blank c hc
    exact ⟨b, by rw [Function.comp_apply, hb, List.reverse_singleton], hblank⟩
  other c hc := by
    obtain ⟨hne, hall⟩ := h.other c hc
    exact ⟨fun hnil => hne (List.reverse_eq_nil_iff.mp hnil), fun b hb => hall b (List.mem_reverse.mp hb)⟩

namespace ShowsBlanks

variable {bytesOf : Char → List UInt8} (h : ShowsBlanks bytesOf)

include h

/-- **A walk over bytes goes as far as one over characters.** -/
theorem takeWhile_flatMap (cs : List Char) :
    (cs.flatMap bytesOf).takeWhile isBlankByte = (cs.takeWhile isBlank).flatMap bytesOf := by
  induction cs with
  | nil => rfl
  | cons c rest ih =>
    rw [List.flatMap_cons]
    cases hc : isBlank c with
    | true =>
      obtain ⟨b, hb, hblank, -⟩ := h.blank c hc
      rw [List.takeWhile_cons_of_pos hc, List.flatMap_cons, hb, List.singleton_append,
        List.takeWhile_cons_of_pos hblank, ih, List.singleton_append]
    | false =>
      obtain ⟨hne, hall⟩ := h.other c hc
      obtain ⟨b, more, hb⟩ := List.exists_cons_of_ne_nil hne
      have hother := hall b (hb ▸ List.mem_cons_self)
      rw [List.takeWhile_cons_of_neg (by rw [hc]; exact Bool.false_ne_true), hb, List.cons_append,
        List.takeWhile_cons_of_neg (by rw [hother]; exact Bool.false_ne_true), List.flatMap_nil]

theorem length_flatMap {cs : List Char} (hcs : ∀ c ∈ cs, isBlank c = true) :
    (cs.flatMap bytesOf).length = cs.length := by
  induction cs with
  | nil => rfl
  | cons c rest ih =>
    obtain ⟨b, hb, -⟩ := h.blank c (hcs c List.mem_cons_self)
    rw [List.flatMap_cons, hb, List.singleton_append, List.length_cons, List.length_cons,
      ih fun d hd => hcs d (List.mem_cons_of_mem c hd)]

theorem newline_mem_flatMap {cs : List Char} (hcs : ∀ c ∈ cs, isBlank c = true) :
    newline ∈ cs.flatMap bytesOf ↔ '\n' ∈ cs := by
  induction cs with
  | nil => simp
  | cons c rest ih =>
    obtain ⟨b, hb, -, hnewline⟩ := h.blank c (hcs c List.mem_cons_self)
    rw [List.flatMap_cons, hb, List.singleton_append, List.mem_cons, List.mem_cons,
      ih fun d hd => hcs d (List.mem_cons_of_mem c hd), eq_comm, hnewline, eq_comm]

/-- A walk that is undone unless it comes over a newline passes what is dropped. -/
theorem passed_eq (cs : List Char) :
    (if newline ∈ (cs.flatMap bytesOf).takeWhile isBlankByte then
        ((cs.flatMap bytesOf).takeWhile isBlankByte).length else 0) = (layout cs).length := by
  have hrun : ∀ c ∈ cs.takeWhile isBlank, isBlank c = true := fun c hc => List.mem_takeWhile_imp hc
  rw [h.takeWhile_flatMap, h.length_flatMap hrun, layout]
  by_cases hbreak : '\n' ∈ cs.takeWhile isBlank
  · rw [if_pos ((h.newline_mem_flatMap hrun).mpr hbreak), if_pos hbreak]
  · rw [if_neg (hbreak ∘ (h.newline_mem_flatMap hrun).mp), if_neg hbreak]
    rfl

end ShowsBlanks

/-! ## The cuts -/

theorem data_toUTF8 (s : String) : s.toUTF8.data.toList = s.toList.flatMap String.utf8EncodeChar := by
  rw [String.toUTF8_eq_toByteArray, ← String.utf8Encode_toList, List.utf8Encode, List.toList_data_toByteArray]

theorem length_flatMap_utf8 (cs : List Char) :
    (cs.flatMap String.utf8EncodeChar).length = String.utf8Len cs := by
  induction cs with
  | nil => rfl
  | cons c rest ih =>
    rw [List.flatMap_cons, List.length_append, String.length_utf8EncodeChar, ih, String.utf8Len_cons,
      Nat.add_comm]

theorem utf8Len_layout (cs : List Char) : String.utf8Len (layout cs) = (layout cs).length := by
  rw [← length_flatMap_utf8, showsBlanks_utf8.length_flatMap fun c => isBlank_of_mem_layout]

/-- The first cut is behind what is dropped at the start, -/
theorem start_eq (s : String) : start s.toUTF8 = String.utf8Len (layout s.toList) := by
  rw [utf8Len_layout, ← showsBlanks_utf8.passed_eq, ← data_toUTF8, start, forwards_eq]
  simp only [List.drop_zero, Nat.zero_add, Bool.false_or, decide_eq_true_eq]

/-- The text is what is dropped at its start, what is kept, and what is dropped at its end. -/
theorem layout_append_chars (cs : List Char) :
    layout cs ++ chars cs ++ (layout (front cs).reverse).reverse = cs := by
  rw [List.append_assoc, chars, back_append_layout, layout_append_front]

/-- and the second one before what is dropped at the end of the rest. -/
theorem stop_eq (s : String) :
    stop s.toUTF8 (start s.toUTF8) = String.utf8Len (layout s.toList) + String.utf8Len (chars s.toList) := by
  have hsize : s.toUTF8.size = String.utf8Len (layout s.toList) + String.utf8Len (chars s.toList) +
      (layout (front s.toList).reverse).length := by
    rw [← utf8Len_layout, ← String.utf8Len_reverse (layout (front _).reverse), ← String.utf8Len_append,
      ← String.utf8Len_append, layout_append_chars, ← length_flatMap_utf8, ← data_toUTF8]
    rfl
  have hrest : ((s.toUTF8.data.toList.take s.toUTF8.size).drop (start s.toUTF8)).reverse =
      (front s.toList).reverse.flatMap (List.reverse ∘ String.utf8EncodeChar) := by
    have hall : s.toUTF8.data.toList.take s.toUTF8.size = s.toUTF8.data.toList := List.take_length
    rw [hall, data_toUTF8, start_eq, ← length_flatMap_utf8]
    nth_rewrite 2 [← layout_append_front s.toList]
    rw [List.flatMap_append, List.drop_left, List.reverse_flatMap]
  have hpassed := showsBlanks_utf8.reverse.passed_eq (front s.toList).reverse
  rw [stop, backwards_eq _ _ (Nat.le_refl _), hrest]
  simp only [Bool.false_or, decide_eq_true_eq]
  split at hpassed
  · rename_i hbreak
    rw [if_pos hbreak, hpassed, hsize, Nat.add_sub_cancel]
  · rename_i hnone
    rw [if_neg hnone, hsize, ← hpassed, Nat.add_zero]

/-- **What is left of a text** is what the reference leaves. -/
theorem text_eq (s : String) : text s = String.ofList (chars s.toList) := by
  have hcut := String.extract_of_valid (layout s.toList) (chars s.toList)
    (layout (front s.toList).reverse).reverse
  rw [layout_append_chars, String.ofList_toList, ← stop_eq, ← start_eq] at hcut
  exact hcut

theorem toList_text (s : String) : (text s).toList = chars s.toList := by
  rw [text_eq, String.toList_ofList]

/-- Trimming a text that has been trimmed changes nothing. -/
theorem text_text (s : String) : text (text s) = text s := by
  rw [text_eq, toList_text, chars_chars, ← text_eq]

/-- The cuts are at the ends of what stands before, and of what is kept. -/
theorem exists_cuts (s : String) : ∃ before after : String, s = before ++ text s ++ after ∧
    start s.toUTF8 = before.utf8ByteSize ∧
    stop s.toUTF8 (start s.toUTF8) = (before ++ text s).utf8ByteSize := by
  refine ⟨String.ofList (layout s.toList), String.ofList (layout (front s.toList).reverse).reverse, ?_, ?_, ?_⟩
  · rw [text_eq, ← String.ofList_append, ← String.ofList_append, layout_append_chars, String.ofList_toList]
  · rw [start_eq, String.utf8ByteSize_ofList]
  · rw [stop_eq, text_eq, ← String.ofList_append, String.utf8ByteSize_ofList, String.utf8Len_append]

/-- **Trimming drops a run of blanks with a newline in it at the start, and then one at the end of the rest**, and
nothing else. The cuts never cross, and both fall between characters; what stands between them is kept as it is.
Blanks alone are dropped if there is a newline among them. Trimming twice is trimming once. -/
theorem text_cuts (s : String) :
    (text s).toList = back (front s.toList) ∧
    start s.toUTF8 ≤ stop s.toUTF8 (start s.toUTF8) ∧
    String.Pos.Raw.IsValid s ⟨start s.toUTF8⟩ ∧
    String.Pos.Raw.IsValid s ⟨stop s.toUTF8 (start s.toUTF8)⟩ ∧
    (∃ before after : String, s = before ++ text s ++ after ∧
      start s.toUTF8 = before.utf8ByteSize ∧
      stop s.toUTF8 (start s.toUTF8) = (before ++ text s).utf8ByteSize) ∧
    ((∀ c ∈ s.toList, isBlank c = true) → text s = if '\n' ∈ s.toList then "" else s) ∧
    text (text s) = text s := by
  obtain ⟨before, after, hs, hstart, hstop⟩ := exists_cuts s
  refine ⟨toList_text s, ?_, ?_, ?_, ⟨before, after, hs, hstart, hstop⟩, fun hblank => ?_, text_text s⟩
  · rw [stop_eq, start_eq]
    exact Nat.le_add_right _ _
  · exact String.Pos.Raw.isValid_iff_exists_append.mpr
      ⟨before, text s ++ after, hs.trans (String.append_assoc ..), congrArg String.Pos.Raw.mk hstart⟩
  · exact String.Pos.Raw.isValid_iff_exists_append.mpr
      ⟨before ++ text s, after, hs, congrArg String.Pos.Raw.mk hstop⟩
  · rw [text_eq, chars_of_blank hblank]
    split
    · rfl
    · exact String.ofList_toList

/-- Blanks with a newline and without one, and a text whose last byte before the second cut is one of several. -/
theorem text_cuts_blank :
    (∀ c ∈ " \t\r\n ".toList, isBlank c = true) ∧ text " \t\r\n " = "" ∧
    (∀ c ∈ " \t\r ".toList, isBlank c = true) ∧ text " \t\r " = " \t\r " ∧
    (text "\t\n \r caf\u00E9\r\n\t").toList = "caf\u00E9".toList := by
  have hbroken : ∀ c ∈ " \t\r\n ".toList, isBlank c = true := List.all_eq_true.mp (by decide)
  have hwhole : ∀ c ∈ " \t\r ".toList, isBlank c = true := List.all_eq_true.mp (by decide)
  refine ⟨hbroken, ?_, hwhole, ?_, ?_⟩
  · exact ((text_cuts " \t\r\n ").2.2.2.2.2.1 hbroken).trans (if_pos (by decide))
  · exact ((text_cuts " \t\r ").2.2.2.2.2.1 hwhole).trans (if_neg (by decide))
  · exact (text_cuts "\t\n \r caf\u00E9\r\n\t").1.trans (by decide)

end TaggedMarkup.Trim
