import TaggedMarkup.Number.Text
import TaggedMarkup.Proofs.Text.Escaping
import TaggedMarkup.Text.Name

/-!
# Which characters are written

The scanner takes some characters for **marks**: `<` opens a tag in text, a double quote ends a quoted
value, and ten more mean something inside a tag. None of them comes out of a renderer where it could be
taken for a mark: escaping replaces the first two, numbers have only digits, letters and a few signs,
and the grammars of names have none of the others.
-/

namespace TaggedMarkup

/-! ## Text -/

/-- Neither the start of a tag nor the end of a quoted value. -/
def isTextual (c : Char) : Bool := c != '<' && c != '"'

namespace Escape

theorem isTextual_char {c d : Char} (hd : d ∈ char c) : isTextual d = true := by
  unfold isTextual
  rw [Bool.and_eq_true, bne_iff_ne, bne_iff_ne]
  refine ⟨?_, ?_⟩
  · rintro rfl
    exact absurd (eq_ampersand_of_mem_char hd (by decide)) (by decide)
  · rintro rfl
    exact absurd (eq_ampersand_of_mem_char hd (by decide)) (by decide)

/-- An escaped text has no mark. -/
theorem isTextual_text (s : String) : (text s).toList.all isTextual = true := by
  rw [toList_text, List.all_eq_true]
  intro d hd
  obtain ⟨c, -, hd⟩ := List.mem_flatMap.mp hd
  exact isTextual_char hd

end Escape

/-! ## Numbers -/

/-- What the text of a number is made of. -/
def isNumeric (c : Char) : Bool := c.isAlphanum || c == '.' || c == '+' || c == '-'

namespace Decimal

theorem isNumeric_toDigits (n : Nat) : (Nat.toDigits 10 n).all isNumeric = true := by
  rw [List.all_eq_true]
  intro c hc
  have hdigit : c.isDigit = true := Nat.isDigit_of_mem_toDigits (by decide) (by decide) hc
  unfold isNumeric Char.isAlphanum
  rw [hdigit, Bool.or_true, Bool.true_or, Bool.true_or, Bool.true_or]

theorem isNumeric_replicate (n : Nat) : (List.replicate n '0').all isNumeric = true := by
  rw [List.all_eq_true]
  intro c hc
  rw [List.eq_of_mem_replicate hc]
  decide

theorem isNumeric_positional (d : Decimal) : (d.positional false).toList.all isNumeric = true := by
  have hdigits := isNumeric_toDigits d.digits
  unfold positional
  dsimp only
  split
  · generalize hpadded : List.replicate _ '0' ++ Nat.toDigits 10 d.digits = padded
    have hall : padded.all isNumeric = true := by
      rw [← hpadded, List.all_append, isNumeric_replicate, hdigits]
      rfl
    rw [List.all_eq_true] at hall
    rw [String.toList_ofList, List.all_eq_true]
    intro c hc
    rcases List.mem_append.mp hc with hc | hc
    · exact hall c (List.mem_of_mem_take hc)
    · rcases List.mem_cons.mp hc with rfl | hc
      · decide
      · exact hall c (List.mem_of_mem_drop hc)
  · rw [if_neg Bool.false_ne_true, String.append_empty, String.toList_ofList, List.all_append,
      hdigits, isNumeric_replicate]
    rfl

theorem isNumeric_scientific (d : Decimal) : d.scientific.toList.all isNumeric = true := by
  have hexponent := isNumeric_toDigits d.leading.natAbs
  have hdigits := isNumeric_toDigits d.digits
  have hsign : ∀ sign : String, sign = (if d.leading < 0 then "e-" else "e+") →
      sign.toList.all isNumeric = true := by
    rintro sign rfl
    split <;> decide
  unfold scientific
  dsimp only
  rw [String.toList_append, String.toList_append, List.all_append, List.all_append,
    String.toList_ofList, hexponent, hsign _ rfl, Bool.and_true, Bool.and_true]
  split
  · rename_i first second rest heq
    rw [heq, List.all_cons, Bool.and_eq_true] at hdigits
    rw [String.toList_ofList, List.all_cons, hdigits.1, Bool.true_and, List.all_cons, hdigits.2]
    decide
  · rw [String.toList_ofList]
    exact hdigits

end Decimal

namespace Double

theorem isNumeric_text (d : Double) : d.text.toList.all isNumeric = true := by
  unfold text
  split
  · decide
  · split
    · split <;> decide
    · split
      · decide
      · have hdecimal : ((d.shortest stringStyle.tie).text stringStyle).toList.all isNumeric = true := by
          unfold Decimal.text
          split
          · exact Decimal.isNumeric_positional _
          · exact Decimal.isNumeric_scientific _
        unfold written
        rw [String.toList_append, List.all_append, hdecimal, Bool.and_true]
        split <;> decide

/-- The text of a number has no mark. -/
theorem isTextual_text (d : Double) : d.text.toList.all isTextual = true := by
  have hmarks : ∀ c, isNumeric c = true → isTextual c = true := by
    intro c hc
    unfold isTextual
    rw [Bool.and_eq_true, bne_iff_ne, bne_iff_ne]
    refine ⟨?_, ?_⟩
    · rintro rfl
      revert hc
      decide
    · rintro rfl
      revert hc
      decide
  have hnumeric := d.isNumeric_text
  rw [List.all_eq_true] at hnumeric ⊢
  exact fun c hc => hmarks c (hnumeric c hc)

/-- No character of the text of a number has a reference. -/
theorem reference?_text {d : Double} {c : Char} (h : c ∈ d.text.toList) : Escape.reference? c = none := by
  have hnumeric := List.all_eq_true.mp d.isNumeric_text c h
  unfold Escape.reference?
  split
  case h_7 => rfl
  all_goals
    revert hnumeric
    decide

/-- Escaping leaves the text of a number alone. -/
theorem escape_text (d : Double) : Escape.text d.text = d.text := by
  have hneeded : Escape.isNeeded d.text.toList = false := by
    rw [Escape.isNeeded, List.any_eq_false]
    intro c hc
    rw [Escape.contains_reserved, reference?_text hc]
    exact Bool.false_ne_true
  rw [Escape.text, hneeded, if_neg Bool.false_ne_true]

end Double

/-! ## Names -/

namespace Name

/-- The characters that mean something inside a tag. -/
def marks : List Char := ['"', '\'', '>', '=', '/', ' ', '\t', '\n', '\r', '!']

theorem notMem_marks_of_isTagRest {c : Char} (h : isTagRest c = true) : c ∉ marks := by
  have hmarks : (marks.all fun c => !isTagRest c) = true := by decide
  intro hc
  have hnone := List.all_eq_true.mp hmarks c hc
  rw [h] at hnone
  cases hnone

theorem notMem_marks_of_isAttributeRest {c : Char} (h : isAttributeRest c = true) : c ∉ marks := by
  have hmarks : (marks.all fun c => !isAttributeRest c) = true := by decide
  intro hc
  have hnone := List.all_eq_true.mp hmarks c hc
  rw [h] at hnone
  cases hnone

theorem notMem_marks_of_wellFormed {start rest : Char → Bool} (hstart : ∀ c, start c → rest c)
    (hrest : ∀ c, rest c → c ∉ marks) {cs : List Char} (h : wellFormed start rest cs = true) :
    cs ≠ [] ∧ ∀ c ∈ cs, c ∉ marks := by
  cases cs with
  | nil => cases h
  | cons first more =>
    rw [wellFormed, Bool.and_eq_true, List.all_eq_true] at h
    refine ⟨List.cons_ne_nil _ _, fun c hc => ?_⟩
    rcases List.mem_cons.mp hc with rfl | hc
    · exact hrest c (hstart c h.1)
    · exact hrest c (h.2 c hc)

/-- A tag name has no mark. -/
theorem notMem_marks_of_isTag {name : String} (h : isTag name = true) :
    name.toList ≠ [] ∧ ∀ c ∈ name.toList, c ∉ marks := by
  refine notMem_marks_of_wellFormed (fun c hc => ?_) (fun c => notMem_marks_of_isTagRest) h
  unfold isTagRest Char.isAlphanum
  rw [show c.isAlpha = true from hc, Bool.true_or, Bool.true_or, Bool.true_or, Bool.true_or,
    Bool.true_or]

/-- An attribute name has no mark. -/
theorem notMem_marks_of_isAttribute {name : String} (h : isAttribute name = true) :
    name.toList ≠ [] ∧ ∀ c ∈ name.toList, c ∉ marks := by
  refine notMem_marks_of_wellFormed (fun c hc => ?_) (fun c => notMem_marks_of_isAttributeRest) h
  unfold isAttributeRest
  rw [show isAttributeStart c = true from hc, Bool.true_or, Bool.true_or, Bool.true_or, Bool.true_or]

end Name

end TaggedMarkup
