/-!
# Escaping

Text and attribute values are written with six characters replaced by **entity references**, the
named reference where there is one. Everything else stands as it is, so escaping works character
by character and distributes over concatenation; a text with none of the six is left alone.
-/

namespace TaggedMarkup.Escape

/-- The reference that stands for a character, if it may not stand for itself. -/
def reference? : Char → Option String
  | '&' => some "&amp;"
  | '<' => some "&lt;"
  | '>' => some "&gt;"
  | '"' => some "&quot;"
  | '\'' => some "&#x27;"
  | '`' => some "&#x60;"
  | _ => none

/-- What is written for one character. -/
def char (c : Char) : List Char :=
  match reference? c with
  | some reference => reference.toList
  | none => [c]

/-- What is written for a list of characters. -/
def chars (cs : List Char) : List Char := cs.flatMap char

/-- The reserved characters: a text is searched for them first. -/
def reserved : List Char := ['&', '<', '>', '"', '\'', '`']

/-- Some character has to be replaced. -/
def isNeeded (cs : List Char) : Bool := cs.any reserved.contains

/-- The escaped form of a text. -/
def text (s : String) : String :=
  if isNeeded s.toList then String.ofList (chars s.toList) else s

@[simp] theorem chars_nil : chars [] = [] := rfl

theorem chars_cons (c : Char) (cs : List Char) : chars (c :: cs) = char c ++ chars cs := by
  simp [chars]

/-- Escaping distributes over concatenation. -/
theorem chars_append (cs ds : List Char) : chars (cs ++ ds) = chars cs ++ chars ds := by
  simp [chars]

/-- The search is for the characters that are replaced. -/
theorem contains_reserved (c : Char) : reserved.contains c = (reference? c).isSome := by
  unfold reference?
  split
  case h_7 h₁ h₂ h₃ h₄ h₅ h₆ =>
    have hnone : c ∉ reserved := by
      simp only [reserved, List.mem_cons, List.not_mem_nil, or_false, not_or]
      exact ⟨h₁, h₂, h₃, h₄, h₅, h₆⟩
    rw [List.contains_eq_mem, decide_eq_false hnone, Option.isSome_none]
  all_goals rfl

/-- Without a character to replace, nothing changes. -/
theorem chars_of_not_isNeeded {cs : List Char} (h : isNeeded cs = false) : chars cs = cs := by
  induction cs with
  | nil => rfl
  | cons c rest ih =>
    simp only [isNeeded, List.any_cons, Bool.or_eq_false_iff, contains_reserved] at h
    have hc : char c = [c] := by
      cases hr : reference? c with
      | none => simp [char, hr]
      | some reference => simp [hr] at h
    rw [chars_cons, hc, ih h.2, List.singleton_append]

/-- The characters of the escaped form. -/
theorem toList_text (s : String) : (text s).toList = chars s.toList := by
  unfold text
  by_cases h : isNeeded s.toList
  · simp [h]
  · have h' : isNeeded s.toList = false := by simpa using h
    simp [h', chars_of_not_isNeeded h']

end TaggedMarkup.Escape
