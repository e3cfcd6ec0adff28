import Mathlib.Data.List.Infix
import TaggedMarkup.Text.Escape

/-!
# Escaping can be undone

An escaped text is read back in **one pass** from left to right: a reference is read as the character that it
stands for, and anything else as it is. What has been read is not looked at again, so a text that holds the
letters of a reference itself comes back as it was: its `&` was written as a reference, too.

That no two references can be taken for one another rests on one fact (`char_cases`): a character is written as
itself, and then it is not reserved, or as a reference, and then there is an `&` at its start and nowhere else in it.
-/

namespace TaggedMarkup.Escape

/-- What an escaped text reads as. -/
def unescape : List Char → List Char
  | '&' :: 'a' :: 'm' :: 'p' :: ';' :: rest => '&' :: unescape rest
  | '&' :: 'l' :: 't' :: ';' :: rest => '<' :: unescape rest
  | '&' :: 'g' :: 't' :: ';' :: rest => '>' :: unescape rest
  | '&' :: 'q' :: 'u' :: 'o' :: 't' :: ';' :: rest => '"' :: unescape rest
  | '&' :: '#' :: 'x' :: '2' :: '7' :: ';' :: rest => '\'' :: unescape rest
  | '&' :: '#' :: 'x' :: '6' :: '0' :: ';' :: rest => '`' :: unescape rest
  | c :: rest => c :: unescape rest
  | [] => []

/-! ## One character -/

theorem mem_reserved_iff {c : Char} : c ∈ reserved ↔ (reference? c).isSome = true := by
  rw [← contains_reserved, List.contains_iff_mem]

/-- A reference begins with `&`, and has no reserved character further on. -/
theorem reference?_eq_some {c : Char} {reference : String} (h : reference? c = some reference) :
    ∃ d tail, reference.toList = '&' :: d :: tail ∧ ∀ e ∈ d :: tail, e ∉ reserved := by
  have hletters : ∃ d tail, reference.toList = '&' :: d :: tail ∧
      (d :: tail).all (fun e => !reserved.contains e) = true := by
    unfold reference? at h
    split at h <;> cases h <;> exact ⟨_, _, rfl, by decide⟩
  obtain ⟨d, tail, htext, hall⟩ := hletters
  refine ⟨d, tail, htext, fun e he hmem => ?_⟩
  have hnone := List.all_eq_true.mp hall e he
  rw [List.contains_iff_mem.mpr hmem] at hnone
  exact nomatch hnone

/-- What is written for a character: itself, or its reference. -/
theorem char_cases (c : Char) :
    (char c = [c] ∧ c ∉ reserved) ∨
      ∃ reference d tail, reference? c = some reference ∧ char c = reference.toList ∧
        reference.toList = '&' :: d :: tail ∧ ∀ e ∈ d :: tail, e ∉ reserved := by
  cases h : reference? c with
  | none => exact .inl ⟨by rw [char, h], by rw [mem_reserved_iff, h]; exact Bool.false_ne_true⟩
  | some reference =>
    obtain ⟨d, tail, hreference, htail⟩ := reference?_eq_some h
    exact .inr ⟨reference, d, tail, rfl, by rw [char, h], hreference, htail⟩

/-- Of the reserved characters, only `&` is written. -/
theorem eq_ampersand_of_mem_char {c d : Char} (hd : d ∈ char c) (hreserved : d ∈ reserved) : d = '&' := by
  obtain ⟨hchar, hnone⟩ | ⟨reference, e, tail, -, hchar, hreference, htail⟩ := char_cases c
  · rw [hchar, List.mem_singleton] at hd
    exact absurd (hd ▸ hreserved) hnone
  · rw [hchar, hreference] at hd
    obtain rfl | hd := List.mem_cons.mp hd
    · rfl
    · exact absurd hreserved (htail d hd)

theorem unescape_cons {c : Char} (h : c ≠ '&') (rest : List Char) :
    unescape (c :: rest) = c :: unescape rest := by
  rw [unescape]
  all_goals exact fun _ hc _ => h hc

theorem unescape_char (c : Char) (rest : List Char) : unescape (char c ++ rest) = c :: unescape rest := by
  cases h : reference? c with
  | none =>
    have hne : c ≠ '&' := by
      rintro rfl
      cases h
    rw [char, h]
    exact unescape_cons hne rest
  | some reference =>
    rw [char, h]
    unfold reference? at h
    split at h <;> cases h <;> rfl

/-! ## All characters -/

theorem unescape_chars (cs : List Char) : unescape (chars cs) = cs := by
  induction cs with
  | nil => rfl
  | cons c rest ih => rw [chars_cons, unescape_char, ih]

/-- Every `&` that is written begins a reference. -/
theorem exists_reference {cs after : List Char} (h : '&' :: after <:+ chars cs) :
    ∃ c reference, reference? c = some reference ∧ reference.toList <+: '&' :: after := by
  induction cs with
  | nil => exact absurd (List.eq_nil_of_suffix_nil h) (List.cons_ne_nil _ _)
  | cons c rest ih =>
    rw [chars_cons] at h
    obtain hrest | ⟨inner, hinner⟩ := List.suffix_or_suffix_of_suffix h (List.suffix_append (char c) (chars rest))
    · exact ih hrest
    obtain ⟨before, hbefore⟩ := h
    cases inner with
    | nil => exact ih ⟨[], hinner.symm⟩
    | cons d inner =>
      -- the `&` is in what is written for `c`
      obtain ⟨rfl, -⟩ := List.cons.inj hinner
      have hsplit : char c = before ++ '&' :: inner :=
        List.append_cancel_right (hbefore.symm.trans (by rw [← hinner, List.append_assoc]))
      obtain ⟨hchar, hnone⟩ | ⟨reference, d, tail, hc, hchar, hreference, htail⟩ := char_cases c
      · rw [hchar] at hsplit
        have hmem : '&' ∈ [c] := hsplit ▸ List.mem_append_right before List.mem_cons_self
        exact absurd (List.mem_singleton.mp hmem ▸ (by decide : '&' ∈ reserved)) hnone
      · refine ⟨c, reference, hc, ?_⟩
        rw [hchar, hreference] at hsplit
        cases before with
        | nil => exact ⟨chars rest, by rw [hreference, hsplit, List.nil_append, hinner]⟩
        | cons b before =>
          -- a reference has no other `&` in it
          have hmem : '&' ∈ d :: tail := (List.cons.inj hsplit).2 ▸ List.mem_append_right before List.mem_cons_self
          exact absurd (by decide : '&' ∈ reserved) (htail _ hmem)

theorem length_char (c : Char) : 1 ≤ (char c).length ∧ (c ∈ reserved → 2 ≤ (char c).length) := by
  obtain ⟨hchar, hnone⟩ | ⟨reference, d, tail, -, hchar, hreference, -⟩ := char_cases c
  · exact ⟨hchar ▸ Nat.le_refl 1, fun hc => absurd hc hnone⟩
  · rw [hchar, hreference, List.length_cons, List.length_cons]
    exact ⟨by omega, fun _ => by omega⟩

theorem length_le_chars (cs : List Char) : cs.length ≤ (chars cs).length := by
  induction cs with
  | nil => exact Nat.le_refl 0
  | cons c rest ih =>
    have hc := (length_char c).1
    rw [chars_cons, List.length_append, List.length_cons]
    omega

/-- A text with a reserved character gets longer. -/
theorem length_lt_chars {cs : List Char} (h : isNeeded cs = true) : cs.length < (chars cs).length := by
  induction cs with
  | nil => cases h
  | cons c rest ih =>
    obtain ⟨hone, htwo⟩ := length_char c
    rw [chars_cons, List.length_append, List.length_cons]
    rw [isNeeded, List.any_cons, Bool.or_eq_true, List.contains_iff_mem] at h
    obtain hc | hrest := h
    · have hlength := length_le_chars rest
      have hlong := htwo hc
      omega
    · have hlonger := ih hrest
      omega

/-- The search finds nothing exactly if escaping changes nothing. -/
theorem isNeeded_eq_false_iff {cs : List Char} : isNeeded cs = false ↔ chars cs = cs := by
  refine ⟨chars_of_not_isNeeded, fun hsame => ?_⟩
  rw [← Bool.not_eq_true]
  intro hneeded
  exact (length_lt_chars hneeded).ne (congrArg List.length hsame).symm

/-! ## Texts -/

theorem text_append (s t : String) : text (s ++ t) = text s ++ text t := by
  rw [← String.toList_inj, toList_text, String.toList_append, String.toList_append, chars_append, toList_text,
    toList_text]

theorem ofList_unescape_text (s : String) : String.ofList (unescape (text s).toList) = s := by
  rw [toList_text, unescape_chars, String.ofList_toList]

/-- **Escaping can be undone, and leaves nothing to be taken for markup.** One pass from left to right reads a text
back from its escaped form, so no two texts have the same one. Of the reserved characters, only `&` is left, and
only as the start of a reference. Escaping goes part by part. The search for reserved characters sends a text
through exactly if each of its characters would have been written as it is. -/
theorem text_reversible (s : String) :
    String.ofList (unescape (text s).toList) = s ∧
    (∀ t, text s = text t → s = t) ∧
    (∀ c ∈ (text s).toList, c ∉ ['<', '>', '"', '\'', '`']) ∧
    (∀ after, '&' :: after <:+ (text s).toList →
      ∃ c reference, reference? c = some reference ∧ reference.toList <+: '&' :: after) ∧
    (∀ t, text (s ++ t) = text s ++ text t) ∧
    (isNeeded s.toList = false ↔ String.ofList (chars s.toList) = s) := by
  refine ⟨ofList_unescape_text s, fun t hsame => ?_, fun c hc hreserved => ?_, fun after h => ?_, text_append s, ?_⟩
  · rw [← ofList_unescape_text s, hsame, ofList_unescape_text]
  · rw [toList_text, chars, List.mem_flatMap] at hc
    obtain ⟨d, -, hc⟩ := hc
    obtain rfl := eq_ampersand_of_mem_char hc (List.mem_cons_of_mem '&' hreserved)
    revert hreserved
    decide
  · exact exists_reference (toList_text s ▸ h)
  · rw [isNeeded_eq_false_iff, ← String.toList_inj, String.toList_ofList]

/-- The letters of a reference are escaped as any others, and come back. -/
theorem text_reversible_letters :
    (text "&lt;<'").toList = "&amp;lt;&lt;&#x27;".toList ∧
    unescape "&amp;lt;&lt;&#x27;".toList = "&lt;<'".toList ∧
    text "&lt;<'" = text ("&lt;" ++ "<'") ∧ "&lt;<'" = "&lt;" ++ "<'" ∧
    '&' ∈ (text "&lt;<'").toList ∧ '&' ∉ ['<', '>', '"', '\'', '`'] ∧
    '&' :: "lt;&#x27;".toList <:+ (text "&lt;<'").toList ∧
    ∃ c reference, reference? c = some reference ∧ reference.toList <+: '&' :: "lt;&#x27;".toList := by
  obtain ⟨hback, hsame, hclean, hreference, -, -⟩ := text_reversible "&lt;<'"
  have hescaped : (text "&lt;<'").toList = "&amp;lt;&lt;&#x27;".toList := by decide
  have hparts : text "&lt;<'" = text ("&lt;" ++ "<'") := by decide
  have hmem : '&' ∈ (text "&lt;<'").toList := by decide
  have hsuffix : '&' :: "lt;&#x27;".toList <:+ (text "&lt;<'").toList := by decide
  rw [hescaped] at hback
  have hread := String.toList_ofList.symm.trans (congrArg String.toList hback)
  exact ⟨hescaped, hread, hparts, hsame _ hparts, hmem, hclean _ hmem, hsuffix, hreference _ hsuffix⟩

end TaggedMarkup.Escape
