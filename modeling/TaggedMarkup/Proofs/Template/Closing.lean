import TaggedMarkup.Proofs.Template.Fields
import TaggedMarkup.Proofs.Template.Printing

/-!
# Closing tags

What is open at the end of a template is closed there. Closing tags do the same one by one, and what they do
is all they do: a closing tag commits the text before it and closes the innermost open element, if there is
one, whatever stands in the tag (`Scan.part_closingTag`). The element that seems to open at its `<` is taken
back. So with enough closing tags at the end a template is compiled to what it is compiled to without them
(`Template.compile_closed`).
-/

namespace TaggedMarkup

/-- A closing tag. The name may be any text, or none, or a slash. -/
def closingTag (name : String) : String := "</" ++ name ++ ">"

example : closingTag "" = "</>" ∧ closingTag "/" = "<//>" ∧ closingTag "b" = "</b>" := by decide

/-- Closing tags, one after the other. -/
def closingTags : List String → String
  | [] => ""
  | name :: rest => closingTag name ++ closingTags rest

/-- A name without quotes and without `>` may stand in a closing tag. -/
def IsPassedOver (name : String) : Prop := ∀ c ∈ name.toList, c ≠ '>' ∧ c ≠ '"' ∧ c ≠ '\''

namespace Scan

variable {s : Scan}

/-! ## Closing -/

theorem close_of_frames (h : s.frames = []) : s.close = s := by
  simp only [close, h]

/-- What closes first does not matter. -/
theorem repeat_close_close (n : Nat) (s : Scan) :
    Nat.repeat close n s.close = (Nat.repeat close n s).close := by
  induction n with
  | zero => rfl
  | succ n ih => rw [Nat.repeat, ih, Nat.repeat]

theorem frames_reading (mode : Mode) (buffer : List Char) (s : Scan) :
    (s.reading mode buffer).frames = s.frames := rfl

theorem repeat_close_reading (n : Nat) (mode : Mode) (buffer : List Char) (s : Scan) :
    Nat.repeat close n (s.reading mode buffer) = (Nat.repeat close n s).reading mode buffer := by
  induction n with
  | zero => rfl
  | succ n ih => rw [Nat.repeat, ih, close_reading, Nat.repeat]

/-- Where all is closed, there is nothing more to close. -/
theorem repeat_close_of_le {n : Nat} (h : s.frames.length ≤ n) : Nat.repeat close n s = s.closeAll := by
  obtain ⟨more, rfl⟩ := Nat.exists_eq_add_of_le h
  induction more with
  | zero => rfl
  | succ more ih =>
    have hdone := ih (Nat.le_add_right _ _)
    rw [← Nat.add_assoc, Nat.repeat, hdone, close_of_frames (frames_closeAll s)]

theorem length_frames_push (op : Op) (s : Scan) : (s.push op).frames.length = s.frames.length := by
  obtain ⟨mode, buffer, quote, root, frames, next⟩ := s
  cases frames with
  | nil => rfl
  | cons frame rest => rfl

/-- A text opens no element. -/
theorem length_frames_pushText (buffer : List Char) (s : Scan) :
    (s.pushText buffer).frames.length = s.frames.length := by
  simp only [pushText, Op.ofText]
  generalize Outline.child (String.ofList buffer.reverse) = children
  induction children generalizing s with
  | nil => rfl
  | cons child rest ih => exact (ih _).trans (length_frames_push _ s)

/-- A text at the end is committed, and what is open is closed. -/
theorem finish_reading (buffer : List Char) (s : Scan) :
    (s.reading .text buffer).finish = (s.pushText buffer).closeAll.reading .text [] := by
  rw [finish, commit_text]
  generalize s.pushText buffer = t
  rw [closeAll, repeat_close_reading, closeAll, frames_reading]

/-! ## Reading closing tags -/

/-- A character is read as at the end of a part, unless a `>` follows. -/
theorem step_before {following : Option Char} (h : following ≠ some '>') (c : Char) (s : Scan) :
    s.step c following = s.step c none := by
  have hnone : (none : Option Char) ≠ some '>' := nofun
  simp only [step, stepTag, h, hnone]

/-- What does not begin with a `>` is read as a part of its own. -/
theorem part_before {more : List Char} (h : more.head? ≠ some '>') (cs : List Char) (s : Scan) :
    part (cs ++ more) s = part more (part cs s) := by
  induction cs generalizing s with
  | nil => rfl
  | cons c cs ih =>
    cases cs with
    | nil => rw [List.singleton_append, part, step_before h, part, part, List.head?_nil]
    | cons next cs =>
      have hread : ∀ rest, part (c :: next :: rest) s = part (next :: rest) (s.step c (some next)) :=
        fun _ => rfl
      rw [List.cons_append, List.cons_append, hread, hread, ← List.cons_append, ih]

/-- A closing tag ends the text before it and closes the innermost open element. -/
theorem part_closingTag {name : String} (h : IsPassedOver name) (rest buffer : List Char) (s : Scan) :
    part ((closingTag name).toList ++ rest) (s.reading .text buffer) =
      part rest ((s.pushText buffer).close.reading .text []) := by
  have hchars : (closingTag name).toList ++ rest = '<' :: '/' :: (name.toList ++ '>' :: rest) := by
    simp only [closingTag, String.toList_append, List.append_assoc]
    rfl
  have hend : ∀ (f : Option Char) (t : Scan), (t.reading .slash []).step '>' f = t.reading .text [] :=
    fun _ _ => rfl
  rw [hchars, part, step_open, part, step_slash, part_closing h, part, hend]

/-- So do several, and the text is ended by the first. -/
theorem part_closingTags {names : List String} (hnames : ∀ name ∈ names, IsPassedOver name)
    (hne : names ≠ []) (buffer : List Char) (s : Scan) :
    part (closingTags names).toList (s.reading .text buffer) =
      (Nat.repeat close names.length (s.pushText buffer)).reading .text [] := by
  induction names generalizing s buffer with
  | nil => exact absurd rfl hne
  | cons name rest ih =>
    rw [List.forall_mem_cons] at hnames
    rw [closingTags, String.toList_append, part_closingTag hnames.1]
    cases rest with
    | nil => rw [closingTags, String.toList_empty, part, List.length_singleton, Nat.repeat, Nat.repeat]
    | cons next rest =>
      rw [ih hnames.2 (List.cons_ne_nil _ _), pushText_nil, repeat_close_close, List.length_cons (a := name),
        Nat.repeat]

/-- With all that is open closed by tags, nothing is left to be closed at the end. -/
theorem finish_closingTags {names : List String} (hnames : ∀ name ∈ names, IsPassedOver name)
    {buffer : List Char} (hopen : s.frames.length ≤ names.length) :
    (part (closingTags names).toList (s.reading .text buffer)).finish =
      (s.reading .text buffer).finish := by
  by_cases hne : names = []
  · rw [hne, closingTags, String.toList_empty, part]
  · have hclosed : Nat.repeat close names.length (s.pushText buffer) = (s.pushText buffer).closeAll :=
      repeat_close_of_le (by rwa [length_frames_pushText])
    rw [part_closingTags hnames hne, hclosed, finish_reading, finish_reading, pushText_nil,
      ← repeat_close_of_le (n := 0) (by rw [frames_closeAll]; exact Nat.le_refl 0), Nat.repeat]

theorem head?_closingTags (names : List String) : (closingTags names).toList.head? ≠ some '>' := by
  cases names with
  | nil => exact nofun
  | cons name rest =>
    have hchars : (closingTags (name :: rest)).toList =
        '<' :: '/' :: (name.toList ++ ">".toList ++ (closingTags rest).toList) := by
      simp only [closingTags, closingTag, String.toList_append, List.append_assoc]
      rfl
    rw [hchars, List.head?_cons]
    exact fun h => absurd (Option.some.inj h) (by decide)

/-- More characters at the end of the last part are read after it. -/
theorem parts_append_last {more : String} (h : more.toList.head? ≠ some '>') (init : List String)
    (last : String) (s : Scan) :
    parts (init ++ [last ++ more]) s = part more.toList (parts (init ++ [last]) s) := by
  by_cases hinit : init = []
  · subst hinit
    simp only [List.nil_append, parts, rest, String.toList_append, part_before h]
  · rw [parts_concat hinit, parts_concat hinit, String.toList_append, part_before h]

end Scan

/-- **What is open at the end is closed there.** If the scan of the parts ends in a text and outside quotes,
and as many closing tags are appended as there are open elements, or more, whatever is named in them, the
parts are compiled to the same template, and the same blocks in the arena. -/
theorem Template.compile_closed (init : List String) (last : String) (names : List String)
    (hmode : (Scan.parts (init ++ [last]) {}).mode = .text)
    (hquote : (Scan.parts (init ++ [last]) {}).quote = none)
    (hopen : (Scan.parts (init ++ [last]) {}).frames.length ≤ names.length)
    (hnames : ∀ name ∈ names, IsPassedOver name) :
    compile (init ++ [last ++ closingTags names]) = compile (init ++ [last]) ∧
      Arena.compile (init ++ [last ++ closingTags names]) = Arena.compile (init ++ [last]) := by
  have htemplate : compile (init ++ [last ++ closingTags names]) = compile (init ++ [last]) := by
    have hlength : (init ++ [last ++ closingTags names]).length = (init ++ [last]).length := by
      rw [List.length_append, List.length_append]
      rfl
    rw [compile, compile, Scan.parts_append_last (Scan.head?_closingTags names), hlength]
    generalize Scan.parts (init ++ [last]) {} = s at hmode hquote hopen
    have hreading : s = s.reading .text s.buffer := by
      obtain ⟨mode, buffer, quote, root, frames, next⟩ := s
      cases hmode
      cases hquote
      rfl
    rw [hreading, Scan.finish_closingTags hnames hopen]
  exact ⟨htemplate, by rw [Arena.compile_eq_layout, Arena.compile_eq_layout, htemplate]⟩

/-- Two elements that stay open, and a text after them. -/
def Template.unfinished : List String := ["<ul><li class=", "> a", " "]

theorem Template.compile_closed_unfinished :
    (Scan.parts unfinished {}).mode = .text ∧ (Scan.parts unfinished {}).quote = none ∧
      (Scan.parts unfinished {}).frames.length = 2 ∧
      (∀ name ∈ ["p", "/", "!--", ""], IsPassedOver name) ∧
      " " ++ closingTags ["p", "/", "!--", ""] = " </p><//></!--></>" ∧
      compile ["<ul><li class=", "> a", " </p><//></!--></>"] = compile unfinished := by
  have hmode : (Scan.parts unfinished {}).mode = .text := by cbv
  have hquote : (Scan.parts unfinished {}).quote = none := by cbv
  have hopen : (Scan.parts unfinished {}).frames.length = 2 := by cbv
  have hnames : ∀ name ∈ ["p", "/", "!--", ""], IsPassedOver name := by
    simp [IsPassedOver]
  have htags : " " ++ closingTags ["p", "/", "!--", ""] = " </p><//></!--></>" := by decide
  obtain ⟨hcompile, -⟩ := compile_closed ["<ul><li class=", "> a"] " " ["p", "/", "!--", ""] hmode hquote
    (hopen ▸ by decide) hnames
  exact ⟨hmode, hquote, hopen, hnames, htags, htags ▸ hcompile⟩

end TaggedMarkup
