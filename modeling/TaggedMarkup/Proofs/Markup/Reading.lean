import TaggedMarkup.Proofs.Markup.Building
import TaggedMarkup.Proofs.Markup.Characters
import TaggedMarkup.Proofs.Markup.Writing
import TaggedMarkup.Template.Scanner

/-!
# How markup is scanned

What the scanner makes of the pieces of markup that a renderer writes: a text, an opening tag with its
attributes, the end of a void tag, a closing tag. Each of them is read in full before anything that follows,
and leaves the scanner ready for whatever that is.
-/

namespace TaggedMarkup

namespace Scan

/-- The instructions and open elements of a scan, with the scanner elsewhere: in this mode, outside
quotes, with these characters not yet committed. -/
def reading (mode : Mode) (buffer : List Char) (s : Scan) : Scan :=
  { s with mode, buffer, quote := none }

/-- Add instructions one after the other. -/
def pushAll (ops : List Op) (s : Scan) : Scan := ops.foldl (fun s op => s.push op) s

/-- Add what is committed of a text that was read to its end. -/
def pushText (buffer : List Char) (s : Scan) : Scan :=
  s.pushAll (Op.ofText (String.ofList buffer.reverse))

variable {s t : Scan} {mode : Mode} {buffer cs : List Char}

theorem pushAll_append (ops more : List Op) (s : Scan) :
    s.pushAll (ops ++ more) = (s.pushAll ops).pushAll more := List.foldl_append ..

/-- Instructions do not depend on where the scanner is. -/
theorem push_reading (op : Op) (mode : Mode) (buffer : List Char) (s : Scan) :
    (s.reading mode buffer).push op = (s.push op).reading mode buffer := by
  unfold push reading
  cases s.frames <;> rfl

/-! ## Text -/

/-- A text without `<` is read to its end. -/
theorem part_text (h : ∀ c ∈ cs, c ≠ '<') (rest buffer : List Char) (s : Scan) :
    part (cs ++ rest) (s.reading .text buffer) = part rest (s.reading .text (cs.reverse ++ buffer)) := by
  induction cs generalizing buffer with
  | nil => rfl
  | cons c more ih =>
    have hstep : ∀ f, (s.reading .text buffer).step c f = s.reading .text (c :: buffer) := by
      intro f
      exact if_neg (h c List.mem_cons_self)
    rw [List.cons_append, part, hstep, ih fun c hc => h c (List.mem_cons_of_mem _ hc),
      List.reverse_cons, List.append_assoc, List.singleton_append]

theorem commit_text (buffer : List Char) (s : Scan) :
    (s.reading .text buffer).commit = (s.pushText buffer).reading .text [] := by
  unfold commit pushText Op.ofText Outline.child
  dsimp only [word, reading]
  split
  · rfl
  · exact push_reading _ .text [] s

/-! ## Opening tags -/

theorem openElement_reading (s : Scan) :
    { (s.reading .text []).openElement with mode := .tagName } =
      s.openElement.reading .tagName [] := rfl

/-- A name is read to its end. -/
theorem part_name (hmode : mode = .tagName ∨ mode = .space) (h : ∀ c ∈ cs, c ∉ Name.marks)
    (rest buffer : List Char) (hbuffer : '!' ∉ buffer) (s : Scan) :
    part (cs ++ rest) (s.reading mode buffer) = part rest (s.reading mode (cs.reverse ++ buffer)) := by
  induction cs generalizing buffer with
  | nil => rfl
  | cons c more ih =>
    have hc := h c List.mem_cons_self
    simp only [Name.marks, List.mem_cons, List.not_mem_nil, or_false, not_or] at hc
    obtain ⟨hdouble, hsingle, hclose, hequals, hslash, hspace, htab, hline, hreturn, hbang⟩ := hc
    have hmore : '!' ∉ c :: buffer := by
      rw [List.mem_cons, not_or]
      exact ⟨fun hsame => hbang hsame.symm, hbuffer⟩
    -- the name does not turn into a comment
    have hcomment : ¬ (c :: buffer = ['-', '-', '!']) := by
      intro hsame
      rw [hsame] at hmore
      exact hmore (by decide)
    have hstep : ∀ f, (s.reading mode buffer).step c f = s.reading mode (c :: buffer) := by
      intro f
      rcases hmode with rfl | rfl
      · simp [step, reading, stepTag, buffered, enterComment, hdouble, hsingle, hclose, hequals,
          hslash, hspace, htab, hline, hreturn, hcomment]
      · simp [step, reading, stepTag, buffered, enterComment, hdouble, hsingle, hclose, hequals,
          hslash, hspace, htab, hline, hreturn]
    rw [List.cons_append, part, hstep, ih (fun c hc => h c (List.mem_cons_of_mem _ hc)) _ hmore,
      List.reverse_cons, List.append_assoc, List.singleton_append]

/-- The scanner is in an opening tag and outside quotes, and with what it has read so far committed,
the scan is `t`. -/
structure Opens (s t : Scan) : Prop where
  quote : s.quote = none
  mode : s.mode = .tagName ∨ s.mode = .space ∨ ∃ name begun, s.mode = .value name begun
  commit : ∃ mode, s.commit = t.reading mode []

theorem Opens.step_blank (h : s.Opens t) (f : Option Char) : s.step ' ' f = t.reading .space [] := by
  obtain ⟨mode, hcommit⟩ := h.commit
  have hblank : s.stepTag ' ' f = t.reading .space [] := by
    have hmode : s.mode ≠ .slash := by
      rcases h.mode with hm | hm | ⟨_, _, hm⟩ <;> rw [hm] <;> exact Mode.noConfusion
    simp [stepTag, hmode, hcommit, reading]
  rcases h.mode with hm | hm | ⟨_, _, hm⟩ <;>
    · simp only [step, hm, h.quote, hblank]
      rfl

theorem Opens.step_close (h : s.Opens t) (f : Option Char) : s.step '>' f = t.reading .text [] := by
  obtain ⟨mode, hcommit⟩ := h.commit
  have hclose : s.stepTag '>' f = t.reading .text [] := by
    simp [stepTag, hcommit, reading]
  rcases h.mode with hm | hm | ⟨_, _, hm⟩ <;>
    · simp only [step, hm, h.quote, hclose]
      rfl

/-- A tag begins where the text before it ends. -/
theorem step_open (buffer : List Char) (f : Option Char) (s : Scan) :
    (s.reading .text buffer).step '<' f =
      (s.pushText buffer).openElement.reading .tagName [] := by
  have hstep : (s.reading .text buffer).step '<' f =
      { (s.reading .text buffer).commit.openElement with mode := .tagName } := rfl
  rw [hstep, commit_text]
  exact openElement_reading _

theorem opens_name {name : String} (hne : name ≠ "") (t : Scan) :
    (t.reading .tagName name.toList.reverse).Opens (t.push (.tag (.fixed (.str name)))) := by
  have hword : String.ofList name.toList.reverse.reverse = name := by
    rw [List.reverse_reverse, String.ofList_toList]
  refine ⟨rfl, .inl rfl, .space, ?_⟩
  unfold commit
  dsimp only [word, reading]
  rw [hword, if_neg hne]
  exact congrArg (fun s : Scan => { s with mode := .space }) (push_reading _ .tagName [] t)

/-- A tag is opened and its name read. -/
theorem opens_tag {name : String} (hname : Name.isTag name = true) (buffer : List Char) (s : Scan) :
    ∃ s' : Scan, s'.Opens ((s.pushText buffer).openElement.push (.tag (.fixed (.str name)))) ∧
      ∀ rest, part (("<" ++ name).toList ++ rest) (s.reading .text buffer) = part rest s' := by
  obtain ⟨hne, hmarks⟩ := Name.notMem_marks_of_isTag hname
  have hnonempty : name ≠ "" := by
    rintro rfl
    exact hne String.toList_empty
  refine ⟨_, opens_name hnonempty _, fun rest => ?_⟩
  rw [String.toList_append, List.append_assoc, show "<".toList = ['<'] from rfl,
    List.singleton_append, part, step_open, part_name (.inl rfl) hmarks _ _ List.not_mem_nil,
    List.append_nil]

/-! ## Attributes -/

/-- A name that was read between blanks is an attribute. -/
theorem opens_bare {name : String} (hne : name ≠ "") (t : Scan) :
    (t.reading .space name.toList.reverse).Opens (t.push (.set name (.fixed (.bool true)))) := by
  have hword : String.ofList name.toList.reverse.reverse = name := by
    rw [List.reverse_reverse, String.ofList_toList]
  refine ⟨rfl, .inr (.inl rfl), .space, ?_⟩
  unfold commit
  dsimp only [word, reading]
  rw [hword, if_neg hne]
  exact push_reading _ .space [] t

/-- A blank and a name are read. -/
theorem part_attribute {name : String} (h : s.Opens t) (hname : Name.isAttribute name = true)
    (rest : List Char) : part ((" " ++ name).toList ++ rest) s =
      part rest (t.reading .space name.toList.reverse) := by
  obtain ⟨hne, hmarks⟩ := Name.notMem_marks_of_isAttribute hname
  rw [String.toList_append, List.append_assoc, show " ".toList = [' '] from rfl,
    List.singleton_append, part, h.step_blank, part_name (.inr rfl) hmarks _ _ List.not_mem_nil,
    List.append_nil]

/-- What stands between quotes is read to the closing quote. -/
theorem part_quoted {name : String} (h : ∀ c ∈ cs, c ≠ '"') (rest buffer : List Char) (t : Scan) :
    part (cs ++ '"' :: rest) { t.reading (.value name false) buffer with quote := some '"' } =
      part rest (t.reading (.value name false) (cs.reverse ++ buffer)) := by
  induction cs generalizing buffer with
  | nil => rfl
  | cons c more ih =>
    have hstep : ∀ f, step c f { t.reading (.value name false) buffer with quote := some '"' } =
        { t.reading (.value name false) (c :: buffer) with quote := some '"' } := by
      intro f
      have hc := h c List.mem_cons_self
      simp [step, reading, buffered, enterComment, hc]
    rw [List.cons_append, part, hstep, ih fun c hc => h c (List.mem_cons_of_mem _ hc),
      List.reverse_cons, List.append_assoc, List.singleton_append]

theorem opens_valued (name value : String) (t : Scan) :
    (t.reading (.value name false) value.toList.reverse).Opens
      (t.push (.set name (.fixed (.str value)))) := by
  have hword : String.ofList value.toList.reverse.reverse = value := by
    rw [List.reverse_reverse, String.ofList_toList]
  refine ⟨rfl, .inr (.inr ⟨name, false, rfl⟩), .value name true, ?_⟩
  unfold commit
  dsimp only [word, reading]
  rw [hword, if_neg fun h => Bool.false_ne_true h.2]
  exact congrArg (fun s : Scan => { s with mode := .value name true })
    (push_reading _ (.value name false) [] t)

/-- An equals sign and a quoted value are read after a name. -/
theorem part_value {value : String} (hvalue : value.toList.all isTextual = true) (name : String)
    (rest : List Char) (t : Scan) :
    part (("=\"" ++ value ++ "\"").toList ++ rest) (t.reading .space name.toList.reverse) =
      part rest (t.reading (.value name false) value.toList.reverse) := by
  have hquote : ∀ c ∈ value.toList, c ≠ '"' := by
    intro c hc
    have htextual := List.all_eq_true.mp hvalue c hc
    unfold isTextual at htextual
    exact bne_iff_ne.mp (Bool.and_eq_true_iff.mp htextual).2
  have hequals : ∀ f, (t.reading .space name.toList.reverse).step '=' f =
      t.reading (.value name false) [] := by
    intro f
    have hword : String.ofList name.toList.reverse.reverse = name := by
      rw [List.reverse_reverse, String.ofList_toList]
    simp only [step, reading, stepTag, enterComment, word, hword]
    rfl
  have hopen : ∀ f, (t.reading (.value name false) []).step '"' f =
      { t.reading (.value name false) [] with quote := some '"' } := fun _ => rfl
  have hchars : ("=\"" ++ value ++ "\"").toList ++ rest =
      '=' :: '"' :: (value.toList ++ '"' :: rest) := by
    simp only [String.toList_append, List.append_assoc]
    rfl
  rw [hchars, part, hequals, part, hopen, part_quoted hquote, List.append_nil]

/-- A prop that is written is read as an instruction that sets it, and one that is not leaves no trace. -/
theorem opens_prop {name : String} {value : Value} (h : s.Opens t)
    (hcs : Outline.writingOfProp name value = .text cs) :
    ∃ s' : Scan, s'.Opens (t.pushAll (((Outline.keptProp value).map fun kept =>
      Op.set name (.fixed kept)).toList)) ∧ ∀ rest, part (cs ++ rest) s = part rest s' := by
  unfold Outline.writingOfProp at hcs
  split at hcs
  · rename_i hskipped
    cases hcs
    refine ⟨s, ?_, fun _ => rfl⟩
    cases value with
    | undefined | null => exact h
    | bool b =>
      cases b with
      | false => exact h
      | true => cases hskipped
    | _ => cases hskipped
  · split at hcs
    · cases hcs
    · rename_i hname
      have hname : Name.isAttribute name = true := by simpa using hname
      have hne : name ≠ "" := by
        rintro rfl
        exact (Name.notMem_marks_of_isAttribute hname).1 rfl
      have hvalued : ∀ {shown : String}, shown.toList.all isTextual = true →
          ∀ rest, part ((" " ++ name ++ "=\"" ++ shown ++ "\"").toList ++ rest) s =
            part rest (t.reading (.value name false) shown.toList.reverse) := by
        intro shown hshown rest
        have hchars : (" " ++ name ++ "=\"" ++ shown ++ "\"").toList ++ rest =
            (" " ++ name).toList ++ (("=\"" ++ shown ++ "\"").toList ++ rest) := by
          simp only [String.toList_append, List.append_assoc]
        rw [hchars, part_attribute h hname, part_value hshown]
      cases value with
      | bool b =>
        cases b with
        | false => exact absurd rfl ‹_›
        | true =>
          cases hcs
          exact ⟨_, opens_bare hne t, part_attribute h hname⟩
      | str content =>
        cases hcs
        exact ⟨_, opens_valued name _ t, hvalued (Escape.isTextual_text content)⟩
      | number d =>
        cases hcs
        exact ⟨_, opens_valued name _ t, hvalued d.isTextual_text⟩
      | _ =>
        cases hcs
        exact ⟨s, h, fun _ => rfl⟩

/-- The props of a tag are read one after the other. -/
theorem opens_props {props : Props} (h : s.Opens t)
    (hcs : Outline.writingOfProps props = .text cs) :
    ∃ s' : Scan, s'.Opens (t.pushAll (Op.ofProps props)) ∧
      ∀ rest, part (cs ++ rest) s = part rest s' := by
  induction props generalizing s t cs with
  | nil =>
    cases hcs
    exact ⟨s, h, fun _ => rfl⟩
  | cons p more ih =>
    obtain ⟨name, value⟩ := p
    obtain ⟨as, bs, has, hbs, rfl⟩ := Writing.append_eq_text hcs
    obtain ⟨u, hu, hfirst⟩ := opens_prop h has
    obtain ⟨s', hs', hmore⟩ := ih hu hbs
    refine ⟨s', ?_, fun rest => ?_⟩
    · have hsets : Op.ofProps ((name, value) :: more) =
          ((Outline.keptProp value).map fun kept => Op.set name (.fixed kept)).toList ++
            Op.ofProps more := by
        unfold Op.ofProps Outline.writtenProps
        rw [List.filterMap_cons]
        cases Outline.keptProp value <;> rfl
      rw [hsets, pushAll_append]
      exact hs'
    · rw [List.append_assoc, hfirst, hmore]

/-! ## Closing -/

theorem close_reading (mode : Mode) (buffer : List Char) (s : Scan) :
    (s.reading mode buffer).close = s.close.reading mode buffer := by
  unfold close
  cases hf : s.frames with
  | nil =>
    simp only [reading, hf]
  | cons frame rest =>
    simp only [reading, hf]
    exact push_reading _ mode buffer { s with frames := rest }

/-- After the slash that closes an element, nothing counts until `>`. -/
theorem part_slash (h : ∀ c ∈ cs, c ∉ Name.marks) (rest : List Char) (s : Scan) :
    part (cs ++ '>' :: rest) (s.reading .slash []) = part rest (s.reading .text []) := by
  induction cs with
  | nil => rfl
  | cons c more ih =>
    have hc := h c List.mem_cons_self
    simp only [Name.marks, List.mem_cons, List.not_mem_nil, or_false, not_or] at hc
    obtain ⟨hdouble, hsingle, hclose, -⟩ := hc
    have hstep : ∀ f, (s.reading .slash []).step c f = s.reading .slash [] := by
      intro f
      simp [step, reading, stepTag, enterComment, hdouble, hsingle, hclose]
    rw [List.cons_append, part, hstep, ih fun c hc => h c (List.mem_cons_of_mem _ hc)]

/-- The end of a void tag closes it. -/
theorem part_void (h : s.Opens t) (rest : List Char) :
    part (" />".toList ++ rest) s = part rest (t.close.reading .text []) := by
  have hslash : ∀ f, (t.reading .space []).step '/' f = t.close.reading .slash [] := by
    intro f
    have hstep : (t.reading .space []).step '/' f =
        { (t.reading .space []).close with mode := .slash } := rfl
    rw [hstep, close_reading]
    rfl
  have hnone : ∀ c ∈ ([] : List Char), c ∉ Name.marks := fun _ hc => absurd hc List.not_mem_nil
  have hend := part_slash hnone rest t.close
  rw [show " />".toList ++ rest = ' ' :: '/' :: '>' :: rest from rfl, part, h.step_blank, part, hslash]
  exact hend

/-- With a slash, what looked like an opening tag closes the element around it. -/
theorem step_slash (f : Option Char) (s : Scan) :
    (s.openElement.reading .tagName []).step '/' f = s.close.reading .slash [] := by
  have hstep : (s.openElement.reading .tagName []).step '/' f =
      { (s.reading .tagName []).close with mode := .slash } := rfl
  rw [hstep, close_reading]
  rfl

/-- A closing tag ends the text before it and closes the element. -/
theorem part_close {name : String} (hname : Name.isTag name = true) (rest buffer : List Char)
    (s : Scan) : part (("</" ++ name ++ ">").toList ++ rest) (s.reading .text buffer) =
      part rest ((s.pushText buffer).close.reading .text []) := by
  have hchars : ("</" ++ name ++ ">").toList ++ rest =
      '<' :: '/' :: (name.toList ++ '>' :: rest) := by
    simp only [String.toList_append, List.append_assoc]
    rfl
  rw [hchars, part, step_open, part, step_slash,
    part_slash (Name.notMem_marks_of_isTag hname).2]

end Scan

end TaggedMarkup
