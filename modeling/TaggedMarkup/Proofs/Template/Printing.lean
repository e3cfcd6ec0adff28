import TaggedMarkup.Proofs.Markup.Reparsing
import TaggedMarkup.Proofs.Template.Blueprint

/-!
# What is printed is compiled

Printed and cut into parts, blueprints are compiled to their instructions (`Blueprint.compile_parts`).

Where the parts are cut does not matter for how a print is scanned: it is read from left to right, and a
gap places a field (`Scan.read`). Each piece of a print then takes the scanner from one state to another,
whatever comes after it (`Scan.Takes`), and these states are those of the instructions.
-/

namespace TaggedMarkup

open Print (ofText)

namespace Scan

/-! ## Reading a print -/

/-- Read characters and place the fields at the gaps between them. -/
def read : Nat → Print → Scan → Scan
  | _, [], s => s
  | index, some c :: rest, s => read index rest (s.step c rest.head?.join)
  | index, none :: rest, s => read (index + 1) rest (s.field index)

/-- Characters up to the next gap are read as in a part. -/
theorem read_chars (index : Nat) (cs : List Char) {rest : Print} (hrest : rest.head?.join = none)
    (s : Scan) : read index (cs.map some ++ rest) s = read index rest (part cs s) := by
  induction cs generalizing s with
  | nil => rfl
  | cons c more ih =>
    have hnext : (more.map some ++ rest).head?.join = more.head? := by
      cases more with
      | nil => exact hrest
      | cons => rfl
    rw [List.map_cons, List.cons_append, read, hnext, ih]
    rfl

/-- So is a print without gaps. -/
theorem read_map_some (index : Nat) (cs : List Char) (s : Scan) :
    read index (cs.map some) s = part cs s := by
  have hread := read_chars index cs (show ([] : Print).head?.join = none from rfl) s
  rwa [List.append_nil] at hread

/-- The parts after a gap are read as a print after that gap. -/
theorem rest_eq_read (index : Nat) (print : Print) (s : Scan) :
    rest index print.parts s = read (index + 1) print (s.field index) := by
  obtain ⟨cs, rfl | ⟨more, rfl, hlength⟩⟩ := print.exists_chars
  · rw [Print.parts_map_some, rest, rest, String.toList_ofList, read_map_some]
  · rw [Print.parts_gap, rest, rest_eq_read, String.toList_ofList, read_chars _ _ rfl, read]
termination_by print.length

/-- The parts of a print are read as the print. -/
theorem parts_eq_read (print : Print) (s : Scan) : parts print.parts s = read 0 print s := by
  obtain ⟨cs, rfl | ⟨more, rfl, -⟩⟩ := print.exists_chars
  · rw [Print.parts_map_some, parts, rest, String.toList_ofList, read_map_some]
  · rw [Print.parts_gap, parts, rest_eq_read, String.toList_ofList, read_chars _ _ rfl, read]

/-- Whatever comes after it, reading a print takes one state to another. -/
def Takes (print : Print) (first : Nat) (s t : Scan) : Prop :=
  ∀ rest, read first (print ++ rest) s = read (first + print.gaps) rest t

variable {print more : Print} {first : Nat} {s t u : Scan} {cs buffer : List Char} {mode : Mode}

theorem takes_nil (first : Nat) (s : Scan) : Takes [] first s s := fun _ => rfl

theorem Takes.append (h : Takes print first s t) (hmore : Takes more (first + print.gaps) t u) :
    Takes (print ++ more) first s u := by
  intro rest
  rw [List.append_assoc, h, hmore, Print.gaps_append, Nat.add_assoc]

/-- The holes of a print come after those before it. -/
theorem Takes.followed {index : Nat} (h : Takes print first s t) (hmore : Takes more index t u)
    (hindex : index = first + print.gaps) : Takes (print ++ more) first s u :=
  h.append (hindex ▸ hmore)

theorem takes_gap (first : Nat) (s : Scan) : Takes [none] first s (s.field first) := fun _ => rfl

/-- What is read as a part is read as a print. -/
theorem takes_of_part (h : ∀ rest, part (cs ++ rest) s = part rest t) (first : Nat) :
    Takes (cs.map some) first s t := by
  intro rest
  have htail : ∀ (ds : List Char) (tail : Print), tail.head?.join = none →
      read first (cs.map some ++ (ds.map some ++ tail)) s = read first (ds.map some ++ tail) t := by
    intro ds tail hjoin
    rw [← List.append_assoc, ← List.map_append, read_chars _ _ hjoin, read_chars _ _ hjoin, h]
  rw [Print.gaps_map_some]
  obtain ⟨ds, rfl | ⟨more, rfl, -⟩⟩ := Print.exists_chars rest
  · have hchars := htail ds [] rfl
    rwa [List.append_nil] at hchars
  · exact htail ds (none :: more) rfl

theorem takes_text {text : String} (h : ∀ rest, part (text.toList ++ rest) s = part rest t)
    (first : Nat) : Takes (ofText text) first s t := takes_of_part h first

/-- A character that is read in the same way whatever follows it. -/
theorem takes_char {c : Char} (h : ∀ following, s.step c following = t) (first : Nat) :
    Takes [some c] first s t := by
  have hpart : ∀ rest, part ([c] ++ rest) s = part rest t := by
    intro rest
    rw [List.singleton_append, part, h]
  exact takes_of_part hpart first

/-! ## Outside tags -/

theorem takes_content {content : String} (h : '<' ∉ content.toList) (first : Nat) (buffer : List Char)
    (s : Scan) : Takes (ofText content) first (s.reading .text buffer)
      (s.reading .text (content.toList.reverse ++ buffer)) :=
  takes_text (fun rest => part_text (fun _ hc hopen => h (hopen ▸ hc)) rest buffer s) first

/-- A hole ends the text before it. -/
theorem takes_hole (first : Nat) (buffer : List Char) (s : Scan) :
    Takes [none] first (s.reading .text buffer)
      (((s.pushText buffer).push (.child (.field first))).reading .text []) := by
  have hfield : (s.reading .text buffer).field first =
      ((s.pushText buffer).push (.child (.field first))).reading .text [] := by
    have hcommit : ∀ u : Scan, (u.reading .text []).commitField first =
        (u.push (.child (.field first))).reading .text [] := fun u => push_reading _ .text [] u
    rw [field, if_pos (show (s.reading .text buffer).mode = .text from rfl), commit_text, hcommit]
  exact hfield ▸ takes_gap first _

/-- In a comment, nothing is read before it ends. -/
theorem part_comment (cs latest rest : List Char)
    (h : ¬ "-->".toList <:+: latest.reverse ++ cs) (s : Scan) :
    part (cs ++ '-' :: '-' :: '>' :: rest) (s.reading (.comment latest) []) =
      part rest (s.reading .text []) := by
  induction cs generalizing latest with
  | nil =>
    have hdash : ∀ latest following, (s.reading (.comment latest) []).step '-' following =
        s.reading (.comment ('-' :: latest.take 1)) [] :=
      fun _ _ => if_neg fun hend => absurd hend.2 (by decide)
    rw [List.nil_append, part, hdash, part, hdash]
    rfl
  | cons c more ih =>
    -- of the latest characters one is kept besides `c`, enough to see the end of the comment
    have hlatest : latest.reverse ++ c :: more =
        (latest.drop 1).reverse ++ ((c :: latest.take 1).reverse ++ more) := by
      rw [List.reverse_cons, List.append_assoc, ← List.append_assoc, ← List.reverse_append,
        List.take_append_drop]
      rfl
    have hopen : ¬ (latest = ['-', '-'] ∧ c = '>') := by
      rintro ⟨rfl, rfl⟩
      exact h ⟨[], more, rfl⟩
    have hstep : ∀ following, (s.reading (.comment latest) []).step c following =
        s.reading (.comment (c :: latest.take 1)) [] := fun _ => if_neg hopen
    rw [List.cons_append, part, hstep]
    refine ih _ fun hinfix => h ?_
    rw [hlatest]
    exact hinfix.trans (List.suffix_append ..).isInfix

/-- What looks like an element turns into a comment. -/
theorem part_openComment (rest : List Char) (s : Scan) :
    part ('!' :: '-' :: '-' :: rest) (s.openElement.reading .tagName []) =
      part rest (s.reading (.comment []) []) := by
  have hbang : ∀ following, (s.openElement.reading .tagName []).step '!' following =
      s.openElement.reading .tagName ['!'] := fun _ => rfl
  have hdash : ∀ following, (s.openElement.reading .tagName ['!']).step '-' following =
      s.openElement.reading .tagName ['-', '!'] := fun _ => rfl
  have hcomment : ∀ following, (s.openElement.reading .tagName ['-', '!']).step '-' following =
      s.reading (.comment []) [] := fun _ => rfl
  rw [part, hbang, part, hdash, part, hcomment]

/-- A comment ends the text before it and leaves nothing. -/
theorem takes_comment {body : String} (h : ¬ "-->".toList <:+: body.toList) (first : Nat)
    (buffer : List Char) (s : Scan) :
    Takes (ofText "<!--" ++ ofText body ++ ofText "-->") first (s.reading .text buffer)
      ((s.pushText buffer).reading .text []) := by
  have hopen : ∀ rest, part ("<!--".toList ++ rest) (s.reading .text buffer) =
      part rest ((s.pushText buffer).reading (.comment []) []) := by
    intro rest
    rw [show "<!--".toList ++ rest = '<' :: '!' :: '-' :: '-' :: rest from rfl, part, step_open,
      part_openComment]
  have hall : ∀ rest, part (("<!--" ++ body ++ "-->").toList ++ rest) (s.reading .text buffer) =
      part rest ((s.pushText buffer).reading .text []) := by
    intro rest
    rw [String.toList_append, String.toList_append, List.append_assoc, List.append_assoc, hopen]
    exact part_comment body.toList [] rest h _
  have hprint : ofText "<!--" ++ ofText body ++ ofText "-->" = ofText ("<!--" ++ body ++ "-->") := by
    simp only [ofText, String.toList_append, List.map_append]
  exact hprint ▸ takes_text hall first

/-! ## Tags and names -/

open Blueprint (IsName breaks Piece Attribute Tag Closing)

/-- A name is read to its end. Only a tag could turn into a comment. -/
theorem part_word (hmode : mode = .tagName ∨ mode = .space) (h : ∀ c ∈ cs, c ∉ breaks)
    (hcomment : mode = .tagName → ¬ "!--".toList <+: buffer.reverse ++ cs) (rest : List Char)
    (s : Scan) :
    part (cs ++ rest) (s.reading mode buffer) = part rest (s.reading mode (cs.reverse ++ buffer)) := by
  induction cs generalizing buffer with
  | nil => rfl
  | cons c more ih =>
    have hc := h c List.mem_cons_self
    simp only [breaks, List.mem_cons, List.not_mem_nil, or_false, not_or] at hc
    obtain ⟨hspace, htab, hline, hreturn, hdouble, hsingle, hequals, hslash, hclose⟩ := hc
    -- in front of a tag, `!--` would begin a comment
    have hprefix : mode = .tagName → c :: buffer ≠ ['-', '-', '!'] := by
      rintro htag hsame
      obtain ⟨rfl, rfl⟩ := List.cons.inj hsame
      exact hcomment htag ⟨more, rfl⟩
    have hstep : ∀ following, (s.reading mode buffer).step c following =
        s.reading mode (c :: buffer) := by
      intro following
      rcases hmode with rfl | rfl
      · simp [step, reading, stepTag, buffered, enterComment, hdouble, hsingle, hclose, hequals,
          hslash, hspace, htab, hline, hreturn, hprefix rfl]
      · simp [step, reading, stepTag, buffered, enterComment, hdouble, hsingle, hclose, hequals,
          hslash, hspace, htab, hline, hreturn]
    have hmore : mode = .tagName → ¬ "!--".toList <+: (c :: buffer).reverse ++ more := by
      intro htag
      rw [List.reverse_cons, List.append_assoc]
      exact hcomment htag
    rw [List.cons_append, part, hstep, ih (fun c hc => h c (List.mem_cons_of_mem _ hc)) hmore,
      List.reverse_cons, List.append_assoc, List.singleton_append]

/-- Between attributes nothing waits to be committed. -/
theorem opens_space (t : Scan) : (t.reading .space []).Opens t :=
  ⟨rfl, .inr (.inl rfl), .space, rfl⟩

/-- Neither does it where a tag could stand. -/
theorem opens_empty (t : Scan) : (t.reading .tagName []).Opens t := ⟨rfl, .inl rfl, .tagName, rfl⟩

/-- The tag of an element is read. -/
theorem takes_tag {tag : Tag} (h : tag.IsSound) (first : Nat) (t : Scan) :
    ∃ s : Scan, s.Opens (t.pushAll (tag.ops first)) ∧
      Takes tag.print first (t.reading .tagName []) s := by
  cases tag with
  | named name =>
    obtain ⟨hname, hcomment⟩ := h
    have hword : ∀ rest, part (name.toList ++ rest) (t.reading .tagName []) =
        part rest (t.reading .tagName (name.toList.reverse ++ [])) :=
      fun rest => part_word (.inl rfl) hname.unbroken (fun _ => by exact hcomment) rest t
    rw [List.append_nil] at hword
    exact ⟨_, opens_name hname.nonempty t, takes_text hword first⟩
  | hole =>
    have hfield : (t.reading .tagName []).field first =
        (t.push (.tag (.field first))).reading .space [] :=
      congrArg (fun s : Scan => { s with mode := .space }) (push_reading _ .tagName [] t)
    exact ⟨_, opens_space _, hfield ▸ takes_gap first _⟩
  | empty => exact ⟨_, opens_empty t, takes_nil first _⟩

/-- A blank ends what was read before it. -/
theorem Opens.takes_blank (h : s.Opens t) (first : Nat) :
    Takes (ofText " ") first s (t.reading .space []) :=
  takes_char h.step_blank first

/-- A name after a blank is read. -/
theorem Opens.takes_name (h : s.Opens t) {name : String} (hname : ∀ c ∈ name.toList, c ∉ breaks)
    (first : Nat) :
    Takes (ofText " " ++ ofText name) first s (t.reading .space name.toList.reverse) := by
  refine (h.takes_blank first).append (takes_text (fun rest => ?_) _)
  rw [part_word (.inr rfl) hname (fun hmode => nomatch hmode), List.append_nil]

/-! ## Values in quotes -/

/-- The scanner is in the quoted value of an attribute, after a text that is not an instruction yet. -/
def quoting (name : String) (begun : Bool) (before : String) (s : Scan) : Scan :=
  { s.reading (.value name begun) before.toList.reverse with quote := some '"' }

theorem push_quoting (op : Op) (name : String) (begun : Bool) (before : String) (s : Scan) :
    (s.quoting name begun before).push op = (s.push op).quoting name begun before := by
  unfold push quoting reading
  cases s.frames <;> rfl

variable {name before : String} {begun : Bool}

/-- A text in quotes is read to its end. -/
theorem part_inQuotes (h : '"' ∉ cs) (rest buffer : List Char) (s : Scan) :
    part (cs ++ rest) { s.reading (.value name begun) buffer with quote := some '"' } =
      part rest { s.reading (.value name begun) (cs.reverse ++ buffer) with quote := some '"' } := by
  induction cs generalizing buffer with
  | nil => rfl
  | cons c more ih =>
    rw [List.mem_cons, not_or] at h
    have hstep : ∀ following,
        step c following { s.reading (.value name begun) buffer with quote := some '"' } =
          { s.reading (.value name begun) (c :: buffer) with quote := some '"' } := by
      intro following
      simp [step, reading, buffered, enterComment, Ne.symm h.1]
    rw [List.cons_append, part, hstep, ih h.2, List.reverse_cons, List.append_assoc,
      List.singleton_append]

theorem takes_inQuotes {content : String} (h : '"' ∉ content.toList) (first : Nat) (s : Scan) :
    Takes (ofText content) first (s.quoting name begun before)
      (s.quoting name begun (before ++ content)) := by
  refine takes_text (fun rest => ?_) first
  rw [quoting, part_inQuotes h, quoting, String.toList_append, List.reverse_append]

/-- A hole in quotes comes after the text before it. -/
theorem field_quoting (first : Nat) (s : Scan) :
    (s.quoting name begun before).field first =
      (s.pushAll (if before = "" then [Piece.op name begun (.field first)]
        else [Piece.op name begun (.fixed (.str before)), Piece.op name true (.field first)])).quoting
          name true "" := by
  have hword : (s.quoting name begun before).word = before := by
    rw [word, quoting, reading, List.reverse_reverse, String.ofList_toList]
  have hpiece : ∀ (operand : Operand) (begun : Bool) (u : Scan),
      (u.quoting name begun "").pushPiece name operand begun =
        (u.push (Piece.op name begun operand)).quoting name true "" := by
    intro operand begun u
    exact congrArg (fun s : Scan => { s with mode := .value name true })
      (push_quoting (Piece.op name begun operand) name begun "" u)
  have hmode : (s.quoting name begun before).mode ≠ .text := Mode.noConfusion
  -- the text before the hole becomes a piece of its own, unless it is empty
  have hfield : (s.quoting name begun before).field first =
      if before = "" then (s.quoting name begun "").pushPiece name (.field first) begun
      else ((s.quoting name begun "").pushPiece name (.fixed (.str before)) begun).pushPiece name
        (.field first) true := by
    rw [field, if_neg hmode, commitField, hword]
    rfl
  rw [hfield]
  split
  · exact hpiece _ _ _
  · rw [hpiece, hpiece]
    rfl

/-- The closing quote ends the value. -/
theorem opens_quoted (name : String) (begun : Bool) (before : String) (first : Nat) (t : Scan) :
    ∃ s : Scan, s.Opens (t.pushAll (Piece.ops name begun before first [])) ∧
      ∀ index, Takes (ofText "\"") index (t.quoting name begun before) s := by
  have hstep : ∀ following, (t.quoting name begun before).step '"' following =
      t.reading (.value name begun) before.toList.reverse := by
    intro following
    simp [step, quoting, reading, enterComment]
  refine ⟨t.reading (.value name begun) before.toList.reverse, ⟨rfl, .inr (.inr ⟨name, begun, rfl⟩),
    ?_⟩, fun index => takes_char hstep index⟩
  have hword : (t.reading (.value name begun) before.toList.reverse).word = before := by
    rw [word, reading, List.reverse_reverse, String.ofList_toList]
  have hcommit : (t.reading (.value name begun) before.toList.reverse).commit =
      if before = "" ∧ begun then t.reading (.value name begun) []
      else (t.reading (.value name begun) []).pushPiece name (.fixed (.str before)) begun := by
    rw [commit, hword]
    rfl
  rw [hcommit, Piece.ops]
  split
  · exact ⟨_, rfl⟩
  · exact ⟨.value name true, congrArg (fun s : Scan => { s with mode := .value name true })
      (push_reading _ _ [] t)⟩

/-- The pieces of a value are read to the closing quote. -/
theorem takes_pieces {pieces : List Piece} (h : ∀ piece ∈ pieces, ∀ content, piece = .text content →
    '"' ∉ content.toList) (name : String) (begun : Bool) (before : String) (first : Nat) (t : Scan) :
    ∃ s : Scan, s.Opens (t.pushAll (Piece.ops name begun before first pieces)) ∧
      Takes (Piece.printAll pieces ++ ofText "\"") first (t.quoting name begun before) s := by
  induction pieces generalizing begun before first t with
  | nil =>
    obtain ⟨s, hs, htakes⟩ := opens_quoted name begun before first t
    exact ⟨s, hs, htakes first⟩
  | cons piece rest ih =>
    have hrest := fun p hp => h p (List.mem_cons_of_mem _ hp)
    cases piece with
    | text content =>
      -- a text only adds to the text that is not an instruction yet
      have hcontent := h _ List.mem_cons_self content rfl
      obtain ⟨s, hs, htakes⟩ := ih hrest begun (before ++ content) first t
      rw [← Nat.add_zero first, ← Print.gaps_ofText content] at htakes
      exact ⟨s, hs, List.append_assoc .. ▸ (takes_inQuotes hcontent first t).append htakes⟩
    | hole =>
      obtain ⟨s, hs, htakes⟩ := ih hrest true "" (first + 1) _
      rw [← field_quoting] at htakes
      rw [← pushAll_append] at hs
      exact ⟨s, hs, (takes_gap first _).append htakes⟩

/-! ## Attributes -/

/-- An equals sign and a quote begin the value of an attribute. -/
theorem takes_equals (name : String) (first : Nat) (t : Scan) :
    Takes (ofText "=\"") first (t.reading .space name.toList.reverse) (t.quoting name false "") := by
  have hequals : ∀ following, (t.reading .space name.toList.reverse).step '=' following =
      t.reading (.value name false) [] := by
    intro following
    have hword : String.ofList name.toList.reverse.reverse = name := by
      rw [List.reverse_reverse, String.ofList_toList]
    simp only [step, reading, stepTag, enterComment, word, hword]
    rfl
  have hquote : ∀ following, (t.reading (.value name false) []).step '"' following =
      t.quoting name false "" := fun _ => rfl
  exact (takes_char hequals first).append (takes_char hquote _)

/-- An attribute with a quoted value is read. -/
theorem Opens.takes_quoted (h : s.Opens t) {name : String} (hname : IsName name)
    {pieces : List Piece} (hpieces : ∀ piece ∈ pieces, ∀ content, piece = .text content →
      '"' ∉ content.toList) (first : Nat) :
    ∃ s' : Scan, s'.Opens (t.pushAll (Piece.ops name false "" first pieces)) ∧
      Takes (ofText " " ++ ofText name ++ ofText "=\"" ++ Piece.printAll pieces ++ ofText "\"")
        first s s' := by
  obtain ⟨s', hs', hvalue⟩ := takes_pieces hpieces name false "" first t
  have hbegin := (h.takes_name hname.unbroken first).append (takes_equals name _ t)
  refine ⟨s', hs', ?_⟩
  rw [List.append_assoc]
  exact hbegin.append (by simpa using hvalue)

/-- So is any attribute. -/
theorem Opens.takes_attribute (h : s.Opens t) {a : Attribute} (ha : a.IsSound) (first : Nat) :
    ∃ s' : Scan, s'.Opens (t.pushAll (a.ops first)) ∧ Takes a.print first s s' := by
  cases a with
  | flag name => exact ⟨_, opens_bare ha.nonempty t, h.takes_name ha.unbroken first⟩
  | value name content =>
    have hpieces : ∀ piece ∈ [Piece.text content], ∀ text, piece = .text text → '"' ∉ text.toList := by
      rintro _ hmem text rfl
      cases List.mem_singleton.mp hmem
      exact ha.2
    obtain ⟨s', hs', htakes⟩ := h.takes_quoted ha.1 hpieces first
    rw [Piece.printAll, List.flatMap_singleton] at htakes
    rw [Piece.ops, String.empty_append, Piece.ops, if_neg fun h => Bool.false_ne_true h.2] at hs'
    exact ⟨s', hs', htakes⟩
  | mixed name pieces =>
    refine h.takes_quoted ha.1 (fun piece hmem content hpiece => ?_) first
    subst hpiece
    exact (ha.2 _ hmem).2
  | spread =>
    have hfield : (t.reading .space "...".toList.reverse).field first =
        (t.push (.spread first)).reading .space [] := push_reading _ .space [] t
    have hdots : IsName "..." := by decide
    exact ⟨_, opens_space _, (h.takes_name hdots.unbroken first).append (hfield ▸ takes_gap _ _)⟩

theorem Opens.takes_attributes (h : s.Opens t) {attributes : List Attribute}
    (hsound : ∀ a ∈ attributes, a.IsSound) (first : Nat) :
    ∃ s' : Scan, s'.Opens (t.pushAll (Attribute.opsAll first attributes)) ∧
      Takes (Attribute.printAll attributes) first s s' := by
  induction attributes generalizing first s t with
  | nil => exact ⟨s, h, takes_nil first s⟩
  | cons a rest ih =>
    obtain ⟨u, hu, hfirst⟩ := h.takes_attribute (hsound a List.mem_cons_self) first
    obtain ⟨s', hs', hmore⟩ :=
      ih hu (fun b hb => hsound b (List.mem_cons_of_mem _ hb)) (first + a.print.gaps)
    rw [← pushAll_append] at hs'
    exact ⟨s', hs', hfirst.append hmore⟩

/-! ## Closing -/

/-- After the slash that closes an element, only the end of the tag counts. -/
theorem part_closing (h : ∀ c ∈ cs, c ≠ '>' ∧ c ≠ '"' ∧ c ≠ '\'') (rest : List Char) (s : Scan) :
    part (cs ++ rest) (s.reading .slash []) = part rest (s.reading .slash []) := by
  induction cs with
  | nil => rfl
  | cons c more ih =>
    obtain ⟨hclose, hdouble, hsingle⟩ := h c List.mem_cons_self
    have hstep : ∀ following, (s.reading .slash []).step c following = s.reading .slash [] := by
      intro following
      simp [step, reading, stepTag, enterComment, hclose, hdouble, hsingle]
    rw [List.cons_append, part, hstep, ih fun c hc => h c (List.mem_cons_of_mem _ hc)]

/-- A closing tag ends the text before it and closes the element, whatever stands in it. -/
theorem takes_closing {tag : Tag} (htag : tag.IsSound) (closing : Closing) (first : Nat)
    (buffer : List Char) (s : Scan) :
    Takes (ofText "</" ++ closing.print tag ++ ofText ">") first (s.reading .text buffer)
      ((s.pushText buffer).close.reading .text []) := by
  have hbegin : Takes (ofText "</") first (s.reading .text buffer)
      ((s.pushText buffer).close.reading .slash []) :=
    takes_text (fun rest => by
      rw [show "</".toList ++ rest = '<' :: '/' :: rest from rfl, part, step_open, part, step_slash]) first
  -- whatever stands in the tag is passed over
  have hinside : ∀ (index : Nat) (u : Scan),
      Takes (closing.print tag) index (u.reading .slash []) (u.reading .slash []) := by
    intro index u
    cases closing with
    | tag =>
      cases tag with
      | named name =>
        refine takes_text (fun rest => part_closing (fun c hc => ?_) rest u) index
        have hbreak := htag.1.unbroken c hc
        simp only [breaks, List.mem_cons, not_or] at hbreak
        exact ⟨hbreak.2.2.2.2.2.2.2.2.1, hbreak.2.2.2.2.1, hbreak.2.2.2.2.2.1⟩
      | hole =>
        have hfield : (u.reading .slash []).field index = u.reading .slash [] := rfl
        exact hfield ▸ takes_gap index (u.reading .slash [])
      | empty => exact takes_nil index _
    | bare | void => exact takes_nil index _
    | slashes =>
      refine takes_text (fun rest => part_closing (fun c hc => ?_) rest u) index
      cases List.mem_singleton.mp hc
      decide
  have hend : ∀ (u : Scan) (f : Option Char), (u.reading .slash []).step '>' f = u.reading .text [] :=
    fun _ _ => rfl
  exact (hbegin.append (hinside _ _)).append (takes_char (hend _) _)

/-! ## Blueprints -/

@[simp] theorem next_pushAll (ops : List Op) (s : Scan) : (s.pushAll ops).next = s.next := by
  induction ops generalizing s with
  | nil => rfl
  | cons op rest ih => rw [pushAll_cons, ih, next_push]

/-- Blueprints are read as their instructions, and texts and elements that come after them as whatever
they are. -/
def Reads (blueprints : List Blueprint) : Prop :=
  ∀ (first : Nat) (buffer : List Char) (s : Scan),
    (buffer ≠ [] → ∀ next ∈ blueprints.head?, ¬ next.IsText) →
      ∃ (u : Scan) (left : List Char),
        Takes (Blueprint.printAll blueprints) first (s.reading .text buffer) (u.reading .text left) ∧
          u.pushText left = ((s.pushText buffer).pushAll (Blueprint.opsAll first s.next blueprints)).withNext
            (s.next + Blueprint.elementsAll blueprints)

theorem pushText_nil (s : Scan) : s.pushText [] = s := rfl

theorem reads_nil : Reads [] := fun _ buffer s _ => by
  refine ⟨s, buffer, takes_nil _ _, ?_⟩
  have hnext : (s.pushText buffer).next = s.next := next_pushAll _ s
  generalize s.pushText buffer = t at hnext ⊢
  rw [Blueprint.elementsAll, Nat.add_zero, ← hnext]
  rfl

/-- A text waits for what comes after it. -/
theorem Reads.text {content : String} {rest : List Blueprint} (h : Reads rest)
    (hsound : Blueprint.IsSoundAll (.text content :: rest)) : Reads (.text content :: rest) := by
  obtain ⟨⟨hnonempty, hopen, htrim⟩, -, hnext⟩ := hsound
  intro first buffer s hbuffer
  have hnil : buffer = [] := by
    by_contra hbuffered
    exact hbuffer hbuffered _ rfl trivial
  subst hnil
  obtain ⟨u, left, htakes, hpush⟩ := h first (content.toList.reverse ++ []) s fun _ => hnext trivial
  have hops : Op.ofText (String.ofList (content.toList.reverse ++ []).reverse) =
      [.child (.fixed (.str content))] := by
    rw [List.append_nil, List.reverse_reverse, String.ofList_toList, Op.ofText, Outline.child, htrim]
    exact congrArg _ (if_neg hnonempty)
  refine ⟨u, left, (takes_content hopen first [] s).followed htakes (by simp), ?_⟩
  rw [hpush, pushText, hops, ← pushAll_append, pushText_nil, Blueprint.opsAll, Blueprint.ops,
    Blueprint.elementsAll, Blueprint.elements, Blueprint.print, Print.gaps_ofText, Nat.add_zero,
    Nat.add_zero, Nat.zero_add]

/-- Anything else is read to its end. -/
theorem Reads.cons {blueprint : Blueprint} {rest : List Blueprint} (h : Reads rest)
    (hfirst : ∀ (first : Nat) (buffer : List Char) (s : Scan),
      Takes blueprint.print first (s.reading .text buffer)
        ((((s.pushText buffer).pushAll (blueprint.ops first s.next)).withNext
          (s.next + blueprint.elements)).reading .text [])) : Reads (blueprint :: rest) := by
  intro first buffer s _
  obtain ⟨u, left, htakes, hpush⟩ := h (first + blueprint.print.gaps) []
    (((s.pushText buffer).pushAll (blueprint.ops first s.next)).withNext
      (s.next + blueprint.elements)) fun hne => absurd rfl hne
  refine ⟨u, left, (hfirst first buffer s).append htakes, ?_⟩
  rw [hpush, pushText_nil, pushAll_withNext, withNext_withNext, ← pushAll_append, Blueprint.opsAll,
    Blueprint.elementsAll, ← Nat.add_assoc]
  rfl

/-- The instructions of an opening tag and of what is inside end up in the element, and the element in
what is around it. -/
theorem close_opened (ops inner : List Op) (count : Nat) (t : Scan) :
    (((t.openElement.pushAll ops).pushAll inner).withNext (t.next + 1 + count)).close =
      (t.push (.element t.next (ops ++ inner))).withNext (t.next + (count + 1)) := by
  rw [← pushAll_append, close_pushAll, Nat.add_right_comm, Nat.add_assoc]

theorem next_opened (ops : List Op) (t : Scan) : (t.openElement.pushAll ops).next = t.next + 1 :=
  next_pushAll ops t.openElement

/-- An element is read. -/
theorem takes_element {tag : Tag} {attributes : List Attribute} {children : List Blueprint}
    {closing : Closing} (h : (Blueprint.element tag attributes children closing).IsSound)
    (hchildren : Reads children) (first : Nat) (buffer : List Char) (s : Scan) :
    Takes (Blueprint.print (.element tag attributes children closing)) first (s.reading .text buffer)
      ((((s.pushText buffer).pushAll
        (Blueprint.ops first s.next (.element tag attributes children closing))).withNext
          (s.next + Blueprint.elements (.element tag attributes children closing))).reading .text []) := by
  obtain ⟨htag, hattributes, -, hvoid⟩ := h
  have hnext : (s.pushText buffer).next = s.next := next_pushAll _ s
  obtain ⟨v, hv, htakesTag⟩ := takes_tag htag first (s.pushText buffer).openElement
  obtain ⟨x, hx, htakesAttributes⟩ :=
    hv.takes_attributes hattributes (first + tag.print.gaps)
  rw [← pushAll_append] at hx
  -- the opening tag without its end
  have hopening : Takes (ofText "<" ++ tag.print ++ Attribute.printAll attributes) first
      (s.reading .text buffer) x := by
    have hbegin : Takes (ofText "<") first (s.reading .text buffer)
        ((s.pushText buffer).openElement.reading .tagName []) :=
      takes_char (fun f => step_open buffer f s) first
    exact (hbegin.followed htakesTag (by simp)).followed htakesAttributes (by simp)
  generalize s.pushText buffer = t at hx hnext ⊢
  rw [← hnext, Blueprint.print]
  by_cases hclosing : closing = .void
  · cases hvoid hclosing
    rw [if_pos hclosing]
    refine hopening.append (takes_text (fun rest => ?_) _)
    have hclose : (t.openElement.pushAll
        (tag.ops first ++ Attribute.opsAll (first + tag.print.gaps) attributes)).close =
          (t.push (.element t.next (tag.ops first ++
            Attribute.opsAll (first + tag.print.gaps) attributes ++ []))).withNext (t.next + 1) := by
      rw [← close_opened _ [] 0, Nat.add_zero, ← next_opened]
      rfl
    rw [part_void hx, hclose]
    rfl
  · rw [if_neg hclosing]
    obtain ⟨u, left, hinside, hpush⟩ := hchildren
      (first + tag.print.gaps + (Attribute.printAll attributes).gaps) [] _ fun hne => absurd rfl hne
    have hbracket : Takes (ofText ">")
        (first + (ofText "<" ++ tag.print ++ Attribute.printAll attributes).gaps) x _ :=
      takes_char hx.step_close _
    have hend := takes_closing htag closing (first + tag.print.gaps +
      (Attribute.printAll attributes).gaps + (Blueprint.printAll children).gaps) left u
    rw [hpush, next_opened, pushText_nil, close_opened] at hend
    have hall := (hbracket.followed hinside (by simp [Nat.add_assoc])).followed hend
      (by simp [Nat.add_assoc])
    exact hopening.append hall

/-- Blueprints are read one after the other. -/
theorem reads_blueprints : ∀ blueprints : List Blueprint, Blueprint.IsSoundAll blueprints →
    Reads blueprints
  | [], _ => reads_nil
  | .text _ :: rest, h => (reads_blueprints rest h.2.1).text h
  | .comment _ :: rest, h => (reads_blueprints rest h.2.1).cons fun first buffer s => by
    have hnext : (s.pushText buffer).next = s.next := next_pushAll _ s
    have hcomment := takes_comment h.1 first buffer s
    generalize s.pushText buffer = t at hnext hcomment ⊢
    rw [Blueprint.elements, Nat.add_zero, ← hnext]
    exact hcomment
  | .hole :: rest, h => (reads_blueprints rest h.2.1).cons fun first buffer s => by
    have hnext : (s.pushText buffer).next = s.next := next_pushAll _ s
    have hhole := takes_hole first buffer s
    generalize s.pushText buffer = t at hnext hhole ⊢
    rw [Blueprint.elements, Nat.add_zero, ← hnext, ← next_push (.child (.field first)) t]
    exact hhole
  | .element _ _ children _ :: rest, h =>
    (reads_blueprints rest h.2.1).cons (takes_element h.1 (reads_blueprints children h.1.2.2.1))

end Scan

namespace Blueprint

/-- **What is printed is compiled** to its instructions. -/
theorem compile_parts {blueprints : List Blueprint} (h : IsSoundAll blueprints) :
    Template.compile (parts blueprints) =
      { root := opsAll 0 1 blueprints, fields := (printAll blueprints).gaps } := by
  obtain ⟨u, left, htakes, hpush⟩ :=
    Scan.reads_blueprints blueprints h 0 [] {} fun hne => absurd rfl hne
  have hread := htakes []
  rw [List.append_nil] at hread
  have hparts : Scan.parts (parts blueprints) {} = u.reading .text left :=
    (Scan.parts_eq_read _ _).trans hread
  have hroot : (Scan.parts (parts blueprints) {}).finish.root =
      (opsAll 0 1 blueprints).reverse ++ [] := by
    rw [hparts, Scan.finish, Scan.commit_text, hpush, Scan.pushText_nil, Scan.pushAll_root rfl]
    rfl
  rw [Template.compile, hroot, List.append_nil, List.reverse_reverse, parts, Print.length_parts,
    Nat.add_sub_cancel]

end Blueprint

end TaggedMarkup
