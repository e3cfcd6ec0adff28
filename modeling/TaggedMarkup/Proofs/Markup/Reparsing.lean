import TaggedMarkup.Proofs.Markup.Reading
import TaggedMarkup.Proofs.Markup.Windows

/-!
# What is rendered can be read back

Rendered markup, taken for the only part of a template, gives the structure back that was rendered: no
text, value or name in it can open, close or change a tag.

The proof follows the outline of the value. Each piece of it that is written is read as instructions, and
those instructions build the children that the normal form states.
-/

namespace TaggedMarkup

/-! ## Reading an outline -/

namespace Scan

/-- The scan with another number for the next element. -/
def withNext (next : Nat) (s : Scan) : Scan := { s with next }

theorem withNext_self (s : Scan) : s.withNext s.next = s := rfl

theorem withNext_withNext (next last : Nat) (s : Scan) :
    (s.withNext next).withNext last = s.withNext last := rfl

theorem pushAll_cons (op : Op) (ops : List Op) (s : Scan) :
    s.pushAll (op :: ops) = (s.push op).pushAll ops := rfl

theorem pushAll_withNext (ops : List Op) (next : Nat) (s : Scan) :
    (s.withNext next).pushAll ops = (s.pushAll ops).withNext next := by
  induction ops generalizing s with
  | nil => rfl
  | cons op rest ih =>
    have hpush : (s.withNext next).push op = (s.push op).withNext next := by
      unfold push withNext
      cases s.frames <;> rfl
    rw [pushAll_cons, hpush]
    exact ih (s.push op)

/-- The instructions of an element that is open end up in it, whatever number comes next. -/
theorem close_pushAll (ops : List Op) (next : Nat) (s : Scan) :
    ((s.openElement.pushAll ops).withNext next).close =
      (s.push (.element s.next ops)).withNext next := by
  have hframe : ∀ (acc : List Op), pushAll ops
      { s.openElement with frames := ⟨s.next, acc⟩ :: s.frames } =
        { s.openElement with frames := ⟨s.next, ops.reverse ++ acc⟩ :: s.frames } := by
    induction ops with
    | nil => exact fun _ => rfl
    | cons op rest ih =>
      intro acc
      rw [List.reverse_cons, List.append_assoc, List.singleton_append]
      exact ih (op :: acc)
  have hopen : s.openElement.pushAll ops =
      { s.openElement with frames := ⟨s.next, ops.reverse⟩ :: s.frames } := by
    have hall := hframe []
    rw [List.append_nil] at hall
    exact hall
  rw [hopen]
  unfold close push withNext
  dsimp only [openElement]
  rw [List.reverse_reverse]
  cases s.frames <;> rfl

end Scan

namespace Outline

mutual

/-- No text of the outline could be taken for a tag. -/
def IsClean : Outline → Prop
  | .text content => content.toList.all isTextual = true
  | tag _ _ children => IsCleanAll children
  | broken | live => True

def IsCleanAll : List Outline → Prop
  | [] => True
  | piece :: rest => IsClean piece ∧ IsCleanAll rest

end

/-- Void tags are tags. -/
theorem isTag_of_isVoid {name : String} (h : Name.isVoid name = true) :
    Name.isTag (Case.lowered name) = true := by
  have hall : ∀ tag ∈ Name.voidTags, Name.isTag (Case.lowered tag) = true := by decide
  exact hall name (of_decide_eq_true h)

theorem isCleanAll_append {outline more : List Outline} (h : IsCleanAll outline)
    (hmore : IsCleanAll more) : IsCleanAll (outline ++ more) := by
  induction outline with
  | nil => exact hmore
  | cons piece rest ih => exact ⟨h.1, ih h.2⟩

end Outline

namespace Scan

/-- After any text, these characters are read as an outline: the instructions that come of them build
what is read back from it. -/
def ReadAs (cs : List Char) (outline : List Outline) : Prop :=
  ∀ (s : Scan) (buffer : List Char), ∃ (u : Scan) (left : List Char) (ops : List Op) (next : Nat),
    (∀ rest, part (cs ++ rest) (s.reading .text buffer) = part rest (u.reading .text left)) ∧
      u.pushText left = (s.pushAll ops).withNext next ∧
        Op.Build ops (Outline.readAfter (String.ofList buffer.reverse) outline)

variable {as bs : List Char} {rest : List Outline}

theorem readAs_nil : ReadAs [] [] := by
  intro s buffer
  refine ⟨s, buffer, Op.ofText (String.ofList buffer.reverse), (s.pushText buffer).next, fun _ => rfl,
    (withNext_self _).symm, ?_⟩
  rw [Outline.readAfter]
  exact Op.build_ofText _

theorem ReadAs.text (h : ReadAs bs rest) {content : String}
    (hcontent : content.toList.all isTextual = true) :
    ReadAs (content.toList ++ bs) (.text content :: rest) := by
  intro s buffer
  have hopens : ∀ c ∈ content.toList, c ≠ '<' := by
    intro c hc
    have htextual := List.all_eq_true.mp hcontent c hc
    unfold isTextual at htextual
    exact bne_iff_ne.mp (Bool.and_eq_true_iff.mp htextual).1
  obtain ⟨u, left, ops, next, hread, hpush, hbuild⟩ := h s (content.toList.reverse ++ buffer)
  refine ⟨u, left, ops, next, fun more => ?_, hpush, ?_⟩
  · rw [List.append_assoc, part_text hopens, hread]
  · rw [List.reverse_append, List.reverse_reverse, String.ofList_append, String.ofList_toList] at hbuild
    rw [Outline.readAfter]
    exact hbuild

/-- An element that is read to its end, whatever the text before it, and what is read after it. -/
theorem ReadAs.element (h : ReadAs bs rest) {name : String} {props : Props} {children : List Outline}
    (hread : ∀ (s : Scan) (buffer : List Char), ∃ (block : Nat) (body : List Op) (next : Nat),
      (∀ more, part (as ++ more) (s.reading .text buffer) = part more
        ((((s.pushText buffer).push (.element block body)).withNext next).reading .text [])) ∧
        Op.Build [.element block body] (Outline.readPiece (.tag name props children))) :
    ReadAs (as ++ bs) (.tag name props children :: rest) := by
  intro s buffer
  obtain ⟨block, body, next, helement, hbuilt⟩ := hread s buffer
  obtain ⟨u, left, ops, last, hrest, hpush, hbuild⟩ :=
    h (((s.pushText buffer).push (.element block body)).withNext next) []
  refine ⟨u, left, Op.ofText (String.ofList buffer.reverse) ++ .element block body :: ops, last, fun more => ?_, ?_, ?_⟩
  · rw [List.append_assoc, helement, hrest]
  · rw [hpush, pushAll_withNext, withNext_withNext, pushAll_append, pushAll_cons]
    rfl
  · have hall := ((Op.build_ofText (String.ofList buffer.reverse)).append hbuilt).append hbuild
    rw [List.append_assoc] at hall
    rw [Outline.readAfter]
    · exact hall
    · rintro _ ⟨⟩

/-- The opening of a tag is read up to its last prop. -/
theorem opens_element {name : String} {props : Props} {cs ps : List Char}
    (hname : Name.isTag name = true) (hcs : Writing.text ("<" ++ name).toList = .text cs)
    (hps : Outline.writingOfProps props = .text ps) (s : Scan) (buffer : List Char) :
    ∃ s' : Scan, s'.Opens ((s.pushText buffer).openElement.pushAll
        (.tag (.fixed (.str name)) :: Op.ofProps props)) ∧
      ∀ more, part (cs ++ ps ++ more) (s.reading .text buffer) = part more s' := by
  obtain rfl := Writing.text.inj hcs
  obtain ⟨u, hu, hopen⟩ := opens_tag hname buffer s
  obtain ⟨s', hs', hprops⟩ := opens_props hu hps
  refine ⟨s', ?_, fun more => ?_⟩
  · rw [pushAll_cons]
    exact hs'
  · rw [List.append_assoc, hopen, hprops]

theorem ReadAs.tag (h : ReadAs bs rest) {name : String} {props : Props} {children : List Outline}
    (htag : (Outline.tag name props children).writing = .text as)
    (hchildren : ∀ cs, Outline.writingAll children = .text cs → ReadAs cs children) :
    ReadAs (as ++ bs) (.tag name props children :: rest) := by
  rw [Outline.writing] at htag
  have hnonempty : Name.isTag (Case.lowered name) = true → Case.lowered name ≠ "" := by
    intro hname hempty
    exact (Name.notMem_marks_of_isTag hname).1 (hempty ▸ String.toList_empty)
  by_cases hvoid : Name.isVoid name = true
  · have hname := Outline.isTag_of_isVoid hvoid
    rw [if_pos hvoid] at htag
    obtain ⟨os, es, hopening, hend, rfl⟩ := Writing.append_eq_text htag
    obtain ⟨cs, ps, hcs, hps, rfl⟩ := Writing.append_eq_text hopening
    cases hend
    refine h.element fun s buffer => ?_
    obtain ⟨s', hs', hread⟩ := opens_element hname hcs hps s buffer
    refine ⟨(s.pushText buffer).next, .tag (.fixed (.str (Case.lowered name))) :: Op.ofProps props,
      ((s.pushText buffer).openElement.pushAll
        (.tag (.fixed (.str (Case.lowered name))) :: Op.ofProps props)).next, fun more => ?_, ?_⟩
    · rw [List.append_assoc, hread, part_void hs', ← close_pushAll, withNext_self]
    · rw [Outline.readPiece, if_pos hvoid]
      have hbuild := Op.build_element (s.pushText buffer).next (hnonempty hname) props Op.build_nil
      rw [List.append_nil] at hbuild
      exact hbuild
  · rw [if_neg hvoid] at htag
    by_cases hname : Name.isTag (Case.lowered name) = true
    · rw [if_pos hname] at htag
      obtain ⟨os, es, hopening, hend, rfl⟩ := Writing.append_eq_text htag
      obtain ⟨cs, ps, hcs, hps, rfl⟩ := Writing.append_eq_text hopening
      obtain ⟨gs, is, hbracket, hinner, rfl⟩ := Writing.append_eq_text hend
      obtain ⟨ks, ls, hks, hclosing, rfl⟩ := Writing.append_eq_text hinner
      cases hbracket
      cases hclosing
      refine h.element fun s buffer => ?_
      obtain ⟨s', hs', hread⟩ := opens_element hname hcs hps s buffer
      obtain ⟨u, left, ops, next, hinside, hpush, hbuild⟩ := hchildren ks hks
        ((s.pushText buffer).openElement.pushAll
          (.tag (.fixed (.str (Case.lowered name))) :: Op.ofProps props)) []
      refine ⟨(s.pushText buffer).next,
        .tag (.fixed (.str (Case.lowered name))) :: Op.ofProps props ++ ops, next, fun more => ?_, ?_⟩
      · have hbracket : ∀ rest, part (">".toList ++ rest) s' =
            part rest (((s.pushText buffer).openElement.pushAll
              (.tag (.fixed (.str (Case.lowered name))) :: Op.ofProps props)).reading .text []) := by
          intro rest
          rw [show ">".toList = ['>'] from rfl, List.singleton_append, part, hs'.step_close]
        rw [List.append_assoc, hread, List.append_assoc, hbracket, List.append_assoc, hinside,
          part_close hname, hpush, ← pushAll_append, close_pushAll]
      · rw [Outline.readPiece, if_neg hvoid]
        exact Op.build_element (s.pushText buffer).next (hnonempty hname) props hbuild
    · rw [if_neg hname] at htag
      cases htag

/-- What is written for an outline is read as that outline. -/
theorem readAs_outline : ∀ (outline : List Outline) (cs : List Char), Outline.IsCleanAll outline →
    Outline.writingAll outline = .text cs → ReadAs cs outline
  | [], cs, _, hcs => by
    cases hcs
    exact readAs_nil
  | .text content :: rest, cs, hclean, hcs => by
    obtain ⟨as, bs, has, hbs, rfl⟩ := Writing.append_eq_text hcs
    cases has
    exact (readAs_outline rest bs hclean.2 hbs).text hclean.1
  | .tag name props children :: rest, cs, hclean, hcs => by
    obtain ⟨as, bs, has, hbs, rfl⟩ := Writing.append_eq_text hcs
    exact (readAs_outline rest bs hclean.2 hbs).tag has
      fun ks hks => readAs_outline children ks hclean.1 hks
  | .broken :: rest, cs, _, hcs => by
    obtain ⟨as, bs, has, -, -⟩ := Writing.append_eq_text hcs
    cases has
  | .live :: rest, cs, _, hcs => by
    obtain ⟨as, bs, has, -, -⟩ := Writing.append_eq_text hcs
    cases has

end Scan

/-! ## Outlines of values -/

namespace Value

theorem isClean_outlineOf (type : ElementType) (props : Props) {children : List Outline}
    (h : Outline.IsCleanAll children) :
    Outline.IsCleanAll (Element.outlineOf type props children) := by
  unfold Element.outlineOf
  split
  · exact ⟨h, trivial⟩
  · exact h
  · exact ⟨trivial, trivial⟩
  · exact ⟨trivial, trivial⟩
  · exact ⟨trivial, trivial⟩

mutual

/-- No text of a value's outline could be taken for a tag. -/
theorem isClean_outline : ∀ value : Value, Outline.IsCleanAll value.outline
  | undefined | null => trivial
  | str text => ⟨Escape.isTextual_text text, trivial⟩
  | number d => ⟨d.isTextual_text, trivial⟩
  | list members => isClean_outlineAll members
  | element ⟨_, type, props, children, _⟩ => isClean_outlineOf type props (isClean_outlineAll children)
  | object entries => by
    rw [outline]
    split
    · exact isClean_outlineOf _ _ (isClean_outlineAt "children" entries)
    · exact ⟨trivial, trivial⟩
  | bool _ | component _ | sequence _ | pending _ => ⟨trivial, trivial⟩

theorem isClean_outlineAll : ∀ values : List Value, Outline.IsCleanAll (outlineAll values)
  | [] => trivial
  | value :: rest =>
    Outline.isCleanAll_append (isClean_outline value) (isClean_outlineAll rest)

theorem isClean_outlineAt (key : String) :
    ∀ entries : List (String × Value), Outline.IsCleanAll (outlineAt key entries)
  | [] => trivial
  | (k, value) :: rest => by
    rw [outlineAt]
    split
    · exact isClean_outline value
    · exact isClean_outlineAt key rest

end

end Value

/-! ## Reading back -/

/-- Outside every element instructions go to the root. -/
theorem Scan.pushAll_root {s : Scan} (h : s.frames = []) (ops : List Op) :
    s.pushAll ops = { s with root := ops.reverse ++ s.root } := by
  induction ops generalizing s with
  | nil => rfl
  | cons op rest ih =>
    have hpush : s.push op = { s with root := op :: s.root } := by
      unfold push
      rw [h]
    have hrest := ih (s := { s with root := op :: s.root }) h
    rw [pushAll_cons, hpush, hrest, List.reverse_cons, List.append_assoc, List.singleton_append]

/-- What is written for an outline, as the only part of a template, evaluates to what is read back from
it. -/
theorem Template.evaluate_outline {outline : List Outline} {text : String}
    (hclean : Outline.IsCleanAll outline) (hwriting : Outline.writingAll outline = .text text.toList)
    (s : Setting Bench) (hfactory : s.factory = Factory.element) (hfold : s.fold = false)
    (host : Bench) : (s.evaluate (compile [text]) [] host).1.plain =
      Setting.ofRoots (Outline.readAfter "" outline) := by
  obtain ⟨u, left, ops, next, hread, hpush, hbuild⟩ :=
    Scan.readAs_outline outline text.toList hclean hwriting {} []
  have hroot : (compile [text]).root = ops := by
    have hpart := hread []
    rw [List.append_nil] at hpart
    have hparts : Scan.parts [text] {} = u.reading .text left := hpart
    have hfinish : (Scan.parts [text] {}).finish.root = ops.reverse ++ [] := by
      rw [hparts, Scan.finish, Scan.commit_text, hpush, Scan.pushAll_root rfl]
      rfl
    rw [compile, hfinish, List.append_nil, List.reverse_reverse]
  obtain ⟨built, q, hrun, -, hplain⟩ := hbuild s hfactory hfold .root { folds := [], host } rfl
  rw [Setting.evaluate, hroot, hrun, Setting.plain_ofRoots]
  exact congrArg Setting.ofRoots hplain

/-- **What is rendered can be read back.** If a value in which nothing is called, awaited or drawn is
rendered into a text, with any number of members rendered ahead, then that text as the only part of a
template, evaluated with plain elements, gives the normal form of the value. -/
theorem Template.evaluate_rendered {value : Value} (hstill : value.isStill = true) {fuel : Nat}
    {config : RenderConfig} {w v : World} {text : String}
    (h : Render.toText fuel config value w = some (.ok text, v)) (template : Nat) (fold : Bool)
    (values : List Value) (host : Bench) :
    ((Setting.mk template Factory.element fold values).evaluate (compile [text]) [] host).1.plain =
      value.normalForm := by
  have hwriting := Render.writing_of_toText (Value.writing_rootOutline_ne_unknown hstill) h
  rw [Value.rootOutline_of_writing hwriting] at hwriting
  have hafresh : (Setting.mk template Factory.element false values).Afresh
      (Setting.mk template Factory.element fold values) := ⟨rfl, rfl, rfl⟩
  -- folding does not show, so the values may as well be built afresh
  rw [(Setting.evaluate_folding Factory.element_isPure hafresh (nodup_numbers_compile [text])
    (Setting.foldsSound_nil _ _) host host).1]
  exact evaluate_outline value.isClean_outline hwriting _ rfl rfl host

/-- A text and the value of a prop that look like markup, next to things that are left out. -/
def hostile : Value :=
  .list [.str "\n a<b ", .element ⟨4, .tag "DIV",
    [("title", .str "\"><i>"), ("hidden", .bool true), ("id", .null)],
    [.list [.str "</div>", .number .zero], .element ⟨5, .tag "br", [], [.str "x"], false⟩], false⟩]

/-- Its markup. -/
def harmless : String :=
  "\n a&lt;b <div title=\"&quot;&gt;&lt;i&gt;\" hidden>&lt;/div&gt;0<br /></div>"

theorem Template.evaluate_rendered_hostile :
    ∃ w : World, Render.toText 60 { concurrency := 2 } hostile {} = some (.ok harmless, w) ∧
      ((Setting.mk 0 Factory.element true []).evaluate (compile [harmless]) [] {}).1.plain =
        hostile.normalForm := by
  have htext : ((Render.toText 60 { concurrency := 2 } hostile {}).map (·.1)).bind Except.toOption =
      some harmless := by decide +kernel
  obtain ⟨outcome, hmap, hok⟩ := Option.bind_eq_some_iff.mp htext
  obtain ⟨⟨outcome, w⟩, hrender, rfl⟩ := Option.map_eq_some_iff.mp hmap
  cases outcome with
  | error => cases hok
  | ok text =>
    cases hok
    exact ⟨w, hrender, evaluate_rendered rfl hrender 0 true [] {}⟩

end TaggedMarkup
