import TaggedMarkup.Proofs.Markup.Outline
import TaggedMarkup.Render.Lineup

/-!
# What a render comes to write

As long as nothing is called, awaited or drawn, what is left to do of a render tells what it **comes
to write**: some text, or a failure somewhere. No step changes that. It does not depend on how many
members are rendered ahead, because a list in work holds its members in order.
-/

namespace TaggedMarkup

/-- What pieces of work come to write. -/
inductive Writing where
  | text (cs : List Char)
  /-- some piece fails -/
  | failure
  /-- something is called, awaited or drawn -/
  | unknown
  deriving DecidableEq

namespace Writing

/-- One piece after the other. -/
protected def append : Writing → Writing → Writing
  | text cs, text ds => text (cs ++ ds)
  | unknown, _ | _, unknown => unknown
  | _, _ => failure

instance : Append Writing := ⟨Writing.append⟩

theorem text_append_text (cs ds : List Char) : text cs ++ text ds = text (cs ++ ds) := rfl

@[simp] theorem nil_append (a : Writing) : text [] ++ a = a := by cases a <;> rfl

@[simp] theorem append_nil (a : Writing) : a ++ text [] = a := by
  cases a with
  | text cs => rw [text_append_text, List.append_nil]
  | _ => rfl

theorem append_assoc (a b c : Writing) : a ++ b ++ c = a ++ (b ++ c) := by
  cases a with
  | text as =>
    cases b with
    | text bs =>
      cases c with
      | text cs => simp only [text_append_text, List.append_assoc]
      | _ => rfl
    | _ => cases c <;> rfl
  | _ => cases b <;> cases c <;> rfl

theorem append_ne_unknown {a b : Writing} :
    a ++ b ≠ unknown ↔ a ≠ unknown ∧ b ≠ unknown := by
  refine ⟨fun h => ⟨?_, ?_⟩, fun h happend => ?_⟩
  · rintro rfl
    exact h (by cases b <;> rfl)
  · rintro rfl
    exact h (by cases a <;> rfl)
  · cases a <;> cases b <;> first | exact h.1 rfl | exact h.2 rfl | cases happend

theorem failure_append {a : Writing} (h : a ≠ unknown) : failure ++ a = failure := by
  cases a with
  | unknown => exact absurd rfl h
  | _ => rfl

/-- Text is only written out of texts. -/
theorem append_eq_text {a b : Writing} {cs : List Char} (h : a ++ b = text cs) :
    ∃ as bs, a = text as ∧ b = text bs ∧ cs = as ++ bs := by
  cases a with
  | text as =>
    cases b with
    | text bs =>
      cases h
      exact ⟨as, bs, rfl, rfl, rfl⟩
    | _ => cases h
  | _ => cases b <;> cases h

end Writing

/-! ## Outlines -/

namespace Outline

/-- What is written for a prop. -/
def writingOfProp (name : String) (value : Value) : Writing :=
  if Render.isSkipped value then .text []
  else if !Name.isAttribute name then .failure
  else match Render.attributeText? name value with
    | some shown => .text shown.toList
    | none => .text []

def writingOfProps : Props → Writing
  | [] => .text []
  | (name, value) :: rest => writingOfProp name value ++ writingOfProps rest

mutual

/-- What is written for a piece of an outline. -/
def writing : Outline → Writing
  | .text content => .text content.toList
  | tag name props children =>
    let opening := .text ("<" ++ Case.lowered name).toList ++ writingOfProps props
    if Name.isVoid name then
      opening ++ .text " />".toList
    else if Name.isTag (Case.lowered name) then
      opening ++ (.text ">".toList ++ (writingAll children ++
        .text ("</" ++ Case.lowered name ++ ">").toList))
    else
      .failure
  | broken => .failure
  | live => .unknown

/-- What is written for an outline. -/
def writingAll : List Outline → Writing
  | [] => .text []
  | piece :: rest => writing piece ++ writingAll rest

end

theorem writingAll_append (outline more : List Outline) :
    writingAll (outline ++ more) = writingAll outline ++ writingAll more := by
  induction outline with
  | nil => rw [writingAll, Writing.nil_append, List.nil_append]
  | cons piece rest ih => rw [List.cons_append, writingAll, writingAll, ih, Writing.append_assoc]

end Outline

namespace Value

mutual

/-- The outline of a value by the rules for roots. -/
def rootOutline : Value → List Outline
  | list members => rootOutlineAll members
  | value =>
    if value.isFalsy then [.broken]
    else match value with
      | str _ | object _ | element _ | sequence _ | pending _ => value.outline
      | _ => [.broken]

def rootOutlineAll : List Value → List Outline
  | [] => []
  | value :: rest => rootOutline value ++ rootOutlineAll rest

end

end Value

/-! ## Work -/

/-- What is written for what has not been drawn. -/
def Feed.writing (f : Feed) : Writing := Outline.writingAll (Value.outlineAll f.held)

mutual

/-- What a piece of work comes to write. -/
def Work.writing : Work → Writing
  | .emit text => .text text.toList
  | .fail _ => .failure
  | .note _ => .text []
  | .root value | .settled value => Outline.writingAll value.rootOutline
  | .item value => Outline.writingAll value.outline
  | .await _ _ _ => .unknown
  | .prop name value => Outline.writingOfProp name value
  | .children e => Outline.writingAll (Value.outlineAll e.children)
  | .draw feed => feed.writing
  | .ahead lineup => Member.writingAll lineup.members ++ lineup.feed.writing

/-- What a stack comes to write. -/
def Work.writingAll : List Work → Writing
  | [] => .text []
  | work :: rest => work.writing ++ Work.writingAll rest

/-- What a member comes to write, with the fragments it has. -/
def Member.writing : Member → Writing
  | .running _ fragments stack =>
    .text (fragments.reverse.flatMap String.toList) ++ Work.writingAll stack
  | .finished fragments => .text (fragments.flatMap String.toList)
  | .failed _ => .failure

/-- What members come to write. -/
def Member.writingAll : List Member → Writing
  | [] => .text []
  | member :: rest => member.writing ++ Member.writingAll rest

end

theorem Work.writingAll_append (stack more : List Work) :
    Work.writingAll (stack ++ more) = Work.writingAll stack ++ Work.writingAll more := by
  induction stack with
  | nil => rw [Work.writingAll, Writing.nil_append, List.nil_append]
  | cons work rest ih =>
    rw [List.cons_append, Work.writingAll, Work.writingAll, ih, Writing.append_assoc]

theorem Member.writingAll_append (members more : List Member) :
    Member.writingAll (members ++ more) = Member.writingAll members ++ Member.writingAll more := by
  induction members with
  | nil => rw [Member.writingAll, Writing.nil_append, List.nil_append]
  | cons member rest ih =>
    rw [List.cons_append, Member.writingAll, Member.writingAll, ih, Writing.append_assoc]

theorem Work.writingAll_emit (fragments : List String) :
    Work.writingAll (fragments.map .emit) = .text (fragments.flatMap String.toList) := by
  induction fragments with
  | nil => rfl
  | cons fragment rest ih =>
    rw [List.map_cons, Work.writingAll, Work.writing, ih, Writing.text_append_text,
      List.flatMap_cons]

/-! ## Steps -/

theorem Work.writingAll_items (values : List Value) :
    Work.writingAll (values.map .item) = Outline.writingAll (Value.outlineAll values) := by
  induction values with
  | nil => rfl
  | cons value rest ih =>
    rw [List.map_cons, Work.writingAll, Work.writing, ih, Value.outlineAll,
      Outline.writingAll_append]

theorem Work.writingAll_roots (values : List Value) :
    Work.writingAll (values.map .root) = Outline.writingAll (Value.rootOutlineAll values) := by
  induction values with
  | nil => rfl
  | cons value rest ih =>
    rw [List.map_cons, Work.writingAll, Work.writing, ih, Value.rootOutlineAll,
      Outline.writingAll_append]

theorem Work.writingAll_props (props : Props) :
    Work.writingAll (props.map fun p => .prop p.1 p.2) = Outline.writingOfProps props := by
  induction props with
  | nil => rfl
  | cons p rest ih => rw [List.map_cons, Work.writingAll, Work.writing, ih, Outline.writingOfProps]

@[simp] theorem Work.writingAll_singleton (work : Work) :
    Work.writingAll [work] = work.writing := by
  rw [Work.writingAll, Work.writingAll, Writing.append_nil]

theorem Feed.writing_ofList (values : List Value) :
    (Feed.ofList values).writing = Outline.writingAll (Value.outlineAll values) := by
  have hheld : (Feed.ofList values).held = values := by
    rw [Feed.held, Feed.ofList, List.map_map]
    exact List.map_id _
  rw [Feed.writing, hheld]

namespace Render

variable (w : World)

theorem writing_members (ahead task : Nat) (values kept : List Value) :
    Work.writingAll (members ahead task values kept w).1 =
      Outline.writingAll (Value.outlineAll values) := by
  unfold members
  split
  · exact Work.writingAll_items values
  · rw [feed, if_neg ‹_›, Work.writingAll_singleton, Work.writing, Member.writingAll,
      Writing.nil_append, Feed.writing_ofList]

theorem writing_prop (name : String) (value : Value) :
    Work.writingAll (prop name value w).1 = Outline.writingOfProp name value := by
  unfold prop Outline.writingOfProp
  split
  · rfl
  · split
    · rfl
    · cases attributeText? name value with
      | none => rfl
      | some shown => exact Work.writingAll_singleton _

theorem writing_tag (name : String) (e : Element) : Work.writingAll (tag name e) =
    (Outline.tag name e.props (Value.outlineAll e.children)).writing := by
  unfold tag Outline.writing
  dsimp only
  split
  · rw [List.cons_append, Work.writingAll, Work.writingAll_append, Work.writingAll_props,
      Work.writingAll_singleton, Work.writing, Work.writing, Writing.append_assoc]
  · split
    · rw [List.cons_append, Work.writingAll, Work.writingAll_append, Work.writingAll_props]
      simp only [Work.writingAll, Work.writing, Writing.append_nil, Writing.append_assoc]
    · rfl

/-- An element comes to write its outline, unless a component is called. -/
theorem writing_element (e : Element)
    (h : Outline.writingAll (Value.element e).outline ≠ .unknown) :
    Work.writingAll (element e w).1 = Outline.writingAll (Value.element e).outline := by
  obtain ⟨stamp, type, props, children, raw⟩ := e
  cases type with
  | missing | invalid =>
    simp only [element, Value.outline, Element.outlineOf, Outline.writingAll, Outline.writing,
      Work.writingAll, Work.writing]
  | fragment =>
    simp only [element, Work.writingAll_singleton, Work.writing, Value.outline, Element.outlineOf]
  | tag name =>
    simp only [element, writing_tag, Value.outline, Element.outlineOf, Outline.writingAll,
      Writing.append_nil]
  | component c => exact absurd rfl h

theorem writing_item (ahead task : Nat) (value : Value)
    (h : Outline.writingAll value.outline ≠ .unknown) :
    Work.writingAll (item ahead task value w).1 = Outline.writingAll value.outline := by
  cases value with
  | undefined | null | bool | component => rfl
  | number d =>
    simp only [item, Work.writingAll_singleton, Work.writing, Value.outline, Outline.writingAll,
      Outline.writing, Writing.append_nil]
  | str text =>
    simp only [item, Work.writingAll_singleton, Work.writing, Value.outline, Outline.writingAll,
      Outline.writing, Writing.append_nil]
  | list values => exact writing_members w ahead task values []
  | sequence cell => exact absurd rfl h
  | pending cell => exact absurd rfl h
  | element e => exact writing_element w e h
  | object entries =>
    rw [item]
    by_cases htype : Entries.contains "type" entries = true
    · rw [if_pos htype]
      rw [Value.outline_object htype] at h ⊢
      exact writing_element w _ h
    · rw [if_neg htype, Value.outline, if_neg htype]
      rfl

theorem writing_root (value : Value) :
    Work.writingAll (root value) = Outline.writingAll value.rootOutline := by
  cases value with
  | list members => exact Work.writingAll_roots members
  | undefined => rfl
  | _ =>
    unfold root Value.rootOutline
    dsimp only
    split
    · rfl
    · first | rfl | exact Work.writingAll_singleton _

end Render

/-- What waits or comes next writes what the piece of work does. -/
def Progress.writing : Progress → Writing
  | .next works => Work.writingAll works
  | .wait work => work.writing

/-- What is drawn is the first of what was to be written. -/
theorem Feed.writing_draw (task : Nat) (f : Feed) (w : World) :
    match f.draw task w with
    | (.member value, feed, _) => f.writing = Outline.writingAll value.outline ++ feed.writing
    | (.notYet, feed, _) => f.writing = feed.writing
    | (.exhausted, feed, _) => f.writing = .text [] ∧ feed = f := by
  obtain ⟨origin, index, members, deadline⟩ := f
  cases members with
  | nil => exact ⟨rfl, rfl⟩
  | cons member rest =>
    obtain ⟨delay, value⟩ := member
    have hmember : Feed.writing ⟨origin, index, (delay, value) :: rest, deadline⟩ =
        Outline.writingAll value.outline ++ Feed.writing ⟨origin, index + 1, rest, none⟩ :=
      Outline.writingAll_append ..
    unfold Feed.draw
    dsimp only
    cases deadline with
    | some deadline =>
      by_cases hready : deadline ≤ w.clock
      · simp only [if_pos hready, hmember]
      · simp only [if_neg hready]
    | none =>
      by_cases hready : delay = 0
      · simp only [if_pos hready, hmember]
      · simp only [if_neg hready]
        rfl

/-- A step does not change what is written, whatever the world is like. -/
theorem Work.writing_step (ahead task : Nat) {work : Work} (h : work.writing ≠ .unknown) (w : World) :
    (work.step ahead task w).1.writing = work.writing := by
  cases work with
  | root value =>
    cases value with
    | pending cell => exact absurd rfl h
    | _ => exact Work.writingAll_singleton _
  | settled value => exact Render.writing_root value
  | item value => exact Render.writing_item w ahead task value h
  | await cell seat resumption => exact absurd rfl h
  | prop name value => exact Render.writing_prop w name value
  | children e => exact Render.writing_members w ahead task e.children [.element e]
  | draw feed =>
    have hdraw := feed.writing_draw task w
    rw [Work.writing, Work.step]
    split <;> rename_i heq <;> rw [heq] at hdraw
    · rw [hdraw, Progress.writing, Work.writingAll, Work.writingAll_singleton, Work.writing,
        Work.writing]
    · exact hdraw.symm
    · exact hdraw.1.symm
  | note | emit | fail | ahead => rfl

/-! ## What is still -/

namespace Value

/-- Where the rules for roots do not make a render fail, they are the rules for items. -/
theorem rootOutline_of_not_isList {value : Value} {cs : List Char}
    (h : Outline.writingAll value.rootOutline = .text cs) (hlist : value.isList = false) :
    value.rootOutline = value.outline := by
  have hsplit : value.rootOutline = [.broken] ∨ value.rootOutline = value.outline := by
    cases value with
    | list => cases hlist
    | _ =>
      unfold rootOutline
      dsimp only
      split
      · exact .inl rfl
      · first | exact .inl rfl | exact .inr rfl
  rcases hsplit with hbroken | hsame
  · rw [hbroken] at h
    cases h
  · exact hsame

mutual

theorem rootOutline_of_writing : ∀ {value : Value} {cs : List Char},
    Outline.writingAll value.rootOutline = .text cs → value.rootOutline = value.outline
  | list _, _, h => rootOutlineAll_of_writing h
  | undefined, _, h | null, _, h | bool _, _, h | number _, _, h | str _, _, h | sequence _, _, h
  | pending _, _, h | element _, _, h | component _, _, h | object _, _, h =>
    rootOutline_of_not_isList h rfl

theorem rootOutlineAll_of_writing : ∀ {values : List Value} {cs : List Char},
    Outline.writingAll (rootOutlineAll values) = .text cs → rootOutlineAll values = outlineAll values
  | [], _, _ => rfl
  | value :: rest, _, h => by
    rw [rootOutlineAll, Outline.writingAll_append] at h
    obtain ⟨_, _, hvalue, hrest, -⟩ := Writing.append_eq_text h
    rw [rootOutlineAll, outlineAll, rootOutline_of_writing hvalue, rootOutlineAll_of_writing hrest]

end

theorem isStill_rootOutline {value : Value} (hlist : value.isList = false)
    (h : Outline.isStillAll value.outline = true) :
    Outline.isStillAll value.rootOutline = true := by
  cases value with
  | list => cases hlist
  | _ =>
    unfold rootOutline
    dsimp only
    split
    · rfl
    · first | rfl | exact h

end Value

namespace Outline

theorem isStillAll_append {outline more : List Outline} :
    isStillAll (outline ++ more) = (isStillAll outline && isStillAll more) := by
  induction outline with
  | nil => rfl
  | cons piece rest ih => rw [List.cons_append, isStillAll, isStillAll, ih, Bool.and_assoc]

theorem writingOfProps_ne_unknown (props : Props) : writingOfProps props ≠ .unknown := by
  induction props with
  | nil => exact Writing.noConfusion
  | cons p rest ih =>
    obtain ⟨name, value⟩ := p
    refine Writing.append_ne_unknown.mpr ⟨?_, ih⟩
    unfold writingOfProp
    split
    · exact Writing.noConfusion
    · split
      · exact Writing.noConfusion
      · split <;> exact Writing.noConfusion

mutual

/-- What is still tells what is written. -/
theorem writing_ne_unknown : ∀ {piece : Outline}, piece.isStill = true → piece.writing ≠ .unknown
  | .text _, _ => Writing.noConfusion
  | .broken, _ => Writing.noConfusion
  | .tag name props children, h => by
    have hprops := writingOfProps_ne_unknown props
    have hchildren : writingAll children ≠ .unknown := writingAll_ne_unknown h
    rw [writing]
    split
    · exact Writing.append_ne_unknown.mpr
        ⟨Writing.append_ne_unknown.mpr ⟨Writing.noConfusion, hprops⟩, Writing.noConfusion⟩
    · split
      · exact Writing.append_ne_unknown.mpr
          ⟨Writing.append_ne_unknown.mpr ⟨Writing.noConfusion, hprops⟩,
            Writing.append_ne_unknown.mpr ⟨Writing.noConfusion,
              Writing.append_ne_unknown.mpr ⟨hchildren, Writing.noConfusion⟩⟩⟩
      · exact Writing.noConfusion

theorem writingAll_ne_unknown : ∀ {outline : List Outline}, isStillAll outline = true →
    writingAll outline ≠ .unknown
  | [], _ => Writing.noConfusion
  | _ :: _, h => by
    rw [isStillAll, Bool.and_eq_true] at h
    exact Writing.append_ne_unknown.mpr ⟨writing_ne_unknown h.1, writingAll_ne_unknown h.2⟩

end

end Outline

namespace Value

mutual

theorem writing_rootOutline_ne_unknown : ∀ {value : Value},
    Outline.isStillAll value.outline = true → Outline.writingAll value.rootOutline ≠ .unknown
  | list _, h => writing_rootOutlineAll_ne_unknown h
  | undefined, h | null, h | bool _, h | number _, h | str _, h | sequence _, h | pending _, h
  | element _, h | component _, h | object _, h =>
    Outline.writingAll_ne_unknown (isStill_rootOutline rfl h)

theorem writing_rootOutlineAll_ne_unknown : ∀ {values : List Value},
    Outline.isStillAll (outlineAll values) = true →
      Outline.writingAll (rootOutlineAll values) ≠ .unknown
  | [], _ => Writing.noConfusion
  | _ :: _, h => by
    rw [outlineAll, Outline.isStillAll_append, Bool.and_eq_true] at h
    rw [rootOutlineAll, Outline.writingAll_append]
    exact Writing.append_ne_unknown.mpr
      ⟨writing_rootOutline_ne_unknown h.1, writing_rootOutlineAll_ne_unknown h.2⟩

end

end Value

end TaggedMarkup
