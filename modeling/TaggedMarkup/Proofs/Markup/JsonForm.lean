import TaggedMarkup.Proofs.Markup.Stillness
import TaggedMarkup.Proofs.Value.Json

/-!
# Markup of what comes back from JSON

What JSON can say is still, so its markup is told by its outline. A value that comes back has **all of the
markup** that the value had, and only in one place there can be more of it (`Value.grows_reread`): where a
tag is read off a map that holds a record in the place of its props. A record is no map, and gives no props;
but it comes back as one, and then its type and its flag are props like any others. So the markup is the same
exactly if there is no such map (`Value.isFaithful`).
-/

namespace TaggedMarkup

/-! ## What is faithful -/

namespace Element

/-- As a map, the element has its props and its children and nothing else. -/
def isBare (e : Element) : Bool := (Value.typeEntries e.type ++ Value.rawEntries e.raw).isEmpty

/-- The props that are read off a map are the ones that are read off it when it comes back. -/
def keepsProps (entries : Props) : Bool :=
  match Entries.get? "props" entries with
  | some (.element e) => isBare e
  | _ => true

/-- An element of a type is faithful, given that its props and its children are. -/
def faithfulOf (type : ElementType) (props children : Bool) : Bool :=
  match type with
  | .tag name => props && (Name.isVoid name || children)
  | .fragment => children
  | _ => true

end Element

namespace Value

mutual

/-- No tag in the markup of the value is read off a map that has a record for its props, unless the record is
bare. -/
def isFaithful : Value → Bool
  | list members => isFaithfulAll members
  | element ⟨_, type, _, children, _⟩ => Element.faithfulOf type true (isFaithfulAll children)
  | object entries =>
    Element.faithfulOf (Element.ofEntries 0 entries).type (Element.keepsProps entries)
      (isFaithfulAt "children" entries)
  | _ => true

def isFaithfulAll : List Value → Bool
  | [] => true
  | value :: rest => isFaithful value && isFaithfulAll rest

def isFaithfulAt (key : String) : List (String × Value) → Bool
  | [] => true
  | (k, value) :: rest => if k = key then isFaithful value else isFaithfulAt key rest

end

theorem isFaithfulAt_eq_get? (key : String) (entries : Props) :
    isFaithfulAt key entries = ((Entries.get? key entries).map isFaithful).getD true := by
  induction entries with
  | nil => rfl
  | cons entry rest ih =>
    obtain ⟨k, value⟩ := entry
    by_cases h : k = key
    · simp only [isFaithfulAt, Entries.get?, h, if_true, Option.map_some, Option.getD_some]
    · simp only [isFaithfulAt, Entries.get?, h, if_false, ih]

/-- The children of a map are faithful if the ones are that are read off it. -/
theorem isFaithfulAt_children (entries : Props) :
    isFaithfulAt "children" entries = isFaithfulAll (Element.ofEntries 0 entries).children := by
  rw [isFaithfulAt_eq_get?, Element.ofEntries]
  cases hget : Entries.get? "children" entries with
  | none => rfl
  | some value =>
    cases value with
    | list members => rw [Option.map_some, Option.getD_some, isFaithful]
    | undefined => rfl
    | _ => simp only [Option.map_some, Option.getD_some, isFaithfulAll, Bool.and_true]

end Value

/-! ## More markup -/

/-- The one is some text, the other a text that has it in it: the same text exactly if it is `kept`. -/
def Writing.Grows (kept : Prop) (a b : Writing) : Prop :=
  ∃ cs ds, a = .text cs ∧ b = .text ds ∧ cs.Sublist ds ∧ (kept ↔ ds = cs)

namespace Writing.Grows

variable {kept kept' : Prop} {a a' b b' : Writing}

theorem refl {cs : List Char} (h : a = .text cs) (hkept : kept) : Grows kept a a :=
  ⟨cs, cs, h, h, .refl cs, iff_of_true hkept rfl⟩

theorem congr (h : Grows kept a b) (hkept : kept ↔ kept') : Grows kept' a b := by
  obtain ⟨cs, ds, ha, hb, hsublist, hsame⟩ := h
  exact ⟨cs, ds, ha, hb, hsublist, hkept.symm.trans hsame⟩

theorem append (h : Grows kept a b) (h' : Grows kept' a' b') : Grows (kept ∧ kept') (a ++ a') (b ++ b') := by
  obtain ⟨cs, ds, rfl, rfl, hsublist, hsame⟩ := h
  obtain ⟨cs', ds', rfl, rfl, hsublist', hsame'⟩ := h'
  refine ⟨cs ++ cs', ds ++ ds', rfl, rfl, hsublist.append hsublist', ?_⟩
  rw [hsame, hsame']
  refine ⟨fun ⟨hleft, hright⟩ => by rw [hleft, hright], fun hboth => ?_⟩
  -- neither part is shorter than it was, so both have the length they had
  have hlength := congrArg List.length hboth
  rw [List.length_append, List.length_append] at hlength
  have hless := hsublist.length_le
  have hless' := hsublist'.length_le
  exact ⟨(hsublist.eq_of_length (by omega)).symm, (hsublist'.eq_of_length (by omega)).symm⟩

end Writing.Grows

/-! ## Props -/

namespace Outline

open Value

theorem writingOfProps_append (props more : Props) :
    writingOfProps (props ++ more) = writingOfProps props ++ writingOfProps more := by
  induction props with
  | nil => exact (Writing.nil_append _).symm
  | cons p rest ih =>
    obtain ⟨name, value⟩ := p
    rw [List.cons_append, writingOfProps, writingOfProps, ih, Writing.append_assoc]

/-- A prop that is not omitted is written as it was. -/
theorem writingOfProp_reread (name : String) {value : Value} (h : value.isSayable = true)
    (hkept : value.isOmitted = false) : writingOfProp name (reread value) = writingOfProp name value := by
  cases value with
  | undefined | component => cases hkept
  | sequence | pending => cases h
  | null | bool | str => rfl
  | number d =>
    obtain ⟨d', hreread, htext⟩ := reread_number h
    have hshown : Render.attributeText? name (.number d') = Render.attributeText? name (.number d) := by
      rw [Render.attributeText?, Render.attributeText?, htext]
    rw [hreread, writingOfProp, writingOfProp, hshown]
    rfl
  | list members =>
    rw [reread_list]
    rfl
  | element e =>
    rw [reread_element (isSayable_element h).2.1]
    rfl
  | object entries =>
    rw [reread_object (isSayable_object h).1]
    rfl

theorem writingOfProps_rereadEntries {props : Props} (h : isSayableEntries props = true) :
    writingOfProps (rereadEntries props) = writingOfProps props := by
  induction props with
  | nil => rfl
  | cons p rest ih =>
    obtain ⟨name, value⟩ := p
    rw [isSayableEntries, Bool.and_eq_true] at h
    have hrest := ih h.2
    rw [rereadEntries, List.filter_cons]
    cases hkept : value.isOmitted with
    | true =>
      -- what is omitted is not written either
      have hskipped : writingOfProp name value = .text [] := by
        cases value with
        | undefined => rfl
        | component => cases h.1
        | _ => cases hkept
      rw [writingOfProps, hskipped, Writing.nil_append]
      exact hrest
    | false =>
      rw [writingOfProps, ← writingOfProp_reread name h.1 hkept, ← hrest]
      rfl

/-- A record that is read as props writes what it states of itself. -/
theorem writingOfProps_recordEntries (e : Element) :
    ∃ cs, writingOfProps (recordEntries e) = .text cs ∧ (e.isBare = true ↔ cs = []) := by
  obtain ⟨stamp, type, props, children, raw⟩ := e
  have hmiddle : writingOfProps [("props", .object (rereadEntries props)),
      ("children", .list (children.map reread))] = .text [] := rfl
  have hstated : ∀ s, ∃ cs, writingOfProps [("type", .str s)] = .text cs ∧
      ([("type", Value.str s)] = [] ↔ cs = []) := by
    intro s
    refine ⟨(" " ++ "type" ++ "=\"" ++ Escape.text s ++ "\"").toList ++ [], rfl, iff_of_false nofun ?_⟩
    simp only [String.toList_append, List.append_eq_nil_iff]
    rintro ⟨⟨-, hquote⟩, -⟩
    cases hquote
  have htype : ∃ cs, writingOfProps (typeEntries type) = .text cs ∧ (typeEntries type = [] ↔ cs = []) := by
    cases type with
    | missing | component | invalid => exact ⟨[], rfl, iff_of_true rfl rfl⟩
    | fragment => exact hstated ""
    | tag name => exact hstated name
  have hraw : ∃ cs, writingOfProps (rawEntries raw) = .text cs ∧ (rawEntries raw = [] ↔ cs = []) := by
    cases raw with
    | false => exact ⟨[], rfl, iff_of_true rfl rfl⟩
    | true => exact ⟨_, rfl, by decide⟩
  obtain ⟨cs, hcs, hcs'⟩ := htype
  obtain ⟨ds, hds, hds'⟩ := hraw
  refine ⟨cs ++ ds, ?_, ?_⟩
  · rw [recordEntries, writingOfProps_append, writingOfProps_append, hcs, hmiddle, Writing.append_nil, hds]
    rfl
  · rw [Element.isBare, List.isEmpty_iff, List.append_eq_nil_iff, List.append_eq_nil_iff, ← hcs', ← hds']

end Outline

/-! ## Values -/

namespace Value

open Outline

/-- Props that are read off a map grow where it comes back with more of them. -/
theorem grows_props {entries : Props} (h : (object entries).isSayable = true) {cs : List Char}
    (hwriting : writingOfProps (Element.ofEntries 0 entries).props = .text cs) :
    Writing.Grows (Element.keepsProps entries = true) (writingOfProps (Element.ofEntries 0 entries).props)
      (writingOfProps (Element.ofEntries 0 (rereadEntries entries)).props) := by
  obtain ⟨hnodup, hsayable⟩ := isSayable_object h
  unfold Element.ofEntries Element.keepsProps at *
  dsimp only at hwriting ⊢
  cases hget : Entries.get? "props" entries with
  | none =>
    rw [get?_rereadEntries_of_none hnodup hget]
    exact .refl rfl rfl
  | some value =>
    have hvalue := isSayable_of_get? hsayable hget
    rw [hget] at hwriting
    cases value with
    | component | sequence | pending => cases hvalue
    | undefined =>
      rw [get?_rereadEntries_of_undefined hnodup hget]
      exact .refl rfl rfl
    | null | bool | str =>
      rw [get?_rereadEntries_of_kept hnodup hget rfl]
      exact .refl rfl rfl
    | number d =>
      obtain ⟨d', hreread, -⟩ := reread_number hvalue
      rw [get?_rereadEntries_of_kept hnodup hget rfl, hreread]
      exact .refl rfl rfl
    | list members =>
      rw [get?_rereadEntries_of_kept hnodup hget rfl, reread_list]
      exact .refl rfl rfl
    | object props =>
      obtain ⟨hnodup', hsayable'⟩ := isSayable_object hvalue
      rw [get?_rereadEntries_of_kept hnodup hget rfl, reread_object hnodup']
      dsimp only
      rw [writingOfProps_rereadEntries hsayable']
      exact .refl hwriting rfl
    | element e =>
      rw [get?_rereadEntries_of_kept hnodup hget rfl, reread_element (isSayable_element hvalue).2.1]
      obtain ⟨ds, hds, hbare⟩ := writingOfProps_recordEntries e
      exact ⟨[], ds, rfl, hds, List.nil_sublist ds, hbare⟩

/-- A tag grows as its props and its children do, as far as they are written. -/
theorem grows_tag {name : String} {props props' : Props} {children children' : List Outline}
    {keptProps keptChildren : Bool}
    (hprops : ∀ cs, writingOfProps props = .text cs →
      Writing.Grows (keptProps = true) (writingOfProps props) (writingOfProps props'))
    (hchildren : ∀ cs, writingAll children = .text cs →
      Writing.Grows (keptChildren = true) (writingAll children) (writingAll children'))
    {cs : List Char} (h : (Outline.tag name props children).writing = .text cs) :
    Writing.Grows (Element.faithfulOf (.tag name) keptProps keptChildren = true)
      (Outline.tag name props children).writing (Outline.tag name props' children').writing := by
  have hsame : ∀ cs, Writing.Grows True (.text cs) (.text cs) := fun _ => .refl rfl trivial
  rw [writing] at h
  rw [writing, writing, Element.faithfulOf]
  split
  · rename_i hvoid
    rw [if_pos hvoid] at h
    obtain ⟨_, _, hopening, -, -⟩ := Writing.append_eq_text h
    obtain ⟨_, _, -, hwritten, -⟩ := Writing.append_eq_text hopening
    refine (((hsame _).append (hprops _ hwritten)).append (hsame _)).congr ?_
    rw [hvoid, Bool.true_or, Bool.and_true, true_and, and_true]
  · rename_i hvoid
    rw [if_neg hvoid] at h
    split
    · rename_i htag
      rw [if_pos htag] at h
      obtain ⟨_, _, hopening, hrest, -⟩ := Writing.append_eq_text h
      obtain ⟨_, _, -, hwritten, -⟩ := Writing.append_eq_text hopening
      obtain ⟨_, _, -, hclosed, -⟩ := Writing.append_eq_text hrest
      obtain ⟨_, _, hinside, -, -⟩ := Writing.append_eq_text hclosed
      refine (((hsame _).append (hprops _ hwritten)).append
        ((hsame _).append ((hchildren _ hinside).append (hsame _)))).congr ?_
      rw [Bool.eq_false_iff.mpr hvoid, Bool.false_or, Bool.and_eq_true, true_and, true_and, and_true]
    · rename_i htag
      rw [if_neg htag] at h
      cases h

/-- An element that is rendered has a tag, and its children in it, or is its children. -/
theorem grows_element {e f : Element} {keptProps keptChildren : Bool} (htype : f.type = e.type)
    (hprops : ∀ cs, writingOfProps e.props = .text cs →
      Writing.Grows (keptProps = true) (writingOfProps e.props) (writingOfProps f.props))
    (hchildren : ∀ cs, writingAll (outlineAll e.children) = .text cs →
      Writing.Grows (keptChildren = true) (writingAll (outlineAll e.children))
        (writingAll (outlineAll f.children)))
    {cs : List Char} (h : writingAll (element e).outline = .text cs) :
    Writing.Grows (Element.faithfulOf e.type keptProps keptChildren = true) (writingAll (element e).outline)
      (writingAll (element f).outline) := by
  have hsingle : ∀ piece : Outline, writingAll [piece] = piece.writing := fun _ => Writing.append_nil _
  obtain ⟨stamp, type, props, children, raw⟩ := e
  obtain ⟨stamp', type', props', children', raw'⟩ := f
  cases htype
  rw [outline] at h
  rw [outline, outline]
  cases type with
  | missing | invalid | component => cases h
  | fragment => exact hchildren _ h
  | tag name =>
    rw [Element.outlineOf, hsingle] at h
    rw [Element.outlineOf, Element.outlineOf, hsingle, hsingle]
    exact grows_tag hprops hchildren h

/-- What is rendered without a call is a fragment or has a tag. -/
theorem isUsable_of_writing {e : Element} {cs : List Char} (h : writingAll (element e).outline = .text cs) :
    e.type = .fragment ∨ ∃ name ≠ "", e.type = .tag name := by
  obtain ⟨stamp, type, props, children, raw⟩ := e
  cases type with
  | missing | invalid | component => cases h
  | fragment => exact .inl rfl
  | tag name =>
    refine .inr ⟨name, ?_, rfl⟩
    rintro rfl
    cases h

theorem type_ne_missing_of_writing {e : Element} {cs : List Char}
    (h : writingAll (element e).outline = .text cs) : e.type ≠ .missing := by
  rcases isUsable_of_writing h with htype | ⟨name, -, htype⟩ <;> rw [htype] <;> exact nofun

/-- Members grow together. -/
theorem grows_members {values : List Value} {cs : List Char}
    (h : writingAll (outlineAll values) = .text cs)
    (hmembers : ∀ value ∈ values, ∀ cs, writingAll value.outline = .text cs →
      Writing.Grows (value.isFaithful = true) (writingAll value.outline) (writingAll value.reread.outline)) :
    Writing.Grows (isFaithfulAll values = true) (writingAll (outlineAll values))
      (writingAll (outlineAll (values.map reread))) := by
  induction values generalizing cs with
  | nil => exact .refl rfl rfl
  | cons value rest ih =>
    obtain ⟨hvalue, hrest⟩ := List.forall_mem_cons.mp hmembers
    rw [outlineAll, writingAll_append] at h
    obtain ⟨_, _, hfirst, hothers, -⟩ := Writing.append_eq_text h
    rw [List.map_cons, outlineAll, outlineAll, writingAll_append, writingAll_append, isFaithfulAll,
      Bool.and_eq_true]
    exact (hvalue _ hfirst).append (ih hothers hrest)

/-- **What comes back has all of the markup of a value**, and no more of it exactly if the value is
faithful. -/
theorem grows_reread {value : Value} (hsayable : value.isSayable = true) {cs : List Char}
    (h : writingAll value.outline = .text cs) :
    Writing.Grows (value.isFaithful = true) (writingAll value.outline) (writingAll value.reread.outline) := by
  induction hsize : sizeOf value using Nat.strongRecOn generalizing value cs with
  | ind size ih =>
    have hmembers : ∀ {values : List Value}, (∀ value ∈ values, sizeOf value < size) →
        isSayableAll values = true → ∀ cs, writingAll (outlineAll values) = .text cs →
          Writing.Grows (isFaithfulAll values = true) (writingAll (outlineAll values))
            (writingAll (outlineAll (values.map reread))) :=
      fun hless hvalues _ hwriting => grows_members hwriting fun value hvalue _ hmember =>
        ih _ (hless value hvalue) (isSayable_of_mem hvalues hvalue) hmember rfl
    subst hsize
    cases value with
    | bool | component | sequence | pending => cases h
    | undefined | null | str => exact .refl h rfl
    | number d =>
      obtain ⟨d', hreread, htext⟩ := reread_number hsayable
      rw [hreread, outline, outline, htext]
      exact .refl h rfl
    | list members =>
      rw [reread_list, outline, outline, isFaithful]
      exact hmembers (fun _ => sizeOf_member_lt) hsayable _ h
    | element e =>
      obtain ⟨-, hnodup, hprops, hchildren⟩ := isSayable_element hsayable
      have htype := Element.type_recordEntries (isUsable_of_writing h)
      have hcontains : Entries.contains "type" (recordEntries e) = true :=
        Element.contains_of_type (htype ▸ type_ne_missing_of_writing h)
      have hgrown : ∀ cs, writingOfProps e.props = .text cs → Writing.Grows (true = true)
          (writingOfProps e.props) (writingOfProps (Element.ofEntries 0 (recordEntries e)).props) := by
        intro _ hwritten
        rw [Element.props_recordEntries, writingOfProps_rereadEntries hprops]
        exact .refl hwritten rfl
      rw [reread_element hnodup, outline_object hcontains]
      refine grows_element htype hgrown ?_ h
      rw [Element.children_recordEntries]
      exact hmembers (fun _ => sizeOf_child_lt) hchildren
    | object entries =>
      have htype := Element.type_rereadEntries hsayable
      have hcontains : Entries.contains "type" entries = true := by
        refine Decidable.byContradiction fun hmissing => ?_
        rw [outline, if_neg hmissing] at h
        cases h
      rw [outline_object hcontains] at h
      have hcontains' : Entries.contains "type" (rereadEntries entries) = true :=
        Element.contains_of_type (htype ▸ type_ne_missing_of_writing h)
      rw [reread_object (isSayable_object hsayable).1, outline_object hcontains,
        outline_object hcontains', isFaithful, isFaithfulAt_children]
      refine grows_element htype (fun _ => grows_props hsayable) ?_ h
      rw [Element.children_rereadEntries hsayable]
      exact hmembers (fun _ => sizeOf_ofEntries_lt) (Element.isSayableAll_children hsayable)

/-! ## Roots -/

mutual

/-- What is rendered by the rules for roots comes back as something that they render as an item. -/
theorem rootOutline_reread : ∀ {value : Value} {cs : List Char}, value.isSayable = true →
    writingAll value.rootOutline = .text cs → value.reread.rootOutline = value.reread.outline
  | list members, _, hsayable, h => by
    rw [reread_list, rootOutline, outline, rootOutlineAll_reread hsayable h]
  | str _, _, _, h => rootOutline_of_not_isList h rfl
  | element e, _, hsayable, _ => by
    rw [reread_element (isSayable_element hsayable).2.1]
    rfl
  | object entries, _, hsayable, _ => by
    rw [reread_object (isSayable_object hsayable).1]
    rfl
  | undefined, _, _, h | null, _, _, h => by cases h
  | bool b, _, _, h => by cases b <;> cases h
  | number d, _, _, h => by
    unfold rootOutline at h
    dsimp only at h
    split at h <;> cases h
  | sequence _, _, hsayable, _ | pending _, _, hsayable, _ | component _, _, hsayable, _ => by cases hsayable

theorem rootOutlineAll_reread : ∀ {values : List Value} {cs : List Char}, isSayableAll values = true →
    writingAll (rootOutlineAll values) = .text cs →
      rootOutlineAll (values.map reread) = outlineAll (values.map reread)
  | [], _, _, _ => rfl
  | value :: rest, _, hsayable, h => by
    rw [isSayableAll, Bool.and_eq_true] at hsayable
    rw [rootOutlineAll, writingAll_append] at h
    obtain ⟨_, _, hvalue, hrest, -⟩ := Writing.append_eq_text h
    rw [List.map_cons, rootOutlineAll, outlineAll, rootOutline_reread hsayable.1 hvalue,
      rootOutlineAll_reread hsayable.2 hrest]

end

/-- The same by the rules for roots. -/
theorem grows_reread_root {value : Value} (hsayable : value.isSayable = true) {cs : List Char}
    (h : writingAll value.rootOutline = .text cs) :
    Writing.Grows (value.isFaithful = true) (writingAll value.rootOutline)
      (writingAll value.reread.rootOutline) := by
  have hsame := rootOutline_of_writing h
  rw [rootOutline_reread hsayable h, hsame]
  exact grows_reread hsayable (hsame ▸ h)

/-! ## Renders -/

theorem isStillAll_outlineOf {type : ElementType} (htype : type.isSayable = true) (props : Props)
    {children : List Outline} (hchildren : isStillAll children = true) :
    isStillAll (Element.outlineOf type props children) = true := by
  cases type with
  | component => cases htype
  | missing | invalid => rfl
  | fragment => exact hchildren
  | tag name => exact Bool.and_eq_true_iff.mpr ⟨hchildren, rfl⟩

mutual

/-- Nothing is called, awaited or drawn in what JSON can say. -/
theorem isStill_of_isSayable : ∀ {value : Value}, value.isSayable = true → value.isStill = true
  | undefined, _ | null, _ | bool _, _ | number _, _ | str _, _ => rfl
  | list _, h => isStillAll_of_isSayable h
  | element ⟨_, type, props, children, _⟩, h => by
    obtain ⟨htype, -, -, hchildren⟩ := isSayable_element h
    exact isStillAll_outlineOf htype props (isStillAll_of_isSayable hchildren)
  | object entries, h => by
    obtain ⟨-, hentries⟩ := isSayable_object h
    rw [isStill, outline]
    split
    · exact isStillAll_outlineOf (Element.isSayable_type hentries) _
        (isStillAt_of_isSayable "children" hentries)
    · rfl
  | sequence _, h | pending _, h | component _, h => by cases h

theorem isStillAll_of_isSayable : ∀ {values : List Value}, isSayableAll values = true →
    isStillAll (outlineAll values) = true
  | [], _ => rfl
  | _ :: _, h => by
    rw [isSayableAll, Bool.and_eq_true] at h
    rw [outlineAll, isStillAll_append, Bool.and_eq_true]
    exact ⟨isStill_of_isSayable h.1, isStillAll_of_isSayable h.2⟩

theorem isStillAt_of_isSayable (key : String) : ∀ {entries : List (String × Value)},
    isSayableEntries entries = true → isStillAll (outlineAt key entries) = true
  | [], _ => rfl
  | (k, _) :: _, h => by
    rw [isSayableEntries, Bool.and_eq_true] at h
    rw [outlineAt]
    split
    · exact isStill_of_isSayable h.1
    · exact isStillAt_of_isSayable key h.2

end

/-- **A value that JSON can say and what comes back from JSON are rendered alike**, by the rules for roots and
by those for items, with any number of members rendered ahead and in whatever world: where the value has a
text, what comes back has one, and it is the same text exactly if the value is faithful. -/
theorem renders_from_json {value : Value} (hsayable : value.isSayable = true) :
    (∀ {fuel : Nat} {config : RenderConfig} {text : String} {w v : World},
      Render.toText fuel config value w = some (.ok text, v) →
        ∃ again, (value.isFaithful = true ↔ again = text) ∧
          ∀ (config' : RenderConfig) (w' : World), ∃ enough, ∀ fuel' ≥ enough, ∃ v',
            Render.toText fuel' config' (ofJson value.toJson) w' = some (.ok again, v')) ∧
      ∀ {fuel : Nat} {config : RenderConfig} {texts : List String} {w v : World},
        (RenderStream.ofItem config value w).1.drain fuel (RenderStream.ofItem config value w).2 =
          some (texts, none, v) →
            ∃ again, (value.isFaithful = true ↔ again = String.join texts) ∧
              ∀ (config' : RenderConfig) (w' : World), ∃ enough, ∀ fuel' ≥ enough, ∃ texts' v',
                (RenderStream.ofItem config' (ofJson value.toJson) w').1.drain fuel'
                  (RenderStream.ofItem config' (ofJson value.toJson) w').2 = some (texts', none, v') ∧
                    String.join texts' = again := by
  have hstill := isStill_of_isSayable hsayable
  refine ⟨fun {fuel config text w v} h => ?_, fun {fuel config texts w v} h => ?_⟩
  · have hwriting := Render.writing_of_toText (writing_rootOutline_ne_unknown hstill) h
    obtain ⟨cs, ds, hcs, hds, -, hsame⟩ := grows_reread_root hsayable hwriting
    cases hwriting.symm.trans hcs
    have hagain : writingAll value.reread.rootOutline = .text (String.ofList ds).toList := by
      rw [String.toList_ofList]
      exact hds
    refine ⟨String.ofList ds, ?_, fun config' => Render.toText_of_writing config' hagain⟩
    rw [hsame, ← String.toList_inj, String.toList_ofList]
  · have htasked : ∀ bound, (Work.item value).Tasked bound := fun _ => trivial
    have hwriting : writingAll value.outline = .text (texts.flatMap String.toList) :=
      RenderStream.writing_of_drain_start htasked (Outline.writingAll_ne_unknown hstill) h
    obtain ⟨cs, ds, hcs, hds, -, hsame⟩ := grows_reread hsayable hwriting
    cases hwriting.symm.trans hcs
    refine ⟨String.ofList ds, ?_, fun config' w' => ?_⟩
    · rw [hsame, ← String.toList_inj, String.toList_ofList, String.toList_join]
    · obtain ⟨enough, hdrained⟩ := RenderStream.drain_of_writing config' hds w'
      refine ⟨enough, fun fuel' hfuel => ?_⟩
      obtain ⟨texts', v', hdrain, htexts⟩ := hdrained fuel' hfuel
      refine ⟨texts', v', hdrain, ?_⟩
      rw [← htexts, ← String.toList_join, String.ofList_toList]

/-- A record with attributes of many kinds, some of them skipped, and among its children nullish values, a
number, a map that is a fragment, and a void tag. -/
def card : Value :=
  .element ⟨3, .tag "DIV", [("id", .str "a<b"), ("hidden", .bool true), ("title", .undefined),
      ("lang", .null), ("tabindex", .number (Double.ofNat 2)), ("data", .list [])],
    [.undefined, .number (Double.signed true 0), .null,
      .object [("type", .str ""), ("children", .list [.str "x > y", .undefined])],
      .object [("children", .element ⟨4, .tag "br", [], [.str "none"], true⟩), ("type", .str "p"),
        ("props", .object [("class", .str "q"), ("off", .bool false)])]], false⟩

/-- The markup of the card. -/
def cardMarkup : String := "<div id=\"a&lt;b\" hidden tabindex=\"2\">0x &gt; y<p class=\"q\"><br /></p></div>"

/-- The card is rendered alike after it went through JSON. -/
theorem renders_from_json_card :
    (∃ enough, ∀ fuel ≥ enough, ∃ v, Render.toText fuel {} (ofJson card.toJson) {} =
      some (.ok cardMarkup, v)) ∧
    ∃ enough, ∀ fuel ≥ enough, ∃ texts v,
      (RenderStream.ofItem {} (ofJson card.toJson) {}).1.drain fuel
        (RenderStream.ofItem {} (ofJson card.toJson) {}).2 = some (texts, none, v) ∧
          String.join texts = cardMarkup := by
  have hsayable : card.isSayable = true := by decide
  have hfaithful : card.isFaithful = true := by decide
  have hwriting : writingAll card.outline = .text cardMarkup.toList := by decide
  have hroots : writingAll card.rootOutline = .text cardMarkup.toList := hwriting
  obtain ⟨hroot, hitem⟩ := renders_from_json hsayable
  constructor
  · obtain ⟨fuel, hrendered⟩ := Render.toText_of_writing {} hroots {}
    obtain ⟨v, hrender⟩ := hrendered fuel (Nat.le_refl fuel)
    obtain ⟨again, hsame, hagain⟩ := hroot hrender
    rw [← hsame.mp hfaithful]
    exact hagain {} {}
  · obtain ⟨fuel, hdrained⟩ := RenderStream.drain_of_writing {} hwriting {}
    obtain ⟨texts, v, hdrain, htexts⟩ := hdrained fuel (Nat.le_refl fuel)
    obtain ⟨again, hsame, hagain⟩ := hitem hdrain
    rw [← String.toList_join, String.toList_inj] at htexts
    rw [← htexts, ← hsame.mp hfaithful]
    exact hagain {} {}

/-- A map with a record in the place of its props. -/
def misplaced : Value := .object [("type", .str "div"), ("props", .element ⟨0, .tag "b", [], [], false⟩)]

/-- The record gives no props, but it comes back as a map, and that gives one. -/
theorem renders_from_json_misplaced : misplaced.isSayable = true ∧
    (∃ fuel v, Render.toText fuel {} misplaced {} = some (.ok "<div></div>", v)) ∧
      ∃ enough, ∀ fuel ≥ enough, ∃ v,
        Render.toText fuel {} (ofJson misplaced.toJson) {} = some (.ok "<div type=\"b\"></div>", v) := by
  have hwriting : writingAll misplaced.rootOutline = .text "<div></div>".toList := by decide
  have hback : writingAll (ofJson misplaced.toJson).rootOutline =
      .text "<div type=\"b\"></div>".toList := by decide
  obtain ⟨fuel, hrendered⟩ := Render.toText_of_writing {} hwriting {}
  exact ⟨by decide, ⟨fuel, hrendered fuel (Nat.le_refl fuel)⟩, Render.toText_of_writing {} hback {}⟩

end Value

end TaggedMarkup
