import TaggedMarkup.Proofs.Markup.Outline
import TaggedMarkup.Proofs.Number.Integers
import TaggedMarkup.Value.Json

/-!
# What comes back from JSON

A value goes through its JSON form, and another one comes back. If JSON can **say** the value, the two
differ in three ways only: an element has become the map that is read as an element (`reread_element`),
`undefined` is gone from maps and is `null` elsewhere (`get?_rereadEntries`), and a zero has lost its sign
(`reread_number`).
-/

namespace TaggedMarkup

/-! ## What JSON can say -/

namespace ElementType

/-- The type is no component. -/
def isSayable : ElementType → Bool
  | component _ => false
  | _ => true

end ElementType

namespace Value

mutual

/-- JSON can say the value: no component, pending value, sequence or number that is not finite is in it,
and its maps, as all maps, have each key once. -/
def isSayable : Value → Bool
  | undefined | null | bool _ | str _ => true
  | number d => d.isFinite
  | list members => isSayableAll members
  | element ⟨_, type, props, children, _⟩ =>
    type.isSayable && decide (Entries.keys props).Nodup && isSayableEntries props &&
      isSayableAll children
  | object entries => decide (Entries.keys entries).Nodup && isSayableEntries entries
  | component _ | sequence _ | pending _ => false

def isSayableAll : List Value → Bool
  | [] => true
  | value :: rest => isSayable value && isSayableAll rest

def isSayableEntries : List (String × Value) → Bool
  | [] => true
  | (_, value) :: rest => isSayable value && isSayableEntries rest

end

theorem isSayable_of_mem {values : List Value} (h : isSayableAll values = true) {value : Value}
    (hvalue : value ∈ values) : value.isSayable = true := by
  induction values with
  | nil => cases hvalue
  | cons first rest ih =>
    rw [isSayableAll, Bool.and_eq_true] at h
    rcases List.mem_cons.mp hvalue with rfl | hvalue
    · exact h.1
    · exact ih h.2 hvalue

theorem isSayable_of_get? {key : String} {entries : Props} (h : isSayableEntries entries = true)
    {value : Value} (hget : Entries.get? key entries = some value) : value.isSayable = true := by
  induction entries with
  | nil => cases hget
  | cons entry rest ih =>
    rw [isSayableEntries, Bool.and_eq_true] at h
    rw [Entries.get?] at hget
    split at hget
    · cases hget
      exact h.1
    · exact ih h.2 hget

theorem isSayable_element {e : Element} (h : (element e).isSayable = true) :
    e.type.isSayable = true ∧ (Entries.keys e.props).Nodup ∧ isSayableEntries e.props = true ∧
      isSayableAll e.children = true := by
  obtain ⟨stamp, type, props, children, raw⟩ := e
  rw [isSayable] at h
  simp only [Bool.and_eq_true, decide_eq_true_eq] at h
  exact ⟨h.1.1.1, h.1.1.2, h.1.2, h.2⟩

theorem isSayable_object {entries : Props} (h : (object entries).isSayable = true) :
    (Entries.keys entries).Nodup ∧ isSayableEntries entries = true := by
  rw [isSayable, Bool.and_eq_true, decide_eq_true_eq] at h
  exact h

/-! ## What comes back -/

/-- What comes back of a value from its JSON form. -/
def reread (value : Value) : Value := ofJson value.toJson

/-- What comes back of entries: of some, nothing. -/
def rereadEntries (entries : Props) : Props :=
  (entries.filter fun entry => !entry.2.isOmitted).map fun entry => (entry.1, entry.2.reread)

theorem membersOfJson_membersToJson (values : List Value) :
    membersOfJson (membersToJson values) = values.map reread := by
  induction values with
  | nil => rfl
  | cons value rest ih => rw [membersToJson, membersOfJson, ih, List.map_cons, reread]

theorem entriesOfJson_entriesToJson (entries : Props) :
    entriesOfJson (entriesToJson entries) = rereadEntries entries := by
  induction entries with
  | nil => rfl
  | cons entry rest ih =>
    obtain ⟨key, value⟩ := entry
    rw [entriesToJson, rereadEntries, List.filter_cons]
    cases homitted : value.isOmitted with
    | true => exact ih
    | false =>
      rw [if_neg Bool.false_ne_true, entriesOfJson, ih]
      rfl

theorem keys_rereadEntries (entries : Props) :
    (Entries.keys (rereadEntries entries)).Sublist (Entries.keys entries) := by
  have hkeys : Entries.keys (rereadEntries entries) =
      Entries.keys (entries.filter fun entry => !entry.2.isOmitted) := by
    rw [Entries.keys, rereadEntries, List.map_map]
    rfl
  rw [hkeys]
  exact List.filter_sublist.map _

/-- What is omitted from a map is gone, and anything else comes back at its key. -/
theorem get?_rereadEntries {key : String} {entries : Props} (h : (Entries.keys entries).Nodup) :
    Entries.get? key (rereadEntries entries) =
      ((Entries.get? key entries).filter fun value => !value.isOmitted).map reread := by
  induction entries with
  | nil => rfl
  | cons entry rest ih =>
    obtain ⟨k, value⟩ := entry
    obtain ⟨hnew, hrest⟩ := List.nodup_cons.mp h
    rw [rereadEntries, List.filter_cons, Entries.get?]
    by_cases hk : k = key
    · subst hk
      rw [if_pos rfl, Option.filter_some]
      cases homitted : value.isOmitted with
      | true =>
        -- it is not there again further on
        have hnone : Entries.get? k (rereadEntries rest) = none :=
          Entries.get?_eq_none_of_notMem fun hmem => hnew ((keys_rereadEntries rest).subset hmem)
        exact hnone
      | false => exact if_pos rfl
    · rw [if_neg hk, ← ih hrest]
      cases homitted : value.isOmitted with
      | true => rfl
      | false => exact if_neg hk

theorem get?_rereadEntries_of_kept {key : String} {entries : Props} {value : Value}
    (h : (Entries.keys entries).Nodup) (hget : Entries.get? key entries = some value)
    (hkept : value.isOmitted = false) : Entries.get? key (rereadEntries entries) = some value.reread := by
  rw [get?_rereadEntries h, hget, Option.filter_some, hkept]
  rfl

theorem get?_rereadEntries_of_none {key : String} {entries : Props} (h : (Entries.keys entries).Nodup)
    (hget : Entries.get? key entries = none) : Entries.get? key (rereadEntries entries) = none := by
  rw [get?_rereadEntries h, hget]
  rfl

theorem get?_rereadEntries_of_undefined {key : String} {entries : Props} (h : (Entries.keys entries).Nodup)
    (hget : Entries.get? key entries = some undefined) :
    Entries.get? key (rereadEntries entries) = none := by
  rw [get?_rereadEntries h, hget]
  rfl

theorem ofList_rereadEntries {entries : Props} (h : (Entries.keys entries).Nodup) :
    Entries.ofList (rereadEntries entries) = rereadEntries entries :=
  Entries.ofList_of_nodup (h.sublist (keys_rereadEntries entries))

theorem reread_list (members : List Value) : reread (list members) = list (members.map reread) := by
  rw [reread, toJson, ofJson, membersOfJson_membersToJson]

theorem reread_object {entries : Props} (h : (Entries.keys entries).Nodup) :
    reread (object entries) = object (rereadEntries entries) := by
  rw [reread, toJson, ofJson, entriesOfJson_entriesToJson, ofList_rereadEntries h]

/-- A number comes back with its text. -/
theorem reread_number {d : Double} (h : d.isFinite = true) :
    ∃ d' : Double, reread (number d) = number d' ∧ d'.text = d.text := by
  rw [reread, toJson, Double.toJson, if_pos h]
  cases hint : d.toInt? with
  | none => exact ⟨d, rfl, rfl⟩
  | some n =>
    dsimp only
    split
    · rename_i hsmall
      exact ⟨Double.ofInt n, rfl, Double.text_ofInt h hint hsmall⟩
    · exact ⟨d, rfl, rfl⟩

/-- The entry of an element's type. -/
def typeEntries : ElementType → Props
  | .fragment => [("type", str "")]
  | .tag name => [("type", str name)]
  | _ => []

/-- The entry of trust in an element's markup. -/
def rawEntries (raw : Bool) : Props := if raw then [("skipStringEscape", bool true)] else []

/-- The map that an element comes back as. -/
def recordEntries (e : Element) : Props :=
  typeEntries e.type ++
    [("props", object (rereadEntries e.props)), ("children", list (e.children.map reread))] ++
      rawEntries e.raw

theorem nodup_recordEntries (e : Element) : (Entries.keys (recordEntries e)).Nodup := by
  have htype : (Entries.keys (typeEntries e.type)).Sublist ["type"] := by
    cases e.type <;> first | exact .refl _ | exact List.nil_sublist _
  have hraw : (Entries.keys (rawEntries e.raw)).Sublist ["skipStringEscape"] := by
    cases e.raw
    · exact List.nil_sublist _
    · exact .refl _
  have hall : ["type", "props", "children", "skipStringEscape"].Nodup := by decide
  rw [Entries.keys, recordEntries, List.map_append, List.map_append]
  exact hall.sublist ((htype.append (.refl ["props", "children"])).append hraw)

theorem entriesOfJson_append (entries more : List (String × Json)) :
    entriesOfJson (entries ++ more) = entriesOfJson entries ++ entriesOfJson more := by
  induction entries with
  | nil => rfl
  | cons entry rest ih =>
    obtain ⟨key, value⟩ := entry
    rw [List.cons_append, entriesOfJson, entriesOfJson, ih, List.cons_append]

/-- **An element comes back as the map that is read as it**, its type and its flag stated where JSON states
them. -/
theorem reread_element {e : Element} (h : (Entries.keys e.props).Nodup) :
    reread (element e) = object (recordEntries e) := by
  obtain ⟨stamp, type, props, children, raw⟩ := e
  have htype : entriesOfJson (typeEntry type) = typeEntries type := by cases type <;> rfl
  have hraw : entriesOfJson (if raw then [("skipStringEscape", .bool true)] else []) = rawEntries raw := by
    cases raw <;> rfl
  have hmiddle : entriesOfJson
      [("props", .obj (entriesToJson props)), ("children", .arr (membersToJson children))] =
        [("props", object (rereadEntries props)), ("children", list (children.map reread))] := by
    simp only [entriesOfJson, ofJson, entriesOfJson_entriesToJson, ofList_rereadEntries h,
      membersOfJson_membersToJson]
  rw [reread, toJson, ofJson, entriesOfJson_append, entriesOfJson_append, htype, hmiddle, hraw]
  exact congrArg object (Entries.ofList_of_nodup (nodup_recordEntries ⟨stamp, type, props, children, raw⟩))

/-- A value comes back as one of its kind, and what denotes an element type still denotes it. -/
theorem toElementType_reread {value : Value} (h : value.isSayable = true) (hkept : value.isOmitted = false) :
    (reread value).toElementType = value.toElementType := by
  cases value with
  | undefined | component => cases hkept
  | sequence | pending => cases h
  | null | bool | str => rfl
  | number d =>
    obtain ⟨d', hreread, -⟩ := reread_number h
    rw [hreread]
    rfl
  | list members =>
    rw [reread_list]
    rfl
  | element e =>
    rw [reread_element (isSayable_element h).2.1]
    rfl
  | object entries =>
    rw [reread_object (isSayable_object h).1]
    rfl

end Value

/-! ## Elements that are read off what comes back -/

namespace Element

open Value

variable {e : Element} {entries : Props}

/-- An element that can be rendered is read off the map that it comes back as. -/
theorem type_recordEntries (h : e.type = .fragment ∨ ∃ name ≠ "", e.type = .tag name) :
    (ofEntries 0 (recordEntries e)).type = e.type := by
  rcases h with htype | ⟨name, hname, htype⟩
  · rw [recordEntries, htype]
    rfl
  · rw [recordEntries, htype]
    exact if_neg hname

theorem props_recordEntries : (ofEntries 0 (recordEntries e)).props = rereadEntries e.props := by
  obtain ⟨stamp, type, props, children, raw⟩ := e
  cases type <;> rfl

theorem children_recordEntries : (ofEntries 0 (recordEntries e)).children = e.children.map reread := by
  obtain ⟨stamp, type, props, children, raw⟩ := e
  cases type <;> rfl

theorem isSayable_type (h : isSayableEntries entries = true) :
    (ofEntries 0 entries).type.isSayable = true := by
  unfold ofEntries
  dsimp only
  cases hget : Entries.get? "type" entries with
  | none => rfl
  | some value =>
    have hvalue := isSayable_of_get? h hget
    cases value with
    | component => cases hvalue
    | str name =>
      dsimp only [toElementType]
      split <;> rfl
    | _ => rfl

/-- A map comes back with the element type it had. -/
theorem type_rereadEntries (h : (Value.object entries).isSayable = true) :
    (ofEntries 0 (rereadEntries entries)).type = (ofEntries 0 entries).type := by
  obtain ⟨hnodup, hsayable⟩ := isSayable_object h
  unfold ofEntries
  dsimp only
  cases hget : Entries.get? "type" entries with
  | none => rw [get?_rereadEntries_of_none hnodup hget]
  | some value =>
    have hvalue := isSayable_of_get? hsayable hget
    cases hkept : value.isOmitted with
    | true =>
      cases value with
      | undefined =>
        rw [get?_rereadEntries_of_undefined hnodup hget]
        rfl
      | component => cases hvalue
      | _ => cases hkept
    | false =>
      rw [get?_rereadEntries_of_kept hnodup hget hkept]
      exact toElementType_reread hvalue hkept

/-- A map comes back with the children it had, each as it comes back. -/
theorem children_rereadEntries (h : (Value.object entries).isSayable = true) :
    (ofEntries 0 (rereadEntries entries)).children = (ofEntries 0 entries).children.map reread := by
  obtain ⟨hnodup, hsayable⟩ := isSayable_object h
  unfold ofEntries
  dsimp only
  cases hget : Entries.get? "children" entries with
  | none =>
    rw [get?_rereadEntries_of_none hnodup hget]
    rfl
  | some value =>
    have hvalue := isSayable_of_get? hsayable hget
    cases value with
    | component | sequence | pending => cases hvalue
    | undefined =>
      rw [get?_rereadEntries_of_undefined hnodup hget]
      rfl
    | null | bool | str =>
      rw [get?_rereadEntries_of_kept hnodup hget rfl]
      rfl
    | list members => rw [get?_rereadEntries_of_kept hnodup hget rfl, reread_list]
    -- none of the others comes back as a list
    | number d =>
      obtain ⟨d', hreread, -⟩ := reread_number hvalue
      rw [get?_rereadEntries_of_kept hnodup hget rfl, List.map_singleton, hreread]
    | element e =>
      rw [get?_rereadEntries_of_kept hnodup hget rfl, List.map_singleton,
        reread_element (isSayable_element hvalue).2.1]
    | object map =>
      rw [get?_rereadEntries_of_kept hnodup hget rfl, List.map_singleton,
        reread_object (isSayable_object hvalue).1]

theorem isSayableAll_children (h : (Value.object entries).isSayable = true) :
    isSayableAll (ofEntries 0 entries).children = true := by
  unfold ofEntries
  dsimp only
  cases hget : Entries.get? "children" entries with
  | none => rfl
  | some value =>
    have hvalue := isSayable_of_get? (isSayable_object h).2 hget
    cases value with
    | undefined => rfl
    | list members => exact hvalue
    | _ => exact Bool.and_eq_true_iff.mpr ⟨hvalue, rfl⟩

end Element

end TaggedMarkup
