import TaggedMarkup.Template.Evaluate
import TaggedMarkup.Text.Escape
import TaggedMarkup.Text.Lowercase
import TaggedMarkup.Text.Name
import TaggedMarkup.Text.Trim

/-!
# Outlines

What a value is as markup, less everything that does not show: its **outline** is a sequence of texts,
escaped, and of tags with their props and an outline of their children. Nullish values leave nothing;
lists and fragments leave their members, in place. An element-like map is the element that is read off
it.

* A value is **still** if nothing in it is called, awaited or drawn.
* Its **normal form** is the value that its markup stands for: tags in lower case, props as far as they
  are written, and each run of adjacent texts as one text without the layout at its ends.
-/

namespace TaggedMarkup

namespace Entries

variable {α : Type}

theorem get?_eq_none_of_notMem {key : String} {entries : List (String × α)} (h : key ∉ keys entries) :
    get? key entries = none := by
  induction entries with
  | nil => rfl
  | cons entry rest ih =>
    rw [keys, List.map_cons, List.mem_cons, not_or] at h
    rw [get?, if_neg fun hk => h.1 hk.symm, ih h.2]

theorem contains_of_get? {key : String} {entries : List (String × α)} {value : α}
    (h : get? key entries = some value) : contains key entries = true := by
  induction entries with
  | nil => cases h
  | cons entry rest ih =>
    rw [contains, List.any_cons, Bool.or_eq_true]
    rw [get?] at h
    split at h
    · rename_i hkey
      exact .inl (decide_eq_true hkey)
    · exact .inr (ih h)

theorem put_of_notMem {key : String} {entries : List (String × α)} (h : key ∉ keys entries)
    (value : α) : put key value entries = entries ++ [(key, value)] := by
  induction entries with
  | nil => rfl
  | cons entry rest ih =>
    obtain ⟨k, v⟩ := entry
    rw [keys, List.map_cons, List.mem_cons, not_or] at h
    rw [put, if_neg fun hk => h.1 hk.symm, ih h.2, List.cons_append]

/-- Entries whose keys are all new are added as they are. -/
theorem merge_eq_append {entries more : List (String × α)} (h : (keys (entries ++ more)).Nodup) :
    merge entries more = entries ++ more := by
  induction more generalizing entries with
  | nil => exact (List.append_nil entries).symm
  | cons entry rest ih =>
    obtain ⟨key, value⟩ := entry
    have hnew : key ∉ keys entries := by
      intro hkey
      rw [keys, List.map_append, List.nodup_append] at h
      exact h.2.2 key hkey key List.mem_cons_self rfl
    have happend : entries ++ (key, value) :: rest = entries ++ [(key, value)] ++ rest := by
      rw [List.append_assoc, List.singleton_append]
    rw [happend] at h ⊢
    rw [← ih h, ← put_of_notMem hnew]
    rfl

/-- A map with each key once is what its entries describe. -/
theorem ofList_of_nodup {entries : List (String × α)} (h : (keys entries).Nodup) :
    ofList entries = entries := by
  have hnodup : (keys ([] ++ entries)).Nodup := h
  exact merge_eq_append hnodup

end Entries

/-- A piece of an outline. -/
inductive Outline where
  /-- text, as it is written -/
  | text (content : String)
  | tag (name : String) (props : Props) (children : List Outline)
  /-- nothing that can be rendered -/
  | broken
  /-- something that is called, awaited or drawn before it shows -/
  | live

namespace Element

/-- An element of a type, given the outline of its children. -/
def outlineOf (type : ElementType) (props : Props) (children : List Outline) : List Outline :=
  match type with
  | .tag name => [.tag name props children]
  | .fragment => children
  | .component _ => [.live]
  | .missing | .invalid _ => [.broken]

/-- A map that an element with a type is read off has a type. -/
theorem contains_of_type {stamp : Nat} {entries : Props} (h : (ofEntries stamp entries).type ≠ .missing) :
    Entries.contains "type" entries = true := by
  unfold ofEntries at h
  dsimp only at h
  cases hget : Entries.get? "type" entries with
  | none =>
    rw [hget] at h
    exact absurd rfl h
  | some type => exact Entries.contains_of_get? hget

end Element

namespace Value

mutual

/-- The outline of a value. -/
def outline : Value → List Outline
  | undefined | null => []
  | str text => [.text (Escape.text text)]
  | number d => [.text d.text]
  | list members => outlineAll members
  | element ⟨_, type, props, children, _⟩ => Element.outlineOf type props (outlineAll children)
  | object entries =>
    if Entries.contains "type" entries then
      let e := Element.ofEntries 0 entries
      Element.outlineOf e.type e.props (outlineAt "children" entries)
    else
      [.broken]
  | bool _ | component _ => [.broken]
  | sequence _ | pending _ => [.live]

/-- The outline of values one after the other. -/
def outlineAll : List Value → List Outline
  | [] => []
  | value :: rest => outline value ++ outlineAll rest

/-- The outline of the value at a key, if there is one. -/
def outlineAt (key : String) : List (String × Value) → List Outline
  | [] => []
  | (k, value) :: rest => if k = key then outline value else outlineAt key rest

end

theorem outlineAt_eq_get? (key : String) (entries : Props) :
    outlineAt key entries = ((Entries.get? key entries).map outline).getD [] := by
  induction entries with
  | nil => rfl
  | cons entry rest ih =>
    obtain ⟨k, value⟩ := entry
    by_cases h : k = key
    · simp only [outlineAt, Entries.get?, h, if_true, Option.map_some, Option.getD_some]
    · simp only [outlineAt, Entries.get?, h, if_false, ih]

/-- An element-like map has the outline of the element that is read off it. -/
theorem outline_object {entries : Props} (h : Entries.contains "type" entries = true) :
    outline (.object entries) = outline (.element (Element.ofEntries 0 entries)) := by
  have hchildren : outlineAt "children" entries =
      outlineAll (Element.ofEntries 0 entries).children := by
    rw [outlineAt_eq_get?, Element.ofEntries]
    cases hget : Entries.get? "children" entries with
    | none => rfl
    | some value =>
      cases value with
      | list members => rw [Option.map_some, Option.getD_some, outline]
      | undefined => rfl
      | _ => simp only [Option.map_some, Option.getD_some, outlineAll, List.append_nil]
  have hobject : outline (.object entries) = Element.outlineOf (Element.ofEntries 0 entries).type
      (Element.ofEntries 0 entries).props (outlineAt "children" entries) := by
    simp only [outline, h, if_true]
  rw [hobject, hchildren]
  rfl

end Value

namespace Outline

mutual

/-- Nothing is called, awaited or drawn. -/
def isStill : Outline → Bool
  | live => false
  | tag _ _ children => isStillAll children
  | text _ | broken => true

def isStillAll : List Outline → Bool
  | [] => true
  | piece :: rest => isStill piece && isStillAll rest

end

/-- The value of a prop as far as it is written: `true`, or the text between the quotes. -/
def keptProp : Value → Option Value
  | .bool true => some (.bool true)
  | .str content => some (.str (Escape.text content))
  | .number d => some (.str d.text)
  | _ => none

/-- The props that are written, in order. -/
def writtenProps (props : Props) : Props :=
  props.filterMap fun p => (keptProp p.2).map fun kept => (p.1, kept)

/-- The props that are read back: the ones that are written. Props have their names once each; of a name
that was there twice, the last value would count. -/
def keptProps (props : Props) : Props := Entries.ofList (writtenProps props)

/-- A run of texts as one child, or none if only layout is left. -/
def child (run : String) : List Value :=
  let text := Trim.text run
  if text = "" then [] else [.str text]

mutual

/-- The children that are read back from an outline, after a run of texts. -/
def readAfter (run : String) : List Outline → List Value
  | [] => child run
  | .text content :: rest => readAfter (run ++ content) rest
  | piece :: rest => child run ++ readPiece piece ++ readAfter "" rest

/-- What is read back from a piece that is no text. -/
def readPiece : Outline → List Value
  | tag name props children =>
    [.element ⟨0, .tag (Case.lowered name), keptProps props,
      if Name.isVoid name then [] else readAfter "" children, false⟩]
  | _ => []

end

/-- Props that have their names once each are read back as they are written. -/
theorem keptProps_eq_writtenProps {props : Props} (h : (Entries.keys props).Nodup) :
    keptProps props = writtenProps props := by
  have hsublist : ∀ props : Props, (Entries.keys (writtenProps props)).Sublist (Entries.keys props) := by
    intro props
    induction props with
    | nil => exact .slnil
    | cons p rest ih =>
      unfold writtenProps Entries.keys
      rw [List.filterMap_cons]
      cases keptProp p.2 with
      | none => exact ih.cons _
      | some kept => exact ih.cons_cons _
  exact Entries.ofList_of_nodup (h.sublist (hsublist props))

end Outline

namespace Value

/-- The value is rendered without a call, a wait or a draw. -/
def isStill (value : Value) : Bool := Outline.isStillAll value.outline

/-- What is read back from the markup of a value. -/
def normalForm (value : Value) : Value := Setting.ofRoots (Outline.readAfter "" value.outline)

end Value

end TaggedMarkup
