import TaggedMarkup.Value.Basic

/-!
# Records

A record becomes props **field by field**, in the order of its fields: a field may be given another
name, or be left out. `Link` is such a record.
-/

namespace TaggedMarkup

namespace Value

/-- The value of something that may be missing. -/
def ofOption {α : Type} (toValue : α → Value) : Option α → Value
  | some a => toValue a
  | none => undefined

end Value

/-- A field of a record, as it becomes a prop. -/
structure RecordField where
  name : String
  /-- the name of the prop, if it differs -/
  rename : Option String := none
  /-- the field is left out -/
  skip : Bool := false
  value : Value

namespace RecordField

/-- The props of a record with these fields. -/
def toProps (fields : List RecordField) : Props :=
  Entries.ofList ((fields.filter fun field => !field.skip).map fun field =>
    (field.rename.getD field.name, field.value))

end RecordField

/-- A link in a page. -/
structure Link where
  href : String
  label : Option String
  hidden : Bool
  tags : List String
  visits : Nat := 0

namespace Link

/-- The props of a link: the label is its accessible name, and the visits are nobody's business. -/
def toProps (link : Link) : Props :=
  RecordField.toProps [
    { name := "href", value := .str link.href },
    { name := "label", rename := some "aria-label", value := .ofOption .str link.label },
    { name := "visits", skip := true, value := .undefined },
    { name := "hidden", value := .bool link.hidden },
    { name := "tags", value := .list (link.tags.map .str) }]

/-- A link as a value. -/
def toValue (link : Link) : Value := .object link.toProps

end Link

end TaggedMarkup
