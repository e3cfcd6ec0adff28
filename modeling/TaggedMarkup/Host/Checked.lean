import TaggedMarkup.Host.Action

/-!
# Checked templates

Evaluate a template with the default binding, and make sure that the result is something worth
rendering. Several roots are spliced one level deep. Each root must be

* a string, or a number, which becomes its text,
* a falsy value, which becomes `""`,
* an element, or a map read as one, with a tag, no tag, or a component; list children are spliced
  one level deep,
* or a pending value, which becomes a pending value of the checked outcome.
-/

namespace TaggedMarkup.Checked

/-- The element has a type that can be rendered. -/
def hasUsableType : ElementType → Bool
  | .tag _ | .fragment | .component _ => true
  | .missing | .invalid _ => false

/-- The error for an element type that cannot be rendered. -/
def typeError (typeName : String) : Error :=
  .invalidResult
    ("Resolved to invalid type of object value \"type\" property: " ++ typeName)

/-- The error for a value of an unusable kind. -/
def kindError (typeName : String) : Error :=
  .invalidResult ("Resolved to invalid value type: " ++ typeName)

/-- Check an element. One without list children stays the same element. -/
def element (e : Element) (next : Value → Action) : Action :=
  if hasUsableType e.type then
    if e.children.any Value.isList then
      .element e.type e.props (Value.splice e.children) e.raw next
    else
      next (.element e)
  else
    .fail (typeError e.type.typeName)

/-- Check a map that is read as an element. -/
def entries (entries : Props) (next : Value → Action) : Action :=
  let e := Element.ofEntries 0 entries
  if hasUsableType e.type then
    .element e.type e.props (Value.splice e.children) e.raw next
  else
    .fail (typeError e.type.typeName)

/-- Check one root, and go on with its checked form. -/
def root (value : Value) (next : Value → Action) : Action :=
  match value with
  | .number d => next (.str d.text)
  | .undefined | .null | .bool false => next (.str "")
  | .str s => next (.str s)
  | .list _ => .fail .unexpectedNestedArray
  | .element e => element e next
  | .object map => entries map next
  | .pending cell => .checking cell next
  | .sequence _ => .fail (typeError "undefined")
  | .bool true | .component _ => .fail (kindError value.typeName)

/-- Check roots in order; the first error ends the check. -/
def roots : List Value → (List Value → Action) → Action
  | [], next => next []
  | value :: rest, next => root value fun checked => roots rest fun more => next (checked :: more)

/-- Check the result of a template. -/
def result (value : Value) (next : Value → Action) : Action :=
  match value with
  | .list members => roots (Value.splice members) fun checked => next (.list checked)
  | value => root value next

/-- A checked template. -/
def template (statics : Statics) (values : List Value) (next : Value → Action) : Action :=
  .template statics values fun value => result value next

end TaggedMarkup.Checked
