/-!
# Errors

The ten causes for which a render or a checked template fails. Each carries the one detail that its
wording needs; `Error.message` is the wording.
-/

namespace TaggedMarkup

/-- Why a render or a checked template failed. -/
inductive Error where
  /-- an element without a type, with the start of its JSON text -/
  | malformedElement (preview : String)
  /-- an element type that is neither a string nor a component -/
  | invalidElementType (typeName : String)
  /-- a lowered tag name outside the tag grammar -/
  | invalidTagName (name : String)
  /-- a prop name outside the attribute grammar -/
  | invalidAttributeName (name : String)
  /-- a root that is missing, falsy or of an unusable kind -/
  | invalidRoot (message : String)
  /-- a bare item that has no markup -/
  | invalidItemType (typeName : String)
  /-- a raw element whose result is not a string -/
  | invalidRawResult (typeName : String)
  /-- a list where a single value belongs -/
  | unexpectedNestedArray
  /-- a checked template with an unusable root -/
  | invalidResult (message : String)
  /-- a component's own failure -/
  | componentError (message : String)
  deriving DecidableEq, Repr

namespace Error

/-- The wording of an error. -/
def message : Error → String
  | malformedElement preview => "Not an element definition. Missing type in: " ++ preview
  | invalidElementType typeName => "Invalid element type: " ++ typeName
  | invalidTagName name => "Invalid tag name: " ++ name
  | invalidAttributeName name => "Invalid attribute name: " ++ name
  | invalidRoot message => message
  | invalidItemType typeName => "Invalid render item type: " ++ typeName
  | invalidRawResult _ => "skipStringEscape can only be used with string results"
  | unexpectedNestedArray => "Unexpected nested array value found"
  | invalidResult message => message
  | componentError message => "Component error: " ++ message

/-- What an error carries. -/
def detail : Error → Option String
  | malformedElement d | invalidElementType d | invalidTagName d | invalidAttributeName d
  | invalidRoot d | invalidItemType d | invalidRawResult d | invalidResult d
  | componentError d => some d
  | unexpectedNestedArray => none

/-- The number of characters of an element's JSON text that an error shows. -/
def previewLength : Nat := 50

/-- The error for an element without a type, given its whole JSON text. -/
def malformed (json : String) : Error :=
  malformedElement (String.ofList (json.toList.take previewLength))

end Error

end TaggedMarkup
