import TaggedMarkup.Number.Rounding
import TaggedMarkup.Json
import TaggedMarkup.Value.Basic

/-!
# Values and JSON

The JSON form of a value keeps what JSON can say. Components and `undefined` are **omitted** from
maps and are `null` elsewhere; pending values and sequences become empty objects; an element becomes
the map that `Element.ofEntries` reads.
-/

namespace TaggedMarkup

namespace Double

/-- The JSON form of a number: an integer below `2 ^ 53`, `null` if it is not finite. -/
def toJson (d : Double) : Json :=
  if d.isFinite then
    match d.toInt? with
    | some n => if n.natAbs < twoTo 53 then .int n else .float d
    | none => .float d
  else
    .null

end Double

namespace Value

/-- Left out of maps. -/
def isOmitted : Value → Bool
  | undefined | component _ => true
  | _ => false

/-- The entry that states an element's type, if JSON can say it. -/
def typeEntry : ElementType → List (String × Json)
  | .fragment => [("type", .str "")]
  | .tag name => [("type", .str name)]
  | _ => []

mutual

/-- The JSON form of a value. -/
def toJson : Value → Json
  | undefined | null | component _ => .null
  | bool b => .bool b
  | number d => d.toJson
  | str s => .str s
  | list members => .arr (membersToJson members)
  | object entries => .obj (entriesToJson entries)
  | element ⟨_, type, props, children, raw⟩ =>
    .obj (typeEntry type ++
      [("props", .obj (entriesToJson props)), ("children", .arr (membersToJson children))] ++
      if raw then [("skipStringEscape", .bool true)] else [])
  | sequence _ | pending _ => .obj []

def membersToJson : List Value → List Json
  | [] => []
  | member :: rest => toJson member :: membersToJson rest

def entriesToJson : List (String × Value) → List (String × Json)
  | [] => []
  | (key, value) :: rest =>
    if value.isOmitted then entriesToJson rest else (key, toJson value) :: entriesToJson rest

end

mutual

/-- The value that a JSON value denotes. -/
def ofJson : Json → Value
  | .null => null
  | .bool b => bool b
  | .int n => number (Double.ofInt n)
  | .float d => number d
  | .str s => str s
  | .arr members => list (membersOfJson members)
  | .obj members => object (Entries.ofList (entriesOfJson members))

def membersOfJson : List Json → List Value
  | [] => []
  | member :: rest => ofJson member :: membersOfJson rest

def entriesOfJson : List (String × Json) → List (String × Value)
  | [] => []
  | (key, value) :: rest => (key, ofJson value) :: entriesOfJson rest

end

end Value

end TaggedMarkup
