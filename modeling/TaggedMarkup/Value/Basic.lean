import TaggedMarkup.Number.Text
import TaggedMarkup.Value.Entries

/-!
# Values

What a template can be filled with, what a factory can build and what can be rendered: a closed set
of kinds.

Three kinds stand for something that lives in a **cell** of the world and are known here by the
cell's number alone: components (code), pending values (one computation, shared) and lazy sequences
(drawn once). Elements are plain data; the **stamp** they get when they are built tells apart two
elements that look alike.
-/

namespace TaggedMarkup

/-- A component: the cell that holds its code, and its name in diagnostics. -/
structure Component where
  /-- the cell of the code; two components are equal exactly if they share it -/
  cell : Nat
  name : String
  deriving DecidableEq, Repr

/-- The type of an element. -/
inductive ElementType where
  /-- no type was given -/
  | missing
  /-- the empty tag: the children stand in place of the element -/
  | fragment
  /-- a tag name, as written -/
  | tag (name : String)
  | component (component : Component)
  /-- a type value of an unusable kind, by the name of that kind -/
  | invalid (typeName : String)
  deriving DecidableEq, Repr

/-- An element whose props and children are of type `α`. -/
structure ElementOf (α : Type) where
  /-- told apart from every element built before or after -/
  stamp : Nat
  type : ElementType
  /-- the attributes, or the arguments of the component -/
  props : List (String × α)
  children : List α
  /-- the component's result is trusted markup -/
  raw : Bool

/-- A value. -/
inductive Value where
  /-- nothing was given -/
  | undefined
  /-- deliberately empty -/
  | null
  | bool (b : Bool)
  | number (d : Double)
  | str (s : String)
  | list (members : List Value)
  /-- a lazy sequence, by its cell -/
  | sequence (cell : Nat)
  /-- a value that comes later, by its cell -/
  | pending (cell : Nat)
  | element (e : ElementOf Value)
  | component (c : Component)
  | object (entries : List (String × Value))

instance : Inhabited Value := ⟨.undefined⟩

/-- Named values, in the order in which their names first came. -/
abbrev Props := List (String × Value)

/-- An element. -/
abbrev Element := ElementOf Value

namespace ElementType

/-- The kind of the type value, by name. -/
def typeName : ElementType → String
  | missing => "undefined"
  | fragment | tag _ => "string"
  | component _ => "function"
  | invalid name => name

/-- The tag name, if the type is one. -/
def tag? : ElementType → Option String
  | tag name => some name
  | _ => none

end ElementType

namespace Value

/-- The kind of a value, by name. -/
def typeName : Value → String
  | undefined => "undefined"
  | bool _ => "boolean"
  | number _ => "number"
  | str _ => "string"
  | component _ => "function"
  | null | list _ | sequence _ | pending _ | element _ | object _ => "object"

/-- The values that count as false: `undefined`, `null`, `false`, the zeros, NaN and `""`. -/
def isFalsy : Value → Bool
  | undefined | null => true
  | bool b => !b
  | number d => d.isZero || d.isNaN
  | str s => s == ""
  | _ => false

/-- `undefined` or `null`. -/
def isNullish : Value → Bool
  | undefined | null => true
  | _ => false

def isList : Value → Bool
  | list _ => true
  | _ => false

/-- The text of a string value. -/
def str? : Value → Option String
  | str s => some s
  | _ => none

/-- The element of an element value. -/
def element? : Value → Option Element
  | element e => some e
  | _ => none

/-- The element type that a value denotes. -/
def toElementType : Value → ElementType
  | undefined => .missing
  | str name => if name = "" then .fragment else .tag name
  | component c => .component c
  | other => .invalid other.typeName

mutual

/-- The string form of a value. In a list the nullish members leave a gap. -/
def text : Value → String
  | undefined => "undefined"
  | null => "null"
  | bool b => if b then "true" else "false"
  | number d => d.text
  | str s => s
  | list members => String.intercalate "," (memberTexts members)
  | pending _ => "[object Promise]"
  | component c => "function " ++ c.name ++ "() \x7b\x7d"
  | sequence _ | element _ | object _ => "[object Object]"

def memberTexts : List Value → List String
  | [] => []
  | member :: rest => (if member.isNullish then "" else text member) :: memberTexts rest

end

/-- Splice list members into the list around them, one level deep. -/
def splice : List Value → List Value
  | [] => []
  | list members :: rest => members ++ splice rest
  | member :: rest => member :: splice rest

end Value

namespace Element

/-- Read an element off a map with the keys `type`, `props`, `children` and `skipStringEscape`.
A `children` value that is no list is the only child. -/
def ofEntries (stamp : Nat) (entries : Props) : Element where
  stamp := stamp
  type := match Entries.get? "type" entries with
    | some value => value.toElementType
    | none => .missing
  props := match Entries.get? "props" entries with
    | some (.object props) => props
    | _ => []
  children := match Entries.get? "children" entries with
    | some (.list children) => children
    | some .undefined | none => []
    | some child => [child]
  raw := match Entries.get? "skipStringEscape" entries with
    | some (.bool b) => b
    | _ => false

end Element

end TaggedMarkup
