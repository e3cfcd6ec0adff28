import TaggedMarkup.Number.Rounding
import TaggedMarkup.Template.Evaluate

/-!
# Factories

The **element factory** builds plain elements and is the default. The others record each of their
calls on the bench and then build something simple, so that what they are told about an element can
be observed.
-/

namespace TaggedMarkup

/-- What a factory was told in one call. -/
structure FactoryCall where
  node : Node
  tag : Value
  props : Option Props
  /-- the number of children -/
  children : Nat

/-- What factories share: the next stamp for an element, and the recorded calls, the latest first. -/
structure Bench where
  stamp : Nat := 0
  calls : List FactoryCall := []

namespace Bench

/-- A new element. -/
def build (type : ElementType) (props : Props) (children : List Value) (raw : Bool) (b : Bench) :
    Value × Bench :=
  (.element ⟨b.stamp, type, props, children, raw⟩, { b with stamp := b.stamp + 1 })

end Bench

namespace Factory

/-- Build a plain element; props that are not stated are empty. -/
def element : Factory Bench := fun node tag props children b =>
  let (value, b) := b.build tag.toElementType (props.getD []) children false
  (value, node.flags, b)

/-- The kinds of recording factories. -/
inductive Kind where
  /-- build a plain element -/
  | element
  /-- obey the props `@static` and `@dynamic`, then build a plain element -/
  | marks
  /-- treat everything as dynamic -/
  | dynamic
  /-- treat everything as static -/
  | static
  /-- mark as dynamic, then as static, and return the tag -/
  | both
  /-- return the flags as a number -/
  | flags
  /-- return the tag -/
  | tag
  /-- return the tag, the props and the children as a list -/
  | tuple
  /-- return the number of recorded calls -/
  | count
  /-- return `undefined` -/
  | nothing
  deriving DecidableEq, Repr

/-- What a recording factory builds, once the call is recorded. -/
def ofKind (kind : Kind) : Factory Bench := fun node tag props children b =>
  match kind with
  | .element => element node tag props children b
  | .marks =>
    let stated (name : String) := Entries.contains name (props.getD [])
    let flags := if stated "@static" then node.flags.markStatic else node.flags
    let flags := if stated "@dynamic" then flags.markDynamic else flags
    element { node with flags } tag props children b
  | .dynamic => element { node with flags := node.flags.markDynamic } tag props children b
  | .static => element { node with flags := node.flags.markStatic } tag props children b
  | .both => (tag, node.flags.markDynamic.markStatic, b)
  | .flags => (.number (Double.ofNat node.flags.toNat), node.flags, b)
  | .tag => (tag, node.flags, b)
  | .tuple =>
    let props := match props with
      | some props => Value.object props
      | none => .null
    (.list [tag, props, .list children], node.flags, b)
  | .count => (.number (Double.ofNat b.calls.length), node.flags, b)
  | .nothing => (.undefined, node.flags, b)

/-- A factory of the given kind that records its calls. -/
def recording (kind : Kind) : Factory Bench := fun node tag props children b =>
  ofKind kind node tag props children
    { b with calls := ⟨node, tag, props, children.length⟩ :: b.calls }

end Factory

end TaggedMarkup
