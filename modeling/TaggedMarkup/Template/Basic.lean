import TaggedMarkup.Value.Basic

/-!
# Compiled templates

A template is its static **parts**; the values of one use go into the gaps between them. Compiled, it
is a tree of instructions: the instructions at the root build the roots, and an `element`
instruction carries those that build one element.

Each element has a **block number**, counted from 1 in the order in which the elements open; the
root is block 0. The number names the element in fold cells and diagnostics.
-/

namespace TaggedMarkup

/-- Where an instruction takes its value from. -/
inductive Operand where
  /-- stated by the template -/
  | fixed (value : Value)
  /-- the value with this number -/
  | field (index : Nat)

/-- One instruction for the element (or the root) that holds it. -/
inductive Op where
  | tag (operand : Operand)
  /-- put every entry of a map value into the props -/
  | spread (field : Nat)
  | set (name : String) (operand : Operand)
  /-- extend the string form of a prop -/
  | append (name : String) (operand : Operand)
  | child (operand : Operand)
  /-- build a child element -/
  | element (block : Nat) (body : List Op)

/-- A compiled template. -/
structure Template where
  /-- the instructions of block 0 -/
  root : List Op
  /-- the number of gaps between the parts -/
  fields : Nat

namespace Op

mutual

/-- The blocks of an instruction with their numbers, in the order in which they open. -/
def blocks : Op → List (Nat × List Op)
  | element block body => (block, body) :: blocksOfAll body
  | _ => []

/-- The blocks of a list of instructions. -/
def blocksOfAll : List Op → List (Nat × List Op)
  | [] => []
  | op :: rest => blocks op ++ blocksOfAll rest

end

end Op

namespace Template

/-- All blocks of a template with their numbers, the root first. -/
def blocks (t : Template) : List (Nat × List Op) := (0, t.root) :: Op.blocksOfAll t.root

end Template

/-- The static parts of a template and the identity under which it is compiled. -/
structure Statics where
  id : String
  parts : List String

namespace Statics

/-- The identity that parts have by their content: each part with its length in bytes before it, so
that different lists of parts never share one. -/
def contentId (parts : List String) : String :=
  String.join (parts.map fun part =>
    String.ofList (Nat.toDigits 10 part.utf8ByteSize) ++ ":" ++ part)

/-- Parts identified by their content. -/
def ofParts (parts : List String) : Statics := ⟨contentId parts, parts⟩

end Statics

end TaggedMarkup
