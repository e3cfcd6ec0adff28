import TaggedMarkup.Template.Evaluate
import TaggedMarkup.Text.Trim

/-!
# Blueprints

A template as a tree, before it is written down: a **blueprint** is a text, a comment, a hole for a value,
or an element with its attributes and a list of blueprints inside it.

* **Printed**, blueprints are characters with gaps for the values. Cut at the gaps, they are the parts of
  a template.
* As **instructions**, they are what a template with these parts should be compiled to.
* With values for the holes, they **denote** the children that the template should build.

Holes are numbered in the order in which their gaps are printed, and elements in the order in which their
tags are. The stamps of elements, which count what has been built, come to children before their parent.
-/

namespace TaggedMarkup

/-! ## Prints -/

/-- What is printed: characters, and gaps for the values. -/
abbrev Print := List (Option Char)

namespace Print

def ofText (text : String) : Print := text.toList.map some

/-- The number of gaps. -/
def gaps (print : Print) : Nat := print.count none

/-- The parts between the gaps. -/
def parts (print : Print) : List String :=
  (print.splitOn none).map fun part => String.ofList part.reduceOption

@[simp] theorem gaps_nil : gaps [] = 0 := rfl

@[simp] theorem gaps_hole : gaps [none] = 1 := rfl

@[simp] theorem gaps_append (print more : Print) : gaps (print ++ more) = print.gaps + more.gaps :=
  List.count_append

/-- A print is characters, and after them nothing or a gap. -/
theorem exists_chars (print : Print) : ∃ cs : List Char,
    print = cs.map some ∨ ∃ more : Print, print = cs.map some ++ none :: more ∧
      more.length < print.length := by
  induction print with
  | nil => exact ⟨[], .inl rfl⟩
  | cons glyph rest ih =>
    cases glyph with
    | none => exact ⟨[], .inr ⟨rest, rfl, Nat.lt_succ_self _⟩⟩
    | some c =>
      obtain ⟨cs, rfl | ⟨more, rfl, hlength⟩⟩ := ih
      · exact ⟨c :: cs, .inl rfl⟩
      · exact ⟨c :: cs, .inr ⟨more, rfl, Nat.lt_succ_of_lt hlength⟩⟩

theorem none_notMem_map_some (cs : List Char) : none ∉ cs.map some := by
  rw [List.mem_map]
  rintro ⟨c, -, hc⟩
  cases hc

theorem gaps_map_some (cs : List Char) : gaps (cs.map some) = 0 :=
  List.count_eq_zero.mpr (none_notMem_map_some cs)

@[simp] theorem gaps_ofText (text : String) : gaps (ofText text) = 0 := gaps_map_some _

theorem reduceOption_map_some (cs : List Char) : (cs.map some).reduceOption = cs :=
  List.filterMap_map.trans List.filterMap_some

theorem parts_map_some (cs : List Char) : parts (cs.map some) = [String.ofList cs] := by
  rw [parts, List.splitOn_eq_singleton (none_notMem_map_some cs), List.map_singleton,
    reduceOption_map_some]

theorem parts_gap (cs : List Char) (more : Print) :
    parts (cs.map some ++ none :: more) = String.ofList cs :: more.parts := by
  rw [parts, List.splitOn_append_cons_self_of_not_mem (none_notMem_map_some cs), List.map_cons,
    reduceOption_map_some]
  rfl

/-- There is one part more than there are gaps. -/
theorem length_parts (print : Print) : print.parts.length = print.gaps + 1 := by
  obtain ⟨cs, rfl | ⟨more, rfl, hlength⟩⟩ := print.exists_chars
  · rw [parts_map_some, gaps_map_some]
    rfl
  · have hgap : gaps (none :: more) = more.gaps + 1 := List.count_cons_self
    rw [parts_gap, List.length_cons, length_parts, gaps_append, gaps_map_some,
      Nat.zero_add, hgap]
termination_by print.length

end Print

/-! ## Trees -/

namespace Blueprint

/-- A piece of the value of an attribute. -/
inductive Piece where
  | text (content : String)
  | hole

inductive Attribute where
  | flag (name : String)
  | value (name content : String)
  /-- a value with holes in it -/
  | mixed (name : String) (pieces : List Piece)
  /-- a hole for all the entries of a map -/
  | spread

inductive Tag where
  | named (name : String)
  | hole
  /-- no tag: a fragment -/
  | empty

/-- How an element is closed. -/
inductive Closing where
  /-- `</tag>`, where the tag is printed once more; the value of a hole in it does not count -/
  | tag
  /-- `</>` -/
  | bare
  /-- `<//>` -/
  | slashes
  /-- ` />` at the end of the opening tag -/
  | void
  deriving DecidableEq

end Blueprint

open Blueprint in
/-- A piece of a template. -/
inductive Blueprint where
  | text (content : String)
  | comment (body : String)
  | hole
  | element (tag : Tag) (attributes : List Attribute) (children : List Blueprint) (closing : Closing)

namespace Blueprint

open Print (ofText)

/-! ## Which blueprints can be printed -/

/-- The characters that mean something in a tag: blanks, quotes, and `=`, `/`, `>`. -/
def breaks : List Char := [' ', '\t', '\n', '\r', '"', '\'', '=', '/', '>']

/-- What can be read as a name in a tag. -/
structure IsName (name : String) : Prop where
  nonempty : name ≠ ""
  unbroken : ∀ c ∈ name.toList, c ∉ breaks

namespace Piece

def IsSound : Piece → Prop
  | text content => content ≠ "" ∧ '"' ∉ content.toList
  | hole => True

end Piece

namespace Attribute

def IsSound : Attribute → Prop
  | flag name => IsName name
  | value name content => IsName name ∧ '"' ∉ content.toList
  | mixed name pieces => IsName name ∧ ∀ piece ∈ pieces, piece.IsSound
  | spread => True

end Attribute

namespace Tag

/-- A tag could only be taken for a comment by how it begins. -/
def IsSound : Tag → Prop
  | named name => IsName name ∧ ¬ "!--".toList <+: name.toList
  | hole | empty => True

end Tag

/-- The blueprint is a text. -/
def IsText : Blueprint → Prop
  | text _ => True
  | _ => False

mutual

/-- Nothing in the blueprint can be taken for something else. -/
def IsSound : Blueprint → Prop
  | text content => content ≠ "" ∧ '<' ∉ content.toList ∧ Trim.text content = content
  | comment body => ¬ "-->".toList <:+: body.toList
  | hole => True
  | element tag attributes children closing =>
    tag.IsSound ∧ (∀ a ∈ attributes, a.IsSound) ∧ IsSoundAll children ∧
      (closing = .void → children = [])

/-- Besides, no text comes right after another one. -/
def IsSoundAll : List Blueprint → Prop
  | [] => True
  | blueprint :: rest => IsSound blueprint ∧ IsSoundAll rest ∧
    (IsText blueprint → ∀ next ∈ rest.head?, ¬ IsText next)

end

/-! Whether a blueprint can be printed is decided piece by piece. -/

instance (name : String) : Decidable (IsName name) :=
  decidable_of_iff (name ≠ "" ∧ name.toList.all (fun c => decide (c ∉ breaks)) = true)
    ⟨fun h => ⟨h.1, fun c hc => of_decide_eq_true (List.all_eq_true.mp h.2 c hc)⟩,
      fun h => ⟨h.nonempty, List.all_eq_true.mpr fun c hc => decide_eq_true (h.unbroken c hc)⟩⟩

instance : DecidablePred Piece.IsSound
  | .text content => inferInstanceAs (Decidable (content ≠ "" ∧ '"' ∉ content.toList))
  | .hole => inferInstanceAs (Decidable True)

instance : DecidablePred Attribute.IsSound
  | .flag name => inferInstanceAs (Decidable (IsName name))
  | .value name content => inferInstanceAs (Decidable (IsName name ∧ '"' ∉ content.toList))
  | .mixed name pieces =>
    inferInstanceAs (Decidable (IsName name ∧ ∀ piece ∈ pieces, piece.IsSound))
  | .spread => inferInstanceAs (Decidable True)

instance : DecidablePred Tag.IsSound
  | .named name =>
    inferInstanceAs (Decidable (IsName name ∧ ¬ "!--".toList <+: name.toList))
  | .hole | .empty => inferInstanceAs (Decidable True)

instance : DecidablePred IsText
  | .text _ => inferInstanceAs (Decidable True)
  | .comment _ | .hole | .element .. => inferInstanceAs (Decidable False)

mutual

def decideSound : (blueprint : Blueprint) → Decidable blueprint.IsSound
  | text content => inferInstanceAs
    (Decidable (content ≠ "" ∧ '<' ∉ content.toList ∧ Trim.text content = content))
  | comment body => inferInstanceAs (Decidable (¬ "-->".toList <:+: body.toList))
  | hole => inferInstanceAs (Decidable True)
  | element tag attributes children closing =>
    have := decideSoundAll children
    inferInstanceAs (Decidable (tag.IsSound ∧ (∀ a ∈ attributes, a.IsSound) ∧ IsSoundAll children ∧
      (closing = .void → children = [])))

def decideSoundAll : (blueprints : List Blueprint) → Decidable (IsSoundAll blueprints)
  | [] => inferInstanceAs (Decidable True)
  | blueprint :: rest =>
    have := decideSound blueprint
    have := decideSoundAll rest
    inferInstanceAs (Decidable (IsSound blueprint ∧ IsSoundAll rest ∧
      (IsText blueprint → ∀ next ∈ rest.head?, ¬ IsText next)))

end

instance (blueprints : List Blueprint) : Decidable (IsSoundAll blueprints) := decideSoundAll blueprints

/-! ## Printing -/

namespace Piece

def print : Piece → Print
  | text content => ofText content
  | hole => [none]

def printAll (pieces : List Piece) : Print := pieces.flatMap print

end Piece

namespace Attribute

def print : Attribute → Print
  | flag name => ofText " " ++ ofText name
  | value name content =>
    ofText " " ++ ofText name ++ ofText "=\"" ++ ofText content ++ ofText "\""
  | mixed name pieces =>
    ofText " " ++ ofText name ++ ofText "=\"" ++ Piece.printAll pieces ++ ofText "\""
  | spread => ofText " " ++ ofText "..." ++ [none]

def printAll (attributes : List Attribute) : Print := attributes.flatMap print

end Attribute

namespace Tag

def print : Tag → Print
  | named name => ofText name
  | hole => [none]
  | empty => []

end Tag

/-- What is printed between `</` and `>`. -/
def Closing.print (tag : Tag) : Closing → Print
  | .tag => tag.print
  | bare | void => []
  | slashes => ofText "/"

mutual

def print : Blueprint → Print
  | text content => ofText content
  | comment body => ofText "<!--" ++ ofText body ++ ofText "-->"
  | hole => [none]
  | element tag attributes children closing =>
    ofText "<" ++ tag.print ++ Attribute.printAll attributes ++
      if closing = .void then ofText " />"
      else ofText ">" ++ printAll children ++ (ofText "</" ++ closing.print tag ++ ofText ">")

def printAll : List Blueprint → Print
  | [] => []
  | blueprint :: rest => print blueprint ++ printAll rest

end

/-- The parts of the template. -/
def parts (blueprints : List Blueprint) : List String := (printAll blueprints).parts

/-! ## Instructions -/

mutual

/-- The number of elements. -/
def elements : Blueprint → Nat
  | text _ | comment _ | hole => 0
  | element _ _ children _ => elementsAll children + 1

def elementsAll : List Blueprint → Nat
  | [] => 0
  | blueprint :: rest => elements blueprint + elementsAll rest

end

namespace Piece

/-- The instruction for a piece of a value, which is the first one unless the value has `begun`. -/
def op (name : String) (begun : Bool) (operand : Operand) : Op :=
  if begun then .append name operand else .set name operand

/-- The instructions for the pieces of a value, after a text that is not one yet. Texts that follow one
another make one instruction. -/
def ops (name : String) : Bool → String → Nat → List Piece → List Op
  | begun, before, _, [] => if before = "" ∧ begun then [] else [op name begun (.fixed (.str before))]
  | begun, before, first, text content :: rest => ops name begun (before ++ content) first rest
  | begun, before, first, hole :: rest =>
    (if before = "" then [op name begun (.field first)]
      else [op name begun (.fixed (.str before)), op name true (.field first)]) ++
        ops name true "" (first + 1) rest

end Piece

namespace Attribute

def ops (first : Nat) : Attribute → List Op
  | flag name => [.set name (.fixed (.bool true))]
  | value name content => [.set name (.fixed (.str content))]
  | mixed name pieces => Piece.ops name false "" first pieces
  | spread => [.spread first]

def opsAll : Nat → List Attribute → List Op
  | _, [] => []
  | first, a :: rest => a.ops first ++ opsAll (first + a.print.gaps) rest

end Attribute

def Tag.ops (first : Nat) : Tag → List Op
  | named name => [.tag (.fixed (.str name))]
  | hole => [.tag (.field first)]
  | empty => []

mutual

/-- The instructions, where `first` is the number of the next hole and `block` that of the next element. -/
def ops (first block : Nat) : Blueprint → List Op
  | text content => [.child (.fixed (.str content))]
  | comment _ => []
  | hole => [.child (.field first)]
  | element tag attributes children _ =>
    let inside := first + tag.print.gaps
    [.element block (tag.ops first ++ Attribute.opsAll inside attributes ++
      opsAll (inside + (Attribute.printAll attributes).gaps) (block + 1) children)]

def opsAll (first block : Nat) : List Blueprint → List Op
  | [] => []
  | blueprint :: rest => ops first block blueprint ++
    opsAll (first + (print blueprint).gaps) (block + elements blueprint) rest

end

/-! ## Meaning -/

namespace Piece

/-- The string form of a piece, with values for the holes. -/
def content (values : List Value) (first : Nat) : Piece → String
  | text content => content
  | hole => (values.getD first .undefined).text

def contentAll (values : List Value) : Nat → List Piece → String
  | _, [] => ""
  | first, piece :: rest =>
    piece.content values first ++ contentAll values (first + piece.print.gaps) rest

/-- The value that pieces make: a hole by itself keeps its value, and pieces together are a text. -/
def denote (values : List Value) (first : Nat) : List Piece → Value
  | [hole] => values.getD first .undefined
  | pieces => .str (contentAll values first pieces)

end Piece

namespace Attribute

/-- The props with the entries of a map; any other value adds nothing. -/
def spreadOver (value : Value) (props : Props) : Props :=
  match value with
  | .object entries => Entries.merge props entries
  | _ => props

/-- The props with what the attribute adds to them. -/
def apply (values : List Value) (first : Nat) (a : Attribute) (props : Props) : Props :=
  match a with
  | flag name => Entries.put name (.bool true) props
  | value name content => Entries.put name (.str content) props
  | mixed name pieces => Entries.put name (Piece.denote values first pieces) props
  | spread => spreadOver (values.getD first .undefined) props

/-- Attributes count from left to right. -/
def applyAll (values : List Value) : Nat → List Attribute → Props → Props
  | _, [], props => props
  | first, a :: rest, props =>
    applyAll values (first + a.print.gaps) rest (a.apply values first props)

end Attribute

def Tag.denote (values : List Value) (first : Nat) : Tag → Value
  | named name => .str name
  | hole => values.getD first .undefined
  | empty => .str ""

mutual

/-- The children that a blueprint stands for, where `first` is the number of the next hole and `stamp`
the next stamp. -/
def denote (values : List Value) (first stamp : Nat) : Blueprint → List Value
  | text content => [.str content]
  | comment _ => []
  | hole => [values.getD first .undefined]
  | element tag attributes children _ =>
    let inside := first + tag.print.gaps
    [.element
      { stamp := stamp + elementsAll children
        type := (tag.denote values first).toElementType
        props := Attribute.applyAll values inside attributes []
        children := denoteAll values (inside + (Attribute.printAll attributes).gaps) stamp children
        raw := false }]

def denoteAll (values : List Value) (first stamp : Nat) : List Blueprint → List Value
  | [] => []
  | blueprint :: rest => denote values first stamp blueprint ++
    denoteAll values (first + (print blueprint).gaps) (stamp + elements blueprint) rest

end

end Blueprint

end TaggedMarkup
