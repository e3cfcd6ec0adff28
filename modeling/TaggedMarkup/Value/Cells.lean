import TaggedMarkup.Value.Basic

/-!
# Cells in values

A value refers to the **cells** of its components, pending values and sequences, wherever they stand
in it. As long as a value is kept, so are they.
-/

namespace TaggedMarkup

/-- A cell of the world, by its kind and number. -/
inductive Cell where
  | component (cell : Nat)
  | pending (cell : Nat)
  | sequence (cell : Nat)
  deriving DecidableEq, Repr, Hashable

namespace ElementType

/-- The cells that an element type refers to. -/
def cells : ElementType → List Cell
  | component c => [.component c.cell]
  | _ => []

end ElementType

namespace Value

mutual

/-- The cells that a value refers to, in the order in which they stand in it. -/
def cells : Value → List Cell
  | list members => cellsOfAll members
  | sequence cell => [.sequence cell]
  | pending cell => [.pending cell]
  | element ⟨_, type, props, children, _⟩ =>
    type.cells ++ cellsOfEntries props ++ cellsOfAll children
  | component c => [.component c.cell]
  | object entries => cellsOfEntries entries
  | _ => []

def cellsOfAll : List Value → List Cell
  | [] => []
  | value :: rest => cells value ++ cellsOfAll rest

def cellsOfEntries : List (String × Value) → List Cell
  | [] => []
  | (_, value) :: rest => cells value ++ cellsOfEntries rest

end

end Value

end TaggedMarkup
