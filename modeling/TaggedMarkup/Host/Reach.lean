import Std.Data.HashSet
import TaggedMarkup.Host.World
import TaggedMarkup.Value.Cells

/-!
# What is in reach

Cells never go away, but a cell may get **out of reach**: no value that is kept refers to it any
more, directly or through other cells in reach. Nothing can bring such a cell back.

What a cell refers to is what its code, its work or its outcome keeps.
-/

namespace TaggedMarkup

namespace PendingCell

/-- The values that a pending value keeps: its outcome once it is done, and before what its job
needs. -/
def kept (c : PendingCell) : List Value :=
  match c.stage, c.job with
  | .done (.ok value), _ => [value]
  | .done (.error _), _ => []
  | .gone, _ => []
  | _, .after _ keeps _ => keeps
  | _, .checking source => [.pending source]

end PendingCell

namespace SequenceCell

/-- The values that a sequence keeps until it is taken. -/
def kept (c : SequenceCell) : List Value := if c.taken then [] else c.members.map (·.2)

end SequenceCell

namespace World

/-- The values that a cell keeps. -/
def keptBy (cell : Cell) (w : World) : List Value :=
  match cell with
  | .component n => match w.components[n]? with
    | some c => c.keeps
    | none => []
  | .pending n => match w.pendings[n]? with
    | some c => c.kept
    | none => []
  | .sequence n => match w.sequences[n]? with
    | some c => c.kept
    | none => []

/-- The values that are kept whatever is rendered: those with names, those kept from outside, and
those folded in templates that are cached. -/
def roots (w : World) : List Value := w.names.map (·.2) ++ w.kept ++ w.workshop.folded

/-- The number of cells that values can refer to. -/
def cellCount (w : World) : Nat := w.components.size + w.pendings.size + w.sequences.size

/-- Add the cells that can be reached from `todo` to those `seen`, at most `unseen` of them. -/
def walk (w : World) : Nat → List Cell → Std.HashSet Cell → Std.HashSet Cell
  | _, [], seen => seen
  | 0, _ :: _, seen => seen
  | unseen + 1, cell :: rest, seen =>
    if seen.contains cell then
      walk w (unseen + 1) rest seen
    else
      walk w unseen (Value.cellsOfAll (w.keptBy cell) ++ rest) (seen.insert cell)
termination_by unseen todo => (unseen, todo.length)

/-- The cells in reach of the roots and of the values in `held`. Every cell is seen at most once. -/
def reach (held : List Value) (w : World) : Std.HashSet Cell :=
  w.walk w.cellCount (Value.cellsOfAll (held ++ w.roots)) ∅

end World

end TaggedMarkup
