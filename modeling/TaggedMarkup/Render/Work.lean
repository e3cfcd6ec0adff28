import TaggedMarkup.Host.World

/-!
# Work

What is left to do of a render, as a **stack**: the piece to do next is on top. Nothing is done
before it is on top and asked for, so a render is as far along as its fragments have been taken.

A list is either rendered member by member, or through a **window**: up to a number of members are
in work at once, each with a stack and a task of its own, and their fragments are held back until
all members before them are through.
-/

namespace TaggedMarkup

/-- The members of a list or sequence that have not been drawn. -/
structure Feed where
  /-- the sequence they come from, with its label; drawing from a list goes unnoticed -/
  origin : Option (Nat × Option String) := none
  /-- the number of the next member -/
  index : Nat := 0
  /-- the members, each with the time it takes to be ready -/
  members : List (Nat × Value)
  /-- when the next member is ready, once it has been asked for -/
  deadline : Option Nat := none

namespace Feed

/-- The members of a list, all of them ready. -/
def ofList (members : List Value) : Feed := { members := members.map fun member => (0, member) }

/-- The values that have not been drawn. -/
def held (f : Feed) : List Value := f.members.map (·.2)

end Feed

/-- What becomes of a value that was awaited. -/
inductive Resumption where
  /-- it is rendered by the rules for roots -/
  | root
  /-- it is rendered by the rules for items -/
  | item
  /-- it is trusted markup -/
  | markup
  deriving DecidableEq, Repr

/-- A list in work: its window, what has not been drawn, and its members in work, in order. The
children of an element keep the whole element until the last of them is through. -/
structure LineupOf (μ : Type) where
  /-- the cell of the window -/
  window : Nat
  feed : Feed
  kept : List Value
  members : List μ

mutual

/-- A piece of work. -/
inductive Work where
  | emit (fragment : String)
  | fail (error : Error)
  /-- nothing to do; that this point was reached is written down -/
  | note (event : Event)
  /-- a value by the rules for roots -/
  | root (value : Value)
  /-- a root that is not, or no longer, awaited -/
  | settled (value : Value)
  /-- a value by the rules for items -/
  | item (value : Value)
  /-- a pending value, with the seat taken there -/
  | await (pending : Nat) (seat : Option Nat) (resumption : Resumption)
  /-- one prop of a tag -/
  | prop (name : String) (value : Value)
  /-- the children of an element -/
  | children (element : Element)
  /-- members that are drawn and rendered one after the other -/
  | draw (feed : Feed)
  /-- members that are rendered ahead -/
  | ahead (lineup : LineupOf Member)

/-- A member in a window. -/
inductive Member where
  /-- in work: its task, its fragments so far, the latest first, and what is left to do -/
  | running (task : Nat) (fragments : List String) (stack : List Work)
  /-- through, and held back -/
  | finished (fragments : List String)
  /-- failed; its fragments do not count -/
  | failed (error : Error)

end

mutual

/-- The values that a piece of work keeps. -/
def Work.held : Work → List Value
  | .root value | .settled value | .item value | .prop _ value => [value]
  | .await pending _ _ => [.pending pending]
  | .children element => [.element element]
  | .draw feed => feed.held
  | .ahead lineup => lineup.feed.held ++ lineup.kept ++ Member.heldByAll lineup.members
  | .emit _ | .fail _ | .note _ => []

/-- The values that a stack keeps. -/
def Work.heldByAll : List Work → List Value
  | [] => []
  | work :: rest => work.held ++ Work.heldByAll rest

/-- The values that a member in a window keeps. -/
def Member.held : Member → List Value
  | .running _ _ stack => Work.heldByAll stack
  | .finished _ | .failed _ => []

/-- The values that the members in a window keep. -/
def Member.heldByAll : List Member → List Value
  | [] => []
  | member :: rest => member.held ++ Member.heldByAll rest

end

/-- The member is in work, as this task. -/
def Member.isTask (task : Nat) : Member → Bool
  | .running t _ _ => t == task
  | _ => false

/-- A list in work. -/
abbrev Lineup := LineupOf Member

end TaggedMarkup
