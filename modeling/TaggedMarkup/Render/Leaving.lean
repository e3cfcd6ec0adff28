import TaggedMarkup.Host.Reach
import TaggedMarkup.Render.Work

/-!
# Leaving

A render that is given up, or a member that failed, will not come back to the pending values it was
waiting for. It **gives up its seats** there, the members of a window one after the other, the one
that had the latest turn first.

A pending value that waits for another one goes on waiting when nobody waits for it any more: it is
**forsaken**. Only when it is out of reach as well, so that nobody can ask for it again, does it
give up its own seat, and it does so at once.
-/

namespace TaggedMarkup

/-- What is in work around a member of a window: the other members and what has not been drawn, and
what its owner does afterwards. -/
structure Surrounding where
  /-- the task of the member -/
  task : Nat
  lineup : Lineup
  /-- what the owner does after the list -/
  rest : List Work

namespace Surrounding

/-- The values that the surrounding keeps. -/
def held (s : Surrounding) : List Value :=
  let others := s.lineup.members.filter fun member => !member.isTask s.task
  s.lineup.feed.held ++ s.lineup.kept ++ Member.heldByAll others ++ Work.heldByAll s.rest

end Surrounding

/-- One thing that is let go of: a seat at a pending value, if any, and values. -/
structure Parting where
  seat : Option (Nat × Nat) := none
  values : List Value := []

mutual

/-- What is let go of with a piece of work, in order. -/
def Work.partings (w : World) : Work → List Parting
  | .await pending seat _ =>
    [{ seat := seat.map fun seat => (pending, seat), values := [.pending pending] }]
  | .ahead lineup =>
    let partings := Member.partingsOfAll w lineup.members
    let recent := match w.windows[lineup.window]? with
      | some cell => cell.recent
      | none => []
    { values := lineup.feed.held ++ lineup.kept } ::
      recent.flatMap fun task => (partings.lookup task).getD []
  | work => [{ values := work.held }]

/-- What is let go of with a stack, in order. -/
def Work.partingsOfAll (w : World) : List Work → List Parting
  | [] => []
  | work :: rest => work.partings w ++ Work.partingsOfAll w rest

/-- What is let go of with a member in work, with its task. -/
def Member.partings (w : World) : Member → List (Nat × List Parting)
  | .running task _ stack => [(task, Work.partingsOfAll w stack)]
  | _ => []

/-- What is let go of with the members of a list, by task. -/
def Member.partingsOfAll (w : World) : List Member → List (Nat × List Parting)
  | [] => []
  | member :: rest => member.partings w ++ Member.partingsOfAll w rest

end

namespace World

/-- The pending value waits for another one, and nobody has a seat there. -/
def isForsaken (pending : Nat) (w : World) : Bool :=
  match w.pendings[pending]? with
  | some cell => match cell.stage with
    | .seated _ => cell.waiters.isEmpty
    | _ => false
  | none => false

/-- Give up the seat at a pending value that is not done. -/
def giveUp (pending seat : Nat) (w : World) : World :=
  let w := w.modifyPending pending fun cell =>
    match cell.stage with
    | .done _ => cell
    | _ => { cell with waiters := cell.waiters.leave seat }
  if w.isForsaken pending then
    { w with forsaken := (pending :: w.forsaken.erase pending).mergeSort }
  else
    w

/-- A pending value out of reach gives up its seat at the one it waits for. -/
def letGo (pending : Nat) (w : World) : World :=
  let w := { w with forsaken := w.forsaken.erase pending }
  match w.pendings[pending]? with
  | some cell => match cell.job, cell.stage with
    | .checking source, .seated seat =>
      (w.modifyPending pending fun cell => { cell with stage := .gone }).giveUp source seat
    | _, _ => w
  | none => w

/-- Let go of the forsaken pending values out of reach, at most `count` of them, one after the
other. One that is let go of may leave another one forsaken. -/
def letGoOfAll (reached : Std.HashSet Cell) : Nat → World → World
  | 0, w => w
  | count + 1, w =>
    let lost (pending : Nat) : Bool :=
      w.isForsaken pending && !reached.contains (.pending pending)
    match w.forsaken.find? lost with
    | some pending => letGoOfAll reached count (w.letGo pending)
    | none => { w with forsaken := w.forsaken.filter w.isForsaken }

/-- Let go of whatever got out of reach, while a render keeps the values in `held`. They are only
looked at if some pending value is forsaken. -/
@[macro_inline]
def tidied (held : List Value) (w : World) : World :=
  if w.forsaken.isEmpty then w else w.letGoOfAll (w.reach held) (w.pendings.size + 1)

/-- Let go of one thing after the other, while a render keeps what is `around`. -/
def part (around : List Surrounding) : List Parting → World → World
  | [], w => w
  | parting :: rest, w =>
    let w := match parting.seat with
      | some (pending, seat) => w.giveUp pending seat
      | none => w
    let w := w.tidied (rest.flatMap (·.values) ++ around.flatMap Surrounding.held)
    part around rest w

/-- Let go of a stack that is not going to be worked off. -/
def abandon (around : List Surrounding) (stack : List Work) (w : World) : World :=
  w.part around (Work.partingsOfAll w stack)

end World

end TaggedMarkup
