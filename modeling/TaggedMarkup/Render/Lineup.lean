import TaggedMarkup.Render.Rules

/-!
# Lists in work

A list that is rendered ahead has a **window** of members in work or held back. New members come in
at the back, each with a task of its own that queues up for a turn; what is through goes out at the
front. So members come in and go out in their order, and there are never more than `ahead`.
-/

namespace TaggedMarkup

/-- How a turn of a window ends. -/
inductive WindowTurn where
  /-- the first member is through, the one with this number -/
  | through (member : Nat) (fragments : List String)
  | failed (error : Error)
  | ended
  | blocked
  deriving DecidableEq, Repr

namespace World

/-- Take the next task off the queue of a window. -/
def dequeue? (window : Nat) (w : World) : Option (Nat × World) :=
  match w.windows[window]? with
  | some cell =>
    match cell.queue with
    | task :: queue => some (task, w.modifyWindow window fun cell => { cell with queue })
    | [] => none
  | none => none

/-- Start the task of a member, given its number, and queue it up. -/
def enlist (window member : Nat) (w : World) : Nat × World :=
  let (task, w) := (w.note (.entered window member)).newTask
    { window := some window, queued := true }
  (task, w.modifyWindow window fun cell =>
    { cell with queue := cell.queue ++ [task], recent := task :: cell.recent })

/-- A task's turn begins: whatever it is told from now on counts. -/
def beginTurn (task : Nat) (w : World) : World :=
  w.modifyTask task fun cell => { cell with queued := false, woken := false }

/-- A member's turn ended with a wait. -/
def suspend (window task : Nat) (w : World) : World :=
  w.modifyWindow window fun cell => { cell with recent := task :: cell.recent.erase task }

/-- A member ended. -/
def retire (window task : Nat) (w : World) : World :=
  (w.modifyTask task fun cell => { cell with ended := true }).modifyWindow window fun cell =>
    { cell with recent := cell.recent.erase task }

/-- The task was told to go on since its turn began. -/
def isWoken (task : Nat) (w : World) : Bool :=
  match w.tasks[task]? with
  | some cell => cell.woken
  | none => false

end World

namespace Member

def isRunning : Member → Bool
  | running _ _ _ => true
  | _ => false

end Member

namespace LineupOf

/-- The number of members in work. -/
def running (l : Lineup) : Nat := l.members.countP Member.isRunning

/-- Put a member in the place of the one that is in work as a task. -/
def replace (task : Nat) (member : Member) (l : Lineup) : Lineup :=
  { l with members := l.members.map fun m => if m.isTask task then member else m }

/-- The stack and the fragments of the member in work as a task. -/
def find? (task : Nat) (l : Lineup) : Option (List String × List Work) :=
  match l.members.find? (Member.isTask task) with
  | some (.running _ fragments stack) => some (fragments, stack)
  | _ => none

/-- Draw up to `room` members. -/
def draw (owner : Nat) : Nat → Lineup → World → Lineup × World
  | 0, l, w => (l, w)
  | room + 1, l, w =>
    match l.feed.draw owner w with
    | (.member value, feed, w) =>
      let number := l.feed.index
      let (task, w) := w.enlist l.window number
      let member := .running task [] [.note (.began l.window number), .item value]
      draw owner room { l with feed, members := l.members ++ [member] } w
    | (_, feed, w) => ({ l with feed }, w)

/-- Draw members until `ahead` of them are in work or held back. -/
def fill (ahead owner : Nat) (l : Lineup) (w : World) : Lineup × World :=
  l.draw owner (ahead - l.members.length) w

/-- The number of the first member. -/
def first (l : Lineup) : Nat := l.feed.index - l.members.length

/-- What the first member allows to come out. -/
def front? (l : Lineup) : Option (WindowTurn × Lineup) :=
  match l.members with
  | .finished fragments :: rest => some (.through l.first fragments, { l with members := rest })
  | .failed error :: rest => some (.failed error, { l with members := rest })
  | _ => none

/-- Nothing is in work, held back or left to draw. -/
def isOver (l : Lineup) : Bool := l.members.isEmpty && l.feed.members.isEmpty

end LineupOf

end TaggedMarkup
