import TaggedMarkup.Host.Action
import TaggedMarkup.Host.Event
import TaggedMarkup.Template.Factory

/-!
# The world

Everything that lasts while values are built and rendered: the clock and the log, the names of
values, the cells behind components, pending values and sequences, the timers, and the tasks and
windows of renders.

All tables of cells **only grow**: a cell's number is its place, and no cell goes away. What changes in a
cell only moves on: a pending value goes from not started to waiting to done, a sequence from
untouched to taken, a task from running to over.
-/

namespace TaggedMarkup

/-- How host code ends. -/
abbrev Outcome := Except Error Value

/-- Who is told when something is ready. -/
inductive Waiter where
  /-- a task of a render -/
  | task (task : Nat)
  /-- a pending value that waits for another one, and passes the word on -/
  | pending (cell : Nat)
  deriving DecidableEq, Repr

/-- The waiters of a pending value, each in a numbered seat. A seat that was given up is taken again
before any other, the last one given up first; waiters are told in the order of their seats. -/
structure Seats where
  /-- the waiter in each seat, unless it has been told already or has left -/
  seats : List (Option Waiter) := []
  /-- the seats that were given up, the last one first -/
  vacant : List Nat := []
  deriving DecidableEq, Repr

namespace Seats

/-- Take a seat, or come back to one's own. -/
def sit (own : Option Nat) (waiter : Waiter) (s : Seats) : Nat × Seats :=
  match own, s.vacant with
  | some seat, _ => (seat, { s with seats := s.seats.set seat (some waiter) })
  | none, seat :: vacant => (seat, { seats := s.seats.set seat (some waiter), vacant })
  | none, [] => (s.seats.length, { s with seats := s.seats ++ [some waiter] })

/-- Give a seat up. -/
def leave (seat : Nat) (s : Seats) : Seats :=
  { seats := s.seats.set seat none, vacant := seat :: s.vacant }

/-- Nobody has a seat. -/
def isEmpty (s : Seats) : Bool := s.vacant.length == s.seats.length

/-- Those still to be told, in order; afterwards nobody is. -/
def call (s : Seats) : List Waiter × Seats :=
  (s.seats.filterMap id, { s with seats := s.seats.map fun _ => none })

end Seats

/-- What a pending value does once it is awaited. -/
inductive Job where
  /-- wait, then run host code, which keeps these values until then -/
  | after (delay : Nat) (keeps : List Value) (body : Action)
  /-- await another pending value and check its outcome -/
  | checking (source : Nat)

/-- How far a pending value has come. -/
inductive Stage where
  | unstarted
  /-- waiting for the clock -/
  | waiting (deadline : Nat)
  /-- waiting for another pending value, in this seat -/
  | seated (seat : Nat)
  | done (outcome : Outcome)
  /-- given up half way, because nobody can ask for the outcome any more -/
  | gone

/-- The cell of a component. -/
structure ComponentCell where
  label : Option String
  /-- the values that the body keeps -/
  keeps : List Value
  body : Props → List Value → Action

/-- The cell of a pending value. -/
structure PendingCell where
  label : Option String
  job : Job
  stage : Stage := .unstarted
  waiters : Seats := {}

/-- The cell of a sequence. -/
structure SequenceCell where
  label : Option String
  /-- the members, each with the time it takes to be ready -/
  members : List (Nat × Value)
  taken : Bool := false

/-- A moment at which somebody is told. -/
structure Timer where
  deadline : Nat
  waiter : Waiter
  deriving DecidableEq, Repr

/-- A task of a render: the render itself, or one member in a window. -/
structure TaskCell where
  /-- the window that the task is a member of -/
  window : Option Nat
  /-- the task waits for its turn in the window -/
  queued : Bool := false
  /-- the task was told that it can go on, after its last turn began -/
  woken : Bool := false
  /-- the task has ended -/
  ended : Bool := false
  deriving DecidableEq, Repr

/-- A window: the members of one list that are in work at the same time. -/
structure WindowCell where
  /-- the task that renders the list -/
  owner : Nat
  /-- the members that wait for their turn, the next one first -/
  queue : List Nat := []
  /-- the members in work, the one that had the latest turn first -/
  recent : List Nat := []
  deriving DecidableEq, Repr

/-- The world. -/
structure World where
  clock : Nat := 0
  /-- what happened when, the latest first -/
  log : List (Nat × Event) := []
  /-- the values that have names -/
  names : List (String × Value) := []
  /-- the other values that are kept from outside -/
  kept : List Value := []
  components : Array ComponentCell := #[]
  pendings : Array PendingCell := #[]
  sequences : Array SequenceCell := #[]
  /-- the pending values that wait for another one while nobody waits for them, in order; some may
  have been asked again since -/
  forsaken : List Nat := []
  /-- the timers that have not gone off, in the order they were set -/
  timers : List Timer := []
  tasks : Array TaskCell := #[]
  windows : Array WindowCell := #[]
  bench : Bench := {}
  /-- binding 0 is the default one: the element factory on the shared cache -/
  workshop : Workshop Bench := { bindings := [{ factory := .element, cache := 0, config := {} }] }

namespace World

/-- Write an event down. -/
def note (event : Event) (w : World) : World := { w with log := (w.clock, event) :: w.log }

/-- Write down what the workshop reports. -/
def noteAll (reports : List Report) (w : World) : World :=
  reports.foldl (fun w report => w.note (.reported report)) w

/-- The lines shown since the log had `mark` entries, in order and with their times. -/
def linesSince (mark : Nat) (w : World) : List (Nat × String) :=
  (w.log.take (w.log.length - mark)).reverse.filterMap fun entry =>
    entry.2.text?.map fun text => (entry.1, text)

/-- The number of entries in the log. -/
def mark (w : World) : Nat := w.log.length

/-- Build an element. -/
def newElement (type : ElementType) (props : Props) (children : List Value) (raw : Bool)
    (w : World) : Value × World :=
  let (value, bench) := w.bench.build type props children raw
  (value, { w with bench })

/-- Make a component. -/
def newComponent (name : String) (cell : ComponentCell) (w : World) : Value × World :=
  (.component ⟨w.components.size, name⟩, { w with components := w.components.push cell })

/-- Make a pending value. -/
def newPending (cell : PendingCell) (w : World) : Value × World :=
  (.pending w.pendings.size, { w with pendings := w.pendings.push cell })

/-- Make a sequence. -/
def newSequence (cell : SequenceCell) (w : World) : Value × World :=
  (.sequence w.sequences.size, { w with sequences := w.sequences.push cell })

/-- Start a task. -/
def newTask (cell : TaskCell) (w : World) : Nat × World :=
  (w.tasks.size, { w with tasks := w.tasks.push cell })

/-- Open a window for a list that a task renders. -/
def newWindow (owner : Nat) (w : World) : Nat × World :=
  (w.windows.size, { w with windows := w.windows.push { owner } })

/-- Give a value a name; the value that had it loses it. -/
def name (name : String) (value : Value) (w : World) : World :=
  { w with names := Entries.put name value w.names }

/-- The value of a name. -/
def named (name : String) (w : World) : Value := (Entries.get? name w.names).getD .undefined

/-- Keep a value from outside. -/
def keep (value : Value) (w : World) : World := { w with kept := value :: w.kept }

/-- The outcome of a pending value, once there is one. -/
def peek (pending : Nat) (w : World) : Option Outcome :=
  match w.pendings[pending]? with
  | some cell => match cell.stage with
    | .done outcome => some outcome
    | _ => none
  | none => none

/-- The sequence has been taken. -/
def isTaken (sequence : Nat) (w : World) : Bool :=
  match w.sequences[sequence]? with
  | some cell => cell.taken
  | none => false

/-- Change the cell of a pending value. -/
def modifyPending (pending : Nat) (f : PendingCell → PendingCell) (w : World) : World :=
  { w with pendings := w.pendings.modify pending f }

/-- Change the cell of a task. -/
def modifyTask (task : Nat) (f : TaskCell → TaskCell) (w : World) : World :=
  { w with tasks := w.tasks.modify task f }

/-- Change the cell of a window. -/
def modifyWindow (window : Nat) (f : WindowCell → WindowCell) (w : World) : World :=
  { w with windows := w.windows.modify window f }

/-- Use a template with a binding. -/
def useTemplate (binding : Nat) (statics : Statics) (values : List Value) (w : World) :
    Value × World :=
  let (value, bench, reports, workshop) := w.workshop.call binding statics values w.bench
  (value, { w with bench, workshop }.noteAll reports)

/-- Evaluate a compiled template with a factory of one's own. -/
def evaluateTemplate (factory : Factory Bench) (fold : Bool) (serial : Nat) (values : List Value)
    (w : World) : Value × World :=
  let (value, bench, reports, workshop) :=
    w.workshop.evaluate factory fold serial values w.bench
  (value, { w with bench, workshop }.noteAll reports)

/-- How diagnostics show the values that live in cells; a pending value is shown only before it is
done. -/
def diagnostic (value : Value) (w : World) : Option String :=
  match value with
  | .component c => some ("Component(" ++ c.name ++ ")")
  | .sequence cell => some (if w.isTaken cell then "Items(<consumed>)" else "Items(<lazy>)")
  | .pending cell =>
    match w.peek cell with
    | none => some "Pending(<unresolved>)"
    | some _ => none
  | _ => none

end World

namespace Action

/-- Run host code. -/
def run : Action → World → Outcome × World
  | give value, w => (.ok value, w)
  | fail error, w => (.error error, w)
  | named name next, w => (next (w.named name)).run w
  | element type props children raw next, w =>
    let (value, w) := w.newElement type props children raw
    (next value).run w
  | component name label keeps body next, w =>
    let (value, w) := w.newComponent name { label, keeps, body }
    (next value).run w
  | pending label delay keeps body next, w =>
    let (value, w) := w.newPending { label, job := .after delay keeps body }
    (next value).run w
  | sequence label members next, w =>
    let (value, w) := w.newSequence { label, members }
    (next value).run w
  | template statics values next, w =>
    let (value, w) := w.useTemplate 0 statics values
    (next value).run w
  | checking source next, w =>
    let (value, w) := w.newPending { label := none, job := .checking source }
    (next value).run w

end Action

namespace World

/-- Call a component. -/
def callComponent (component : Component) (props : Props) (children : List Value) (w : World) :
    Outcome × World :=
  match w.components[component.cell]? with
  | some cell => (cell.body props children).run (w.note (.called component.cell cell.label))
  | none => (.ok .undefined, w)

end World

end TaggedMarkup
