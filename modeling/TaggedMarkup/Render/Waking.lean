import TaggedMarkup.Host.World

/-!
# Waking

How word gets to those who wait. A **task** that is told it can go on queues up for a turn in its
window, and the task that renders the list is told in turn, up to the render itself. A **pending
value** that waits for another one passes the word on to its own waiters.

When nothing can go on, the clock jumps to the earliest timer, and every timer with that deadline
goes off in the order the timers were set.
-/

namespace TaggedMarkup.World

/-- Queue a task up for a turn in its window. -/
def enqueue (task window : Nat) (w : World) : World :=
  (w.modifyTask task fun cell => { cell with queued := true }).modifyWindow window fun cell =>
    { cell with queue := cell.queue ++ [task] }

/-- Tell a waiter, passing the word on at most `depth` times. -/
def tell : Nat → Waiter → World → World
  | 0, _, w => w
  | depth + 1, .task task, w =>
    match w.tasks[task]? with
    | none => w
    | some cell =>
      if cell.ended then
        w
      else
        let w := w.modifyTask task fun cell => { cell with woken := true }
        match cell.window with
        | none => w
        | some window =>
          if cell.queued then
            w
          else
            let w := w.enqueue task window
            match w.windows[window]? with
            | some frame => tell depth (.task frame.owner) w
            | none => w
  | depth + 1, .pending pending, w =>
    match w.pendings[pending]? with
    | none => w
    | some cell =>
      let (waiters, seats) := cell.waiters.call
      let w := w.modifyPending pending fun cell => { cell with waiters := seats }
      waiters.foldl (fun w waiter => tell depth waiter w) w

/-- Tell a waiter. Word passes through pending values made one after another, then through tasks
started one before another, so it never travels further than there are of both. -/
def wake (waiter : Waiter) (w : World) : World :=
  w.tell (w.pendings.size + w.tasks.size + 1) waiter

/-- Set a timer. -/
def setTimer (delay : Nat) (waiter : Waiter) (w : World) : World :=
  { w with timers := w.timers ++ [⟨w.clock + delay, waiter⟩] }

/-- The earliest deadline. -/
def nextDeadline? (w : World) : Option Nat := (w.timers.map (·.deadline)).min?

/-- Jump to the earliest deadline and let its timers go off. -/
def advance? (w : World) : Option World :=
  w.nextDeadline?.map fun deadline =>
    let due := w.timers.filter (·.deadline ≤ deadline)
    let w := { w with
      clock := max w.clock deadline
      timers := w.timers.filter (deadline < ·.deadline) }
    due.foldl (fun w timer => w.wake timer.waiter) w

end TaggedMarkup.World
