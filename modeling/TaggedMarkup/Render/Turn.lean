import TaggedMarkup.Render.Leaving
import TaggedMarkup.Render.Lineup

/-!
# Turns

A **turn** of a task works off its stack until there is a fragment, an error, the end, or nothing
but waiting left.

In a window, each time the next member is wanted,

1. members are drawn while fewer than `ahead` are in work or held back, and queue up for a turn;
2. if the first member is through, its fragments (or its error) come out;
3. otherwise the queue is worked off, the longest-waiting member first. A member that gets through
   out of order is held back. The window lets others go on once every member in work has had a turn
   or two members were told to go on during their own turn.

A turn knows what is in work **around** its task, because what is still kept there is not let go of
when work is dropped.

Components may go on for ever, so turns are bounded by **fuel**; `none` is a turn that ran out of
it, and any other answer is independent of how much there was.
-/

namespace TaggedMarkup

/-- How a turn of a task ends. -/
inductive Turn where
  | fragment (text : String)
  | failed (error : Error)
  | ended
  /-- nothing can be done before somebody is told to go on -/
  | blocked
  deriving DecidableEq, Repr

namespace Render

mutual

/-- A turn of a task. -/
def turn (ahead : Nat) : Nat → List Surrounding → Nat → List Work → World →
    Option (Turn × List Work × World)
  | 0, _, _, _, _ => none
  | _ + 1, _, _, [], w => some (.ended, [], w)
  | _ + 1, _, _, .emit text :: rest, w => some (.fragment text, rest, w)
  | _ + 1, _, _, .fail error :: rest, w => some (.failed error, rest, w)
  | fuel + 1, around, task, .ahead lineup :: rest, w =>
    match windowTurn ahead fuel around task rest lineup w with
    | none => none
    | some (.through member fragments, lineup, w) =>
      let through := fragments.map .emit ++ [.note (.left lineup.window member)]
      turn ahead fuel around task (through ++ .ahead lineup :: rest) w
    | some (.failed error, lineup, w) => some (.failed error, .ahead lineup :: rest, w)
    | some (.ended, _, w) =>
      let w := w.tidied (Work.heldByAll rest ++ around.flatMap Surrounding.held)
      turn ahead fuel around task rest w
    | some (.blocked, lineup, w) => some (.blocked, .ahead lineup :: rest, w)
  | fuel + 1, around, task, work :: rest, w =>
    match work.step ahead task w with
    | (.next works, w) =>
      let stack := works ++ rest
      let w := w.tidied (Work.heldByAll stack ++ around.flatMap Surrounding.held)
      turn ahead fuel around task stack w
    | (.wait work, w) => some (.blocked, work :: rest, w)

/-- A turn of a window, on behalf of the task that owns it and has `rest` to do afterwards. -/
def windowTurn (ahead : Nat) : Nat → List Surrounding → Nat → List Work → Lineup → World →
    Option (WindowTurn × Lineup × World)
  | 0, _, _, _, _, _ => none
  | fuel + 1, around, owner, rest, l, w =>
    let (l, w) := l.fill ahead owner w
    match l.front? with
    | some (out, l) => some (out, l, w)
    | none => workOff ahead fuel around owner rest l.running 0 0 l w

/-- Work the queue of a window off, in which `running` members were in work at first, of which
`turns` have had a turn without getting through and `told` were told to go on during it. -/
def workOff (ahead : Nat) : Nat → List Surrounding → Nat → List Work → Nat → Nat → Nat →
    Lineup → World → Option (WindowTurn × Lineup × World)
  | 0, _, _, _, _, _, _, _, _ => none
  | fuel + 1, around, owner, rest, running, turns, told, l, w =>
    match w.dequeue? l.window with
    | none => some (if l.isOver then .ended else .blocked, l, w)
    | some (task, w) =>
      match l.find? task with
      | none => workOff ahead fuel around owner rest running turns told l w
      | some (fragments, stack) =>
        let within : List Surrounding := ⟨task, l, rest⟩ :: around
        match memberTurn ahead fuel within task fragments stack (w.beginTurn task) with
        | none => none
        | some (.running task fragments stack, w) =>
          let told := told + (w.isWoken task).toNat
          let l := l.replace task (.running task fragments stack)
          let w := w.suspend l.window task
          if 2 ≤ told ∨ turns + 1 = running then
            some (.blocked, l, w.wake (.task owner))
          else
            workOff ahead fuel around owner rest running (turns + 1) told l w
        | some (through, w) =>
          let l := l.replace task through
          let w := w.retire l.window task
          match l.front? with
          | some (out, l) => some (out, l, w)
          | none => workOff ahead fuel around owner rest l.running 0 0 l w

/-- Give a member in work as many turns as it can use. -/
def memberTurn (ahead : Nat) : Nat → List Surrounding → Nat → List String → List Work → World →
    Option (Member × World)
  | 0, _, _, _, _, _ => none
  | fuel + 1, around, task, fragments, stack, w =>
    match turn ahead fuel around task stack w with
    | none => none
    | some (.fragment text, stack, w) =>
      memberTurn ahead fuel around task (text :: fragments) stack w
    | some (.failed error, stack, w) => some (.failed error, w.abandon around stack)
    | some (.ended, _, w) => some (.finished fragments.reverse, w)
    | some (.blocked, stack, w) => some (.running task fragments stack, w)

end

end Render

end TaggedMarkup
