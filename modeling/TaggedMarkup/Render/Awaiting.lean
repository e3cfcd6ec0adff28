import TaggedMarkup.Host.Checked
import TaggedMarkup.Render.Waking

/-!
# Awaiting

What happens when a task asks a pending value for its outcome. The first to ask starts the work;
whoever asks before it is done takes a seat and is told later. The outcome is kept, so the work runs
**once** and everybody gets the same outcome.
-/

namespace TaggedMarkup

/-- The answer of a pending value. -/
inductive Answer where
  | ready (outcome : Outcome)
  /-- not yet; the asker has this seat -/
  | notYet (seat : Nat)

namespace World

/-- Keep the outcome of a pending value and tell all its waiters, the asker among them. -/
def settle (pending : Nat) (outcome : Outcome) (w : World) : World :=
  match w.pendings[pending]? with
  | none => w
  | some cell =>
    let (waiters, _) := cell.waiters.call
    let w := w.modifyPending pending fun cell =>
      { cell with stage := .done outcome, waiters := {} }
    waiters.foldl (fun w waiter => w.wake waiter) w

/-- End the work of a pending value by running host code. -/
def conclude (pending : Nat) (label : Option String) (body : Action) (w : World) :
    Outcome × World :=
  let (outcome, w) := body.run (w.note (.finished pending label))
  (outcome, w.settle pending outcome)

/-- The code that a pending value of a checked outcome runs when the outcome is there. -/
def checkedBody : Outcome → Action
  | .ok value => Checked.root value .give
  | .error error => .fail error

/-- Ask a pending value for its outcome, through at most `depth` pending values that wait for one
another. -/
def ask : Nat → Waiter → Nat → Option Nat → World → Answer × World
  | 0, _, _, _, w => (.ready (.ok .undefined), w)
  | depth + 1, waiter, pending, own, w =>
    match w.pendings[pending]? with
    | none => (.ready (.ok .undefined), w)
    | some cell =>
      match cell.stage with
      | .done outcome => (.ready outcome, w)
      | stage =>
        let (seat, waiters) := cell.waiters.sit own waiter
        let w := w.modifyPending pending fun cell => { cell with waiters }
        let w := match stage with
          | .unstarted => w.note (.started pending cell.label)
          | _ => w
        let stay (stage : Stage) (w : World) : Answer × World :=
          (.notYet seat, w.modifyPending pending fun cell => { cell with stage })
        let conclude (body : Action) (w : World) : Answer × World :=
          let (outcome, w) := w.conclude pending cell.label body
          (.ready outcome, w)
        match cell.job, stage with
        | .after _ _ body, .waiting deadline =>
          if deadline ≤ w.clock then conclude body w else stay stage w
        | .after delay _ body, _ =>
          if delay = 0 then conclude body w
          else stay (.waiting (w.clock + delay)) (w.setTimer delay (.pending pending))
        | .checking source, stage =>
          let own := match stage with
            | .seated seat => some seat
            | _ => none
          let (answer, w) := ask depth (.pending pending) source own w
          match answer with
          | .ready outcome => conclude (checkedBody outcome) w
          | .notYet seat => stay (.seated seat) w

/-- Ask a pending value for its outcome. A pending value only waits for one made before it. -/
def await (waiter : Waiter) (pending : Nat) (own : Option Nat) (w : World) : Answer × World :=
  w.ask (pending + 1) waiter pending own

end World

end TaggedMarkup
