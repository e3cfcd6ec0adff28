import TaggedMarkup.Render.Turn

/-!
# Steps of a turn

A turn works off its stack piece by piece. Most pieces are done in **steps**: such a step puts further
pieces in the place of the piece, after which whatever got out of reach is let go of, or it has to
wait and ends the turn. Fragments, errors and lists in work are handed on instead.
-/

namespace TaggedMarkup

/-- Work that is done in steps, and not handed on as it is. -/
def Work.isStepped : Work → Bool
  | .emit _ | .fail _ | .ahead _ => false
  | _ => true

namespace Render

variable {ahead fuel task : Nat} {around : List Surrounding} {work : Work}
  {works rest : List Work} {w v : World}

/-- A turn goes on after a step. -/
theorem turn_step (hstepped : work.isStepped = true)
    (hstep : work.step ahead task w = (.next works, v)) :
    turn ahead (fuel + 1) around task (work :: rest) w =
      turn ahead fuel around task (works ++ rest)
        (v.tidied (Work.heldByAll (works ++ rest) ++ around.flatMap Surrounding.held)) := by
  cases work with
  | emit | fail | ahead => cases hstepped
  | _ => simp only [turn, hstep]

/-- A turn ends with work that waits. -/
theorem turn_wait {waiting : Work} (hstepped : work.isStepped = true)
    (hstep : work.step ahead task w = (.wait waiting, v)) :
    turn ahead (fuel + 1) around task (work :: rest) w = some (.blocked, waiting :: rest, v) := by
  cases work with
  | emit | fail | ahead => cases hstepped
  | _ => simp only [turn, hstep]

/-- A turn comes to an end when nothing is left to do. -/
theorem stack_eq_nil_of_turn {stack : List Work} (h : turn ahead fuel around task works w = some (.ended, stack, v)) :
    stack = [] := by
  induction fuel generalizing works w with
  | zero =>
    rw [turn] at h
    cases h
  | succ fuel ih =>
    cases works with
    | nil =>
      rw [turn] at h
      cases h
      rfl
    | cons work rest =>
      by_cases hstepped : work.isStepped = true
      · rcases hstep : work.step ahead task w with ⟨progress, u⟩
        cases progress with
        | next more =>
          rw [turn_step hstepped hstep] at h
          exact ih h
        | wait waiting =>
          rw [turn_wait hstepped hstep] at h
          cases h
      · cases work with
        | emit text | fail error =>
          rw [turn] at h
          cases h
        | ahead lineup =>
          -- when a member is through or the list has ended, the turn goes on
          rw [turn] at h
          split at h
          · cases h
          · exact ih h
          · cases h
          · exact ih h
          · cases h
        | _ => exact absurd rfl hstepped

end Render

end TaggedMarkup
