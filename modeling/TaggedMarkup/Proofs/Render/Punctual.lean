import TaggedMarkup.Proofs.Render.Preserved

/-!
# Renders are on time

Whatever a render does, with any number of members rendered ahead, leaves a world on time that was on
time: so every world that comes about is. It is enough to look at what sets a timer and at what starts
to wait for one.
-/

namespace TaggedMarkup.World

namespace OnTime

variable {w : World}

/-- Asking sets a timer for whatever it makes wait. -/
theorem ask (h : w.OnTime) (depth : Nat) (waiter : Waiter) (pending : Nat) (own : Option Nat) :
    (w.ask depth waiter pending own).2.OnTime := by
  induction depth generalizing w waiter pending own with
  | zero => exact h
  | succ depth ih =>
    cases hc : w.pendings[pending]? with
    | none =>
      rw [World.ask, hc]
      exact h
    | some cell =>
      by_cases hdone : ∃ o, cell.stage = .done o
      · obtain ⟨o, ho⟩ := hdone
        rw [World.ask, hc]
        simp only [ho]
        exact h
      · rw [ask_open hc fun o ho => hdone ⟨o, ho⟩]
        have hseated := h.seatedAt waiter pending own cell
        have hseen := seen_seatedAt waiter pending own cell w
        cases hjob : cell.job with
        | checking source =>
          dsimp only
          have hsource := ih hseated (.pending pending) source (Stage.seat? cell.stage)
          split
          · rename_i o v hask
            rw [hask] at hsource
            exact hsource.conclude pending cell.label _
          · rename_i seat v hask
            rw [hask] at hsource
            exact hsource.setStage pending _ fun d hd => by cases hd
        | after delay keeps body =>
          dsimp only
          split
          · exact hseated.conclude pending cell.label body
          · have hcell : (w.seatedAt waiter pending own cell).2.seen.pendings[pending]? =
                some cell.seen := by
              rw [hseen, getElem?_noteStart, seen_getElem?, hc, Option.map_some]
            have hclock : (w.seatedAt waiter pending own cell).2.clock = w.clock := by
              rw [← seen_clock, hseen]
              unfold noteStart
              split <;> rfl
            obtain ⟨htime, htimer⟩ := hseated.startTimer delay hcell
            have hnow := clock_of_seen (seen_startTimer delay pending cell.stage
              (w.seatedAt waiter pending own cell).2)
            rw [hclock] at htimer hnow
            refine htime.setStage pending _ ?_
            rintro d ⟨⟩
            rw [hnow]
            exact htimer

theorem advance (h : w.OnTime) {v : World} (hv : w.advance? = some v) : v.OnTime := by
  have hmin : ∃ deadline, w.nextDeadline? = some deadline := by
    cases hd : w.nextDeadline? with
    | none =>
      rw [advance?, hd] at hv
      cases hv
    | some deadline => exact ⟨deadline, rfl⟩
  obtain ⟨deadline, hmin⟩ := hmin
  obtain ⟨u, -, hu, -, -, -, hpunctual, -⟩ := advance?_eq_some h (List.min?_mem hmin)
  rw [hv] at hu
  cases hu
  exact hpunctual

end OnTime

/-- Renders preserve that the world is on time. -/
theorem preserved_onTime : Preserved OnTime where
  hidden h hseen htimers := h.congr hseen htimers
  aside h hpendings hclock htimers := h.kept (.of_eq hclock htimers hpendings)
  run a h := h.run a
  setTimer delay waiter h := h.setTimer delay waiter
  await waiter pending own h := h.ask (pending + 1) waiter pending own
  advance h hv := h.advance hv

/-- Whatever is done in a world that is on time, it stays so. -/
theorem OnTime.leads {w v : World} (h : Leads w v) (hw : w.OnTime) : v.OnTime :=
  preserved_onTime.leads h hw

end TaggedMarkup.World
