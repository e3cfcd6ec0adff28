import TaggedMarkup.Proofs.Host.Seen

/-!
# Timers are there in time

A world is **on time** if each pending value that waits for a moment to come has a timer for that
moment. A timer goes off only when the clock has come to it, and a pending value starts to wait by
setting one, so worlds stay on time whatever is done to them.
-/

namespace TaggedMarkup.World

/-- Whatever a pending value waits for has come, or has a timer. -/
def OnTime (w : World) : Prop :=
  ∀ (pending : Nat) (cell : PendingCell) (deadline : Nat), w.seen.pendings[pending]? = some cell →
    cell.stage = .waiting deadline → deadline ≤ w.clock ∨ deadline ∈ w.timers.map (·.deadline)

variable {w : World}

/-- Only what is seen and the timers matter. -/
theorem OnTime.congr {v : World} (h : w.OnTime) (hseen : v.seen = w.seen)
    (htimers : v.timers = w.timers) : v.OnTime := by
  intro pending cell deadline hcell hstage
  rw [hseen] at hcell
  rw [htimers, ← seen_clock v, hseen]
  exact h pending cell deadline hcell hstage

/-- The empty world is on time. -/
theorem onTime_empty : ({} : World).OnTime := by
  intro pending cell deadline hcell
  rw [seen_getElem?, Array.getElem?_empty] at hcell
  cases hcell

/-! ## Who leaves the timers alone -/

variable (w)

theorem timers_foldl {α : Type} {f : World → α → World} (h : ∀ w a, (f w a).timers = w.timers)
    (as : List α) : (as.foldl f w).timers = w.timers := by
  induction as generalizing w with
  | nil => rfl
  | cons a rest ih => rw [List.foldl_cons, ih, h]

@[simp] theorem timers_tell (depth : Nat) (waiter : Waiter) :
    (w.tell depth waiter).timers = w.timers := by
  induction depth generalizing waiter w with
  | zero => rfl
  | succ depth ih =>
    cases waiter with
    | task task =>
      simp only [tell]
      split
      · rfl
      · split
        · rfl
        · split
          · rfl
          · split
            · rfl
            · split
              · rw [ih]
                rfl
              · rfl
    | pending pending =>
      simp only [tell]
      split
      · rfl
      · rw [timers_foldl _ fun w waiter => ih w waiter]
        rfl

@[simp] theorem timers_wake (waiter : Waiter) : (w.wake waiter).timers = w.timers :=
  timers_tell w _ waiter

/-! Letting go writes in the cells of pending values, and in nothing else. -/

theorem giveUp_eq (pending seat : Nat) : ∃ pendings forsaken,
    w.giveUp pending seat = { w with pendings, forsaken } := by
  unfold giveUp
  dsimp only
  split
  · exact ⟨_, _, rfl⟩
  · exact ⟨_, w.forsaken, rfl⟩

theorem letGo_eq (pending : Nat) : ∃ pendings forsaken,
    w.letGo pending = { w with pendings, forsaken } := by
  unfold letGo
  dsimp only
  split
  · split
    · rename_i source seat _ _
      obtain ⟨pendings, forsaken, heq⟩ := giveUp_eq
        (({ w with forsaken := w.forsaken.erase pending } : World).modifyPending pending
          fun cell => { cell with stage := .gone }) source seat
      exact ⟨pendings, forsaken, heq⟩
    · exact ⟨w.pendings, _, rfl⟩
  · exact ⟨w.pendings, _, rfl⟩

theorem letGoOfAll_eq (reached : Std.HashSet Cell) (count : Nat) : ∃ pendings forsaken,
    w.letGoOfAll reached count = { w with pendings, forsaken } := by
  induction count generalizing w with
  | zero => exact ⟨w.pendings, w.forsaken, rfl⟩
  | succ count ih =>
    simp only [letGoOfAll]
    split
    · rename_i pending _
      obtain ⟨pendings, forsaken, heq⟩ := letGo_eq w pending
      obtain ⟨pendings', forsaken', heq'⟩ := ih (w.letGo pending)
      exact ⟨pendings', forsaken', by rw [heq', heq]⟩
    · exact ⟨w.pendings, _, rfl⟩

theorem tidied_eq (held : List Value) : ∃ pendings forsaken,
    w.tidied held = { w with pendings, forsaken } := by
  unfold tidied
  split
  · exact ⟨w.pendings, w.forsaken, rfl⟩
  · exact letGoOfAll_eq ..

theorem timers_giveUp (pending seat : Nat) : (w.giveUp pending seat).timers = w.timers := by
  obtain ⟨_, _, heq⟩ := giveUp_eq w pending seat
  rw [heq]

theorem timers_tidied (held : List Value) : (w.tidied held).timers = w.timers := by
  obtain ⟨_, _, heq⟩ := tidied_eq w held
  rw [heq]

theorem windows_tidied (held : List Value) : (w.tidied held).windows = w.windows := by
  obtain ⟨_, _, heq⟩ := tidied_eq w held
  rw [heq]

theorem OnTime.tidied {w : World} (h : w.OnTime) (held : List Value) : (w.tidied held).OnTime :=
  h.congr (seen_tidied w held) (timers_tidied w held)

/-- A timer that is set is there, besides those that were. -/
theorem mem_setTimer (w : World) (delay : Nat) (waiter : Waiter) :
    w.clock + delay ∈ (w.setTimer delay waiter).timers.map (·.deadline) := by
  rw [setTimer, List.map_append, List.map_singleton]
  exact List.mem_append_right _ (List.mem_singleton_self _)

theorem OnTime.setTimer {w : World} (h : w.OnTime) (delay : Nat) (waiter : Waiter) :
    (w.setTimer delay waiter).OnTime := by
  intro n cell deadline hcell hstage
  rcases h n cell deadline hcell hstage with hpast | hahead
  · exact .inl hpast
  · refine .inr ?_
    rw [World.setTimer, List.map_append]
    exact List.mem_append_left _ hahead

/-! ## Host code stays on time

It starts nothing and lets no time pass. -/

/-- What host code leaves behind: the clock and the timers as they were, and no pending value that
waits but those that did. -/
structure Kept (w v : World) : Prop where
  clock : v.clock = w.clock
  timers : v.timers = w.timers
  waiting : ∀ {pending : Nat} {cell : PendingCell} {deadline : Nat},
    v.seen.pendings[pending]? = some cell → cell.stage = .waiting deadline →
      w.seen.pendings[pending]? = some cell

variable {w}

theorem Kept.refl (w : World) : Kept w w := ⟨rfl, rfl, fun h _ => h⟩

theorem Kept.trans {v u : World} (h : Kept w v) (h' : Kept v u) : Kept w u where
  clock := h'.clock.trans h.clock
  timers := h'.timers.trans h.timers
  waiting hcell hstage := h.waiting (h'.waiting hcell hstage) hstage

theorem OnTime.kept {v : World} (h : w.OnTime) (hkept : Kept w v) : v.OnTime := by
  intro pending cell deadline hcell hstage
  rw [hkept.clock, hkept.timers]
  exact h pending cell deadline (hkept.waiting hcell hstage) hstage

/-- What does not touch the clock, the timers and the pending values leaves them as they were. -/
theorem Kept.of_eq {v : World} (hclock : v.clock = w.clock) (htimers : v.timers = w.timers)
    (hpendings : v.pendings = w.pendings) : Kept w v where
  clock := hclock
  timers := htimers
  waiting hcell _ := by
    rw [seen_getElem?, ← hpendings, ← seen_getElem?]
    exact hcell

theorem kept_note (event : Event) (w : World) : Kept w (w.note event) := .of_eq rfl rfl rfl

theorem kept_newPending (cell : PendingCell) (hcell : cell.stage = .unstarted) (w : World) :
    Kept w (w.newPending cell).2 where
  clock := rfl
  timers := rfl
  waiting {pending c deadline} hc hstage := by
    rw [seen_getElem?] at hc
    simp only [newPending, Array.getElem?_push] at hc
    split at hc
    · -- the new one was not started
      simp only [Option.map_some, Option.some.injEq] at hc
      subst hc
      simp only [PendingCell.seen, hcell, Stage.seen] at hstage
      cases hstage
    · rw [seen_getElem?]
      exact hc

theorem kept_run (a : Action) (w : World) : Kept w (a.run w).2 := by
  refine a.run_stable (P := Kept w) ⟨?_, ?_, ?_, ?_, ?_⟩ (.refl w)
  · exact fun _ _ h => h.trans (.of_eq rfl rfl rfl)
  · exact fun _ h => h.trans (kept_note _ _)
  · exact fun _ _ h => h.trans (.of_eq rfl rfl rfl)
  · exact fun _ _ h => h.trans (kept_newPending _ rfl _)
  · exact fun _ _ h => h.trans (.of_eq rfl rfl rfl)

theorem kept_callComponent (component : Component) (props : Props) (children : List Value)
    (w : World) : Kept w (w.callComponent component props children).2 := by
  unfold callComponent
  split
  · exact (kept_note _ w).trans (kept_run _ _)
  · exact .refl w

/-- Making things keeps worlds on time. -/
theorem OnTime.run (h : w.OnTime) (a : Action) : (a.run w).2.OnTime := h.kept (kept_run a w)

/-! ## Time passes -/

/-- Let time pass until a moment. -/
def sleepUntil (deadline : Nat) (w : World) : World := { w with clock := max w.clock deadline }

theorem sleepUntil_sleepUntil (w : World) {moment deadline : Nat} (h : moment ≤ deadline) :
    (w.sleepUntil moment).sleepUntil deadline = w.sleepUntil deadline := by
  simp only [sleepUntil]
  congr 1
  omega

/-- While time passes, nothing that is seen changes but the clock. -/
theorem seen_advance {v : World} (h : w.advance? = some v) :
    ∃ deadline, w.nextDeadline? = some deadline ∧ v.seen = (w.sleepUntil deadline).seen := by
  obtain ⟨deadline, hmin, rfl⟩ := Option.map_eq_some_iff.mp h
  exact ⟨deadline, hmin, seen_foldl _ (fun w (timer : Timer) => seen_wake w timer.waiter) _⟩

/-- Timers that have not gone off are there. -/
def TimersKept (w v : World) : Prop :=
  ∀ deadline ∈ w.timers.map (·.deadline), deadline ≤ v.clock ∨ deadline ∈ v.timers.map (·.deadline)

/-- If there is a timer, the clock jumps to the earliest one, which is gone then. -/
theorem advance?_eq_some (h : w.OnTime) {deadline : Nat}
    (hdeadline : deadline ∈ w.timers.map (·.deadline)) :
    ∃ v earliest, w.advance? = some v ∧ v.seen = w.seen.sleepUntil earliest ∧ earliest ≤ deadline ∧
      v.timers.length < w.timers.length ∧ v.OnTime ∧ w.TimersKept v := by
  obtain ⟨earliest, hmin⟩ := Option.isSome_iff_exists.mp (List.isSome_min?_of_mem hdeadline)
  obtain ⟨hmem, hle⟩ := List.min?_eq_some_iff.mp hmin
  let late := w.timers.filter (earliest < ·.deadline)
  let due := w.timers.filter (·.deadline ≤ earliest)
  let u : World := { w with clock := max w.clock earliest, timers := late }
  have hadvance : w.advance? = some (due.foldl (fun w timer => w.wake timer.waiter) u) := by
    rw [advance?, nextDeadline?, hmin]
    rfl
  have hseen : (due.foldl (fun w timer => w.wake timer.waiter) u).seen = u.seen :=
    seen_foldl _ (fun w (timer : Timer) => seen_wake w timer.waiter) _
  have htimers : (due.foldl (fun w timer => w.wake timer.waiter) u).timers = late :=
    timers_foldl _ (fun w (timer : Timer) => timers_wake w timer.waiter) _
  have hkept : w.TimersKept u := by
    intro d hd
    by_cases hearly : d ≤ earliest
    · exact .inl (Nat.le_trans hearly (Nat.le_max_right ..))
    · obtain ⟨timer, htimer, rfl⟩ := List.mem_map.mp hd
      refine .inr (List.mem_map_of_mem (List.mem_filter.mpr ⟨htimer, ?_⟩))
      exact decide_eq_true (Nat.lt_of_not_le hearly)
  have hu : u.OnTime := by
    intro n cell d hcell hstage
    rcases h n cell d hcell hstage with hpast | hahead
    · exact .inl (Nat.le_trans hpast (Nat.le_max_left ..))
    · exact hkept d hahead
  refine ⟨_, earliest, hadvance, hseen, hle deadline hdeadline, ?_, hu.congr hseen htimers, ?_⟩
  · obtain ⟨timer, htimer, rfl⟩ := List.mem_map.mp hmem
    rw [htimers]
    refine List.length_filter_lt_length_iff_exists.mpr ⟨timer, htimer, ?_⟩
    simp
  · intro d hd
    rw [htimers, clock_of_seen hseen]
    exact hkept d hd

end TaggedMarkup.World
