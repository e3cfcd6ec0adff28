import TaggedMarkup.Proofs.Host.Seating

/-!
# Those not concerned

Whatever is done on behalf of some tasks leaves the **others** what they need to go on (`World.Respects`):
each keeps its place among those to be told, or is told; its timer stays, or has gone off; and when it is
told, so is the task that renders its list. What is done for a task concerns that task and those **under**
it, the members of the lists that it renders, and the members of theirs.
-/

namespace TaggedMarkup.World

variable {w v u : World}

/-- From one world to the other one, nothing was lost for any task but those in `X`. -/
structure Respects (X : Nat → Prop) (w v : World) : Prop where
  task : ∀ (n : Nat) (cell : TaskCell), w.tasks[n]? = some cell →
    ∃ cell', v.tasks[n]? = some cell' ∧ cell'.window = cell.window ∧ (¬X n → cell.Roused cell')
  window : ∀ (n : Nat) (frame : WindowCell), w.windows[n]? = some frame →
    ∃ frame', v.windows[n]? = some frame' ∧ frame'.owner = frame.owner
  lined : ∀ n < w.tasks.size, ¬X n → w.Lined n → v.Lined n
  untold : ∀ pending seat, ∀ n < w.tasks.size, ¬X n → w.Untold pending seat (.task n) →
    v.Untold pending seat (.task n) ∨ v.Told (.task n)
  timer : ∀ deadline, ∀ n < w.tasks.size, ¬X n → ⟨deadline, .task n⟩ ∈ w.timers →
    ⟨deadline, .task n⟩ ∈ v.timers ∨ deadline ≤ v.clock ∧ v.Told (.task n)
  clock : w.clock ≤ v.clock
  owned : ∀ n owner, ¬X n → w.owner? n = some owner → v.Told (.task n) →
    w.Told (.task n) ∨ v.Told (.task owner)

theorem lt_size_of_owner? {n owner : Nat} (h : w.owner? n = some owner) : n < w.tasks.size := by
  obtain ⟨cell, window, frame, hcell, -⟩ := owner?_eq_some.mp h
  exact (Array.getElem?_eq_some_iff.mp hcell).1

namespace Respects

variable {X Y : Nat → Prop}

theorem refl (w : World) : Respects X w w :=
  ⟨fun _ cell hcell => ⟨cell, hcell, rfl, fun _ => .refl cell⟩, fun _ frame hframe => ⟨frame, hframe, rfl⟩,
    fun _ _ _ h => h, fun _ _ _ _ _ h => .inl h, fun _ _ _ _ h => .inl h, Nat.le_refl _,
    fun _ _ _ _ h => .inl h⟩

theorem size (h : Respects X w v) : w.tasks.size ≤ v.tasks.size := by
  refine Nat.le_of_not_lt fun hlt => ?_
  obtain ⟨cell, hcell, -⟩ := h.task _ _ (Array.getElem?_eq_getElem hlt)
  exact Nat.lt_irrefl _ (Array.getElem?_eq_some_iff.mp hcell).1

theorem told (h : Respects X w v) {n : Nat} (hn : n < w.tasks.size) (hX : ¬X n)
    (htold : w.Told (.task n)) : v.Told (.task n) := by
  have hcell := Array.getElem?_eq_getElem hn
  obtain ⟨cell', hcell', -, hroused⟩ := h.task n _ hcell
  exact told_of_isTold hcell' ((hroused hX).isTold (htold _ hcell))

/-- The tasks that there were have the owners that they had. -/
theorem owner? (h : Respects X w v) {n owner : Nat} (howner : w.owner? n = some owner) :
    v.owner? n = some owner := by
  obtain ⟨cell, window, frame, hcell, hwindow, hframe, rfl⟩ := owner?_eq_some.mp howner
  obtain ⟨cell', hcell', hsame, -⟩ := h.task n cell hcell
  obtain ⟨frame', hframe', howner'⟩ := h.window window frame hframe
  exact owner?_eq_some.mpr ⟨cell', window, frame', hcell', hsame.trans hwindow, hframe', howner'⟩

theorem owner?_eq (h : Respects X w v) (hroot : w.Rooted) {n : Nat} (hn : n < w.tasks.size) :
    v.owner? n = w.owner? n := by
  cases howner : w.owner? n with
  | some owner => exact h.owner? howner
  | none =>
    have hcell := Array.getElem?_eq_getElem hn
    obtain ⟨cell', hcell', hsame, -⟩ := h.task n _ hcell
    cases hwindow : w.tasks[n].window with
    | none =>
      rw [World.owner?, hcell', Option.bind_some, hsame, hwindow]
      rfl
    | some window =>
      obtain ⟨frame, hframe, -⟩ := hroot n _ window hcell hwindow
      rw [owner?_eq_some.mpr ⟨_, window, frame, hcell, hwindow, hframe, rfl⟩] at howner
      cases howner

theorem trans (h : Respects X w v) (h' : Respects Y v u) (hroot : w.Rooted)
    (hXY : ∀ n < w.tasks.size, Y n → X n)
    (hclosed : ∀ n owner, w.owner? n = some owner → X owner → X n) : Respects X w u where
  task n cell hcell := by
    have hn := (Array.getElem?_eq_some_iff.mp hcell).1
    obtain ⟨cell', hcell', hwindow, hroused⟩ := h.task n cell hcell
    obtain ⟨cell'', hcell'', hwindow', hroused'⟩ := h'.task n cell' hcell'
    exact ⟨cell'', hcell'', hwindow'.trans hwindow,
      fun hX => (hroused hX).trans (hroused' fun hY => hX (hXY n hn hY))⟩
  window n frame hframe := by
    obtain ⟨frame', hframe', howner⟩ := h.window n frame hframe
    obtain ⟨frame'', hframe'', howner'⟩ := h'.window n frame' hframe'
    exact ⟨frame'', hframe'', howner'.trans howner⟩
  lined n hn hX hlined := h'.lined n (Nat.lt_of_lt_of_le hn h.size) (fun hY => hX (hXY n hn hY))
    (h.lined n hn hX hlined)
  untold pending seat n hn hX huntold := by
    have hv := Nat.lt_of_lt_of_le hn h.size
    have hY : ¬Y n := fun hY => hX (hXY n hn hY)
    rcases h.untold pending seat n hn hX huntold with hstill | htold
    · exact h'.untold pending seat n hv hY hstill
    · exact .inr (h'.told hv hY htold)
  timer deadline n hn hX htimer := by
    have hv := Nat.lt_of_lt_of_le hn h.size
    have hY : ¬Y n := fun hY => hX (hXY n hn hY)
    rcases h.timer deadline n hn hX htimer with hstill | ⟨hpast, htold⟩
    · exact h'.timer deadline n hv hY hstill
    · exact .inr ⟨Nat.le_trans hpast h'.clock, h'.told hv hY htold⟩
  clock := Nat.le_trans h.clock h'.clock
  owned n owner hX howner htold := by
    have hn := lt_size_of_owner? howner
    have hX' : ¬X owner := fun hX' => hX (hclosed n owner howner hX')
    have hlt := Nat.lt_trans (hroot.owner_lt howner) hn
    rcases h'.owned n owner (fun hY => hX (hXY n hn hY)) (h.owner? howner) htold with hbefore | hafter
    · exact (h.owned n owner hX howner hbefore).imp id fun htold =>
        h'.told (Nat.lt_of_lt_of_le hlt h.size) (fun hY => hX' (hXY owner hlt hY)) htold
    · exact .inr hafter

theorem mono (h : Respects X w v) (hXY : ∀ n < w.tasks.size, X n → Y n) : Respects Y w v where
  task n cell hcell := by
    obtain ⟨cell', hcell', hwindow, hroused⟩ := h.task n cell hcell
    exact ⟨cell', hcell', hwindow,
      fun hY => hroused fun hX => hY (hXY n (Array.getElem?_eq_some_iff.mp hcell).1 hX)⟩
  window := h.window
  lined n hn hY := h.lined n hn fun hX => hY (hXY n hn hX)
  untold pending seat n hn hY := h.untold pending seat n hn fun hX => hY (hXY n hn hX)
  timer deadline n hn hY := h.timer deadline n hn fun hX => hY (hXY n hn hX)
  clock := h.clock
  owned n owner hY howner := h.owned n owner (fun hX => hY (hXY n (lt_size_of_owner? howner) hX)) howner

theorem of_tells (h : Tells w v) : Respects X w v where
  task n cell hcell := by
    obtain ⟨cell', hcell', hroused⟩ := (h.task n).exists_some hcell
    exact ⟨cell', hcell', hroused.window, fun _ => hroused⟩
  window n frame hframe := by
    obtain ⟨frame', hframe', hjoined⟩ := (h.window n).exists_some hframe
    exact ⟨frame', hframe', hjoined.owner⟩
  lined n _ _ := h.lined n
  untold pending seat n _ _ := h.untold pending seat (.task n)
  timer deadline n _ _ htimer := .inl (h.timers ▸ htimer)
  clock := Nat.le_of_eq (clock_of_seen h.seen).symm
  owned n owner _ := h.owned n owner

/-- Where tasks, windows and timers are left alone and nobody loses a place. -/
theorem of_eq (htasks : v.tasks = w.tasks)
    (hwindows : ∀ (n : Nat) (frame : WindowCell), w.windows[n]? = some frame → v.windows[n]? = some frame)
    (huntold : ∀ pending seat waiter, w.Untold pending seat waiter → v.Untold pending seat waiter)
    (htimers : ∀ timer ∈ w.timers, timer ∈ v.timers) (hclock : v.clock = w.clock) (hroot : w.Rooted) :
    Respects X w v where
  task n cell hcell := ⟨cell, htasks ▸ hcell, rfl, fun _ => .refl cell⟩
  window n frame hframe := ⟨frame, hwindows n frame hframe, rfl⟩
  lined n _ _ hlined cell window frame hcell hwindow hframe := by
    rw [htasks] at hcell
    obtain ⟨frame', hframe', -⟩ := hroot n cell window hcell hwindow
    rw [hwindows window frame' hframe', Option.some.injEq] at hframe
    subst hframe
    exact hlined cell window frame' hcell hwindow hframe'
  untold pending seat n _ _ h := .inl (huntold pending seat _ h)
  timer deadline n _ _ h := .inl (htimers _ h)
  clock := Nat.le_of_eq hclock.symm
  owned n owner _ _ htold := .inl fun cell hcell => htold cell (htasks ▸ hcell)

theorem of_extends (h : Extends w v) (hroot : w.Rooted) : Respects X w v :=
  .of_eq h.tasks h.window (fun _ _ _ => h.untold.mpr) h.timers h.clock hroot

end Respects

/-! ## Tasks under a task -/

/-- The task is this one, or a member of a list that is rendered by a task under it. -/
inductive Under (w : World) (task : Nat) : Nat → Prop
  | refl : Under w task task
  | member {n owner : Nat} : w.owner? n = some owner → Under w task owner → Under w task n

theorem Under.trans {a b c : Nat} (h : w.Under a b) (h' : w.Under b c) : w.Under a c := by
  induction h' with
  | refl => exact h
  | member howner _ ih => exact .member howner ih

theorem Under.le {a b : Nat} (h : w.Under a b) (hroot : w.Rooted) : a ≤ b := by
  induction h with
  | refl => exact Nat.le_refl _
  | member howner _ ih => exact Nat.le_of_lt (Nat.lt_of_le_of_lt ih (hroot.owner_lt howner))

theorem Under.congr {a b : Nat} (howner : ∀ n, v.owner? n = w.owner? n) (h : v.Under a b) : w.Under a b := by
  induction h with
  | refl => exact .refl
  | member hn _ ih => exact .member ((howner _).symm.trans hn) ih

/-- Of two tasks over the same one, one is over the other. -/
theorem Under.total {a b c : Nat} (ha : w.Under a c) (hb : w.Under b c) : w.Under a b ∨ w.Under b a := by
  induction ha with
  | refl => exact .inr hb
  | @member n owner howner ha ih =>
    cases hb with
    | refl => exact .inl (.member howner ha)
    | member howner' hb =>
      rw [howner, Option.some.injEq] at howner'
      subst howner'
      exact ih hb

/-- Members of the same list have no tasks under them in common. -/
theorem Under.of_siblings {a b c owner : Nat} (hroot : w.Rooted) (ha : w.owner? a = some owner)
    (hb : w.owner? b = some owner) (hac : w.Under a c) (hbc : w.Under b c) : a = b := by
  have hne : ∀ {a b : Nat}, w.owner? a = some owner → w.owner? b = some owner → w.Under a b → a = b := by
    intro a b ha hb hab
    cases hab with
    | refl => rfl
    | member howner hab =>
      rw [hb, Option.some.injEq] at howner
      subst howner
      exact absurd (hab.le hroot) (Nat.not_le.mpr (hroot.owner_lt ha))
  exact (hac.total hbc).elim (hne ha hb) fun hba => (hne hb ha hba).symm

namespace Respects

variable {X : Nat → Prop}

/-- Tasks that there were stay under those that they were under. -/
theorem under_iff (h : Respects X w v) (hroot : w.Rooted) {a n : Nat} (hn : n < w.tasks.size) :
    v.Under a n ↔ w.Under a n := by
  constructor
  · intro hunder
    induction hunder with
    | refl => exact .refl
    | @member n owner howner _ ih =>
      rw [h.owner?_eq hroot hn] at howner
      exact .member howner (ih (Nat.lt_trans (hroot.owner_lt howner) hn))
  · intro hunder
    induction hunder with
    | refl => exact .refl
    | @member n owner howner _ ih =>
      exact .member (h.owner? howner) (ih (Nat.lt_trans (hroot.owner_lt howner) hn))

/-- What is done for a task, and then what is done for it further on. -/
theorem trans_under {task : Nat} (h : Respects (w.Under task) w v) (h' : Respects (v.Under task) v u)
    (hroot : w.Rooted) : Respects (w.Under task) w u :=
  h.trans h' hroot (fun _ hn => (h.under_iff hroot hn).mp) fun _ _ howner hX => .member howner hX

/-- What is done for a task under another one is done for that one. -/
theorem of_under {task member : Nat} (h : Respects (w.Under member) w v) (hunder : w.Under task member) :
    Respects (w.Under task) w v := h.mono fun _ _ hn => hunder.trans hn

end Respects

/-! ## Who is told with a task -/

/-- When a task is told, nobody else is but the tasks over it. -/
theorem told_tell {depth task n : Nat} (h : (w.tell depth (.task task)).Told (.task n)) :
    w.Told (.task n) ∨ w.Under n task := by
  induction depth generalizing task w with
  | zero => exact .inl h
  | succ depth ih =>
    rw [tell] at h
    cases hcell : w.tasks[task]? with
    | none =>
      rw [hcell] at h
      exact .inl h
    | some cell =>
      rw [hcell] at h
      dsimp only at h
      split at h
      · exact .inl h
      · by_cases hn : n = task
        · exact .inr (hn ▸ .refl)
        · have hwoken : (w.modifyTask task fun cell => { cell with woken := true }).Told (.task n) →
              w.Told (.task n) := by
            intro htold c hc
            refine htold c ?_
            rw [getElem?_modifyTask, if_neg (Ne.symm hn), hc]
          cases hwindow : cell.window with
          | none =>
            rw [hwindow] at h
            exact .inl (hwoken h)
          | some window =>
            rw [hwindow] at h
            dsimp only at h
            split at h
            · exact .inl (hwoken h)
            · generalize hu : w.modifyTask task (fun cell => { cell with woken := true }) = u at h hwoken
              have hlined : (u.enqueue task window).Told (.task n) → u.Told (.task n) := by
                intro htold c hc
                refine htold c ?_
                rw [getElem?_tasks_enqueue, if_neg (Ne.symm hn), hc]
              have howner : ∀ k, (u.enqueue task window).owner? k = w.owner? k := by
                intro k
                rw [owner?_of_rel (u.roused_enqueue task window) (u.joined_enqueue task window), ← hu,
                  (tells_woken task w).owner?]
              cases hframe : (u.enqueue task window).windows[window]? with
              | none =>
                rw [hframe] at h
                exact .inl (hwoken (hlined h))
              | some frame =>
                rw [hframe] at h
                rcases ih h with htold | hover
                · exact .inl (hwoken (hlined htold))
                · refine .inr ((hover.congr howner).trans (.member ?_ .refl))
                  rw [← howner]
                  have hself := u.getElem?_tasks_enqueue task window task
                  rw [if_pos rfl, ← hu, getElem?_modifyTask, if_pos rfl, hcell, Option.map_some,
                    Option.map_some, hu] at hself
                  exact owner?_eq_some.mpr ⟨_, window, frame, hself, hwindow, hframe, rfl⟩

theorem told_wake {task n : Nat} (h : (w.wake (.task task)).Told (.task n)) :
    w.Told (.task n) ∨ w.Under n task := told_tell h

end TaggedMarkup.World
