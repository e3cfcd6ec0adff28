import TaggedMarkup.Proofs.Host.Tasks
import TaggedMarkup.Render.Stream

/-!
# What leaves windows alone

A member that comes into a window is queued up for its first turn there. It **waits**: until that turn it
stands in the queue once, behind those that came in before it, whatever else is queued up in between, for
a task that is queued up already is not queued up again.

Most of what happens in a world is **calm**: no member comes into a window, begins or leaves, and whoever
waits goes on waiting. Host code, telling, awaiting and letting go are calm, and so is every step of work
but the writing down of an event.
-/

namespace TaggedMarkup

/-- The window that an event is about. -/
def Event.window? : Event → Option Nat
  | entered window _ | began window _ | left window _ => some window
  | _ => none

namespace World

/-- The task is there, and this is the window it is a member of, if any. -/
def IsTaskOf (window : Option Nat) (task : Nat) (w : World) : Prop :=
  ∃ cell, w.tasks[task]? = some cell ∧ cell.window = window

/-- These tasks, members of the window, stand in its queue, once each and in this order; everything in the
queue is a task. -/
structure Waits (window : Nat) (tasks : List Nat) (w : World) : Prop where
  queue : ∃ cell, w.windows[window]? = some cell ∧ cell.queue.filter (· ∈ tasks) = tasks ∧
    ∀ task ∈ cell.queue, task < w.tasks.size
  queued : ∀ task ∈ tasks, ∃ cell, w.tasks[task]? = some cell ∧ cell.window = some window ∧
    cell.queued = true

/-- No member came into a window, began or left; and who waited waits. -/
structure Calm (w v : World) : Prop where
  log : ∃ new, v.log = new ++ w.log ∧ ∀ entry ∈ new, entry.2.window? = none
  windows : w.windows.size ≤ v.windows.size
  tasks : ∀ {window : Option Nat} {task : Nat}, w.IsTaskOf window task → v.IsTaskOf window task
  waits : ∀ {window : Nat} {tasks : List Nat}, w.Waits window tasks → v.Waits window tasks

variable {w v u : World}

theorem IsTaskOf.lt_size {window : Option Nat} {task : Nat} (h : w.IsTaskOf window task) :
    task < w.tasks.size := by
  obtain ⟨cell, hcell, -⟩ := h
  exact (Array.getElem?_eq_some_iff.mp hcell).1

theorem Waits.isTaskOf {window task : Nat} {tasks : List Nat} (h : w.Waits window tasks)
    (htask : task ∈ tasks) : w.IsTaskOf (some window) task := by
  obtain ⟨cell, hcell, hwindow, -⟩ := h.queued task htask
  exact ⟨cell, hcell, hwindow⟩

theorem Waits.lt_size {window : Nat} {tasks : List Nat} (h : w.Waits window tasks) :
    window < w.windows.size := by
  obtain ⟨cell, hcell, -⟩ := h.queue
  exact (Array.getElem?_eq_some_iff.mp hcell).1

theorem Calm.refl (w : World) : Calm w w := ⟨⟨[], rfl, nofun⟩, Nat.le_refl _, id, id⟩

theorem Calm.trans (h : Calm w v) (h' : Calm v u) : Calm w u where
  log := by
    obtain ⟨new, hnew, hcalm⟩ := h.log
    obtain ⟨more, hmore, hcalm'⟩ := h'.log
    refine ⟨more ++ new, by rw [hmore, hnew, List.append_assoc], fun entry hentry => ?_⟩
    exact (List.mem_append.mp hentry).elim (hcalm' entry) (hcalm entry)
  windows := Nat.le_trans h.windows h'.windows
  tasks htask := h'.tasks (h.tasks htask)
  waits hwaits := h'.waits (h.waits hwaits)

/-- What does not touch the log, the tasks and the windows is calm. -/
theorem Calm.of_eq (hlog : v.log = w.log) (htasks : v.tasks = w.tasks)
    (hwindows : v.windows = w.windows) : Calm w v where
  log := ⟨[], hlog, nofun⟩
  windows := Nat.le_of_eq (congrArg Array.size hwindows.symm)
  tasks h := by
    obtain ⟨cell, hcell, hwindow⟩ := h
    exact ⟨cell, htasks ▸ hcell, hwindow⟩
  waits h := by
    obtain ⟨⟨cell, hcell, hqueue⟩, hqueued⟩ := h
    exact ⟨⟨cell, hwindows ▸ hcell, htasks ▸ hqueue⟩, htasks ▸ hqueued⟩

theorem calm_foldl {α : Type} {f : World → α → World} (h : ∀ w a, Calm w (f w a)) (as : List α)
    (w : World) : Calm w (as.foldl f w) := by
  induction as generalizing w with
  | nil => exact .refl w
  | cons a rest ih => exact (h w a).trans (ih (f w a))

theorem calm_modifyPending (pending : Nat) (f : PendingCell → PendingCell) (w : World) :
    Calm w (w.modifyPending pending f) := .of_eq rfl rfl rfl

theorem calm_setForsaken (forsaken : List Nat) (w : World) : Calm w { w with forsaken } :=
  .of_eq rfl rfl rfl

/-- Writing down an event that is not about a window. -/
theorem calm_note (event : Event) (hevent : event.window? = none) (w : World) :
    Calm w (w.note event) where
  log := ⟨[(w.clock, event)], rfl, by simpa using hevent⟩
  windows := Nat.le_refl _
  tasks := id
  waits h := ⟨h.queue, h.queued⟩

/-! ## Host code -/

theorem calm_run (a : Action) (w : World) : Calm w (a.run w).2 := by
  refine a.run_stable (P := Calm w) ⟨?_, ?_, ?_, ?_, ?_⟩ (.refl w)
  · exact fun _ _ h => h.trans (.of_eq rfl rfl rfl)
  · exact fun _ h => h.trans (calm_note _ rfl _)
  · exact fun _ _ h => h.trans (.of_eq rfl rfl rfl)
  · exact fun _ _ h => h.trans (.of_eq rfl rfl rfl)
  · exact fun _ _ h => h.trans (.of_eq rfl rfl rfl)

theorem calm_callComponent (component : Component) (props : Props) (children : List Value)
    (w : World) : Calm w (w.callComponent component props children).2 := by
  unfold callComponent
  split
  · exact (calm_note _ rfl w).trans (calm_run _ _)
  · exact .refl w

/-! ## Tasks and windows -/

/-- A change of a task that leaves it in its window, and in the queue if it is there. -/
theorem calm_modifyTask (task : Nat) {f : TaskCell → TaskCell} (w : World)
    (hwindow : ∀ cell, (f cell).window = cell.window)
    (hqueued : ∀ cell, cell.queued = true → (f cell).queued = true) :
    Calm w (w.modifyTask task f) := by
  have hmodify : ∀ (n : Nat) (cell : TaskCell), w.tasks[n]? = some cell →
      ∃ cell' : TaskCell, (w.modifyTask task f).tasks[n]? = some cell' ∧
        cell'.window = cell.window ∧ (cell.queued = true → cell'.queued = true) := by
    intro n cell hcell
    rw [modifyTask, Array.getElem?_modify, hcell]
    split
    · exact ⟨f cell, rfl, hwindow cell, hqueued cell⟩
    · exact ⟨cell, rfl, rfl, id⟩
  refine ⟨⟨[], rfl, nofun⟩, Nat.le_refl _, fun h => ?_, fun h => ?_⟩
  · obtain ⟨cell, hcell, hof⟩ := h
    obtain ⟨cell', hcell', hsame, -⟩ := hmodify _ cell hcell
    exact ⟨cell', hcell', hsame.trans hof⟩
  · obtain ⟨⟨cell, hcell, horder, hknown⟩, hall⟩ := h
    refine ⟨⟨cell, hcell, horder, fun n hn => ?_⟩, fun n hn => ?_⟩
    · exact Nat.lt_of_lt_of_eq (hknown n hn) Array.size_modify.symm
    · obtain ⟨c, hc, hof, hq⟩ := hall n hn
      obtain ⟨c', hc', hsame, hstill⟩ := hmodify n c hc
      exact ⟨c', hc', hsame.trans hof, hstill hq⟩

/-- A change of a window that leaves its queue as it is. -/
theorem calm_modifyWindow (window : Nat) {f : WindowCell → WindowCell} (w : World)
    (hqueue : ∀ cell, (f cell).queue = cell.queue) : Calm w (w.modifyWindow window f) := by
  refine ⟨⟨[], rfl, nofun⟩, Nat.le_of_eq Array.size_modify.symm, id, fun {at_ tasks} h => ?_⟩
  obtain ⟨⟨cell, hcell, horder⟩, hall⟩ := h
  refine ⟨?_, hall⟩
  rw [modifyWindow, Array.getElem?_modify, hcell]
  split
  · exact ⟨f cell, rfl, hqueue cell ▸ horder⟩
  · exact ⟨cell, rfl, horder⟩

theorem calm_newTask (cell : TaskCell) (w : World) : Calm w (w.newTask cell).2 := by
  have hpush : ∀ (n : Nat) (c : TaskCell), w.tasks[n]? = some c →
      (w.newTask cell).2.tasks[n]? = some c := by
    intro n c hc
    have hlt := (Array.getElem?_eq_some_iff.mp hc).1
    rw [newTask, Array.getElem?_push, if_neg (Nat.ne_of_lt hlt), hc]
  refine ⟨⟨[], rfl, nofun⟩, Nat.le_refl _, fun h => ?_, fun h => ?_⟩
  · obtain ⟨c, hc, hof⟩ := h
    exact ⟨c, hpush _ c hc, hof⟩
  · obtain ⟨⟨c, hc, horder, hknown⟩, hall⟩ := h
    refine ⟨⟨c, hc, horder, fun n hn => ?_⟩, fun n hn => ?_⟩
    · exact Nat.lt_of_lt_of_le (hknown n hn) (by simp [newTask])
    · obtain ⟨c', hc', hrest⟩ := hall n hn
      exact ⟨c', hpush n c' hc', hrest⟩

theorem calm_newWindow (owner : Nat) (w : World) : Calm w (w.newWindow owner).2 := by
  refine ⟨⟨[], rfl, nofun⟩, by simp [newWindow], id, fun h => ?_⟩
  obtain ⟨⟨cell, hcell, horder⟩, hall⟩ := h
  have hlt := (Array.getElem?_eq_some_iff.mp hcell).1
  exact ⟨⟨cell, by rw [newWindow, Array.getElem?_push, if_neg (Nat.ne_of_lt hlt), hcell], horder⟩,
    hall⟩

/-- Nobody waits in a new window. -/
theorem waits_newWindow (owner : Nat) (w : World) :
    (w.newWindow owner).2.Waits w.windows.size [] :=
  ⟨⟨{ owner }, by simp [newWindow], rfl, nofun⟩, nofun⟩

/-- A task that is not in a queue is queued up behind everybody who waits. -/
theorem calm_enqueue {task : Nat} {cell : TaskCell} (hcell : w.tasks[task]? = some cell)
    (hqueued : cell.queued = false) (window : Nat) : Calm w (w.enqueue task window) := by
  have hmark : Calm w (w.modifyTask task fun cell => { cell with queued := true }) := by
    refine calm_modifyTask task w (fun cell => ?_) fun cell _ => ?_ <;> rfl
  refine ⟨hmark.log, Nat.le_of_eq Array.size_modify.symm, hmark.tasks, fun {at_ tasks} h => ?_⟩
  -- whoever waits is in a queue, and so is somebody else
  have hother : task ∉ tasks := by
    intro hmem
    obtain ⟨c, hc, -, htrue⟩ := h.queued task hmem
    rw [hcell, Option.some.injEq] at hc
    rw [← hc, hqueued] at htrue
    cases htrue
  obtain ⟨⟨c, hc, horder, hknown⟩, hall⟩ := hmark.waits h
  refine ⟨?_, hall⟩
  rw [enqueue, modifyWindow, Array.getElem?_modify, hc]
  split
  · refine ⟨{ c with queue := c.queue ++ [task] }, rfl, ?_, fun n hn => ?_⟩
    · rw [List.filter_append, horder]
      simp [hother]
    · rcases List.mem_append.mp hn with hn | hn
      · exact hknown n hn
      · cases List.mem_singleton.mp hn
        exact Nat.lt_of_lt_of_eq (Array.getElem?_eq_some_iff.mp hcell).1 Array.size_modify.symm
  · exact ⟨c, rfl, horder, hknown⟩

theorem calm_tell (depth : Nat) (waiter : Waiter) (w : World) : Calm w (w.tell depth waiter) := by
  induction depth generalizing waiter w with
  | zero => exact .refl w
  | succ depth ih =>
    cases waiter with
    | task task =>
      have hwoken : Calm w (w.modifyTask task fun cell => { cell with woken := true }) := by
        refine calm_modifyTask task w (fun cell => ?_) fun cell h => ?_
        · rfl
        · exact h
      simp only [tell]
      split
      · exact .refl w
      · rename_i cell hcell
        split
        · exact .refl w
        · split
          · exact hwoken
          · rename_i window _
            split
            · exact hwoken
            · rename_i hqueued
              have hcell' : (w.modifyTask task fun cell => { cell with woken := true }).tasks[task]? =
                  some { cell with woken := true } := by
                rw [modifyTask, Array.getElem?_modify, if_pos rfl, hcell, Option.map_some]
              have henqueue := hwoken.trans
                (calm_enqueue hcell' (Bool.eq_false_iff.mpr hqueued) window)
              split
              · exact henqueue.trans (ih _ _)
              · exact henqueue
    | pending pending =>
      simp only [tell]
      split
      · exact .refl w
      · exact (calm_modifyPending ..).trans (calm_foldl (fun w waiter => ih waiter w) _ _)

theorem calm_wake (waiter : Waiter) (w : World) : Calm w (w.wake waiter) := calm_tell _ waiter w

theorem calm_suspend (window task : Nat) (w : World) : Calm w (w.suspend window task) := by
  refine calm_modifyWindow window w fun cell => ?_
  rfl

theorem calm_retire (window task : Nat) (w : World) : Calm w (w.retire window task) := by
  refine (calm_modifyTask task w (fun cell => ?_) fun cell h => ?_).trans
    (calm_modifyWindow window _ fun cell => ?_)
  · rfl
  · exact h
  · rfl

theorem calm_advance (h : w.advance? = some v) : Calm w v := by
  obtain ⟨deadline, -, rfl⟩ := Option.map_eq_some_iff.mp h
  have hclock : Calm w { w with
      clock := max w.clock deadline
      timers := w.timers.filter (deadline < ·.deadline) } := .of_eq rfl rfl rfl
  exact hclock.trans (calm_foldl (fun w (timer : Timer) => calm_wake timer.waiter w) _ _)

/-! ## Letting go -/

theorem calm_giveUp (pending seat : Nat) (w : World) : Calm w (w.giveUp pending seat) := by
  unfold giveUp
  dsimp only
  split
  · exact (calm_modifyPending ..).trans (calm_setForsaken ..)
  · exact calm_modifyPending ..

theorem calm_letGo (pending : Nat) (w : World) : Calm w (w.letGo pending) := by
  unfold letGo
  dsimp only
  split
  · split
    · exact (calm_setForsaken ..).trans ((calm_modifyPending ..).trans (calm_giveUp ..))
    · exact calm_setForsaken ..
  · exact calm_setForsaken ..

theorem calm_letGoOfAll (reached : Std.HashSet Cell) (count : Nat) (w : World) :
    Calm w (w.letGoOfAll reached count) := by
  induction count generalizing w with
  | zero => exact .refl w
  | succ count ih =>
    simp only [letGoOfAll]
    split
    · exact (calm_letGo _ w).trans (ih _)
    · exact calm_setForsaken ..

theorem calm_tidied (held : List Value) (w : World) : Calm w (w.tidied held) := by
  unfold tidied
  split
  · exact .refl w
  · exact calm_letGoOfAll ..

theorem calm_part (around : List Surrounding) (partings : List Parting) (w : World) :
    Calm w (w.part around partings) := by
  induction partings generalizing w with
  | nil => exact .refl w
  | cons parting rest ih =>
    simp only [part]
    refine Calm.trans ?_ (ih _)
    split
    · exact (calm_giveUp ..).trans (calm_tidied ..)
    · exact calm_tidied ..

theorem calm_abandon (around : List Surrounding) (stack : List Work) (w : World) :
    Calm w (w.abandon around stack) := calm_part ..

/-! ## Awaiting -/

theorem calm_conclude (pending : Nat) (label : Option String) (body : Action) (w : World) :
    Calm w (w.conclude pending label body).2 := by
  have hsettle : ∀ (outcome : Outcome) (v : World), Calm v (v.settle pending outcome) := by
    intro outcome v
    unfold settle
    split
    · exact .refl v
    · exact (calm_modifyPending ..).trans (calm_foldl (fun w waiter => calm_wake waiter w) _ _)
  exact (calm_note _ rfl w).trans ((calm_run body _).trans (hsettle _ _))

theorem askStable_calm (w : World) : AskStable (Calm w) where
  started _ _ h := h.trans (calm_note _ rfl _)
  seated _ _ h := h.trans (calm_modifyPending ..)
  staged _ _ _ h := h.trans (calm_modifyPending ..)
  timer _ _ h := h.trans (.of_eq rfl rfl rfl)
  concluded _ _ _ h := h.trans (calm_conclude ..)

theorem calm_ask (depth : Nat) (waiter : Waiter) (pending : Nat) (own : Option Nat) (w : World) :
    Calm w (w.ask depth waiter pending own).2 :=
  (askStable_calm w).ask (.refl w) depth waiter pending own

end World

/-! ## Work -/

open World

variable (w : World)

theorem Feed.calm_draw (task : Nat) (f : Feed) : Calm w (f.draw task w).2.2 := by
  have hnoted : Calm w (f.noteDrawn w) := by
    unfold Feed.noteDrawn
    split
    · exact calm_note _ rfl w
    · exact .refl w
  unfold Feed.draw
  split
  · exact .refl w
  · dsimp only
    split
    · split
      · exact hnoted
      · exact .refl w
    · split
      · exact hnoted
      · exact .of_eq rfl rfl rfl

namespace Render

theorem calm_feed (ahead task : Nat) (f : Feed) (kept : List Value) :
    Calm w (feed ahead task f kept w).2 := by
  unfold feed
  split
  · exact .refl w
  · exact calm_newWindow task w

theorem calm_element (e : Element) : Calm w (element e w).2 := by
  unfold element
  split
  · exact .refl w
  · exact .refl w
  · exact .refl w
  · exact calm_callComponent ..
  · exact .refl w

theorem calm_take (cell : Nat) : Calm w (take cell w).2 := by
  unfold take
  split
  · exact .refl w
  · split
    · exact .refl w
    · exact .of_eq rfl rfl rfl

theorem calm_members (ahead task : Nat) (values kept : List Value) :
    Calm w (members ahead task values kept w).2 := by
  unfold members
  split
  · exact .refl w
  · exact calm_feed ..

theorem calm_item (ahead task : Nat) (value : Value) : Calm w (item ahead task value w).2 := by
  cases value with
  | list values => exact calm_members ..
  | sequence cell => exact (calm_take w cell).trans (calm_feed ..)
  | element e => exact calm_element ..
  | object entries =>
    rw [item]
    split
    · exact calm_element ..
    · exact .refl w
  | _ => exact .refl w

theorem calm_prop (name : String) (value : Value) : Calm w (prop name value w).2 := by
  unfold prop
  split
  · exact .refl w
  · split
    · exact .refl w
    · split
      · exact .refl w
      · exact calm_note _ rfl w

end Render

/-- Work that writes an event down. -/
def Work.isNote : Work → Bool
  | .note _ => true
  | _ => false

/-- Every other step of work is calm. -/
theorem Work.calm_step (ahead task : Nat) {work : Work} (hwork : work.isNote = false) :
    Calm w (work.step ahead task w).2 := by
  cases work with
  | note event => cases hwork
  | root value => cases value <;> exact .refl w
  | item value => exact Render.calm_item w ahead task value
  | prop name value => exact Render.calm_prop w name value
  | children e => exact Render.calm_members w ahead task e.children [.element e]
  | await cell seat resumption =>
    have hask := calm_ask (cell + 1) (.task task) cell seat w
    rw [Work.step, World.await]
    split
    · rename_i heq
      rw [heq] at hask
      exact hask
    · rename_i heq
      rw [heq] at hask
      exact hask
  | draw feed =>
    have hdraw := Feed.calm_draw w task feed
    rw [Work.step]
    split
    · rename_i heq
      rw [heq] at hdraw
      exact hdraw
    · rename_i heq
      rw [heq] at hdraw
      exact hdraw
    · rename_i heq
      rw [heq] at hdraw
      exact hdraw
  | settled | emit | fail | ahead => exact .refl w

end TaggedMarkup
