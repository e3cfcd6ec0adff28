import TaggedMarkup.Proofs.Render.Asking
import TaggedMarkup.Render.Turn

/-!
# Tasks only grow in number

A task is never taken back, so its number stays its own. The only ones to start a task are a render
and a window that draws a member; host code, waking, awaiting and letting go leave as many tasks as
there were.
-/

namespace TaggedMarkup

namespace World

variable (w : World)

/-! ## Waking -/

theorem size_tasks_modifyTask (task : Nat) (f : TaskCell → TaskCell) :
    (w.modifyTask task f).tasks.size = w.tasks.size := Array.size_modify

theorem size_tasks_foldl {α : Type} {f : World → α → World}
    (h : ∀ w a, (f w a).tasks.size = w.tasks.size) (as : List α) :
    (as.foldl f w).tasks.size = w.tasks.size := by
  induction as generalizing w with
  | nil => rfl
  | cons a rest ih => rw [List.foldl_cons, ih, h]

theorem size_tasks_tell (depth : Nat) (waiter : Waiter) :
    (w.tell depth waiter).tasks.size = w.tasks.size := by
  induction depth generalizing waiter w with
  | zero => rfl
  | succ depth ih =>
    cases waiter with
    | task task =>
      have hwoken : (w.modifyTask task fun cell => { cell with woken := true }).tasks.size =
          w.tasks.size := size_tasks_modifyTask ..
      have hqueued : ∀ window, ((w.modifyTask task fun cell => { cell with woken := true }).enqueue
          task window).tasks.size = w.tasks.size := by
        intro window
        exact (size_tasks_modifyTask ..).trans hwoken
      simp only [tell]
      split
      · rfl
      · split
        · rfl
        · split
          · exact hwoken
          · split
            · exact hwoken
            · split
              · rw [ih, hqueued]
              · exact hqueued _
    | pending pending =>
      simp only [tell]
      split
      · rfl
      · rw [size_tasks_foldl _ fun w waiter => ih w waiter]
        rfl

theorem size_tasks_wake (waiter : Waiter) : (w.wake waiter).tasks.size = w.tasks.size :=
  size_tasks_tell w _ waiter

theorem size_tasks_advance? {w v : World} (h : w.advance? = some v) :
    v.tasks.size = w.tasks.size := by
  obtain ⟨deadline, -, rfl⟩ := Option.map_eq_some_iff.mp h
  exact size_tasks_foldl _ (fun w (timer : Timer) => size_tasks_wake w timer.waiter) _

theorem size_tasks_beginTurn (task : Nat) : (w.beginTurn task).tasks.size = w.tasks.size :=
  size_tasks_modifyTask ..

theorem size_tasks_retire (window task : Nat) :
    (w.retire window task).tasks.size = w.tasks.size := size_tasks_modifyTask ..

section Dequeue

variable {w} {window task : Nat} {v : World}

theorem dequeue?_eq_some (h : w.dequeue? window = some (task, v)) :
    ∃ frame queue, w.windows[window]? = some frame ∧ frame.queue = task :: queue ∧
      v = w.modifyWindow window fun cell => { cell with queue } := by
  unfold dequeue? at h
  split at h
  · rename_i frame hframe
    split at h
    · rename_i task queue hqueue
      cases h
      exact ⟨frame, queue, hframe, hqueue, rfl⟩
    · cases h
  · cases h

theorem tasks_dequeue? (h : w.dequeue? window = some (task, v)) : v.tasks = w.tasks := by
  obtain ⟨_, _, -, -, rfl⟩ := dequeue?_eq_some h
  rfl

end Dequeue

/-! ## Letting go -/

theorem tasks_giveUp (pending seat : Nat) : (w.giveUp pending seat).tasks = w.tasks := by
  unfold giveUp
  dsimp only
  split <;> rfl

theorem tasks_letGo (pending : Nat) : (w.letGo pending).tasks = w.tasks := by
  unfold letGo
  dsimp only
  split
  · split
    · rw [tasks_giveUp]
      rfl
    · rfl
  · rfl

theorem tasks_letGoOfAll (reached : Std.HashSet Cell) (count : Nat) :
    (w.letGoOfAll reached count).tasks = w.tasks := by
  induction count generalizing w with
  | zero => rfl
  | succ count ih =>
    simp only [letGoOfAll]
    split
    · rw [ih, tasks_letGo]
    · rfl

@[simp] theorem tasks_tidied (held : List Value) : (w.tidied held).tasks = w.tasks := by
  unfold tidied
  split
  · rfl
  · exact tasks_letGoOfAll ..

theorem tasks_part (around : List Surrounding) (partings : List Parting) :
    (w.part around partings).tasks = w.tasks := by
  induction partings generalizing w with
  | nil => rfl
  | cons parting rest ih =>
    simp only [part]
    rw [ih, tasks_tidied]
    split
    · exact tasks_giveUp ..
    · rfl

@[simp] theorem tasks_abandon (around : List Surrounding) (stack : List Work) :
    (w.abandon around stack).tasks = w.tasks := tasks_part ..

/-! ## Host code -/

theorem tasks_run (a : Action) : (a.run w).2.tasks = w.tasks := by
  refine a.run_stable (P := fun v => v.tasks = w.tasks) ⟨?_, ?_, ?_, ?_, ?_⟩ rfl
  · exact fun _ _ h => h
  · exact fun _ h => h
  · exact fun _ _ h => h
  · exact fun _ _ h => h
  · exact fun _ _ h => h

theorem tasks_callComponent (component : Component) (props : Props) (children : List Value) :
    (w.callComponent component props children).2.tasks = w.tasks := by
  unfold callComponent
  split
  · exact tasks_run ..
  · rfl

/-! ## Awaiting -/

theorem size_tasks_settle (pending : Nat) (outcome : Outcome) :
    (w.settle pending outcome).tasks.size = w.tasks.size := by
  unfold settle
  split
  · rfl
  · dsimp only
    rw [size_tasks_foldl _ fun w waiter => size_tasks_wake w waiter]
    rfl

theorem size_tasks_conclude (pending : Nat) (label : Option String) (body : Action) :
    (w.conclude pending label body).2.tasks.size = w.tasks.size := by
  unfold conclude
  dsimp only
  rw [size_tasks_settle, tasks_run]
  rfl

theorem size_tasks_ask (depth : Nat) (waiter : Waiter) (pending : Nat) (own : Option Nat) :
    (w.ask depth waiter pending own).2.tasks.size = w.tasks.size := by
  have hstable : AskStable fun v : World => v.tasks.size = w.tasks.size := {
    started := fun _ _ h => h
    seated := fun _ _ h => h
    staged := fun _ _ _ h => h
    timer := fun _ _ h => h
    concluded := fun {v} pending label body h => (size_tasks_conclude v pending label body).trans h }
  exact hstable.ask rfl depth waiter pending own

end World

/-! ## Work -/

variable (w : World)

theorem Feed.tasks_draw (task : Nat) (f : Feed) : (f.draw task w).2.2.tasks = w.tasks := by
  have hnoted : (f.noteDrawn w).tasks = w.tasks := by
    unfold Feed.noteDrawn
    split <;> rfl
  unfold Feed.draw
  split
  · rfl
  · dsimp only
    split
    · split
      · exact hnoted
      · rfl
    · split
      · exact hnoted
      · rfl

namespace Render

theorem tasks_feed (ahead task : Nat) (f : Feed) (kept : List Value) :
    (feed ahead task f kept w).2.tasks = w.tasks := by
  unfold feed
  split <;> rfl

theorem tasks_element (e : Element) : (element e w).2.tasks = w.tasks := by
  unfold element
  split
  · rfl
  · rfl
  · rfl
  · exact World.tasks_callComponent ..
  · rfl

theorem tasks_take (cell : Nat) : (take cell w).2.tasks = w.tasks := by
  unfold take
  split
  · rfl
  · split <;> rfl

theorem tasks_members (ahead task : Nat) (values kept : List Value) :
    (members ahead task values kept w).2.tasks = w.tasks := by
  unfold members
  split
  · rfl
  · exact tasks_feed ..

theorem tasks_item (ahead task : Nat) (value : Value) :
    (item ahead task value w).2.tasks = w.tasks := by
  cases value with
  | list values => exact tasks_members ..
  | sequence cell => exact (tasks_feed ..).trans (tasks_take ..)
  | element e => exact tasks_element ..
  | object entries =>
    rw [item]
    split
    · exact tasks_element ..
    · rfl
  | _ => rfl

theorem tasks_prop (name : String) (value : Value) : (prop name value w).2.tasks = w.tasks := by
  unfold prop
  split
  · rfl
  · split
    · rfl
    · split <;> rfl

end Render

/-- Work starts no task. -/
theorem Work.size_tasks_step (ahead task : Nat) (work : Work) :
    (work.step ahead task w).2.tasks.size = w.tasks.size := by
  cases work with
  | root value => cases value <;> rfl
  | item value => exact congrArg Array.size (Render.tasks_item ..)
  | prop name value => exact congrArg Array.size (Render.tasks_prop ..)
  | children e => exact congrArg Array.size (Render.tasks_members ..)
  | await cell seat resumption =>
    have hask := World.size_tasks_ask w (cell + 1) (.task task) cell seat
    rw [Work.step, World.await]
    split
    · rename_i heq
      rw [heq] at hask
      exact hask
    · rename_i heq
      rw [heq] at hask
      exact hask
  | draw feed =>
    have hdraw := congrArg Array.size (Feed.tasks_draw w task feed)
    rw [Work.step]
    split
    · rename_i heq
      rw [heq] at hdraw
      exact hdraw
    · rename_i heq
      rw [heq] at hdraw
      exact hdraw
    · rename_i heq
      rw [heq] at hdraw
      exact hdraw
  | note | settled | emit | fail | ahead => rfl

end TaggedMarkup
