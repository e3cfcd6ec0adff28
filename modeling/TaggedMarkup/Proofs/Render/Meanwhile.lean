import TaggedMarkup.Proofs.Render.Checks
import TaggedMarkup.Proofs.Render.Drawing

/-!
# What happens meanwhile

While a value is rendered, other things are rendered in the same world: members of the same list, and what
other renders have to do. A world **becomes** another one (`World.Becomes`) when components are called,
sequences taken, pending values asked and time passes, in any order. What a value is worth may not depend on
any of this.

Rendering **proceeds** (`Proceeds`) from pieces of work in play to others, by courses and as time passes. It
is **clean** if no one-shot sequence is reached after it was taken.
-/

namespace TaggedMarkup

namespace World

/-- The world may have come to this while things were rendered in it. -/
inductive Becomes (w : World) : World → Prop
  | refl : Becomes w w
  /-- the books are changed: tasks, windows, waiters, timers -/
  | hidden {v u : World} : Becomes w v → u.seen = v.seen → Becomes w u
  | noted {v : World} (event : Event) : Becomes w v → Becomes w (v.note event)
  | called {v : World} (component : Component) (props : Props) (children : List Value) :
    Becomes w v → Becomes w (v.callComponent component props children).2
  | took {v : World} (sequence : Nat) : Becomes w v → Becomes w (Render.take sequence v).2
  | asked {v : World} (waiter : Waiter) (pending : Nat) (own : Option Nat) :
    Becomes w v → Becomes w (v.await waiter pending own).2
  | passed {v u : World} : Becomes w v → v.advance? = some u → Becomes w u

variable {w v u : World}

namespace Becomes

theorem trans (h : Becomes w v) (h' : Becomes v u) : Becomes w u := by
  induction h' with
  | refl => exact h
  | hidden _ hseen ih => exact ih.hidden hseen
  | noted event _ ih => exact ih.noted event
  | called component props children _ ih => exact ih.called component props children
  | took sequence _ ih => exact ih.took sequence
  | asked waiter pending own _ ih => exact ih.asked waiter pending own
  | passed _ hadvance ih => exact ih.passed hadvance

theorem grown_callComponent (component : Component) (props : Props) (children : List Value) (w : World) :
    Grown w (w.callComponent component props children).2 := by
  rw [callComponent]
  split
  · exact (Same.note _ w).grown.trans (.run _ _)
  · exact .refl w

theorem grown_take (sequence : Nat) (w : World) : Grown w (Render.take sequence w).2 := by
  rcases Render.take_cases sequence w with ⟨htake, -⟩ | ⟨cell, -, -, htake⟩
  · rw [htake]
    exact .refl w
  · rw [htake]
    exact .of_pendings rfl

/-- Pending values keep their jobs. -/
theorem lasts (h : Becomes w v) : Lasts w v := by
  induction h with
  | refl => exact .refl w
  | hidden _ hseen ih => exact ih.trans (Grown.of_seen hseen).toLasts
  | noted event _ ih => exact ih.trans (Same.note event _).grown.toLasts
  | called component props children _ ih =>
    exact ih.trans (grown_callComponent component props children _).toLasts
  | took sequence _ ih => exact ih.trans (grown_take sequence _).toLasts
  | asked waiter pending own _ ih => exact ih.trans (Lasts.ask ..)
  | passed _ hadvance ih => exact ih.trans (grown_advance hadvance).toLasts

/-- Sequences keep their members, taken or not. -/
theorem keepsSource (h : Becomes w v) (n : Nat) : KeepsSource n w v := by
  induction h with
  | refl => exact .refl w
  | hidden _ hseen ih => exact ih.trans (Bypasses.of_seen hseen).keepsSource
  | noted event _ ih => exact ih.trans (.refl _)
  | @called v component props children _ ih =>
    exact ih.trans ((survives_bypasses n v).call component props children (.refl v)).keepsSource
  | @took v sequence _ ih =>
    refine ih.trans ?_
    by_cases heq : sequence = n
    · subst heq
      intro cell hcell
      rcases Render.take_cases sequence v with ⟨htake, -⟩ | ⟨_, -, -, htake⟩
      · exact ⟨cell, by rw [htake, hcell], rfl⟩
      · refine ⟨{ cell with taken := true }, ?_, rfl⟩
        rw [htake]
        dsimp only
        rw [Array.getElem?_modify, if_pos rfl, hcell, Option.map_some]
    · exact (bypasses_take heq v).keepsSource
  | asked waiter pending own _ ih => exact ih.trans (bypasses_await waiter pending own _).keepsSource
  | passed _ hadvance ih =>
    refine ih.trans fun cell hcell => ⟨cell, ?_, rfl⟩
    rw [(same_advance hadvance).sequences, hcell]

theorem survives (w : World) : Survives (Becomes w) where
  hidden h hseen _ := h.hidden hseen
  call component props children h := h.called component props children
  dropped _ _ h := h.noted _

theorem draw {f feed : Feed} {task : Nat} {drawn : Draw} (h : f.draw task w = (drawn, feed, v)) :
    Becomes w v := by
  rcases Feed.draw_cases h with ⟨-, -, -, rfl⟩ | ⟨_, _, _, -, -, -, rfl⟩ | ⟨-, -, -, -, hseen⟩
  · exact .refl
  · rw [Feed.noteDrawn]
    split
    · exact .noted _ .refl
    · exact .refl
  · exact .hidden .refl hseen

theorem step {ahead task : Nat} {work : Work} {progress : Progress}
    (h : work.step ahead task w = (progress, v)) : Becomes w v := by
  obtain rfl : (work.step ahead task w).2 = v := by rw [h]
  by_cases hprompt : work.isPrompt = true
  · exact (survives w).step .refl hprompt ahead task
  · cases work with
    | note event => exact .noted event .refl
    | await cell seat resumption =>
      have hsame : ((Work.await cell seat resumption).step ahead task w).2 =
          (w.await (.task task) cell seat).2 := by
        rw [Work.step]
        split <;> simp_all only
      rw [hsame]
      exact .asked (.task task) cell seat .refl
    | draw feed =>
      cases hdraw : feed.draw task w with
      | mk drawn next =>
        have hsame : ((Work.draw feed).step ahead task w).2 = next.2 := by
          rw [Work.step, hdraw]
          cases drawn <;> rfl
        rw [hsame]
        exact draw hdraw
    | item value =>
      cases value with
      | sequence cell =>
        rw [Work.step_sequence]
        exact (survives w).feed (.took cell .refl) ..
      | _ => exact absurd rfl hprompt
    | emit | fail | ahead => exact .refl
    | _ => exact absurd rfl hprompt

/-- A course takes a world to one that it may become. -/
theorem course {pieces more : List Work} {deeds : List Deed} (h : Course w pieces deeds v more) :
    Becomes w v := by
  induction h with
  | refl => exact .refl
  | hidden _ hseen ih => exact ih.hidden hseen
  | entered window member _ ih => exact ih.noted _
  | through _ _ _ ih => exact ih
  | only _ _ ih => exact ih
  | step ahead task _ _ hstep ih => exact ih.trans (step hstep)
  | draw task _ hdraw ih => exact ih.trans (draw hdraw)

end Becomes

/-! ## The clock -/

theorem clock_conclude {pending : Nat} (label : Option String) (body : Action) (w : World) :
    (w.conclude pending label body).2.clock = w.clock := by
  have hsettle := congrArg World.clock (seen_settle pending (body.run (w.note (.finished pending label))).1
    (body.run (w.note (.finished pending label))).2)
  have hrun := (kept_run body (w.note (.finished pending label))).clock
  exact hsettle.trans hrun

theorem clock_ask (depth : Nat) (waiter : Waiter) (pending : Nat) (own : Option Nat) (w : World) :
    (w.ask depth waiter pending own).2.clock = w.clock := by
  have hstable : AskStable fun v => v.clock = w.clock :=
    ⟨fun _ _ h => h, fun _ _ h => h, fun _ _ _ h => h, fun _ _ h => h,
      fun _ label body h => (clock_conclude label body _).trans h⟩
  exact hstable.ask rfl depth waiter pending own

theorem clock_draw {f feed : Feed} {task : Nat} {drawn : Draw} (h : f.draw task w = (drawn, feed, v)) :
    v.clock = w.clock := by
  rcases Feed.draw_cases h with ⟨-, -, -, rfl⟩ | ⟨_, _, _, -, -, -, rfl⟩ | ⟨-, -, -, -, hseen⟩
  · rfl
  · rw [Feed.noteDrawn]
    split <;> rfl
  · exact clock_of_seen hseen

theorem survives_clock (w : World) : Survives fun v => v.clock = w.clock where
  hidden h hseen _ := (clock_of_seen hseen).trans h
  call component props children h := (kept_callComponent component props children _).clock.trans h
  dropped _ _ h := h

/-- No step takes time. -/
theorem clock_step {ahead task : Nat} {work : Work} {progress : Progress}
    (h : work.step ahead task w = (progress, v)) : v.clock = w.clock := by
  obtain rfl : (work.step ahead task w).2 = v := by rw [h]
  by_cases hprompt : work.isPrompt = true
  · exact (survives_clock w).step rfl hprompt ahead task
  · cases work with
    | await cell seat resumption =>
      have hsame : ((Work.await cell seat resumption).step ahead task w).2 =
          (w.await (.task task) cell seat).2 := by
        rw [Work.step]
        split <;> simp_all only
      rw [hsame]
      exact clock_ask ..
    | draw feed =>
      cases hdraw : feed.draw task w with
      | mk drawn next =>
        have hsame : ((Work.draw feed).step ahead task w).2 = next.2 := by
          rw [Work.step, hdraw]
          cases drawn <;> rfl
        rw [hsame]
        exact clock_draw hdraw
    | item value =>
      cases value with
      | sequence cell =>
        rw [Work.step_sequence]
        refine (survives_clock w).feed ?_ ..
        rcases Render.take_cases cell w with ⟨htake, -⟩ | ⟨_, -, -, htake⟩ <;> rw [htake]
      | _ => exact absurd rfl hprompt
    | note | emit | fail | ahead => rfl
    | _ => exact absurd rfl hprompt

end World

/-- No turn takes time. -/
theorem Course.clock {w v : World} {pieces more : List Work} {deeds : List Deed}
    (h : Course w pieces deeds v more) : v.clock = w.clock := by
  induction h with
  | refl => rfl
  | hidden _ hseen ih => exact (World.clock_of_seen hseen).trans ih
  | entered _ _ _ ih | through _ _ _ ih | only _ _ ih => exact ih
  | step _ _ _ _ hstep ih => exact (World.clock_step hstep).trans ih
  | draw _ _ hdraw ih => exact (World.clock_draw hdraw).trans ih

/-! ## Rendering -/

/-- Rendering leads from these pieces of work in play to others. -/
inductive Proceeds (w : World) (pieces : List Work) : World → List Work → Prop
  | refl : Proceeds w pieces w pieces
  | course {v u : World} {more rest : List Work} {deeds : List Deed} :
    Proceeds w pieces v more → Course v more deeds u rest → Proceeds w pieces u rest
  | passed {v u : World} {more : List Work} :
    Proceeds w pieces v more → v.advance? = some u → Proceeds w pieces u more

variable {w v u : World} {pieces more rest : List Work}

theorem Proceeds.trans (h : Proceeds w pieces v more) (h' : Proceeds v more u rest) :
    Proceeds w pieces u rest := by
  induction h' with
  | refl => exact h
  | course _ hcourse ih => exact ih.course hcourse
  | passed _ hadvance ih => exact ih.passed hadvance

theorem Proceeds.becomes (h : Proceeds w pieces v more) : w.Becomes v := by
  induction h with
  | refl => exact .refl
  | course _ hcourse ih => exact ih.trans (.course hcourse)
  | passed _ hadvance ih => exact ih.passed hadvance

/-- Wherever rendering leads, no sequence is reached that was taken before, and pending values are asked
for by checked forms made after them only. -/
def Clean (w : World) (pieces : List Work) : Prop :=
  ∀ v more, Proceeds w pieces v more → v.InOrder ∧ ∀ n, .item (.sequence n) ∈ more → v.isTaken n = false

namespace Clean

theorem inOrder (h : Clean w pieces) : w.InOrder := (h w pieces .refl).1

theorem isTaken (h : Clean w pieces) {n : Nat} (hn : .item (.sequence n) ∈ pieces) :
    w.isTaken n = false := (h w pieces .refl).2 n hn

theorem proceeds (h : Clean w pieces) (hv : Proceeds w pieces v more) : Clean v more :=
  fun u rest hu => h u rest (hv.trans hu)

theorem course {deeds : List Deed} (h : Clean w pieces) (hv : Course w pieces deeds v more) :
    Clean v more := h.proceeds (.course .refl hv)

theorem passed (h : Clean w pieces) (hv : w.advance? = some v) : Clean v pieces :=
  h.proceeds (.passed .refl hv)

theorem hidden (h : Clean w pieces) (hseen : v.seen = w.seen) : Clean v pieces :=
  h.course (.hidden .refl hseen)

theorem only (h : Clean w pieces) (hless : more.Subperm pieces) : Clean w more :=
  h.course (.only .refl hless)

end Clean

end TaggedMarkup
