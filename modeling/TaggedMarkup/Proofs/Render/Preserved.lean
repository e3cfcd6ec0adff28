import TaggedMarkup.Proofs.Render.Prompt
import TaggedMarkup.Proofs.Render.Turning
import TaggedMarkup.Render.Stream

/-!
# What renders preserve

A property of worlds is **preserved** if the few things do so from which everything else is made up: host
code, awaiting, setting timers, the passing of time, and changes that concern neither the pending values nor
the clock and the timers. Then every turn preserves it, with any number of members rendered ahead; the
induction is on the fuel of the four functions that take turns with each other.

So it holds in every world to which a world **leads** (`World.Leads`): in any history of renders, taken in
any order and given up at any point, host code and uses of templates.
-/

namespace TaggedMarkup

namespace World

/-- A property of worlds that survives whatever a render does. -/
structure Preserved (P : World → Prop) : Prop where
  /-- what is not seen, and sets no timer -/
  hidden : ∀ {w v : World}, P w → v.seen = w.seen → v.timers = w.timers → P v
  /-- what concerns neither pending values nor time -/
  aside : ∀ {w v : World}, P w → v.pendings = w.pendings → v.clock = w.clock → v.timers = w.timers →
    P v
  run : ∀ {w : World} (a : Action), P w → P (a.run w).2
  setTimer : ∀ {w : World} (delay : Nat) (waiter : Waiter), P w → P (w.setTimer delay waiter)
  await : ∀ {w : World} (waiter : Waiter) (pending : Nat) (own : Option Nat), P w →
    P (w.await waiter pending own).2
  advance : ∀ {w v : World}, P w → w.advance? = some v → P v

namespace Preserved

variable {P : World → Prop} (hP : Preserved P) {w v : World}

include hP

theorem note (h : P w) (event : Event) : P (w.note event) := hP.aside h rfl rfl rfl

theorem noteAll (h : P w) (reports : List Report) : P (w.noteAll reports) := by
  unfold World.noteAll
  induction reports generalizing w with
  | nil => exact h
  | cons report rest ih => exact ih (hP.note h _)

theorem wake (h : P w) (waiter : Waiter) : P (w.wake waiter) :=
  hP.hidden h (seen_wake w waiter) (timers_wake w waiter)

theorem tidied (h : P w) (held : List Value) : P (w.tidied held) :=
  hP.hidden h (seen_tidied w held) (timers_tidied w held)

theorem beginTurn (h : P w) (task : Nat) : P (w.beginTurn task) := hP.hidden h rfl rfl

theorem suspend (h : P w) (window task : Nat) : P (w.suspend window task) := hP.hidden h rfl rfl

theorem retire (h : P w) (window task : Nat) : P (w.retire window task) := hP.hidden h rfl rfl

theorem part (h : P w) (around : List Surrounding) (partings : List Parting) :
    P (w.part around partings) := by
  induction partings generalizing w with
  | nil => exact h
  | cons parting rest ih =>
    rw [World.part]
    refine ih (hP.tidied ?_ _)
    split
    · exact hP.hidden h (seen_giveUp ..) (timers_giveUp ..)
    · exact h

theorem abandon (h : P w) (around : List Surrounding) (stack : List Work) :
    P (w.abandon around stack) := hP.part h around _

theorem callComponent (h : P w) (component : Component) (props : Props) (children : List Value) :
    P (w.callComponent component props children).2 := by
  unfold World.callComponent
  split
  · exact hP.run _ (hP.note h _)
  · exact h

theorem dequeue (h : P w) {window task : Nat} (hv : w.dequeue? window = some (task, v)) : P v := by
  unfold World.dequeue? at hv
  split at hv
  · split at hv
    · cases hv
      exact hP.hidden h rfl rfl
    · cases hv
  · cases hv

/-! ## Work -/

theorem feedDraw (h : P w) (task : Nat) (f : Feed) : P (f.draw task w).2.2 := by
  have hnoted : P (f.noteDrawn w) := by
    unfold Feed.noteDrawn
    split
    · exact hP.note h _
    · exact h
  unfold Feed.draw
  split
  · exact h
  · dsimp only
    split
    · split
      · exact hnoted
      · exact h
    · split
      · exact hnoted
      · exact hP.setTimer _ _ h

/-- What prompt work does. -/
theorem survives : World.Survives P where
  hidden := hP.hidden
  call component props children h := hP.callComponent h component props children
  dropped _ _ h := hP.note h _

theorem take (h : P w) (cell : Nat) : P (Render.take cell w).2 := by
  unfold Render.take
  split
  · exact h
  · split
    · exact h
    · exact hP.aside h rfl rfl rfl

theorem step (h : P w) (ahead task : Nat) (work : Work) : P (work.step ahead task w).2 := by
  by_cases hprompt : work.isPrompt = true
  · exact hP.survives.step h hprompt ahead task
  · cases work with
    | note event => exact hP.note h event
    | item value =>
      cases value with
      | sequence cell => exact hP.survives.feed (hP.take h cell) ahead task _ []
      | _ => exact absurd rfl hprompt
    | await cell seat resumption =>
      have hask := hP.await (.task task) cell seat h
      rw [Work.step]
      split
      · rename_i o v heq
        rw [heq] at hask
        exact hask
      · rename_i seat' v heq
        rw [heq] at hask
        exact hask
    | draw feed =>
      have hdraw := hP.feedDraw h task feed
      rw [Work.step]
      split
      · rename_i value f v heq
        rw [heq] at hdraw
        exact hdraw
      · rename_i f v heq
        rw [heq] at hdraw
        exact hdraw
      · rename_i f v heq
        rw [heq] at hdraw
        exact hdraw
    | emit | fail | ahead => exact h
    | _ => exact absurd rfl hprompt

theorem lineupDraw (h : P w) (owner room : Nat) (l : Lineup) : P (l.draw owner room w).2 := by
  induction room generalizing l w with
  | zero => exact h
  | succ room ih =>
    have hdraw := hP.feedDraw h owner l.feed
    rw [LineupOf.draw]
    split
    · rename_i value f v heq
      rw [heq] at hdraw
      exact ih (w := (v.enlist l.window l.feed.index).2)
        (hP.hidden (hP.note hdraw (.entered l.window l.feed.index)) rfl rfl) _
    · rename_i f v heq
      rw [heq] at hdraw
      exact hdraw

end Preserved

end World

/-! ## Turns -/

/-- Everything that takes part in a turn preserves a property of worlds, with this much fuel. -/
structure Render.Preserves (P : World → Prop) (ahead fuel : Nat) : Prop where
  turn : ∀ {around : List Surrounding} {task : Nat} {stack rest : List Work} {w v : World} {t : Turn},
    P w → Render.turn ahead fuel around task stack w = some (t, rest, v) → P v
  windowTurn : ∀ {around : List Surrounding} {owner : Nat} {rest : List Work} {l l' : Lineup}
    {w v : World} {t : WindowTurn}, P w →
      Render.windowTurn ahead fuel around owner rest l w = some (t, l', v) → P v
  workOff : ∀ {around : List Surrounding} {owner running turns told : Nat} {rest : List Work}
    {l l' : Lineup} {w v : World} {t : WindowTurn}, P w →
      Render.workOff ahead fuel around owner rest running turns told l w = some (t, l', v) → P v
  memberTurn : ∀ {around : List Surrounding} {task : Nat} {fragments : List String}
    {stack : List Work} {w v : World} {m : Member}, P w →
      Render.memberTurn ahead fuel around task fragments stack w = some (m, v) → P v

namespace Render.Preserves

variable {P : World → Prop} {ahead fuel : Nat}

theorem zero : Preserves P ahead 0 where
  turn _ h := by
    rw [Render.turn] at h
    cases h
  windowTurn _ h := by
    rw [Render.windowTurn] at h
    cases h
  workOff _ h := by
    rw [Render.workOff] at h
    cases h
  memberTurn _ h := by
    rw [Render.memberTurn] at h
    cases h

section

variable (hP : World.Preserved P) (ih : Preserves P ahead fuel)

include hP ih

theorem succ_windowTurn {around : List Surrounding} {owner : Nat} {rest : List Work} {l l' : Lineup}
    {w v : World} {t : WindowTurn} (hw : P w)
    (h : Render.windowTurn ahead (fuel + 1) around owner rest l w = some (t, l', v)) : P v := by
  have hfill := hP.lineupDraw hw owner (ahead - l.members.length) l
  rw [Render.windowTurn] at h
  unfold LineupOf.fill at h
  dsimp only at h
  split at h
  · cases h
    exact hfill
  · exact ih.workOff hfill h

theorem succ_memberTurn {around : List Surrounding} {task : Nat} {fragments : List String}
    {stack : List Work} {w v : World} {m : Member} (hw : P w)
    (h : Render.memberTurn ahead (fuel + 1) around task fragments stack w = some (m, v)) : P v := by
  rw [Render.memberTurn] at h
  split at h
  · cases h
  · rename_i hturn
    exact ih.memberTurn (ih.turn hw hturn) h
  · rename_i hturn
    cases h
    exact hP.abandon (ih.turn hw hturn) _ _
  · rename_i hturn
    cases h
    exact ih.turn hw hturn
  · rename_i hturn
    cases h
    exact ih.turn hw hturn

theorem succ_workOff {around : List Surrounding} {owner running turns told : Nat} {rest : List Work}
    {l l' : Lineup} {w v : World} {t : WindowTurn} (hw : P w)
    (h : Render.workOff ahead (fuel + 1) around owner rest running turns told l w =
      some (t, l', v)) : P v := by
  rw [Render.workOff] at h
  split at h
  · cases h
    exact hw
  · rename_i task u hdequeue
    have hu := hP.dequeue hw hdequeue
    split at h
    · exact ih.workOff hu h
    · have hbegun := hP.beginTurn hu task
      dsimp only at h
      split at h
      · cases h
      · rename_i hmember
        have hturned := ih.memberTurn hbegun hmember
        split at h
        · cases h
          exact hP.wake (hP.suspend hturned _ _) _
        · exact ih.workOff (hP.suspend hturned _ _) h
      · rename_i hmember
        have hturned := ih.memberTurn hbegun hmember
        split at h
        · cases h
          exact hP.retire hturned _ _
        · exact ih.workOff (hP.retire hturned _ _) h

theorem succ_turn {around : List Surrounding} {task : Nat} {stack rest : List Work} {w v : World}
    {t : Turn} (hw : P w)
    (h : Render.turn ahead (fuel + 1) around task stack w = some (t, rest, v)) : P v := by
  match stack with
  | [] =>
    rw [Render.turn] at h
    cases h
    exact hw
  | work :: more =>
    by_cases hstepped : work.isStepped = true
    · have hstep := hP.step hw ahead task work
      cases hs : work.step ahead task w with
      | mk progress u =>
        rw [hs] at hstep
        cases progress with
        | next works =>
          rw [Render.turn_step hstepped hs] at h
          exact ih.turn (hP.tidied hstep _) h
        | wait waiting =>
          rw [Render.turn_wait hstepped hs] at h
          cases h
          exact hstep
    · cases work with
      | emit text =>
        rw [Render.turn] at h
        cases h
        exact hw
      | fail error =>
        rw [Render.turn] at h
        cases h
        exact hw
      | ahead lineup =>
        rw [Render.turn] at h
        split at h
        · cases h
        · rename_i hwindow
          exact ih.turn (ih.windowTurn hw hwindow) h
        · rename_i hwindow
          cases h
          exact ih.windowTurn hw hwindow
        · rename_i hwindow
          exact ih.turn (hP.tidied (ih.windowTurn hw hwindow) _) h
        · rename_i hwindow
          cases h
          exact ih.windowTurn hw hwindow
      | _ => exact absurd rfl hstepped

end

theorem all (hP : World.Preserved P) (ahead fuel : Nat) : Preserves P ahead fuel := by
  induction fuel with
  | zero => exact zero
  | succ fuel ih =>
    exact ⟨succ_turn hP ih, succ_windowTurn hP ih, succ_workOff hP ih, succ_memberTurn hP ih⟩

end Render.Preserves

/-! ## Histories -/

namespace World

/-- The world comes about from the other one: by host code, renders and uses of templates, whoever does
what when. -/
inductive Leads (w : World) : World → Prop
  | refl : Leads w w
  | run {v : World} (a : Action) : Leads w v → Leads w (a.run v).2
  /-- anything that changes the workshop, with its reports -/
  | workshop {v : World} (bench : Bench) (workshop : Workshop Bench) (reports : List Report) :
    Leads w v → Leads w ({ v with bench, workshop }.noteAll reports)
  | name {v : World} (name : String) (value : Value) : Leads w v → Leads w (v.name name value)
  | keep {v : World} (value : Value) : Leads w v → Leads w (v.keep value)
  | start {v : World} (config : RenderConfig) (stack : List Work) :
    Leads w v → Leads w (RenderStream.start config stack v).2
  /-- a render, as far as it has come, is asked for what is next -/
  | take {v u : World} {fuel : Nat} {s t : RenderStream} {out : Delivery} :
    Leads w v → s.await fuel v = some (out, t, u) → Leads w u
  | drop {v : World} (s : RenderStream) : Leads w v → Leads w (s.drop v)
  | resolve {v u : World} {fuel pending : Nat} {outcome : Outcome} :
    Leads w v → v.resolve fuel pending = some (outcome, u) → Leads w u

namespace Preserved

variable {P : World → Prop} (hP : Preserved P) {w v : World}

include hP

theorem stream {rounds : Nat} {s t : RenderStream} {out : Delivery} (hw : P w)
    (h : s.await rounds w = some (out, t, v)) : P v := by
  induction rounds generalizing s w with
  | zero => cases h
  | succ rounds ih =>
    rw [RenderStream.await] at h
    have hturn : ∀ {t : Turn} {stack : List Work} {v : World},
        Render.turn s.config.concurrency rounds [] s.task s.stack (w.beginTurn s.task) =
          some (t, stack, v) → P v :=
      (Render.Preserves.all hP s.config.concurrency rounds).turn (hP.beginTurn hw s.task)
    split at h
    · cases h
    · rename_i heq
      cases h
      exact hturn heq
    · rename_i heq
      cases h
      exact hturn heq
    · rename_i heq
      cases h
      exact hturn heq
    · rename_i heq
      split at h
      · exact ih (hturn heq) h
      · split at h
        · cases h
        · rename_i hadvance
          exact ih (hP.advance (hturn heq) hadvance) h

theorem drop (hw : P w) (s : RenderStream) : P (s.drop w) :=
  hP.hidden (hP.abandon hw [] s.stack) rfl rfl

theorem resolve {fuel pending : Nat} {outcome : Outcome} (hw : P w)
    (h : w.resolve fuel pending = some (outcome, v)) : P v := by
  have hgo : ∀ {rounds task : Nat} {seat : Option Nat} {u : World}, P u →
      World.resolve.go pending rounds task seat u = some (outcome, v) → P v := by
    intro rounds
    induction rounds with
    | zero =>
      intro task seat u _ h
      cases h
    | succ rounds ih =>
      intro task seat u hu h
      have hasked := hP.await (.task task) pending seat (hP.beginTurn hu task)
      rw [World.resolve.go] at h
      split at h
      · rename_i heq
        rw [heq] at hasked
        cases h
        exact hasked
      · rename_i heq
        rw [heq] at hasked
        split at h
        · exact ih hasked h
        · split at h
          · cases h
          · rename_i hadvance
            exact ih (hP.advance hasked hadvance) h
  exact hgo (u := (w.newTask { window := none }).2) (hP.hidden hw rfl rfl) h

/-- What is preserved holds in every history. -/
theorem leads (h : Leads w v) (hw : P w) : P v := by
  induction h with
  | refl => exact hw
  | run a _ ih => exact hP.run a ih
  | @workshop u bench workshop reports _ ih =>
    exact hP.noteAll (w := { u with bench, workshop }) (hP.aside ih rfl rfl rfl) reports
  | name name value _ ih => exact hP.aside ih rfl rfl rfl
  | keep value _ ih => exact hP.aside ih rfl rfl rfl
  | start config stack _ ih => exact hP.hidden ih rfl rfl
  | take _ htake ih => exact hP.stream ih htake
  | drop s _ ih => exact hP.drop ih s
  | resolve _ hresolve ih => exact hP.resolve ih hresolve

end Preserved

end World

end TaggedMarkup
