import TaggedMarkup.Proofs.Render.Turning
import TaggedMarkup.Render.Stream

/-!
# Fuel

Turns and streams are bounded by fuel. What they give does not depend on how much there was: with one
unit more, and so with any larger amount, an answer stays the same.

A turn, a turn of a window, the working off of its queue and the turns of a member call one another, so
the statement is about all four at once (`Render.Lasting`).
-/

namespace TaggedMarkup

namespace Render

/-- With one unit of fuel more, whatever was answered is answered again. -/
structure Lasting (ahead fuel : Nat) : Prop where
  turn : ∀ {around : List Surrounding} {task : Nat} {stack : List Work} {w : World}
    {r : Turn × List Work × World}, Render.turn ahead fuel around task stack w = some r →
      Render.turn ahead (fuel + 1) around task stack w = some r
  windowTurn : ∀ {around : List Surrounding} {owner : Nat} {rest : List Work} {l : Lineup} {w : World}
    {r : WindowTurn × Lineup × World}, Render.windowTurn ahead fuel around owner rest l w = some r →
      Render.windowTurn ahead (fuel + 1) around owner rest l w = some r
  workOff : ∀ {around : List Surrounding} {owner running turns told : Nat} {rest : List Work}
    {l : Lineup} {w : World} {r : WindowTurn × Lineup × World},
      Render.workOff ahead fuel around owner rest running turns told l w = some r →
        Render.workOff ahead (fuel + 1) around owner rest running turns told l w = some r
  memberTurn : ∀ {around : List Surrounding} {task : Nat} {fragments : List String}
    {stack : List Work} {w : World} {r : Member × World},
      Render.memberTurn ahead fuel around task fragments stack w = some r →
        Render.memberTurn ahead (fuel + 1) around task fragments stack w = some r

namespace Lasting

variable {ahead fuel : Nat}

theorem zero : Lasting ahead 0 where
  turn h := by simp [Render.turn] at h
  windowTurn h := by simp [Render.windowTurn] at h
  workOff h := by simp [Render.workOff] at h
  memberTurn h := by simp [Render.memberTurn] at h

theorem succ_turn (ih : Lasting ahead fuel) {around : List Surrounding} {task : Nat}
    {stack : List Work} {w : World} {r : Turn × List Work × World}
    (h : Render.turn ahead (fuel + 1) around task stack w = some r) :
    Render.turn ahead (fuel + 1 + 1) around task stack w = some r := by
  cases stack with
  | nil =>
    rw [Render.turn] at h ⊢
    exact h
  | cons work rest =>
    by_cases hstepped : work.isStepped = true
    · rcases hstep : work.step ahead task w with ⟨progress, v⟩
      cases progress with
      | next works =>
        rw [turn_step hstepped hstep] at h ⊢
        exact ih.turn h
      | wait waiting =>
        rw [turn_wait hstepped hstep] at h ⊢
        exact h
    · cases work with
      | emit text | fail error =>
        rw [Render.turn] at h ⊢
        exact h
      | ahead lineup =>
        rw [Render.turn] at h ⊢
        cases hwindow : Render.windowTurn ahead fuel around task rest lineup w with
        | none => simp [hwindow] at h
        | some answer =>
          obtain ⟨out, l, v⟩ := answer
          rw [hwindow] at h
          rw [ih.windowTurn hwindow]
          -- the turn of the window is the same, and so is what the turn goes on with
          cases out with
          | through member fragments => exact ih.turn h
          | failed error => exact h
          | ended => exact ih.turn h
          | blocked => exact h
      | _ => exact absurd rfl hstepped

theorem succ_windowTurn (ih : Lasting ahead fuel) {around : List Surrounding} {owner : Nat}
    {rest : List Work} {l : Lineup} {w : World} {r : WindowTurn × Lineup × World}
    (h : Render.windowTurn ahead (fuel + 1) around owner rest l w = some r) :
    Render.windowTurn ahead (fuel + 1 + 1) around owner rest l w = some r := by
  rw [Render.windowTurn] at h ⊢
  dsimp only at h ⊢
  cases hfront : (l.fill ahead owner w).1.front? with
  | some out =>
    rw [hfront] at h
    exact h
  | none =>
    rw [hfront] at h
    exact ih.workOff h

theorem succ_memberTurn (ih : Lasting ahead fuel) {around : List Surrounding} {task : Nat}
    {fragments : List String} {stack : List Work} {w : World} {r : Member × World}
    (h : Render.memberTurn ahead (fuel + 1) around task fragments stack w = some r) :
    Render.memberTurn ahead (fuel + 1 + 1) around task fragments stack w = some r := by
  rw [Render.memberTurn] at h ⊢
  cases hturn : Render.turn ahead fuel around task stack w with
  | none => simp [hturn] at h
  | some answer =>
    obtain ⟨out, left, v⟩ := answer
    rw [hturn] at h
    rw [ih.turn hturn]
    cases out with
    | fragment text => exact ih.memberTurn h
    | failed error => exact h
    | ended => exact h
    | blocked => exact h

theorem succ_workOff (ih : Lasting ahead fuel) {around : List Surrounding}
    {owner running turns told : Nat} {rest : List Work} {l : Lineup} {w : World}
    {r : WindowTurn × Lineup × World}
    (h : Render.workOff ahead (fuel + 1) around owner rest running turns told l w = some r) :
    Render.workOff ahead (fuel + 1 + 1) around owner rest running turns told l w = some r := by
  rw [Render.workOff] at h ⊢
  cases hqueue : w.dequeue? l.window with
  | none =>
    rw [hqueue] at h
    exact h
  | some next =>
    obtain ⟨task, v⟩ := next
    rw [hqueue] at h
    dsimp only at h ⊢
    cases hfound : l.find? task with
    | none =>
      rw [hfound] at h
      exact ih.workOff h
    | some member =>
      obtain ⟨fragments, stack⟩ := member
      rw [hfound] at h
      dsimp only at h ⊢
      cases hturn : Render.memberTurn ahead fuel (⟨task, l, rest⟩ :: around) task fragments stack
          (v.beginTurn task) with
      | none => simp [hturn] at h
      | some answer =>
        obtain ⟨through, u⟩ := answer
        rw [hturn] at h
        rw [ih.memberTurn hturn]
        -- a member that is still in work may end the turn of the window; one that is through may
        -- come out; otherwise the queue is worked off further
        cases through with
        | running task fragments stack =>
          dsimp only at h ⊢
          split at h
          · rename_i hstop
            rwa [if_pos hstop]
          · rename_i hstop
            rw [if_neg hstop]
            exact ih.workOff h
        | finished fragments =>
          dsimp only at h ⊢
          split at h
          · exact h
          · exact ih.workOff h
        | failed error =>
          dsimp only at h ⊢
          split at h
          · exact h
          · exact ih.workOff h

theorem all (ahead fuel : Nat) : Lasting ahead fuel := by
  induction fuel with
  | zero => exact zero
  | succ fuel ih => exact ⟨ih.succ_turn, ih.succ_windowTurn, ih.succ_workOff, ih.succ_memberTurn⟩

end Lasting

section

variable {ahead fuel more owner : Nat} {around : List Surrounding} {rest : List Work} {l : Lineup} {w : World}

theorem turn_mono (hle : fuel ≤ more) {task : Nat} {stack : List Work} {r : Turn × List Work × World}
    (h : turn ahead fuel around task stack w = some r) : turn ahead more around task stack w = some r := by
  induction hle with
  | refl => exact h
  | step _ ih => exact (Lasting.all _ _).turn ih

theorem windowTurn_mono (hle : fuel ≤ more) {r : WindowTurn × Lineup × World}
    (h : windowTurn ahead fuel around owner rest l w = some r) :
    windowTurn ahead more around owner rest l w = some r := by
  induction hle with
  | refl => exact h
  | step _ ih => exact (Lasting.all _ _).windowTurn ih

theorem workOff_mono (hle : fuel ≤ more) {running turns told : Nat} {r : WindowTurn × Lineup × World}
    (h : workOff ahead fuel around owner rest running turns told l w = some r) :
    workOff ahead more around owner rest running turns told l w = some r := by
  induction hle with
  | refl => exact h
  | step _ ih => exact (Lasting.all _ _).workOff ih

theorem memberTurn_mono (hle : fuel ≤ more) {task : Nat} {fragments : List String} {stack : List Work}
    {r : Member × World} (h : memberTurn ahead fuel around task fragments stack w = some r) :
    memberTurn ahead more around task fragments stack w = some r := by
  induction hle with
  | refl => exact h
  | step _ ih => exact (Lasting.all _ _).memberTurn ih

end

end Render

/-! ## Streams -/

namespace RenderStream

theorem await_succ_fuel {fuel : Nat} {s : RenderStream} {w : World}
    {r : Delivery × RenderStream × World} (h : s.await fuel w = some r) :
    s.await (fuel + 1) w = some r := by
  induction fuel generalizing s w with
  | zero => cases h
  | succ fuel ih =>
    rw [await] at h ⊢
    cases hturn : Render.turn s.config.concurrency fuel [] s.task s.stack (w.beginTurn s.task) with
    | none => simp [hturn] at h
    | some answer =>
      obtain ⟨out, stack, v⟩ := answer
      rw [hturn] at h
      rw [(Render.Lasting.all _ _).turn hturn]
      cases out with
      | fragment text => exact h
      | failed error => exact h
      | ended => exact h
      | blocked =>
        -- only after a wait is there another turn, now or when the clock has moved on
        dsimp only at h ⊢
        split at h
        · rename_i hwoken
          rw [if_pos hwoken]
          exact ih h
        · rename_i hwoken
          rw [if_neg hwoken]
          cases hadvance : v.advance? with
          | none => simp [hadvance] at h
          | some u =>
            rw [hadvance] at h
            exact ih h

theorem pull_succ_fuel {fuel : Nat} {s : RenderStream} {w : World}
    {r : Delivery × RenderStream × World} (h : s.pull fuel w = some r) :
    s.pull (fuel + 1) w = some r := by
  rw [pull] at h ⊢
  split at h
  · rename_i hclosed
    rwa [if_pos hclosed]
  · rename_i hclosed
    rw [if_neg hclosed]
    cases hawait : s.await fuel w with
    | none => simp [hawait] at h
    | some answer =>
      rw [hawait] at h
      rw [await_succ_fuel hawait]
      exact h

/-- With more fuel, `next` gives the same. -/
theorem next_mono {fuel more : Nat} (hle : fuel ≤ more) {s : RenderStream} {w : World}
    {r : Delivery × RenderStream × World} (h : s.next fuel w = some r) :
    s.next more w = some r := by
  induction hle with
  | refl => exact h
  | @step enough _ ih =>
    rw [RenderStream.next] at ih ⊢
    split at ih
    · rename_i hfinished
      rwa [if_pos hfinished]
    · rename_i hfinished
      rw [if_neg hfinished]
      cases hpull : s.pull enough w with
      | none => simp [hpull] at ih
      | some answer =>
        rw [hpull] at ih
        rw [pull_succ_fuel hpull]
        exact ih

end RenderStream

end TaggedMarkup
