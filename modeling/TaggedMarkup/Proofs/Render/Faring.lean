import TaggedMarkup.Proofs.Render.Fuel
import TaggedMarkup.Proofs.Render.Queueing

/-!
# How a member fares in its turn

A task that is **ready** for a turn (`World.Ready`) stands with a stack that yields an output. With enough
fuel the turn ends, and what comes out is what comes first in the output; or it ends in a wait, and the task
was told or is going to be (`Turn.Fares`). Then less is left to do than before, unless the turn was idle.

If turns fare like that, so do the turns of a member (`Render.memberTurn_fares`), which has as many as it can
use: its place is taken by the same member further on, or by one that is through.
-/

namespace TaggedMarkup

/-! ## Before and after a turn -/

/-- The task stands with a stack that yields this output, while these other pieces are in play. -/
structure World.Ready (n : Nat) (w : World) (σ : Seating) (task : Nat) (stack others : List Work) (out : Output)
    (effort : Nat) : Prop where
  stands : w.Stands σ task stack
  tasked : Work.TaskedAll w.tasks.size stack
  clean : Clean w (Work.piecesOfAll stack ++ others)
  yields : Work.YieldsAll n w stack out effort

/-- The task was told to go on, or is going to be. -/
def World.GoesOn (w : World) (task : Nat) (stack : List Work) : Prop :=
  w.Told (.task task) ∨ Work.Waits w task stack

/-- What comes of a turn. -/
inductive Turn.Fares (n : Nat) (w : World) (σ : Seating) (task : Nat) (stack others : List Work) (out : Output)
    (effort : Nat) : Turn → List Work → World → Prop
  | fragment {text : String} {rest : List Work} {v : World} {τ : Seating} {last : Output} {less : Nat} :
    v.Ready n τ task rest others last less → World.Moves w v σ τ task → out = .ok text :: last →
      less < effort → Fares n w σ task stack others out effort (.fragment text) rest v
  | failed {error : Error} {rest : List Work} {v : World} {τ : Seating} :
    v.Stands τ task rest → World.Moves w v σ τ task → Output.error? out = some error →
      (n ≤ 1 → ∃ last, out = .error error :: last) →
        Fares n w σ task stack others out effort (.failed error) rest v
  | ended {v : World} {τ : Seating} :
    v.Stands τ task [] → World.Moves w v σ τ task → out = [] →
      Fares n w σ task stack others out effort .ended [] v
  | blocked {rest : List Work} {v : World} {τ : Seating} {less : Nat} :
    v.Ready n τ task rest others out less → World.Moves w v σ τ task → v.GoesOn task rest →
      less ≤ effort → (less < effort ∨ w.Idle v task stack rest) →
        Fares n w σ task stack others out effort .blocked rest v

/-- With enough fuel, a turn that takes this much effort comes to an end. -/
def Render.TurnFares (n effort : Nat) : Prop :=
  ∀ (around : List Surrounding) {task : Nat} {stack others : List Work} {out : Output} {w : World}
    {σ : Seating}, w.Ready n σ task stack others out effort →
      ∃ fuel t rest v, Render.turn n fuel around task stack w = some (t, rest, v) ∧
        t.Fares n w σ task stack others out effort rest v

/-- What becomes of a member in its turn, which yields this part. -/
structure Member.Fares (n : Nat) (w v : World) (σ τ : Seating) (task : Nat) (stack : List Work) (part : Output)
    (cost : Nat) (member : Member) : Prop where
  balanced : v.Balanced τ fun _ => False
  moves : World.Moves w v σ τ task
  poised : ∀ window, (∃ cell, w.tasks[task]? = some cell ∧ cell.window = some window) →
    member.Poised v τ window
  yields : ∃ less ≤ cost, member.Yields n v part less ∧
    (less < cost ∨ ∃ fragments rest, member = .running task fragments rest ∧ w.Idle v task stack rest)

namespace World

variable {n effort task : Nat} {w v : World} {σ τ : Seating} {stack rest others : List Work} {out : Output}

/-- A member that was called up has a window, and stays in it. -/
theorem Stands.poised_running (h : v.Stands τ task rest) (hmoves : Moves w v σ τ task)
    (hgoes : v.GoesOn task rest) {window : Nat}
    (hwindow : ∃ cell, w.tasks[task]? = some cell ∧ cell.window = some window) (fragments : List String) :
    Member.Poised v τ window (.running task fragments rest) := by
  obtain ⟨cell, hcell, hsome⟩ := hwindow
  obtain ⟨cell', hcell', hsame, -⟩ := hmoves.respects.task task cell hcell
  obtain ⟨cell'', hcell'', hended⟩ := h.alive
  cases hcell'.symm.trans hcell''
  exact ⟨⟨cell', hcell', hsame.trans hsome, hended⟩, h.lined, h.poised, hgoes⟩

/-- A member that had a turn already stands in its window as before. -/
theorem Moves.window (h : Moves w v σ τ task) {window : Nat}
    (hwindow : ∃ cell, w.tasks[task]? = some cell ∧ cell.window = some window) :
    ∃ cell, v.tasks[task]? = some cell ∧ cell.window = some window := by
  obtain ⟨cell, hcell, hsome⟩ := hwindow
  obtain ⟨cell', hcell', hsame, -⟩ := h.respects.task task cell hcell
  exact ⟨cell', hcell', hsame.trans hsome⟩

end World

/-! ## As many turns as a member can use -/

namespace Member.Fares

variable {n cost less task : Nat} {w v u : World} {σ τ ρ : Seating} {stack rest : List Work} {part : Output}
  {member : Member}

/-- What becomes of a member after it got further on. -/
theorem after (h : Member.Fares n v u τ ρ task rest part less member) (hmoves : World.Moves w v σ τ task)
    (hroot : w.Rooted) (hless : less < cost) : Member.Fares n w u σ ρ task stack part cost member where
  balanced := h.balanced
  moves := hmoves.trans h.moves hroot
  poised window hwindow := h.poised window (hmoves.window hwindow)
  yields := by
    obtain ⟨left, hle, hleft, -⟩ := h.yields
    exact ⟨left, by omega, hleft, .inl (by omega)⟩

end Member.Fares

namespace Render

variable {n : Nat}

/-- If its turns do, a member comes to something with enough fuel. -/
theorem memberTurn_fares {effort : Nat} (hturn : ∀ less ≤ effort, TurnFares n less) (around : List Surrounding)
    {task : Nat} {stack others : List Work} {out : Output} {w : World} {σ : Seating}
    (h : w.Ready n σ task stack others out effort) (fragments : List String) :
    ∃ fuel member v τ, memberTurn n fuel around task fragments stack w = some (member, v) ∧
      Member.Fares n w v σ τ task stack (fragments.reverse.map .ok ++ out)
        (2 * effort + fragments.length + 3) member := by
  induction effort using Nat.strong_induction_on generalizing stack out w σ fragments with
  | _ effort ih =>
    obtain ⟨fuel, t, rest, v, heq, hfares⟩ := hturn effort (Nat.le_refl _) around h
    cases hfares with
    | @fragment text rest v τ last less hready hmoves hout hless =>
      subst hout
      obtain ⟨fuel', member, u, ρ, heq', hmember⟩ :=
        ih less hless (fun k hk => hturn k (by omega)) hready (text :: fragments)
      refine ⟨max fuel fuel' + 1, member, u, ρ, ?_, ?_⟩
      · rw [memberTurn, turn_mono (Nat.le_max_left ..) heq]
        exact memberTurn_mono (Nat.le_max_right ..) heq'
      · have hpart : (text :: fragments).reverse.map Except.ok ++ last =
            fragments.reverse.map .ok ++ .ok text :: last := by simp
        rw [hpart] at hmember
        exact hmember.after hmoves h.stands.balanced.rooted (by rw [List.length_cons]; omega)
    | @failed error rest v τ hstands hmoves herror _ =>
      obtain ⟨ρ, hρ, hbalanced, hrespects⟩ := hstands.balanced.abandon hstands.poised around
      refine ⟨fuel + 1, .failed error, v.abandon around rest, ρ, by rw [memberTurn, heq], hbalanced,
        hmoves.trans ⟨hrespects, fun k _ => hρ k⟩ h.stands.balanced.rooted, fun _ _ => trivial, ?_⟩
      refine ⟨1, by omega, ⟨?_, Nat.le_refl _⟩, .inl (by omega)⟩
      rw [Output.error?_append, Output.error?_ok, Option.none_or, herror]
    | @ended v τ hstands hmoves hout =>
      subst hout
      refine ⟨fuel + 1, .finished fragments.reverse, v, τ, by rw [memberTurn, heq], hstands.balanced, hmoves,
        fun _ _ => trivial, fragments.length + 2, by omega, ⟨List.append_nil _, ?_⟩, .inl (by omega)⟩
      rw [List.length_reverse]
    | @blocked rest v τ less hready hmoves hgoes hle hidle =>
      refine ⟨fuel + 1, .running task fragments rest, v, τ, by rw [memberTurn, heq], hready.stands.balanced,
        hmoves, fun window hwindow => hready.stands.poised_running hmoves hgoes hwindow fragments, ?_⟩
      refine ⟨2 * less + fragments.length + 3, by omega, ⟨out, less, hready.yields, rfl, Nat.le_refl _⟩, ?_⟩
      exact hidle.imp (fun hless => by omega) fun hidle => ⟨fragments, rest, rfl, hidle⟩

end Render

end TaggedMarkup
