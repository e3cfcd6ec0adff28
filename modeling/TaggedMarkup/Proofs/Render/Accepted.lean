import TaggedMarkup.Proofs.Render.Civil
import TaggedMarkup.Proofs.Render.Seamless

/-!
# Roots that were accepted

The roots of a checked template were accepted once (`Checked.Form`), and the rules for roots look at them
once more when they are rendered. What they find is a root itself or, after waiting, the outcome of a pending
one; whatever that comes to at further remove is left to the rules for items.

Of what was accepted, the rules for roots reject the empty string only (`Render.root_form`), and the rules
for items nothing for its kind (`Render.item_form`). In a world where nobody fails with an error about roots,
roots that were accepted stay accepted whatever else happens (`Checked.Accepts`).
-/

namespace TaggedMarkup

namespace World

variable {base : Nat} {w v u : World} {x y : Value}

/-! ## What a root comes to -/

/-- What the rules for roots look at: a root itself, or the outcome of a pending one. -/
def settled? (w : World) : Value → Option Outcome
  | .pending p => w.peek p
  | x => some (.ok x)

/-- The root comes to the empty string. -/
def IsBlank (w : World) (x : Value) : Prop := w.settled? x = some (.ok (.str ""))

/-- The root comes to something else, maybe an error. -/
def IsShown (w : World) (x : Value) : Prop :=
  ∃ outcome, w.settled? x = some outcome ∧ outcome ≠ .ok (.str "")

theorem IsShown.not_isBlank (h : w.IsShown x) : ¬ w.IsBlank x := by
  obtain ⟨outcome, hsettled, hother⟩ := h
  intro hblank
  exact hother (Option.some.inj (hsettled.symm.trans hblank))

theorem Remembers.settled? (h : w.Remembers v) {outcome : Outcome}
    (hsettled : w.settled? x = some outcome) : v.settled? x = some outcome := by
  cases x with
  | pending p => exact h hsettled
  | _ => exact hsettled

theorem IsShown.remembers (h : w.IsShown x) (hw : w.Remembers v) : v.IsShown x :=
  h.imp fun _ hsettled => ⟨hw.settled? hsettled.1, hsettled.2⟩

theorem isBlank_congr (h : v.seen = w.seen) : v.IsBlank x ↔ w.IsBlank x := by
  cases x with
  | pending p => rw [IsBlank, IsBlank, World.settled?, World.settled?, ← peek_seen, h, peek_seen]
  | _ => exact Iff.rfl

/-! ## What lasts -/

/-- Checks go on being answered, and no outcome is forgotten. -/
structure Sustains (base : Nat) (w v : World) : Prop extends Checks base w v where
  remembers : v.InOrder → w.Remembers v

theorem Sustains.grown (h : Sustains base w v) (hgrown : Grown v u) : Sustains base w u where
  toChecks := h.toChecks.grown hgrown
  remembers horder := (h.remembers (horder.before hgrown.toLasts)).trans (.of_grown hgrown)

theorem Sustains.await (h : Sustains base w v) (waiter : Waiter) (pending : Nat) (own : Option Nat) :
    Sustains base w (v.await waiter pending own).2 where
  toChecks := h.toChecks.await waiter pending own
  remembers horder := by
    have hbefore := h.remembers (horder.before (.ask (pending + 1) waiter pending own v))
    by_cases hsize : pending < v.pendings.size
    · have hasked : Asked base pending v (v.await waiter pending own) :=
        asked_ask (Nat.lt_succ_self _) waiter own horder hsize
      exact hbefore.trans fun _ _ => hasked.passed.kept
    · rw [World.await, World.ask, Array.getElem?_eq_none (Nat.le_of_not_lt hsize)]
      exact hbefore

theorem sustains_invariant (base : Nat) (w : World) :
    Renders.WorldInvariant fun _ v => Sustains base w v where
  hidden h hseen := h.grown (.of_seen hseen)
  noted h _ := h.grown (.of_pendings rfl)
  run a h := h.grown (.run a _)
  aside h _ _ hpendings _ := h.grown (.of_pendings hpendings)
  await task pending seat h := h.await (.task task) pending seat
  reached _ _ h := h
  drew _ _ _ h := h

end World

/-! ## Roots that were accepted -/

/-- The roots of a checked template, in a world where nobody fails with an error about roots. -/
structure Checked.Accepts (base : Nat) (members : List Value) (w : World) : Prop where
  civil : w.IsCivil
  forms : ∀ x ∈ members, ∃ source, w.IsFormOf base source x
  answered : w.InOrder → w.Answered base

namespace Checked.Accepts

open World (Sustains IsBlank IsShown)

variable {base : Nat} {members : List Value} {w v : World} {x y : Value}

theorem sustains_self (h : Accepts base members w) : Sustains base w w :=
  ⟨⟨.refl w, h.answered⟩, fun _ => .refl w⟩

theorem onward (h : Accepts base members w) (hv : Sustains base w v) (hcivil : v.IsCivil) :
    Accepts base members v where
  civil := hcivil
  forms x hx := (h.forms x hx).imp fun _ hform => hform.lasts hv.toLasts
  answered := hv.answered

theorem hidden (h : Accepts base members w) (hseen : v.seen = w.seen) :
    Accepts base members v ∧ Sustains base w v :=
  have hv := h.sustains_self.grown (.of_seen hseen)
  ⟨h.onward hv (h.civil.hidden hseen), hv⟩

/-- What is awaited is civil. -/
theorem await (h : Accepts base members w) (waiter : Waiter) (pending : Nat) (own : Option Nat) :
    Accepts base members (w.await waiter pending own).2 ∧
      Sustains base w (w.await waiter pending own).2 :=
  have hv := h.sustains_self.await waiter pending own
  ⟨h.onward hv (h.civil.ask ..).1, hv⟩

/-- Civil work stays civil. -/
theorem course (h : Accepts base members w) {pieces more : List Work} {deeds : List Deed}
    (hcourse : Course w pieces deeds v more) (htame : ∀ piece ∈ pieces, piece.IsTame)
    (hpieces : ∀ piece ∈ pieces, piece.IsCivil) :
    Accepts base members v ∧ Sustains base w v ∧ ∀ piece ∈ more, piece.IsCivil := by
  have hsustains := (World.sustains_invariant base w).invariant.toInvariant
  have hv : Sustains base w v :=
    @Course.Invariant.course _ hsustains w v pieces more [] deeds h.sustains_self htame hcourse
  have hcivil : v.IsCivil ∧ ∀ piece ∈ more, piece.IsCivil :=
    @Course.Invariant.course _ World.civil w v pieces more [] deeds ⟨h.civil, hpieces⟩ htame hcourse
  exact ⟨h.onward hv hcivil.1, hv, hcivil.2⟩

/-- Whatever a root comes to was accepted as well. -/
theorem form (h : Accepts base members w) (horder : w.InOrder) (hx : x ∈ members)
    (hy : w.ResolvesTo x y) : ∃ source, w.IsFormOf base source y := by
  obtain ⟨source, hform⟩ := h.forms x hx
  clear hx
  induction hy generalizing source with
  | self x => exact ⟨source, hform⟩
  | @through p y z hpeek _ ih =>
    obtain ⟨source, hjob⟩ : ∃ q, base ≤ p ∧ w.job? p = some (.checking q) := by
      cases hform.1 with
      | pending q p => exact ⟨q, hform.2 q p rfl rfl⟩
    obtain ⟨outcome, -, hanswers⟩ := (h.answered horder).answers hjob.1 hjob.2 hpeek
    cases hanswers with
    | accepted haccepted => exact ih _ haccepted

theorem resolvesTo_of_settled (h : w.settled? x = some (.ok y)) : w.ResolvesTo x y := by
  cases x with
  | pending p => exact .through h (.self y)
  | _ =>
    cases h
    exact .self _

end Checked.Accepts

/-! ## The rules for roots -/

/-- The error for a blank root. -/
def Error.blankRoot : Error := .invalidRoot "Expected a non-falsy argument, got: "

/-- The rules for roots reject nothing that was accepted but the empty string. -/
theorem Render.root_form {x y : Value} (h : Checked.Form x y) :
    (y = .str "" ∧ root y = [.fail .blankRoot]) ∨ (y ≠ .str "" ∧ root y = [.item y]) := by
  have hstr : ∀ s : String, (Value.str s = .str "" ∧ root (.str s) = [.fail .blankRoot]) ∨
      (Value.str s ≠ .str "" ∧ root (.str s) = [.item (.str s)]) := by
    intro s
    by_cases hs : s = ""
    · subst hs
      exact .inl ⟨rfl, rfl⟩
    · exact .inr ⟨fun h => hs (Value.str.inj h), by simp [root, Value.isFalsy, hs]⟩
  cases h with
  | str s => exact hstr s
  | number d => exact hstr d.text
  | undefined | null | false => exact hstr ""
  | element | object | pending => exact .inr ⟨Value.noConfusion, rfl⟩

/-- The error is about what kind of value or of element something is. -/
def Error.isOfKinds : Error → Bool
  | malformedElement _ | invalidElementType _ | invalidItemType _ => true
  | _ => false

/-- A tag is rejected for its name only. -/
theorem Render.tag_kinds {name : String} {e : Element} {error : Error}
    (h : .fail error ∈ tag name e) : error.isOfKinds = false := by
  rw [tag.eq_def] at h
  dsimp only at h
  split at h
  · simp at h
  · split at h
    · simp at h
    · simp only [List.mem_singleton, Work.fail.injEq] at h
      rw [h]
      rfl

/-- An element with a usable type is not rejected for its kind, unless its component fails with such an
error itself. -/
theorem Render.element_kinds {e : Element} {w : World} {error : Error}
    (hfail : .fail error ∈ (element e w).1) (hkind : error.isOfKinds = true)
    (htype : Checked.hasUsableType e.type) : ∃ component, e.type = .component component ∧
      (w.callComponent component e.props e.children).1 = .error error := by
  rw [element.eq_def] at hfail
  split at hfail
  · rename_i hmissing
    rw [hmissing] at htype
    cases htype
  · cases List.mem_singleton.mp hfail
  · rw [tag_kinds hfail] at hkind
    cases hkind
  · rename_i component hcomponent
    refine ⟨component, hcomponent, ?_⟩
    dsimp only at hfail
    rw [result.eq_def] at hfail
    split at hfail
    · rename_i houtcome
      cases List.mem_singleton.mp hfail
      exact houtcome
    · split at hfail
      · split at hfail
        · cases List.mem_singleton.mp hfail
        · rw [List.mem_singleton, markup.eq_def] at hfail
          split at hfail
          · cases hfail
          · cases hfail
            cases hkind
      · cases List.mem_singleton.mp hfail
  · rename_i hinvalid
    rw [hinvalid] at htype
    cases htype

/-- The rules for items reject nothing for its kind that was accepted. -/
theorem Render.item_form {x y : Value} (h : Checked.Form x y) {ahead task : Nat} {w : World}
    {error : Error} (hfail : .fail error ∈ (item ahead task y w).1) (hkind : error.isOfKinds = true) :
    ∃ e component, y = .element e ∧ e.type = .component component ∧
      (w.callComponent component e.props e.children).1 = .error error := by
  cases h with
  | undefined | null | false | number | str => cases List.mem_singleton.mp hfail
  | pending => cases List.mem_singleton.mp hfail
  | element stamp htype =>
    obtain ⟨component, hcomponent, hcall⟩ := element_kinds hfail hkind htype
    exact ⟨_, component, rfl, hcomponent, hcall⟩
  | object stamp htype =>
    obtain ⟨component, hcomponent, hcall⟩ := element_kinds hfail hkind htype
    exact ⟨_, component, rfl, hcomponent, hcall⟩

end TaggedMarkup
