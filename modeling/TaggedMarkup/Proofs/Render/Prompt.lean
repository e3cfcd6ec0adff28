import TaggedMarkup.Proofs.Host.Tasks
import TaggedMarkup.Render.Stream

/-!
# Prompt steps

Most pieces of work are **prompt**: they await nothing, draw nothing and write nothing down but the call of a
component and props that are dropped. What they come to **goes unnoticed** as well: it writes no event
down, draws from no sequence and has no members in work yet.
-/

namespace TaggedMarkup

/-- Work that awaits nothing, draws nothing and writes no event down. -/
def Work.isPrompt : Work → Bool
  | .root _ | .settled _ | .prop _ _ | .children _ => true
  | .item (.sequence _) => false
  | .item _ => true
  | .emit _ | .fail _ | .ahead _ | .note _ | .await .. | .draw _ => false

/-- A property of worlds that survives whatever prompt work does. -/
structure World.Survives (P : World → Prop) : Prop where
  /-- what is not seen, and sets no timer -/
  hidden : ∀ {w v : World}, P w → v.seen = w.seen → v.timers = w.timers → P v
  call : ∀ {w : World} (component : Component) (props : Props) (children : List Value), P w →
    P (w.callComponent component props children).2
  dropped : ∀ {w : World} (name typeName : String), P w → P (w.note (.droppedProp name typeName))

namespace World.Survives

variable {P : World → Prop} (hP : Survives P) {w : World}

include hP

theorem feed (h : P w) (ahead task : Nat) (f : Feed) (kept : List Value) :
    P (Render.feed ahead task f kept w).2 := by
  rw [Render.feed]
  split
  · exact h
  · exact hP.hidden h rfl rfl

theorem members (h : P w) (ahead task : Nat) (values kept : List Value) :
    P (Render.members ahead task values kept w).2 := by
  rw [Render.members]
  split
  · exact h
  · exact hP.feed h ..

theorem element (h : P w) (e : Element) : P (Render.element e w).2 := by
  rw [Render.element]
  split
  · exact h
  · exact h
  · exact h
  · exact hP.call _ _ _ h
  · exact h

theorem prop (h : P w) (name : String) (value : Value) : P (Render.prop name value w).2 := by
  rw [Render.prop]
  split
  · exact h
  · split
    · exact h
    · split
      · exact h
      · exact hP.dropped _ _ h

theorem item (h : P w) (ahead task : Nat) {value : Value}
    (hprompt : (Work.item value).isPrompt = true) : P (Render.item ahead task value w).2 := by
  cases value with
  | sequence => cases hprompt
  | list values => exact hP.members h ..
  | element e => exact hP.element h e
  | object entries =>
    rw [Render.item]
    split
    · exact hP.element h _
    · exact h
  | _ => exact h

theorem step (h : P w) {work : Work} (hprompt : work.isPrompt = true) (ahead task : Nat) :
    P (work.step ahead task w).2 := by
  cases work with
  | root value => cases value <;> exact h
  | settled value => exact h
  | prop name value => exact hP.prop h name value
  | children e => exact hP.members h ..
  | item value => exact hP.item h ahead task hprompt
  | _ => cases hprompt

end World.Survives

/-! ## What prompt work comes to -/

/-- An error about roots, which the rules for items do not know. -/
def Error.isOfRoots : Error → Bool
  | invalidRoot _ => true
  | _ => false

/-- The pieces of work that a piece of work comes to. -/
def Progress.works : Progress → List Work
  | .next works => works
  | .wait work => [work]

/-- A property that all pieces of work have that the rules for items bring about. What components fail with
is their own affair. -/
structure Work.Usual (Q : Work → Prop) : Prop where
  emit : ∀ text, Q (.emit text)
  fail : ∀ {error : Error}, error.isOfRoots = false → Q (.fail error)
  item : ∀ value, Q (.item value)
  await : ∀ (cell : Nat) {resumption : Resumption}, resumption ≠ .root → Q (.await cell none resumption)
  prop : ∀ name value, Q (.prop name value)
  children : ∀ e, Q (.children e)
  draw : ∀ values, Q (.draw (.ofList values))
  ahead : ∀ window values kept, Q (.ahead { window, feed := .ofList values, kept, members := [] })

namespace Work.Usual

open List (forall_mem_singleton forall_mem_cons forall_mem_append)

variable {Q : Work → Prop} (hQ : Usual Q) {ahead task : Nat} {w : World}

include hQ

theorem members (values kept : List Value) :
    ∀ work ∈ (Render.members ahead task values kept w).1, Q work := by
  rw [Render.members]
  split
  · intro work hwork
    obtain ⟨value, -, rfl⟩ := List.mem_map.mp hwork
    exact hQ.item value
  · rw [Render.feed]
    split
    · exact forall_mem_singleton.mpr (hQ.draw values)
    · exact forall_mem_singleton.mpr (hQ.ahead _ values kept)

theorem markup (value : Value) : Q (Render.markup value) := by
  rw [Render.markup.eq_def]
  split
  · exact hQ.emit _
  · exact hQ.fail rfl

theorem result (raw : Bool) {outcome : Outcome}
    (hfail : ∀ {error : Error}, outcome = .error error → Q (.fail error)) :
    ∀ work ∈ Render.result raw outcome, Q work := by
  rw [Render.result.eq_def]
  split
  · exact forall_mem_singleton.mpr (hfail rfl)
  · split
    · split
      · exact forall_mem_singleton.mpr (hQ.await _ nofun)
      · exact forall_mem_singleton.mpr (hQ.markup _)
    · exact forall_mem_singleton.mpr (hQ.item _)

theorem tag (name : String) (e : Element) : ∀ work ∈ Render.tag name e, Q work := by
  have hprops : ∀ work ∈ e.props.map fun p => Work.prop p.1 p.2, Q work := by
    intro work hwork
    obtain ⟨p, -, rfl⟩ := List.mem_map.mp hwork
    exact hQ.prop p.1 p.2
  rw [Render.tag.eq_def]
  dsimp only
  split
  · exact forall_mem_cons.mpr ⟨hQ.emit _,
      forall_mem_append.mpr ⟨hprops, forall_mem_singleton.mpr (hQ.emit _)⟩⟩
  · split
    · exact forall_mem_cons.mpr ⟨hQ.emit _, forall_mem_append.mpr ⟨hprops,
        forall_mem_cons.mpr ⟨hQ.emit _, forall_mem_cons.mpr ⟨hQ.children e,
          forall_mem_singleton.mpr (hQ.emit _)⟩⟩⟩⟩
    · exact forall_mem_singleton.mpr (hQ.fail rfl)

variable (hcall : ∀ {component : Component} {props : Props} {children : List Value} {error : Error},
  (w.callComponent component props children).1 = .error error → Q (.fail error))

include hcall

theorem element (e : Element) : ∀ work ∈ (Render.element e w).1, Q work := by
  rw [Render.element.eq_def]
  split
  · exact forall_mem_singleton.mpr (hQ.fail rfl)
  · exact forall_mem_singleton.mpr (hQ.children e)
  · exact hQ.tag _ e
  · exact hQ.result e.raw hcall
  · exact forall_mem_singleton.mpr (hQ.fail rfl)

theorem ofItem {value : Value} (hprompt : (Work.item value).isPrompt = true) :
    ∀ work ∈ (Render.item ahead task value w).1, Q work := by
  cases value with
  | sequence => cases hprompt
  | list values => exact hQ.members values []
  | element e => exact hQ.element hcall e
  | object entries =>
    rw [Render.item]
    split
    · exact hQ.element hcall _
    · exact forall_mem_singleton.mpr (hQ.fail rfl)
  | undefined | null | str | number => exact forall_mem_singleton.mpr (hQ.emit _)
  | pending cell => exact forall_mem_singleton.mpr (hQ.await cell fun h => by cases h)
  | bool | component => exact forall_mem_singleton.mpr (hQ.fail rfl)

omit hcall in
theorem ofProp (name : String) (value : Value) : ∀ work ∈ (Render.prop name value w).1, Q work := by
  rw [Render.prop]
  split
  · exact nofun
  · split
    · exact forall_mem_singleton.mpr (hQ.fail rfl)
    · split
      · exact forall_mem_singleton.mpr (hQ.emit _)
      · exact nofun

omit hcall in
theorem resume {resumption : Resumption} (hresumption : resumption ≠ .root) {outcome : Outcome}
    (hfail : ∀ {error : Error}, outcome = .error error → Q (.fail error)) :
    ∀ work ∈ Render.resume resumption outcome, Q work := by
  rw [Render.resume.eq_def]
  split
  · exact forall_mem_singleton.mpr (hfail rfl)
  · split
    · exact absurd rfl hresumption
    · exact forall_mem_singleton.mpr (hQ.item _)
    · exact forall_mem_singleton.mpr (hQ.markup _)

end Work.Usual

/-- A piece of work that writes no event down, draws from no sequence and has no members in work. -/
def Work.Unnoticed : Work → Prop
  | .note _ => False
  | .draw feed => feed.origin = none
  | .ahead lineup => lineup.feed.origin = none ∧ lineup.members = []
  | _ => True

/-- What comes next, or waits, goes unnoticed. -/
def Progress.Unnoticed (progress : Progress) : Prop := ∀ work ∈ progress.works, work.Unnoticed

theorem Work.usual_unnoticed : Usual Unnoticed where
  emit _ := trivial
  fail _ := trivial
  item _ := trivial
  await _ _ _ := trivial
  prop _ _ := trivial
  children _ := trivial
  draw _ := rfl
  ahead _ _ _ := ⟨rfl, rfl⟩

theorem Render.unnoticed_root (value : Value) : ∀ work ∈ root value, work.Unnoticed := by
  rw [root.eq_def]
  split
  · exact List.forall_mem_singleton.mpr trivial
  · intro work hwork
    obtain ⟨member, -, rfl⟩ := List.mem_map.mp hwork
    trivial
  · split
    · exact List.forall_mem_singleton.mpr trivial
    · split <;> exact List.forall_mem_singleton.mpr trivial

theorem Render.unnoticed_resume (resumption : Resumption) (outcome : Outcome) :
    ∀ work ∈ resume resumption outcome, work.Unnoticed := by
  by_cases hroot : resumption = .root
  · subst hroot
    cases outcome <;> exact List.forall_mem_singleton.mpr trivial
  · exact Work.usual_unnoticed.resume hroot fun _ => trivial

/-- Prompt work comes to pieces that go unnoticed. -/
theorem Work.unnoticed_step {ahead task : Nat} {work : Work} (hprompt : work.isPrompt = true)
    (w : World) : (work.step ahead task w).1.Unnoticed := by
  cases work with
  | root value => cases value <;> exact List.forall_mem_singleton.mpr trivial
  | settled value => exact Render.unnoticed_root value
  | item value => exact usual_unnoticed.ofItem (fun _ => trivial) hprompt
  | prop name value => exact usual_unnoticed.ofProp name value
  | children e => exact usual_unnoticed.members e.children [.element e]
  | _ => cases hprompt

end TaggedMarkup
