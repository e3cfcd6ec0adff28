import TaggedMarkup.Render.Leaving
import TaggedMarkup.Render.Lineup

/-!
# What is seen of a world

Much of a world is **bookkeeping**: who sits where and is told what, the timers, the tasks and
windows of renders. What is **seen** is the rest: the clock and the log, the names, the cells with
what they hold, and the workshop. Of the stage of a pending value one sees whether it was started, for
which moment it waits and what came of it, but not whether it has a seat somewhere.

Host code acts on what is seen only (`Action.run_seen`). Telling, leaving and letting go change
bookkeeping only.
-/

namespace TaggedMarkup

namespace Stage

/-- The stage but for the seat that goes with it. -/
def seen : Stage → Stage
  | seated _ | gone => gone
  | stage => stage

end Stage

namespace PendingCell

/-- The cell but for those who wait. -/
def seen (c : PendingCell) : PendingCell := { c with stage := c.stage.seen, waiters := {} }

end PendingCell

namespace World

/-- The world but for its bookkeeping. -/
def seen (w : World) : World :=
  { w with
    pendings := w.pendings.map PendingCell.seen
    forsaken := [], timers := [], tasks := #[], windows := #[] }

variable (w : World)

theorem seen_empty : ({} : World).seen = {} := by
  simp only [seen, Array.map_empty]

@[simp] theorem seen_clock : w.seen.clock = w.clock := rfl

theorem clock_of_seen {v w : World} (h : v.seen = w.seen) : v.clock = w.clock := by
  rw [← seen_clock v, h, seen_clock]

@[simp] theorem seen_log : w.seen.log = w.log := rfl

@[simp] theorem seen_components : w.seen.components = w.components := rfl

@[simp] theorem seen_sequences : w.seen.sequences = w.sequences := rfl

@[simp] theorem seen_getElem? (pending : Nat) :
    w.seen.pendings[pending]? = w.pendings[pending]?.map PendingCell.seen := Array.getElem?_map

@[simp] theorem seen_note (event : Event) : (w.note event).seen = w.seen.note event := rfl

/-! ## Host code sees what is seen -/

theorem seen_noteAll (reports : List Report) : (w.noteAll reports).seen = w.seen.noteAll reports := by
  unfold noteAll
  induction reports generalizing w with
  | nil => rfl
  | cons report rest ih => exact ih _

theorem newPending_seen (label : Option String) (job : Job) :
    w.seen.newPending { label, job } =
      ((w.newPending { label, job }).1, (w.newPending { label, job }).2.seen) := by
  simp only [newPending, seen, Array.size_map, Array.map_push]
  rfl

theorem useTemplate_seen (binding : Nat) (statics : Statics) (values : List Value) :
    w.seen.useTemplate binding statics values =
      ((w.useTemplate binding statics values).1, (w.useTemplate binding statics values).2.seen) := by
  simp only [useTemplate, seen_noteAll]
  rfl

end World

namespace Action

/-- Host code does the same to what is seen of a world, and sees nothing else. -/
theorem run_seen (a : Action) (w : World) : a.run w.seen = ((a.run w).1, (a.run w).2.seen) := by
  induction a generalizing w with
  | give value => rfl
  | fail error => rfl
  | named name next ih => exact ih _ _
  | element type props children raw next ih =>
    exact ih (w.newElement type props children raw).1 (w.newElement type props children raw).2
  | component name label keeps body next _ ih =>
    exact ih (w.newComponent name { label, keeps, body }).1
      (w.newComponent name { label, keeps, body }).2
  | pending label delay keeps body next _ ih =>
    simp only [run, World.newPending_seen]
    exact ih _ _
  | sequence label members next ih =>
    exact ih (w.newSequence { label, members }).1 (w.newSequence { label, members }).2
  | template statics values next ih =>
    simp only [run, World.useTemplate_seen]
    exact ih _ _
  | checking source next ih =>
    simp only [run, World.newPending_seen]
    exact ih _ _

end Action

/-! ## What host code can do -/

/-- A property of worlds that survives whatever host code does. -/
structure World.Stable (P : World → Prop) : Prop where
  used : ∀ {w : World} (bench : Bench) (workshop : Workshop Bench), P w → P { w with bench, workshop }
  reported : ∀ {w : World} (report : Report), P w → P (w.note (.reported report))
  component : ∀ {w : World} (name : String) (cell : ComponentCell), P w → P (w.newComponent name cell).2
  pending : ∀ {w : World} (label : Option String) (job : Job), P w → P (w.newPending { label, job }).2
  sequence : ∀ {w : World} (label : Option String) (members : List (Nat × Value)), P w →
    P (w.newSequence { label, members }).2

theorem World.Stable.noteAll {P : World → Prop} (h : World.Stable P) (reports : List Report)
    {w : World} (hw : P w) : P (w.noteAll reports) := by
  unfold World.noteAll
  induction reports generalizing w with
  | nil => exact hw
  | cons report rest ih => exact ih (h.reported report hw)

namespace Action

theorem run_stable {P : World → Prop} (h : World.Stable P) (a : Action) {w : World} (hw : P w) :
    P (a.run w).2 := by
  induction a generalizing w with
  | give value => exact hw
  | fail error => exact hw
  | named name next ih => exact ih _ hw
  | element type props children raw next ih =>
    exact ih _ (h.used (w.bench.build type props children raw).2 w.workshop hw)
  | component name label keeps body next _ ih => exact ih _ (h.component name _ hw)
  | pending label delay keeps body next _ ih => exact ih _ (h.pending label _ hw)
  | sequence label members next ih => exact ih _ (h.sequence label members hw)
  | template statics values next ih =>
    have huse : P (w.useTemplate 0 statics values).2 := by
      unfold World.useTemplate
      rcases w.workshop.call 0 statics values w.bench with ⟨value, bench, reports, workshop⟩
      exact h.noteAll reports (h.used bench workshop hw)
    exact ih _ huse
  | checking source next ih => exact ih _ (h.pending none _ hw)

end Action

namespace World

variable (w : World)

theorem callComponent_seen (component : Component) (props : Props) (children : List Value) :
    w.seen.callComponent component props children =
      ((w.callComponent component props children).1,
        (w.callComponent component props children).2.seen) := by
  unfold callComponent
  rw [seen_components]
  cases w.components[component.cell]? with
  | none => rfl
  | some cell =>
    exact (cell.body props children).run_seen (w.note (.called component.cell cell.label))

/-! ## Bookkeeping is not seen -/

@[simp] theorem seen_modifyTask (task : Nat) (f : TaskCell → TaskCell) :
    (w.modifyTask task f).seen = w.seen := rfl

@[simp] theorem seen_modifyWindow (window : Nat) (f : WindowCell → WindowCell) :
    (w.modifyWindow window f).seen = w.seen := rfl

@[simp] theorem seen_newTask (cell : TaskCell) : (w.newTask cell).2.seen = w.seen := rfl

@[simp] theorem seen_beginTurn (task : Nat) : (w.beginTurn task).seen = w.seen := rfl

@[simp] theorem seen_setTimer (delay : Nat) (waiter : Waiter) :
    (w.setTimer delay waiter).seen = w.seen := rfl

/-- A change of a cell shows as far as it shows in the cell. -/
theorem seen_modifyPending {f g : PendingCell → PendingCell} (h : ∀ c, (f c).seen = g c.seen)
    (pending : Nat) : (w.modifyPending pending f).seen = w.seen.modifyPending pending g := by
  have hpendings : (w.pendings.modify pending f).map PendingCell.seen =
      (w.pendings.map PendingCell.seen).modify pending g := by
    refine Array.ext_getElem? fun n => ?_
    rw [Array.getElem?_map, Array.getElem?_modify, Array.getElem?_modify, Array.getElem?_map]
    split
    · cases w.pendings[n]? with
      | none => rfl
      | some c => exact congrArg some (h c)
    · rfl
  simp only [modifyPending, seen, hpendings]

theorem modifyPending_id (pending : Nat) : w.modifyPending pending id = w := by
  have hpendings : w.pendings.modify pending id = w.pendings := by
    refine Array.ext_getElem? fun n => ?_
    rw [Array.getElem?_modify]
    split
    · exact Option.map_id_apply
    · rfl
  simp only [modifyPending, hpendings]

/-- A change that does not show in the cell does not show at all. -/
theorem seen_modifyPending_hidden {f : PendingCell → PendingCell} (h : ∀ c, (f c).seen = c.seen)
    (pending : Nat) : (w.modifyPending pending f).seen = w.seen := by
  rw [seen_modifyPending w (g := id) h, modifyPending_id]

theorem seen_foldl {α : Type} {f : World → α → World} (h : ∀ w a, (f w a).seen = w.seen)
    (as : List α) : (as.foldl f w).seen = w.seen := by
  induction as generalizing w with
  | nil => rfl
  | cons a rest ih => rw [List.foldl_cons, ih, h]

@[simp] theorem seen_tell (depth : Nat) (waiter : Waiter) : (w.tell depth waiter).seen = w.seen := by
  induction depth generalizing waiter w with
  | zero => rfl
  | succ depth ih =>
    cases waiter with
    | task task =>
      simp only [tell]
      split
      · rfl
      · split
        · rfl
        · split
          · rfl
          · split
            · rfl
            · split
              · rw [ih]
                rfl
              · rfl
    | pending pending =>
      simp only [tell]
      split
      · rfl
      · rw [seen_foldl _ fun w waiter => ih w waiter]
        refine seen_modifyPending_hidden w (fun c => ?_) pending
        rfl

@[simp] theorem seen_wake (waiter : Waiter) : (w.wake waiter).seen = w.seen := seen_tell w _ waiter

@[simp] theorem seen_giveUp (pending seat : Nat) : (w.giveUp pending seat).seen = w.seen := by
  have hforsaken : ∀ (forsaken : List Nat) (v : World),
      ({ v with forsaken } : World).seen = v.seen := fun _ _ => rfl
  unfold giveUp
  dsimp only
  split
  · rw [hforsaken]
    refine seen_modifyPending_hidden w (fun c => ?_) pending
    split <;> rfl
  · refine seen_modifyPending_hidden w (fun c => ?_) pending
    split <;> rfl

@[simp] theorem seen_letGo (pending : Nat) : (w.letGo pending).seen = w.seen := by
  unfold letGo
  dsimp only
  split
  · rename_i cell hcell
    split
    · rename_i source seat hjob hstage
      rw [seen_giveUp]
      -- the cell gives its seat up, and a seat does not show
      have hpendings : (w.pendings.modify pending fun cell => { cell with stage := .gone }).map
          PendingCell.seen = w.pendings.map PendingCell.seen := by
        refine Array.ext_getElem? fun n => ?_
        rw [Array.getElem?_map, Array.getElem?_modify, Array.getElem?_map]
        split
        · rename_i hn
          subst hn
          rw [hcell]
          simp only [Option.map_some, PendingCell.seen, hstage, Stage.seen]
        · rfl
      simp only [modifyPending, seen, hpendings]
    · rfl
  · rfl

@[simp] theorem seen_letGoOfAll (reached : Std.HashSet Cell) (count : Nat) :
    (w.letGoOfAll reached count).seen = w.seen := by
  induction count generalizing w with
  | zero => rfl
  | succ count ih =>
    simp only [letGoOfAll]
    split
    · rw [ih, seen_letGo]
    · rfl

@[simp] theorem seen_tidied (held : List Value) : (w.tidied held).seen = w.seen := by
  unfold tidied
  split
  · rfl
  · exact seen_letGoOfAll ..

@[simp] theorem seen_part (around : List Surrounding) (partings : List Parting) :
    (w.part around partings).seen = w.seen := by
  induction partings generalizing w with
  | nil => rfl
  | cons parting rest ih =>
    simp only [part]
    rw [ih, seen_tidied]
    split
    · exact seen_giveUp ..
    · rfl

@[simp] theorem seen_abandon (around : List Surrounding) (stack : List Work) :
    (w.abandon around stack).seen = w.seen := seen_part ..

end World

end TaggedMarkup
