import TaggedMarkup.Proofs.Render.Happenings
import TaggedMarkup.Proofs.Render.Planned

/-!
# The story of what is rendered

A **story** is a tree of values with what happens on the way: the calls, the members that are drawn, the props that
are dropped, and the pending values that are awaited, each by its origin and its label. A piece of work is told by
a story (`Story.Tells`) if it goes like this whatever else is rendered meanwhile: so components and pending values
are pure, and what they make has the same labels every time.

Without what happens, a story is the tree that the work comes to.
-/

namespace TaggedMarkup

/-! ## Labels -/

namespace World

/-- The label of a sequence. -/
def sequenceLabel? (n : Nat) (w : World) : Option (Option String) := w.sequences[n]?.map (·.label)

/-- Components stay what they are, and pending values and sequences keep their labels. -/
structure LabelsLast (w v : World) : Prop where
  component : ∀ {n : Nat} {cell : ComponentCell}, w.components[n]? = some cell → v.components[n]? = some cell
  pending : ∀ {p : Nat} {label : Option String}, w.pendingLabel? p = some label → v.pendingLabel? p = some label
  sequence : ∀ {n : Nat} {label : Option String}, w.sequenceLabel? n = some label → v.sequenceLabel? n = some label

variable {w v u : World}

namespace LabelsLast

theorem trans (h : LabelsLast w v) (h' : LabelsLast v u) : LabelsLast w u where
  component hn := h'.component (h.component hn)
  pending hp := h'.pending (h.pending hp)
  sequence hn := h'.sequence (h.sequence hn)

theorem of_eq (hcomponents : v.components = w.components) (hpendings : ∀ p, v.pendingLabel? p = w.pendingLabel? p)
    (hsequences : v.sequences = w.sequences) : LabelsLast w v where
  component hn := by rwa [hcomponents]
  pending hp := (hpendings _).trans hp
  sequence hn := by rwa [sequenceLabel?, hsequences]

theorem of_seen (h : v.seen = w.seen) : LabelsLast w v :=
  .of_eq (by rw [← seen_components, h, seen_components])
    (fun p => by rw [← pendingLabel?_seen, h, pendingLabel?_seen])
    (by rw [← seen_sequences, h, seen_sequences])

theorem refl (w : World) : LabelsLast w w := of_seen rfl

theorem note (event : Event) (w : World) : LabelsLast w (w.note event) := .of_eq rfl (fun _ => rfl) rfl

theorem modifyPending {f : PendingCell → PendingCell} (hf : ∀ cell, (f cell).label = cell.label) (p : Nat)
    (w : World) : LabelsLast w (w.modifyPending p f) := by
  refine .of_eq rfl (fun q => ?_) rfl
  rw [pendingLabel?, World.modifyPending, Array.getElem?_modify, pendingLabel?]
  split
  · rw [Option.map_map]
    exact congrArg (Option.map · _) (funext hf)
  · rfl

theorem of_push {α β : Type} {cells : Array α} {cell : α} {n : Nat} {label : β} {f : α → β}
    (h : cells[n]?.map f = some label) : (cells.push cell)[n]?.map f = some label := by
  obtain ⟨old, hold, heq⟩ := Option.map_eq_some_iff.mp h
  have hlt := (Array.getElem?_eq_some_iff.mp hold).1
  rw [Array.getElem?_push, if_neg (Nat.ne_of_lt hlt), hold, Option.map_some, heq]

theorem run (a : Action) (w : World) : LabelsLast w (a.run w).2 := by
  refine a.run_stable (P := LabelsLast w) ⟨?_, ?_, ?_, ?_, ?_⟩ (.refl w)
  · exact fun _ _ h => h.trans (.of_eq rfl (fun _ => rfl) rfl)
  · exact fun _ h => h.trans (.note _ _)
  · intro v name cell h
    refine h.trans ⟨fun {n old} hn => ?_, id, id⟩
    have hpush : (v.components.push cell)[n]?.map id = some old := of_push (by rwa [Option.map_id_fun, id])
    rwa [Option.map_id_fun, id] at hpush
  · exact fun label job h => h.trans ⟨id, of_push, id⟩
  · exact fun label members h => h.trans ⟨id, id, of_push⟩

theorem callComponent (component : Component) (props : Props) (children : List Value) (w : World) :
    LabelsLast w (w.callComponent component props children).2 := by
  rw [World.callComponent]
  split
  · exact (note _ w).trans (run _ _)
  · exact .refl w

theorem take (n : Nat) (w : World) : LabelsLast w (Render.take n w).2 := by
  rcases Render.take_cases n w with ⟨htake, -⟩ | ⟨cell, -, -, htake⟩
  · rw [htake]
    exact .refl w
  · rw [htake]
    refine ⟨id, id, fun {m label} hm => ?_⟩
    rw [sequenceLabel?, Array.getElem?_modify]
    split
    · rw [Option.map_map]
      exact hm
    · exact hm

theorem conclude (p : Nat) (label : Option String) (body : Action) (w : World) :
    LabelsLast w (w.conclude p label body).2 := by
  have hrun : LabelsLast w (body.run (w.note (.finished p label))).2 := (note _ w).trans (run body _)
  refine hrun.trans ?_
  rw [World.conclude]
  dsimp only
  generalize body.run (w.note (.finished p label)) = r
  have hseen : (r.2.settle p r.1).seen = (r.2.modifyPending p fun cell => { cell with stage := .done r.1 }).seen := by
    rw [seen_settle]
    exact (seen_modifyPending r.2 (g := fun cell => { cell with stage := .done r.1 }) (fun _ => rfl) p).symm
  exact (modifyPending (f := fun cell => { cell with stage := .done r.1 }) (fun _ => rfl) p r.2).trans (.of_seen hseen)

theorem await (waiter : Waiter) (p : Nat) (own : Option Nat) (w : World) :
    LabelsLast w (w.await waiter p own).2 := by
  have hstable : AskStable (LabelsLast w) :=
    ⟨fun _ _ h => h.trans (.note _ _),
      fun _ waiters h => h.trans (.modifyPending (f := fun cell => { cell with waiters }) (fun _ => rfl) _ _),
      fun _ stage _ h => h.trans (.modifyPending (f := fun cell => { cell with stage }) (fun _ => rfl) _ _),
      fun _ _ h => h.trans (.of_eq rfl (fun _ => rfl) rfl), fun _ _ _ h => h.trans (.conclude ..)⟩
  exact hstable.ask (.refl w) _ waiter p own

theorem advance (h : w.advance? = some v) : LabelsLast w v := by
  obtain ⟨deadline, -, hseen⟩ := seen_advance h
  have hclock : LabelsLast w (w.sleepUntil deadline) := .of_eq rfl (fun _ => rfl) rfl
  exact hclock.trans (.of_seen hseen)

end LabelsLast

theorem Becomes.labelsLast (h : w.Becomes v) : LabelsLast w v := by
  induction h with
  | refl => exact .refl w
  | hidden _ hseen ih => exact ih.trans (.of_seen hseen)
  | noted event _ ih => exact ih.trans (.note event _)
  | called component props children _ ih => exact ih.trans (.callComponent ..)
  | took sequence _ ih => exact ih.trans (.take ..)
  | asked waiter pending own _ ih => exact ih.trans (.await ..)
  | passed _ hadvance ih => exact ih.trans (.advance hadvance)

/-! ## Chains of sources -/

/-- Whoever asks the pending value asks these pending values, one after the other, until one does not check another
one: where they come from, and their labels. -/
inductive Chains (w : World) (origins : List Origin) : Nat → List (Origin × Option String) → Prop
  | clock {p delay : Nat} {origin : Origin} {label : Option String} {keeps : List Value} {body : Action} :
    origins[p]? = some origin → w.pendingLabel? p = some label → w.job? p = some (.after delay keeps body) →
      Chains w origins p [(origin, label)]
  | source {p source : Nat} {origin : Origin} {label : Option String} {chain : List (Origin × Option String)} :
    origins[p]? = some origin → w.pendingLabel? p = some label → w.job? p = some (.checking source) →
      Chains w origins source chain → Chains w origins p ((origin, label) :: chain)

namespace Chains

variable {origins more : List Origin} {p n : Nat} {chain : List (Origin × Option String)}

theorem records (h : w.Chains origins p chain) (hv : w.Records origins v more) : v.Chains more p chain := by
  induction h with
  | clock horigin hlabel hjob =>
    exact .clock (Origin.getElem?_of_prefix hv.isPrefix horigin) (hv.becomes.labelsLast.pending hlabel)
      (hv.becomes.lasts.job? hjob)
  | source horigin hlabel hjob _ ih =>
    exact .source (Origin.getElem?_of_prefix hv.isPrefix horigin) (hv.becomes.labelsLast.pending hlabel)
      (hv.becomes.lasts.job? hjob) ih

theorem lt_size (h : w.Chains origins p chain) : p < w.pendings.size := by
  cases h with
  | clock _ _ hjob | source _ _ hjob => exact lt_size_of_job? hjob

/-- Nobody else is asked on the way. -/
theorem mem_of_awaits (h : w.Chains origins p chain) (hawaits : w.Awaits p n) :
    ∃ origin label, (origin, label) ∈ chain ∧ origins[n]? = some origin := by
  induction h with
  | clock horigin _ hjob =>
    cases hawaits with
    | refl => exact ⟨_, _, List.mem_singleton_self _, horigin⟩
    | source hchecking => cases hjob.symm.trans hchecking
  | source horigin _ hjob _ ih =>
    cases hawaits with
    | refl => exact ⟨_, _, List.mem_cons_self, horigin⟩
    | source hchecking hrest =>
      cases hjob.symm.trans hchecking
      obtain ⟨origin, label, hmem, hn⟩ := ih hrest
      exact ⟨origin, label, List.mem_cons_of_mem _ hmem, hn⟩

/-- Where something has come of a pending value, something has come of those that it waits for. -/
theorem ended (h : w.Chains origins p chain) (hanswered : w.Answered 0) (hover : w.toCome p = []) :
    ∀ x ∈ chain, ∃ n, origins[n]? = some x.1 ∧ w.pendingLabel? n = some x.2 ∧ w.toCome n = [] := by
  induction h with
  | clock horigin hlabel _ =>
    intro x hx
    rw [List.mem_singleton.mp hx]
    exact ⟨_, horigin, hlabel, hover⟩
  | source horigin hlabel hjob _ ih =>
    obtain ⟨outcome, hpeek⟩ := toCome_eq_nil_iff.mp hover
    obtain ⟨earlier, hearlier, -⟩ := hanswered.answers (Nat.zero_le _) hjob hpeek
    refine List.forall_mem_cons.mpr ⟨⟨_, horigin, hlabel, hover⟩, ih (toCome_eq_nil_iff.mpr ⟨earlier, hearlier⟩)⟩

end Chains

end World

/-! ## Stories -/

/-- What happens when a piece of work is rendered. -/
inductive Story where
  | leaf (out : Except Error String)
  /-- one thing after the other; a prop may be dropped -/
  | row (dropped : Option Happening) (parts : List Story)
  /-- the members of a list, or of a sequence with this label, from the one with this number on -/
  | members (label : Option (Option String)) (index : Nat) (parts : List Story)
  /-- a pending value with those that it waits for -/
  | later (chain : List (Origin × Option String)) (value : Story)
  /-- the call of a component with this label -/
  | call (site : Nat) (label : Option String) (result : Story)

/-- What the rule for a prop writes down, and nothing else is written down on a row. -/
def Work.Drops (dropped : Option Happening) : Work → Prop
  | .prop name value => dropped = if isDropped name value then some (.droppedProp name value.typeName) else none
  | .note event => dropped = none ∧ event.happening? = none
  | _ => dropped = none
where
  /-- The prop is of a kind that has no attribute. -/
  isDropped (name : String) (value : Value) : Bool :=
    !Render.isSkipped value && Name.isAttribute name && (Render.attributeText? name value).isNone

mutual

/-- The story of a piece of work, in this world and whatever becomes of it. -/
def Story.Tells : Story → World → List Origin → Work → Prop
  | .leaf out, _, _, work => work.layer = .leaf out
  | .row dropped parts, w, origins, work => ∃ works, work.layer = .row works ∧ work.Drops dropped ∧
    Story.TellAll parts w origins works
  | .members none _ parts, w, origins, work => ∃ values kept, work.layer = .list values kept ∧
    Story.TellAll parts w origins (values.map .item)
  | .members (some label) index parts, w, origins, work => ∃ n cell, work.layer = .sequence n ∧ index = 0 ∧
    w.sequences[n]? = some cell ∧ cell.label = label ∧
      Story.TellAll parts w origins (cell.members.map fun member => .item member.2)
  | .later chain value, w, origins, work => ∃ pending resumption, work.layer = .later pending resumption ∧
    w.Chains origins pending chain ∧ ∀ v more outcome, w.Records origins v more → v.peek pending = some outcome →
      ∀ next ∈ Render.resume resumption outcome, value.Tells v more next
  | .call site label result, w, origins, work => ∃ component e cell, work.layer = .call component e ∧
    w.components[component.cell]? = some cell ∧ cell.label = label ∧ ∀ v more, w.Records origins v more →
      ∀ next ∈ Render.result e.raw (v.callComponent component e.props e.children).1,
        result.Tells (v.callComponent component e.props e.children).2
          (Origin.grow (.called site) (v.callComponent component e.props e.children).2.pendings.size more) next

/-- The stories of pieces of work, one for each. -/
def Story.TellAll : List Story → World → List Origin → List Work → Prop
  | [], _, _, works => works = []
  | story :: stories, w, origins, works => ∃ work rest, works = work :: rest ∧ story.Tells w origins work ∧
    Story.TellAll stories w origins rest

end

namespace Story

variable {w v : World} {origins more : List Origin}

mutual

/-- What is told stays true. -/
theorem Tells.records (hv : w.Records origins v more) : ∀ {story : Story} {work : Work},
    story.Tells w origins work → story.Tells v more work
  | .leaf _, _, h => h
  | .row _ _, _, ⟨works, hlayer, hdrops, hparts⟩ => ⟨works, hlayer, hdrops, TellAll.records hv hparts⟩
  | .members none _ _, _, ⟨values, kept, hlayer, hparts⟩ => ⟨values, kept, hlayer, TellAll.records hv hparts⟩
  | .members (some _) _ _, _, ⟨n, cell, hlayer, hindex, hcell, hlabel, hparts⟩ => by
    obtain ⟨cell', hcell', hsame⟩ := hv.becomes.keepsSource n cell hcell
    have hlabel' := hv.becomes.labelsLast.sequence (World.sequenceLabel?.eq_def n w ▸ congrArg (Option.map _) hcell)
    rw [World.sequenceLabel?, hcell', Option.map_some, Option.some.injEq] at hlabel'
    refine ⟨n, cell', hlayer, hindex, hcell', hlabel'.trans hlabel, ?_⟩
    rw [hsame]
    exact TellAll.records hv hparts
  | .later _ _, _, ⟨pending, resumption, hlayer, hchains, hvalue⟩ =>
    ⟨pending, resumption, hlayer, hchains.records hv, fun u last outcome hu => hvalue u last outcome (hv.trans hu)⟩
  | .call _ _ _, _, ⟨component, e, cell, hlayer, hcell, hlabel, hresult⟩ =>
    ⟨component, e, cell, hlayer, hv.becomes.labelsLast.component hcell, hlabel,
      fun u last hu => hresult u last (hv.trans hu)⟩

theorem TellAll.records (hv : w.Records origins v more) : ∀ {stories : List Story} {works : List Work},
    TellAll stories w origins works → TellAll stories v more works
  | [], _, h => h
  | _ :: _, _, ⟨work, rest, hworks, hwork, hrest⟩ =>
    ⟨work, rest, hworks, Tells.records hv hwork, TellAll.records hv hrest⟩

end

/-! ## The tree in a story -/

mutual

/-- The tree that is left of a story without what happens. -/
def tree : Story → Tree
  | .leaf out => .leaf out
  | .row _ parts => .row (treeOfAll parts)
  | .members none _ parts => .list (treeOfAll parts)
  | .members (some _) _ parts => .sequence (treeOfAll parts)
  | .later _ value => .later value.tree
  | .call _ _ result => .call result.tree

def treeOfAll : List Story → List Tree
  | [] => []
  | story :: rest => story.tree :: treeOfAll rest

end

mutual

/-- Where a story tells something, its tree describes it. -/
theorem Tells.tree : ∀ {story : Story} {w : World} {origins : List Origin} {work : Work},
    story.Tells w origins work → story.tree.Describes w work
  | .leaf _, _, _, _, h => h
  | .row _ _, _, _, _, ⟨works, hlayer, _, hparts⟩ => ⟨works, hlayer, TellAll.tree hparts⟩
  | .members none _ _, _, _, _, ⟨values, kept, hlayer, hparts⟩ => ⟨values, kept, hlayer, TellAll.tree hparts⟩
  | .members (some _) _ _, _, _, _, ⟨n, cell, hlayer, _, hcell, _, hparts⟩ =>
    ⟨n, cell, hlayer, hcell, TellAll.tree hparts⟩
  | .later _ _, _, origins, _, ⟨pending, resumption, hlayer, hchains, hvalue⟩ => by
    refine ⟨pending, resumption, hlayer, hchains.lt_size, fun v outcome hv hpeek next hnext => ?_⟩
    obtain ⟨more, hmore⟩ := hv.records origins
    exact Tells.tree (hvalue v more outcome hmore hpeek next hnext)
  | .call _ _ _, _, origins, _, ⟨component, e, _, hlayer, _, _, hresult⟩ => by
    refine ⟨component, e, hlayer, fun v hv next hnext => ?_⟩
    obtain ⟨more, hmore⟩ := hv.records origins
    exact Tells.tree (hresult v more hmore next hnext)

theorem TellAll.tree : ∀ {stories : List Story} {w : World} {origins : List Origin} {works : List Work},
    TellAll stories w origins works → Tree.DescribeAll (treeOfAll stories) w works
  | [], _, _, _, h => h
  | _ :: _, _, _, _, ⟨work, rest, hworks, hwork, hrest⟩ =>
    ⟨work, rest, hworks, Tells.tree hwork, TellAll.tree hrest⟩

end

/-! ## What a story tells -/

/-- The members that are drawn. Drawing from a list goes unnoticed. -/
def draws (label : Option (Option String)) (index count : Nat) : Multiset Happening :=
  match label with
  | some label => Multiset.ofList ((List.range' index count).map (.drawn label))
  | none => 0

mutual

/-- What happens at one place each. -/
def once : Story → Multiset Happening
  | .leaf _ => 0
  | .row dropped parts => Multiset.ofList dropped.toList + onceOfAll parts
  | .members label index parts => draws label index parts.length + onceOfAll parts
  | .later _ value => value.once
  | .call _ label result => .called label ::ₘ result.once

def onceOfAll : List Story → Multiset Happening
  | [] => 0
  | story :: rest => story.once + onceOfAll rest

end

mutual

/-- The pending values that are awaited, wherever they are. -/
def awaited : Story → List (Origin × Option String)
  | .leaf _ => []
  | .row _ parts | .members _ _ parts => awaitedOfAll parts
  | .later chain value => chain ++ value.awaited
  | .call _ _ result => result.awaited

def awaitedOfAll : List Story → List (Origin × Option String)
  | [] => []
  | story :: rest => story.awaited ++ awaitedOfAll rest

end

mutual

/-- The calls. -/
def sites : Story → List Nat
  | .leaf _ => []
  | .row _ parts | .members _ _ parts => sitesOfAll parts
  | .later _ value => value.sites
  | .call site _ result => site :: result.sites

def sitesOfAll : List Story → List Nat
  | [] => []
  | story :: rest => story.sites ++ sitesOfAll rest

end

variable {stories others : List Story}

theorem onceOfAll_eq : onceOfAll stories = (stories.map once).sum := by
  induction stories with
  | nil => rfl
  | cons story rest ih => rw [onceOfAll, ih, List.map_cons, List.sum_cons]

theorem onceOfAll_append : onceOfAll (stories ++ others) = onceOfAll stories + onceOfAll others := by
  rw [onceOfAll_eq, onceOfAll_eq, onceOfAll_eq, List.map_append, List.sum_append]

theorem awaitedOfAll_eq : awaitedOfAll stories = stories.flatMap awaited := by
  induction stories with
  | nil => rfl
  | cons story rest ih => rw [awaitedOfAll, ih, List.flatMap_cons]

theorem mem_awaitedOfAll_append {x : Origin × Option String} :
    x ∈ awaitedOfAll (stories ++ others) ↔ x ∈ awaitedOfAll stories ∨ x ∈ awaitedOfAll others := by
  rw [awaitedOfAll_eq, awaitedOfAll_eq, awaitedOfAll_eq, List.flatMap_append, List.mem_append]

theorem sitesOfAll_eq : sitesOfAll stories = stories.flatMap sites := by
  induction stories with
  | nil => rfl
  | cons story rest ih => rw [sitesOfAll, ih, List.flatMap_cons]

theorem sitesOfAll_append : sitesOfAll (stories ++ others) = sitesOfAll stories ++ sitesOfAll others := by
  rw [sitesOfAll_eq, sitesOfAll_eq, sitesOfAll_eq, List.flatMap_append]

end Story

end TaggedMarkup
