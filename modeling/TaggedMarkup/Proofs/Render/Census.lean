import TaggedMarkup.Proofs.Render.Meanwhile

/-!
# Sequences that stand in one place

Without components and pending values, what is rendered can be counted beforehand: every one-shot sequence
that is going to be reached stands in the value itself, or among the members of a sequence that has not been
taken. If each of them stands in one place only, none is reached twice, and rendering is clean
(`World.Counts.clean`).
-/

namespace TaggedMarkup

/-! ## Where sequences stand -/

mutual

/-- The sequences that stand in a value, but for its props. -/
def Value.sequences : Value → List Nat
  | .list members => Value.sequencesOfAll members
  | .sequence n => [n]
  | .element ⟨_, _, _, children, _⟩ => Value.sequencesOfAll children
  | .object entries => Value.sequencesOfEntries entries
  | _ => []

/-- The sequences that stand in some values. -/
def Value.sequencesOfAll : List Value → List Nat
  | [] => []
  | value :: rest => value.sequences ++ Value.sequencesOfAll rest

def Value.sequencesOfEntries : List (String × Value) → List Nat
  | [] => []
  | (_, value) :: rest => value.sequences ++ Value.sequencesOfEntries rest

end

/-- The sequences that stand in a piece of work in play. -/
def Work.sequences : Work → List Nat
  | .root value | .settled value | .item value => value.sequences
  | .children e => Value.sequencesOfAll e.children
  | .draw feed => Value.sequencesOfAll feed.held
  | .ahead lineup => Value.sequencesOfAll lineup.feed.held
  | .emit _ | .fail _ | .note _ | .prop .. | .await .. => []

/-- The sequences that stand among the members of a sequence that has not been taken. -/
def SequenceCell.sequences (cell : SequenceCell) : List Nat :=
  if cell.taken then [] else Value.sequencesOfAll (cell.members.map (·.2))

/-- The sequences that stand in sequences that have not been taken, or in pieces of work. -/
def World.standing (w : World) (pieces : List Work) : List Nat :=
  pieces.flatMap Work.sequences ++ w.sequences.toList.flatMap SequenceCell.sequences

/-- There are neither components nor pending values, and each sequence stands in one place only and has not
been taken. -/
structure World.Counts (w : World) (pieces : List Work) : Prop where
  components : w.components = #[]
  pendings : w.pendings = #[]
  nodup : (w.standing pieces).Nodup
  untaken : ∀ n ∈ w.standing pieces, w.isTaken n = false

theorem Value.sequences_get? {key : String} {value : Value} {entries : Props}
    (h : Entries.get? key entries = some value) :
    value.sequences.Sublist (Value.sequencesOfEntries entries) := by
  induction entries with
  | nil => cases h
  | cons entry rest ih =>
    obtain ⟨k, v⟩ := entry
    rw [Entries.get?] at h
    rw [sequencesOfEntries]
    split at h
    · cases h
      exact List.sublist_append_left ..
    · exact (ih h).trans (List.sublist_append_right ..)

theorem Element.sequences_ofEntries (entries : Props) :
    (Value.sequencesOfAll (ofEntries 0 entries).children).Sublist (Value.sequencesOfEntries entries) := by
  cases hchildren : Entries.get? "children" entries with
  | none =>
    rw [ofEntries, hchildren]
    exact List.nil_sublist _
  | some value =>
    have hvalue := Value.sequences_get? hchildren
    have hchild : (Value.sequencesOfAll [value]).Sublist (Value.sequencesOfEntries entries) := by
      rwa [Value.sequencesOfAll, Value.sequencesOfAll, List.append_nil]
    rw [ofEntries, hchildren]
    cases value with
    | list => exact hvalue
    | undefined => exact List.nil_sublist _
    | _ => exact hchild

/-! ## What pieces come to -/

namespace Work

/-- The sequences that stand in what is in play in a stack. -/
def sequencesOfAll (stack : List Work) : List Nat := (piecesOfAll stack).flatMap sequences

theorem sequencesOfAll_append (stack more : List Work) :
    sequencesOfAll (stack ++ more) = sequencesOfAll stack ++ sequencesOfAll more := by
  rw [sequencesOfAll, piecesOfAll_append, List.flatMap_append]
  rfl

theorem sequencesOfAll_singleton {work : Work} (h : work.pieces = [work]) :
    sequencesOfAll [work] = work.sequences := by
  rw [sequencesOfAll, piecesOfAll, h]
  exact List.append_nil _

theorem sequencesOfAll_map {rule : Value → Work} (hpieces : ∀ value, (rule value).pieces = [rule value])
    (hrule : ∀ value, (rule value).sequences = value.sequences) (values : List Value) :
    sequencesOfAll (values.map rule) = Value.sequencesOfAll values := by
  induction values with
  | nil => rfl
  | cons value rest ih =>
    rw [List.map_cons, ← List.singleton_append, sequencesOfAll_append, ih,
      sequencesOfAll_singleton (hpieces value), hrule value, Value.sequencesOfAll]

theorem sequencesOfAll_feed (ahead task : Nat) (f : Feed) (kept : List Value) (w : World) :
    sequencesOfAll (Render.feed ahead task f kept w).1 = Value.sequencesOfAll f.held := by
  rw [sequencesOfAll]
  rcases Render.pieces_feed ahead task f kept w with h | h <;> rw [h] <;> exact List.append_nil _

theorem sequencesOfAll_members (ahead task : Nat) (values kept : List Value) (w : World) :
    sequencesOfAll (Render.members ahead task values kept w).1 = Value.sequencesOfAll values := by
  have hheld : (Feed.ofList values).held = values := by
    rw [Feed.held, Feed.ofList, List.map_map]
    exact List.map_id values
  rw [Render.members]
  split
  · exact sequencesOfAll_map (fun _ => rfl) (fun _ => rfl) values
  · rw [sequencesOfAll_feed, hheld]

theorem sequencesOfAll_tag (name : String) (e : Element) :
    (sequencesOfAll (Render.tag name e)).Sublist (Value.sequencesOfAll e.children) := by
  have hprops : sequencesOfAll (e.props.map fun p => Work.prop p.1 p.2) = [] := by
    induction e.props with
    | nil => rfl
    | cons p rest ih => exact ih
  have hchildren : sequencesOfAll [.emit ">", .children e, .emit ("</" ++ Case.lowered name ++ ">")] =
      Value.sequencesOfAll e.children := List.append_nil _
  rw [Render.tag.eq_def]
  dsimp only
  split
  · rw [← List.singleton_append, sequencesOfAll_append, sequencesOfAll_append, hprops]
    exact List.nil_sublist _
  · split
    · rw [← List.singleton_append, sequencesOfAll_append, sequencesOfAll_append, hprops, hchildren]
      exact .refl _
    · exact List.nil_sublist _

theorem sequencesOfAll_root (value : Value) :
    (sequencesOfAll (Render.root value)).Sublist value.sequences := by
  have hitem : (sequencesOfAll [.item value]).Sublist value.sequences := by
    rw [sequencesOfAll_singleton rfl]
    exact .refl _
  cases value with
  | undefined => exact List.nil_sublist _
  | list members =>
    rw [Render.root, sequencesOfAll_map (fun _ => rfl) fun _ => rfl]
    exact .refl _
  | _ =>
    rw [Render.root.eq_def]
    dsimp only
    split
    · exact List.nil_sublist _
    · first
      | exact List.nil_sublist _
      | exact hitem

variable {ahead task : Nat} {work : Work} {progress : Progress} {w v : World}

theorem sequencesOfAll_element (hcomponents : w.components = #[]) (e : Element) :
    (sequencesOfAll (Render.element e w).1).Sublist (Value.sequencesOfAll e.children) := by
  rw [Render.element.eq_def]
  split
  · exact List.nil_sublist _
  · rw [sequencesOfAll_singleton rfl]
    exact .refl _
  · exact sequencesOfAll_tag _ e
  · rename_i component _
    have hnothing : w.components[component.cell]? = none := by rw [hcomponents]; rfl
    rw [World.callComponent, hnothing]
    cases e.raw <;> exact List.nil_sublist _
  · exact List.nil_sublist _

/-- Whatever comes of a piece that is no sequence, no sequence stands there that did not before. -/
theorem sequences_step (hcomponents : w.components = #[]) (hpendings : w.pendings = #[])
    (hnone : ∀ n, work ≠ .item (.sequence n)) (hstepped : work.isStepped = true)
    (hstep : work.step ahead task w = (progress, v)) :
    (progress.pieces.flatMap sequences).Sublist work.sequences := by
  have hsame : ∀ {other : Work}, other.sequences = work.sequences →
      ([other].flatMap sequences).Sublist work.sequences := by
    intro other hother
    rw [List.flatMap_singleton, hother]
  obtain rfl : (work.step ahead task w).1 = progress := by rw [hstep]
  cases work with
  | emit | fail | ahead => cases hstepped
  | note event => exact List.nil_sublist _
  | root value =>
    cases value with
    | pending => exact List.nil_sublist _
    | _ => exact hsame rfl
  | settled value => exact sequencesOfAll_root value
  | prop name value =>
    rw [step, Render.prop]
    dsimp only
    split
    · exact List.nil_sublist _
    · split
      · exact List.nil_sublist _
      · split <;> exact List.nil_sublist _
  | children e =>
    have hmembers := sequencesOfAll_members ahead task e.children [.element e] w
    rw [sequences, ← hmembers]
    exact .refl _
  | await pending seat resumption =>
    have hnothing : w.pendings[pending]? = none := by rw [hpendings]; rfl
    rw [step, World.await, World.ask, hnothing]
    cases resumption <;> exact List.nil_sublist _
  | draw feed =>
    cases hdraw : feed.draw task w with
    | mk drawn next =>
      obtain ⟨feed', u⟩ := next
      rw [step, hdraw]
      rcases Feed.draw_cases hdraw with ⟨rfl, -, -, -⟩ | ⟨delay, value, rest, hmembers, rfl, rfl, -⟩ |
        ⟨rfl, -, -, hmembers, -⟩
      · exact List.nil_sublist _
      · have hheld : feed.held = value :: rest.map (·.2) := by rw [Feed.held, hmembers]; rfl
        rw [sequences, hheld, Value.sequencesOfAll]
        have hrest := List.append_nil (Value.sequencesOfAll (rest.map (·.2)))
        exact (congrArg (value.sequences ++ ·) hrest) ▸ .refl _
      · refine hsame ?_
        rw [sequences, sequences, Feed.held, hmembers, Feed.held]
  | item value =>
    cases value with
    | sequence n => exact absurd rfl (hnone n)
    | list members =>
      have hmembers := sequencesOfAll_members ahead task members [] w
      rw [sequences, Value.sequences, ← hmembers]
      exact .refl _
    | element e =>
      obtain ⟨stamp, type, props, children, raw⟩ := e
      exact sequencesOfAll_element hcomponents _
    | object entries =>
      rw [step, Render.item.eq_def]
      dsimp only
      split
      · exact (sequencesOfAll_element hcomponents _).trans (Element.sequences_ofEntries entries)
      · exact List.nil_sublist _
    | _ => exact List.nil_sublist _

end Work

/-! ## Rendering -/

namespace World

variable {w v : World} {pieces : List Work}

/-- There are neither components nor pending values, and these sequences. -/
structure Bare (sequences : Array SequenceCell) (w : World) : Prop where
  components : w.components = #[]
  pendings : w.pendings = #[]
  sequences : w.sequences = sequences

namespace Bare

variable {sequences : Array SequenceCell}

theorem hidden (h : w.Bare sequences) (hseen : v.seen = w.seen) : v.Bare sequences where
  components := (congrArg World.components hseen).trans h.components
  pendings := by
    have hsize := congrArg (fun w => w.pendings.size) hseen
    simp only [seen, Array.size_map, h.pendings, List.size_toArray, List.length_nil] at hsize
    exact Array.eq_empty_of_size_eq_zero hsize
  sequences := (congrArg World.sequences hseen).trans h.sequences

theorem advance (h : w.Bare sequences) (hv : w.advance? = some v) : v.Bare sequences := by
  obtain ⟨deadline, -, hseen⟩ := seen_advance hv
  have hclock : (w.sleepUntil deadline).Bare sequences := ⟨h.components, h.pendings, h.sequences⟩
  exact hclock.hidden hseen

theorem survives (sequences : Array SequenceCell) : Survives (Bare sequences) where
  hidden h hseen _ := h.hidden hseen
  call component props children h := by
    rw [callComponent, h.components]
    exact h
  dropped _ _ h := ⟨h.components, h.pendings, h.sequences⟩

theorem draw (h : w.Bare sequences) {f feed : Feed} {task : Nat} {drawn : Draw}
    (hdraw : f.draw task w = (drawn, feed, v)) : v.Bare sequences := by
  rcases Feed.draw_cases hdraw with ⟨-, -, -, rfl⟩ | ⟨_, _, _, -, -, -, rfl⟩ | ⟨-, -, -, -, hseen⟩
  · exact h
  · rw [Feed.noteDrawn]
    split
    · exact ⟨h.components, h.pendings, h.sequences⟩
    · exact h
  · exact h.hidden hseen

theorem step (h : w.Bare sequences) {work : Work} {progress : Progress} {ahead task : Nat}
    (hnone : ∀ n, work ≠ .item (.sequence n)) (hstep : work.step ahead task w = (progress, v)) :
    v.Bare sequences := by
  obtain rfl : (work.step ahead task w).2 = v := by rw [hstep]
  by_cases hprompt : work.isPrompt = true
  · exact (survives sequences).step h hprompt ahead task
  · cases work with
    | note event => exact ⟨h.components, h.pendings, h.sequences⟩
    | await pending seat resumption =>
      have hnothing : w.pendings[pending]? = none := by rw [h.pendings]; rfl
      rw [Work.step, await, ask, hnothing]
      exact h
    | draw feed =>
      cases hdraw : feed.draw task w with
      | mk drawn next =>
        rw [Work.step, hdraw]
        cases drawn <;> exact h.draw hdraw
    | item value =>
      cases value with
      | sequence n => exact absurd rfl (hnone n)
      | _ => exact absurd rfl hprompt
    | emit | fail | ahead => exact h
    | _ => exact absurd rfl hprompt

end Bare

namespace Counts

theorem bare (h : w.Counts pieces) : w.Bare w.sequences := ⟨h.components, h.pendings, rfl⟩

/-- The same sequences, and no more than before stand in what is in play. -/
theorem less (h : w.Counts pieces) (hv : v.Bare w.sequences) {more : List Work}
    (hless : (more.flatMap Work.sequences).Subperm (pieces.flatMap Work.sequences)) : v.Counts more := by
  have hstanding : (v.standing more).Subperm (w.standing pieces) := by
    rw [standing, standing, hv.sequences]
    exact (List.subperm_append_right _).mpr hless
  obtain ⟨all, hall, hsublist⟩ := hstanding
  refine ⟨hv.components, hv.pendings, hall.nodup_iff.mp (hsublist.nodup h.nodup), fun n hn => ?_⟩
  have hold := h.untaken n (hsublist.subset (hall.mem_iff.mpr hn))
  rwa [isTaken, hv.sequences]

/-- What stood in a sequence is in play once it is taken. -/
theorem standing_taken {sequences : Array SequenceCell} {n : Nat} {cell : SequenceCell}
    (hcell : sequences[n]? = some cell) (hfresh : cell.taken = false) :
    (sequences.toList.flatMap SequenceCell.sequences).Perm
      (Value.sequencesOfAll (cell.members.map (·.2)) ++
        (sequences.modify n fun cell => { cell with taken := true }).toList.flatMap
          SequenceCell.sequences) := by
  obtain ⟨hlt, rfl⟩ := Array.getElem?_eq_some_iff.mp hcell
  have hsplit : sequences.toList = sequences.toList.take n ++ sequences[n] :: sequences.toList.drop (n + 1) := by
    rw [← Array.getElem_toList hlt, List.getElem_cons_drop, List.take_append_drop]
  have hmodify := List.modify_eq_take_cons_drop (f := fun cell : SequenceCell => { cell with taken := true })
    (l := sequences.toList) (i := n) hlt
  rw [Array.toList_modify, hmodify]
  conv_lhs => rw [hsplit]
  have hbefore : sequences[n].sequences = Value.sequencesOfAll (sequences[n].members.map (·.2)) := by
    rw [SequenceCell.sequences, hfresh]
    rfl
  rw [List.flatMap_append, List.flatMap_cons, List.flatMap_append, List.flatMap_cons, hbefore]
  exact List.perm_append_comm_assoc ..

/-- Taking a sequence brings its members into play. -/
theorem take {n : Nat} {rest : List Work} (h : w.Counts (.item (.sequence n) :: rest)) {more : List Work}
    (hmore : more.flatMap Work.sequences = Value.sequencesOfAll (Render.take n w).1.held) :
    (Render.take n w).2.Counts (more ++ rest) := by
  rcases Render.take_cases n w with ⟨htake, -⟩ | ⟨cell, hcell, hfresh, htake⟩
  · rw [htake] at hmore ⊢
    refine h.less h.bare ?_
    rw [List.flatMap_append, hmore, List.flatMap_cons]
    exact (List.sublist_append_right _ _).subperm
  · rw [htake] at hmore ⊢
    let v : World := { w with sequences := w.sequences.modify n fun cell => { cell with taken := true } }
    have hperm : (w.standing (.item (.sequence n) :: rest)).Perm (n :: v.standing (more ++ rest)) := by
      rw [standing, standing, List.flatMap_append, hmore, List.flatMap_cons]
      refine .cons n ?_
      refine ((standing_taken hcell hfresh).append_left _).trans ?_
      rw [List.append_assoc]
      exact List.perm_append_comm_assoc ..
    have hnodup := List.nodup_cons.mp (hperm.nodup_iff.mp h.nodup)
    refine ⟨h.components, h.pendings, hnodup.2, fun m hm => ?_⟩
    have hold := h.untaken m (hperm.mem_iff.mpr (List.mem_cons_of_mem _ hm))
    have hne : n ≠ m := fun heq => hnodup.1 (heq ▸ hm)
    rw [isTaken] at hold ⊢
    rw [Array.getElem?_modify, if_neg hne]
    exact hold

/-- A feed stands for what is left of it. -/
theorem draw {l : Lineup} {rest : List Work} {drawn : Draw} {feed : Feed} {task : Nat}
    (h : w.Counts (.ahead { l with members := [] } :: rest)) (hdraw : l.feed.draw task w = (drawn, feed, v)) :
    v.Counts (.ahead { l with feed, members := [] } :: (drawn.pieces l ++ rest)) := by
  refine h.less (h.bare.draw hdraw) ?_
  rw [List.flatMap_cons, List.flatMap_cons, List.flatMap_append, Work.sequences, Work.sequences]
  rcases Feed.draw_cases hdraw with ⟨rfl, hnone, rfl, -⟩ | ⟨delay, value, others, hmembers, rfl, rfl, -⟩ |
    ⟨rfl, -, -, hmembers, -⟩
  · exact .refl _
  · have hheld : l.feed.held = value :: others.map (·.2) := by rw [Feed.held, hmembers]; rfl
    rw [hheld, Value.sequencesOfAll, List.append_assoc]
    have hvalue : (Draw.member value).pieces l = [.note (.began l.window l.feed.index), .item value] := rfl
    rw [hvalue]
    refine List.Perm.subperm ?_
    change (_ ++ ((value.sequences ++ []) ++ _)).Perm _
    rw [List.append_nil]
    exact List.perm_append_comm_assoc ..
  · rw [show feed.held = l.feed.held by rw [Feed.held, hmembers, Feed.held]]
    exact .refl _

/-- Whatever course rendering takes, each sequence stands in one place. -/
theorem invariant : Course.Invariant fun _ w pieces => w.Counts pieces where
  hidden h hseen := h.less (h.bare.hidden hseen) (.refl _)
  entered {_ w _} window member h :=
    have hnoted : (w.note (.entered window member)).Bare w.sequences := ⟨h.components, h.pendings, rfl⟩
    h.less hnoted (.refl _)
  through _ _ h := h.less h.bare (.refl _)
  only h hless := by
    obtain ⟨all, hall, hsublist⟩ := hless
    exact h.less h.bare ⟨_, hall.flatMap_right _, hsublist.flatMap _⟩
  step {deeds w v work rest progress ahead task} h hstepped _ hstep := by
    by_cases hnone : ∀ n, work ≠ .item (.sequence n)
    · refine h.less (h.bare.step hnone hstep) ?_
      rw [List.flatMap_append, List.flatMap_cons]
      exact ((Work.sequences_step h.components h.pendings hnone hstepped hstep).append_right _).subperm
    · push Not at hnone
      obtain ⟨n, rfl⟩ := hnone
      rw [Work.step_sequence] at hstep
      cases hstep
      have htaken := h.take (Work.sequencesOfAll_feed ahead task (Render.take n w).1 [] (Render.take n w).2)
      exact htaken.less ((Bare.survives _).feed htaken.bare ..) (.refl _)
  draw h hdraw := h.draw hdraw

/-- Rendering is clean. -/
theorem clean (h : w.Counts pieces) (htame : ∀ piece ∈ pieces, piece.IsTame) : Clean w pieces := by
  intro v more hproceeds
  suffices hcounts : v.Counts more ∧ ∀ piece ∈ more, piece.IsTame by
    refine ⟨fun n source hjob => ?_, fun n hn => hcounts.1.untaken n ?_⟩
    · rw [job?, hcounts.1.pendings] at hjob
      cases hjob
    · exact List.mem_append_left _ (List.mem_flatMap.mpr ⟨_, hn, List.mem_singleton_self n⟩)
  induction hproceeds with
  | refl => exact ⟨h, htame⟩
  | @course u _ pieces _ deeds _ hcourse ih =>
    exact ⟨@Course.Invariant.course _ invariant u _ pieces _ [] deeds ih.1 ih.2 hcourse, hcourse.isTame ih.2⟩
  | passed _ hadvance ih =>
    exact ⟨ih.1.less (ih.1.bare.advance hadvance) (.refl _), ih.2⟩

end Counts

end World

end TaggedMarkup
