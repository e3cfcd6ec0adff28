import TaggedMarkup.Proofs.Render.Courses

/-!
# Histories of renders

Any number of renders are taken in one world, whoever has a turn when: streams are opened, polled and
given up at any point, host code runs, time passes, and pending values are awaited from outside.
`Renders.Leads` tells such histories, with the **deeds** that were done on the way.

An **invariant** (`Renders.Invariant`) says something of the deeds so far, the world and the pieces of
work in play. It is enough that the few moves keep it that a history is made up of.
-/

namespace TaggedMarkup

/-! ## What courses keep -/

namespace Work

/-- What goes unnoticed has no pieces but itself. -/
theorem Unnoticed.eq_of_mem_pieces {work piece : Work} (h : work.Unnoticed)
    (hpiece : piece ∈ work.pieces) : piece = work := by
  cases work with
  | emit text => cases hpiece
  | ahead lineup =>
    obtain ⟨window, feed, kept, members⟩ := lineup
    obtain ⟨-, rfl⟩ : feed.origin = none ∧ members = [] := h
    exact List.mem_singleton.mp hpiece
  | _ => exact List.mem_singleton.mp hpiece

theorem mem_of_unnoticed {works : List Work} (h : ∀ work ∈ works, work.Unnoticed) {piece : Work}
    (hpiece : piece ∈ piecesOfAll works) : piece ∈ works := by
  obtain ⟨work, hwork, hpiece⟩ := mem_piecesOfAll.mp hpiece
  rwa [(h work hwork).eq_of_mem_pieces hpiece]

theorem unnoticed_pieces {works : List Work} (h : ∀ work ∈ works, work.Unnoticed) :
    ∀ piece ∈ piecesOfAll works, piece.Unnoticed :=
  fun piece hpiece => h piece (mem_of_unnoticed h hpiece)

end Work

theorem Progress.Unnoticed.pieces {progress : Progress} (h : progress.Unnoticed) :
    ∀ piece ∈ progress.pieces, piece.Unnoticed := by
  cases progress with
  | next works => exact Work.unnoticed_pieces h
  | wait work => exact h

/-- A piece of work that writes nothing down but the way of members through windows. -/
def Work.IsTame : Work → Prop
  | .note (.entered _ _) | .note (.began _ _) | .note (.left _ _) => True
  | .note _ => False
  | _ => True

theorem Work.Unnoticed.isTame {work : Work} (h : work.Unnoticed) : work.IsTame := by
  cases work with
  | note event => cases h
  | _ => trivial

/-- What the drawing of a member can come to. -/
theorem Feed.draw_cases {f feed : Feed} {task : Nat} {drawn : Draw} {w v : World}
    (h : f.draw task w = (drawn, feed, v)) :
    (drawn = .exhausted ∧ f.members = [] ∧ feed = f ∧ v = w) ∨
      (∃ delay value rest, f.members = (delay, value) :: rest ∧ drawn = .member value ∧
        feed = { f with index := f.index + 1, members := rest, deadline := none } ∧
          v = f.noteDrawn w) ∨
        (drawn = .notYet ∧ feed.origin = f.origin ∧ feed.index = f.index ∧
          feed.members = f.members ∧ v.seen = w.seen) := by
  rw [Feed.draw.eq_def] at h
  split at h
  · rename_i hmembers
    cases h
    exact .inl ⟨rfl, hmembers, rfl, rfl⟩
  · rename_i delay value rest hmembers
    dsimp only at h
    split at h
    · split at h
      · cases h
        exact .inr (.inl ⟨delay, value, rest, hmembers, rfl, rfl, rfl⟩)
      · cases h
        exact .inr (.inr ⟨rfl, rfl, rfl, rfl, rfl⟩)
    · split at h
      · cases h
        exact .inr (.inl ⟨delay, value, rest, hmembers, rfl, rfl, rfl⟩)
      · cases h
        exact .inr (.inr ⟨rfl, rfl, rfl, rfl, rfl⟩)

theorem World.isTaken_of_getElem? {w : World} {n : Nat} {cell : SequenceCell}
    (h : w.sequences[n]? = some cell) : w.isTaken n = cell.taken := by
  rw [isTaken, h]

/-- What the taking of a sequence can come to. -/
theorem Render.take_cases (n : Nat) (w : World) :
    (take n w = (.ofList [], w) ∧ (w.sequences.size ≤ n ∨ w.isTaken n = true)) ∨
      ∃ cell, w.sequences[n]? = some cell ∧ cell.taken = false ∧
        take n w = ({ origin := some (n, cell.label), members := cell.members },
          { w with sequences := w.sequences.modify n fun cell => { cell with taken := true } }) := by
  rw [take]
  cases hcell : w.sequences[n]? with
  | none => exact .inl ⟨rfl, .inl (Array.getElem?_eq_none_iff.mp hcell)⟩
  | some cell =>
    cases htaken : cell.taken with
    | true => exact .inl ⟨by simp only [htaken, if_true], .inr ((World.isTaken_of_getElem? hcell).trans htaken)⟩
    | false => exact .inr ⟨cell, rfl, htaken, by simp only [htaken, Bool.false_eq_true, if_false]⟩

/-- What has not been drawn is in play as one piece. -/
theorem Render.pieces_feed (ahead task : Nat) (f : Feed) (kept : List Value) (w : World) :
    Work.piecesOfAll (feed ahead task f kept w).1 = [.draw f] ∨
      Work.piecesOfAll (feed ahead task f kept w).1 =
        [.ahead { window := w.windows.size, feed := f, kept, members := [] }] := by
  rw [feed]
  split
  · exact .inl rfl
  · exact .inr rfl

theorem Work.step_sequence (ahead task cell : Nat) (w : World) :
    (Work.item (.sequence cell)).step ahead task w =
      (.next (Render.feed ahead task (Render.take cell w).1 [] (Render.take cell w).2).1,
        (Render.feed ahead task (Render.take cell w).1 [] (Render.take cell w).2).2) := rfl

/-- No step brings anything into play that is not tame. -/
theorem Work.isTame_step {ahead task : Nat} {work : Work} {progress : Progress} {w v : World}
    (h : work.step ahead task w = (progress, v)) (hstepped : work.isStepped = true) :
    ∀ piece ∈ progress.pieces, piece.IsTame := by
  by_cases hprompt : work.isPrompt = true
  · have hunnoticed : (work.step ahead task w).1.Unnoticed := Work.unnoticed_step hprompt w
    rw [h] at hunnoticed
    exact fun piece hpiece => (hunnoticed.pieces piece hpiece).isTame
  · cases work with
    | note event =>
      cases h
      exact nofun
    | await cell seat resumption =>
      rw [Work.step] at h
      split at h
      · cases h
        exact fun piece hpiece =>
          (unnoticed_pieces (Render.unnoticed_resume _ _) piece hpiece).isTame
      · cases h
        exact fun piece hpiece => List.mem_singleton.mp hpiece ▸ trivial
    | draw feed =>
      rw [Work.step] at h
      split at h <;> cases h <;> simp [Progress.pieces, piecesOfAll, pieces, IsTame]
    | item value =>
      cases value with
      | sequence cell =>
        rw [step_sequence] at h
        cases h
        intro piece hpiece
        rcases Render.pieces_feed ahead task (Render.take cell w).1 [] (Render.take cell w).2 with
          hdraw | hahead
        · rw [Progress.pieces, hdraw] at hpiece
          exact List.mem_singleton.mp hpiece ▸ trivial
        · rw [Progress.pieces, hahead] at hpiece
          exact List.mem_singleton.mp hpiece ▸ trivial
      | _ => exact absurd rfl hprompt
    | emit | fail | ahead => cases hstepped
    | _ => exact absurd rfl hprompt

/-- What is in play stays tame. -/
theorem Course.isTame {w v : World} {pieces more : List Work} {deeds : List Deed}
    (h : Course w pieces deeds v more) (hpieces : ∀ piece ∈ pieces, piece.IsTame) :
    ∀ piece ∈ more, piece.IsTame := by
  induction h with
  | refl => exact hpieces
  | hidden _ _ ih => exact ih
  | entered _ _ _ ih => exact ih
  | through window member _ ih => exact List.forall_mem_cons.mpr ⟨trivial, ih⟩
  | only _ hless ih => exact fun piece hpiece => ih piece (hless.subset hpiece)
  | step ahead task _ hstepped hstep ih =>
    intro piece hpiece
    rcases List.mem_append.mp hpiece with hnew | hold
    · exact Work.isTame_step hstep hstepped piece hnew
    · exact ih piece (List.mem_cons_of_mem _ hold)
  | @draw _ _ _ l _ drawn _ task _ hdraw ih =>
    refine List.forall_mem_cons.mpr ⟨trivial, fun piece hpiece => ?_⟩
    rcases List.mem_append.mp hpiece with hnew | hold
    · cases drawn with
      | member value =>
        rcases List.mem_cons.mp hnew with rfl | hitem
        · trivial
        · exact List.mem_singleton.mp hitem ▸ trivial
      | notYet | exhausted => cases hnew
    · exact ih piece (List.mem_cons_of_mem _ hold)

/-- What is kept on every course: the moves that a course is made up of keep it. -/
structure Course.Invariant (I : List Deed → World → List Work → Prop) : Prop where
  hidden : ∀ {deeds : List Deed} {w v : World} {pieces : List Work}, I deeds w pieces →
    v.seen = w.seen → I deeds v pieces
  entered : ∀ {deeds : List Deed} {w : World} {pieces : List Work} (window member : Nat),
    I deeds w pieces → I deeds (w.note (.entered window member)) pieces
  through : ∀ {deeds : List Deed} {w : World} {pieces : List Work} (window member : Nat),
    I deeds w pieces → I deeds w (.note (.left window member) :: pieces)
  only : ∀ {deeds : List Deed} {w : World} {pieces less : List Work}, I deeds w pieces →
    less.Subperm pieces → I deeds w less
  step : ∀ {deeds : List Deed} {w v : World} {work : Work} {rest : List Work} {progress : Progress}
    {ahead task : Nat}, I deeds w (work :: rest) → work.isStepped = true → work.IsTame →
      work.step ahead task w = (progress, v) →
        I (deeds ++ work.deeds task w) v (progress.pieces ++ rest)
  draw : ∀ {deeds : List Deed} {w v : World} {l : Lineup} {rest : List Work} {drawn : Draw}
    {feed : Feed} {task : Nat}, I deeds w (.ahead { l with members := [] } :: rest) →
      l.feed.draw task w = (drawn, feed, v) →
        I (deeds ++ l.feed.deeds drawn) v
          (.ahead { l with feed, members := [] } :: (drawn.pieces l ++ rest))

theorem Course.Invariant.course {I : List Deed → World → List Work → Prop} (hI : Course.Invariant I)
    {w v : World} {pieces more : List Work} {before deeds : List Deed} (hw : I before w pieces)
    (htame : ∀ piece ∈ pieces, piece.IsTame) (h : Course w pieces deeds v more) :
    I (before ++ deeds) v more := by
  induction h with
  | refl =>
    rw [List.append_nil]
    exact hw
  | hidden _ hseen ih => exact hI.hidden ih hseen
  | entered window member _ ih => exact hI.entered window member ih
  | through window member _ ih => exact hI.through window member ih
  | only _ hless ih => exact hI.only ih hless
  | step ahead task hcourse hstepped hstep ih =>
    rw [← List.append_assoc]
    exact hI.step ih hstepped (hcourse.isTame htame _ List.mem_cons_self) hstep
  | draw task _ hdraw ih =>
    rw [← List.append_assoc]
    exact hI.draw ih hdraw

/-! ## Histories -/

/-- A world with the renders that are being taken in it. -/
structure Renders where
  world : World
  streams : List RenderStream := []

namespace Renders

/-- The pieces of work in play. -/
def pieces (r : Renders) : List Work := r.streams.flatMap fun stream => Work.piecesOfAll stream.stack

/-- With these deeds the one comes about from the other. -/
inductive Leads (r : Renders) : List Deed → Renders → Prop
  | refl : Leads r [] r
  | run {deeds : List Deed} {w : World} {streams : List RenderStream} (a : Action) :
    Leads r deeds ⟨w, streams⟩ → Leads r deeds ⟨(a.run w).2, streams⟩
  /-- anything that changes the workshop, with its reports -/
  | workshop {deeds : List Deed} {w : World} {streams : List RenderStream} (bench : Bench)
    (workshop : Workshop Bench) (reports : List Report) : Leads r deeds ⟨w, streams⟩ →
      Leads r deeds ⟨{ w with bench, workshop }.noteAll reports, streams⟩
  | name {deeds : List Deed} {w : World} {streams : List RenderStream} (name : String)
    (value : Value) : Leads r deeds ⟨w, streams⟩ → Leads r deeds ⟨w.name name value, streams⟩
  | keep {deeds : List Deed} {w : World} {streams : List RenderStream} (value : Value) :
    Leads r deeds ⟨w, streams⟩ → Leads r deeds ⟨w.keep value, streams⟩
  | ofRoot {deeds : List Deed} {w : World} {streams : List RenderStream} (config : RenderConfig)
    (value : Value) : Leads r deeds ⟨w, streams⟩ →
      Leads r deeds ⟨(RenderStream.ofRoot config value w).2,
        (RenderStream.ofRoot config value w).1 :: streams⟩
  | ofItem {deeds : List Deed} {w : World} {streams : List RenderStream} (config : RenderConfig)
    (value : Value) : Leads r deeds ⟨w, streams⟩ →
      Leads r deeds ⟨(RenderStream.ofItem config value w).2,
        (RenderStream.ofItem config value w).1 :: streams⟩
  /-- one turn of a render that is being taken, whatever comes out, and nothing being ready included -/
  | poll {deeds more : List Deed} {w v : World} {before after : List RenderStream}
    {stream : RenderStream} {fuel : Nat} {turn : Turn} {stack : List Work} :
    Leads r deeds ⟨w, before ++ stream :: after⟩ →
      Render.turn stream.config.concurrency fuel [] stream.task stream.stack
        (w.beginTurn stream.task) = some (turn, stack, v) →
        Course (w.beginTurn stream.task) (Work.piecesOfAll stream.stack) more v
          (turn.pieces ++ Work.piecesOfAll stack) →
          Leads r (deeds ++ more) ⟨v, before ++ { stream with stack } :: after⟩
  /-- what else there is to a stream, whether an error came out and how long its chunks are -/
  | adjust {deeds : List Deed} {w : World} {before after : List RenderStream}
    {stream stream' : RenderStream} : Leads r deeds ⟨w, before ++ stream :: after⟩ →
      stream'.stack = stream.stack → Leads r deeds ⟨w, before ++ stream' :: after⟩
  | advance {deeds : List Deed} {w v : World} {streams : List RenderStream} :
    Leads r deeds ⟨w, streams⟩ → w.advance? = some v → Leads r deeds ⟨v, streams⟩
  | drop {deeds : List Deed} {w : World} {before after : List RenderStream} {stream : RenderStream} :
    Leads r deeds ⟨w, before ++ stream :: after⟩ →
      Leads r deeds ⟨stream.drop w, before ++ after⟩
  /-- somebody outside gets a task to await pending values with -/
  | attend {deeds : List Deed} {w : World} {streams : List RenderStream} :
    Leads r deeds ⟨w, streams⟩ → Leads r deeds ⟨(w.newTask { window := none }).2, streams⟩
  /-- a pending value is asked from outside -/
  | ask {deeds : List Deed} {w : World} {streams : List RenderStream} (task pending : Nat)
    (seat : Option Nat) : Leads r deeds ⟨w, streams⟩ →
      Leads r (deeds ++ (Work.await pending seat .item).deeds task (w.beginTurn task))
        ⟨((w.beginTurn task).await (.task task) pending seat).2, streams⟩

theorem pieces_split (w : World) (before : List RenderStream) (stream : RenderStream)
    (after : List RenderStream) : (Renders.mk w (before ++ stream :: after)).pieces =
      (Renders.mk w before).pieces ++ (Work.piecesOfAll stream.stack ++ (Renders.mk w after).pieces) := by
  simp only [pieces, List.flatMap_append, List.flatMap_cons]

theorem subperm_drop (w : World) (before : List RenderStream) (stream : RenderStream)
    (after : List RenderStream) :
    (Renders.mk w (before ++ after)).pieces.Subperm
      (Renders.mk w (before ++ stream :: after)).pieces := by
  have hpieces : (Renders.mk w (before ++ after)).pieces =
      (Renders.mk w before).pieces ++ (Renders.mk w after).pieces := by
    simp only [pieces, List.flatMap_append]
  rw [pieces_split, hpieces]
  exact ((List.sublist_append_right (Work.piecesOfAll stream.stack)
    (Renders.mk w after).pieces).append_left (Renders.mk w before).pieces).subperm

theorem Leads.trans {r s t : Renders} {deeds more : List Deed} (h : r.Leads deeds s)
    (h' : s.Leads more t) : r.Leads (deeds ++ more) t := by
  induction h' with
  | refl =>
    rw [List.append_nil]
    exact h
  | run a _ ih => exact ih.run a
  | workshop bench workshop reports _ ih => exact ih.workshop bench workshop reports
  | name name value _ ih => exact ih.name name value
  | keep value _ ih => exact ih.keep value
  | ofRoot config value _ ih => exact ih.ofRoot config value
  | ofItem config value _ ih => exact ih.ofItem config value
  | poll _ hturn hcourse ih =>
    rw [← List.append_assoc]
    exact ih.poll hturn hcourse
  | adjust _ hstack ih => exact ih.adjust hstack
  | advance _ hadvance ih => exact ih.advance hadvance
  | drop _ ih => exact ih.drop
  | attend _ ih => exact ih.attend
  | ask task pending seat _ ih =>
    rw [← List.append_assoc]
    exact ih.ask task pending seat

/-- What is in play stays tame. -/
theorem Leads.isTame {r s : Renders} {deeds : List Deed} (h : r.Leads deeds s)
    (htame : ∀ piece ∈ r.pieces, piece.IsTame) : ∀ piece ∈ s.pieces, piece.IsTame := by
  induction h with
  | refl => exact htame
  | run | workshop | name | keep | advance | attend | ask => assumption
  | ofRoot | ofItem => exact List.forall_mem_cons.mpr ⟨trivial, by assumption⟩
  | @poll _ _ w v front back stream _ turn stack _ _ hcourse ih =>
    rw [pieces_split] at ih ⊢
    have hturned := (hcourse.within (Renders.mk w front).pieces (Renders.mk w back).pieces).isTame ih
    intro piece hpiece
    refine hturned piece ((List.Sublist.subset ?_) hpiece)
    rw [List.append_assoc]
    exact (List.sublist_append_right turn.pieces _).append_left _
  | adjust _ hstack ih =>
    rw [pieces_split] at ih ⊢
    rwa [hstack]
  | @drop _ w front back stream _ ih =>
    exact fun piece hpiece => ih piece ((subperm_drop w front stream back).subset hpiece)

/-- The pieces of work that come into play from outside. -/
def IsOpening : Work → Prop
  | .root _ | .item _ | .await .. => True
  | _ => False

/-- What is kept in every history: the moves that a history is made up of keep it. -/
structure Invariant (I : List Deed → World → List Work → Prop) : Prop extends Course.Invariant I where
  run : ∀ {deeds : List Deed} {w : World} {pieces : List Work} (a : Action), I deeds w pieces →
    I deeds (a.run w).2 pieces
  reported : ∀ {deeds : List Deed} {w : World} {pieces : List Work} (report : Report),
    I deeds w pieces → I deeds (w.note (.reported report)) pieces
  /-- what concerns neither cells nor the log, while time passes -/
  aside : ∀ {deeds : List Deed} {w v : World} {pieces : List Work}, I deeds w pieces →
    v.log = w.log → v.components = w.components → v.pendings = w.pendings →
      v.sequences = w.sequences → w.clock ≤ v.clock → I deeds v pieces
  opened : ∀ {deeds : List Deed} {w : World} {pieces : List Work} {work : Work}, I deeds w pieces →
    IsOpening work → I deeds w (work :: pieces)

namespace Invariant

variable {I : List Deed → World → List Work → Prop} (hI : Invariant I) {w v : World}
  {pieces : List Work} {deeds : List Deed}

include hI

theorem noteAll (h : I deeds w pieces) (reports : List Report) :
    I deeds (w.noteAll reports) pieces := by
  rw [World.noteAll]
  induction reports generalizing w with
  | nil => exact h
  | cons report rest ih => exact ih (hI.reported report h)

theorem advance (h : I deeds w pieces) (hv : w.advance? = some v) : I deeds v pieces := by
  obtain ⟨deadline, -, hseen⟩ := World.seen_advance hv
  have hclock : I deeds (w.sleepUntil deadline) pieces := hI.aside h rfl rfl rfl rfl (Nat.le_max_left ..)
  exact hI.hidden hclock hseen

/-- A stream that is opened brings its first piece into play. -/
theorem start (config : RenderConfig) {work : Work} (hwork : IsOpening work)
    (h : I deeds w pieces) :
    I deeds (RenderStream.start config [work] w).2
      (Work.piecesOfAll (RenderStream.start config [work] w).1.stack ++ pieces) := by
  have hpieces : Work.piecesOfAll [work] = [work] := by
    cases work with
    | root | item | await => rfl
    | _ => cases hwork
  have hopened := hI.opened h hwork
  rw [show (RenderStream.start config [work] w).1.stack = [work] from rfl, hpieces]
  exact hI.hidden hopened rfl

/-- A pending value is asked by somebody who has nothing else to do. -/
theorem asked (h : I deeds w pieces) (task pending : Nat) (seat : Option Nat) :
    I (deeds ++ (Work.await pending seat .item).deeds task (w.beginTurn task))
      ((w.beginTurn task).await (.task task) pending seat).2 pieces := by
  have hbegun : I deeds (w.beginTurn task) (.await pending seat .item :: pieces) :=
    hI.opened (hI.hidden h (World.seen_beginTurn w task)) trivial
  have hdone : ∀ {progress : Progress}, (Work.await pending seat .item).step 0 task
      (w.beginTurn task) = (progress, ((w.beginTurn task).await (.task task) pending seat).2) →
        I (deeds ++ (Work.await pending seat .item).deeds task (w.beginTurn task))
          ((w.beginTurn task).await (.task task) pending seat).2 pieces := by
    intro progress hstep
    exact hI.only (hI.step hbegun rfl trivial hstep) (List.sublist_append_right _ pieces).subperm
  cases hasked : (w.beginTurn task).await (.task task) pending seat with
  | mk answer v =>
    rw [hasked] at hdone
    cases answer with
    | ready outcome =>
      have hstep : (Work.await pending seat .item).step 0 task (w.beginTurn task) =
          (.next (Render.resume .item outcome), v) := by simp only [Work.step, hasked]
      exact hdone hstep
    | notYet seat' =>
      have hstep : (Work.await pending seat .item).step 0 task (w.beginTurn task) =
          (.wait (.await pending (some seat') .item), v) := by simp only [Work.step, hasked]
      exact hdone hstep

/-- What is kept holds in every history. -/
theorem leads {r s : Renders} (h : r.Leads deeds s) (htame : ∀ piece ∈ r.pieces, piece.IsTame)
    {before : List Deed} (hr : I before r.world r.pieces) :
    I (before ++ deeds) s.world s.pieces := by
  induction h with
  | refl =>
    rw [List.append_nil]
    exact hr
  | run a _ ih => exact hI.run a ih
  | @workshop _ w _ bench workshop reports _ ih =>
    exact hI.noteAll (w := { w with bench, workshop })
      (hI.aside ih rfl rfl rfl rfl (Nat.le_refl _)) reports
  | name name value _ ih => exact hI.aside ih rfl rfl rfl rfl (Nat.le_refl _)
  | keep value _ ih => exact hI.aside ih rfl rfl rfl rfl (Nat.le_refl _)
  | ofRoot config value _ ih => exact hI.start config trivial ih
  | ofItem config value _ ih => exact hI.start config trivial ih
  | @poll _ _ w v front back stream _ turn stack hleads _ hcourse ih =>
    have hall := hleads.isTame htame
    rw [pieces_split] at ih hall ⊢
    rw [← List.append_assoc]
    have hturned := hI.course (hI.hidden ih (World.seen_beginTurn w stream.task)) hall
      (hcourse.within (Renders.mk w front).pieces (Renders.mk w back).pieces)
    refine hI.only hturned (List.Sublist.subperm ?_)
    rw [List.append_assoc]
    exact (List.sublist_append_right turn.pieces _).append_left _
  | adjust _ hstack ih =>
    rw [pieces_split] at ih ⊢
    rwa [hstack]
  | advance _ hadvance ih => exact hI.advance ih hadvance
  | @drop _ w front back stream _ ih =>
    exact hI.hidden (hI.only ih (subperm_drop w front stream back))
      (World.seen_abandon w [] stream.stack)
  | attend _ ih => exact hI.hidden ih rfl
  | ask task pending seat _ ih =>
    rw [← List.append_assoc]
    exact hI.asked ih task pending seat

end Invariant

/-! ## Invariants of the world -/

/-- Nothing was started or finished. -/
def IsAside : Event → Prop
  | .started _ _ | .finished _ _ => False
  | _ => True

/-- What is kept in every history and says nothing of the pieces in play. Sequences do not matter, and
awaiting is what matters most. -/
structure WorldInvariant (I : List Deed → World → Prop) : Prop where
  hidden : ∀ {deeds : List Deed} {w v : World}, I deeds w → v.seen = w.seen → I deeds v
  noted : ∀ {deeds : List Deed} {w : World} {event : Event}, I deeds w → IsAside event →
    I deeds (w.note event)
  run : ∀ {deeds : List Deed} {w : World} (a : Action), I deeds w → I deeds (a.run w).2
  /-- what concerns neither pending values, components nor the log, while time passes -/
  aside : ∀ {deeds : List Deed} {w v : World}, I deeds w → v.log = w.log →
    v.components = w.components → v.pendings = w.pendings → w.clock ≤ v.clock → I deeds v
  await : ∀ {deeds : List Deed} {w : World} (task pending : Nat) (seat : Option Nat), I deeds w →
    I (deeds ++ (Work.await pending seat .item).deeds task w) (w.await (.task task) pending seat).2
  reached : ∀ {deeds : List Deed} {w : World} (sequence : Nat) (members : List (Nat × Value)),
    I deeds w → I (deeds ++ [.reached sequence members]) w
  drew : ∀ {deeds : List Deed} {w : World} (sequence index : Nat) (value : Value), I deeds w →
    I (deeds ++ [.drew sequence index value]) w

namespace WorldInvariant

variable {I : List Deed → World → Prop} (hI : WorldInvariant I) {w v : World} {deeds : List Deed}

include hI

theorem survives (deeds : List Deed) : World.Survives (I deeds) where
  hidden h hseen _ := hI.hidden h hseen
  call component props children h := by
    rw [World.callComponent]
    split
    · exact hI.run _ (hI.noted h trivial)
    · exact h
  dropped _ _ h := hI.noted h trivial

theorem draw (h : I deeds w) {f feed : Feed} {task : Nat} {drawn : Draw}
    (hdraw : f.draw task w = (drawn, feed, v)) : I (deeds ++ f.deeds drawn) v := by
  rcases Feed.draw_cases hdraw with ⟨rfl, -, -, rfl⟩ | ⟨delay, value, rest, -, rfl, -, rfl⟩ |
    ⟨rfl, -, -, -, hseen⟩
  · rw [Feed.deeds, List.append_nil]
    exact h
  · rw [Feed.deeds, Feed.noteDrawn]
    cases f.origin with
    | none =>
      rw [List.append_nil]
      exact h
    | some origin =>
      have hnoted : I deeds (w.note (.drawn origin.1 origin.2 f.index)) := hI.noted h trivial
      exact hI.drew _ _ _ hnoted
  · rw [Feed.deeds, List.append_nil]
    exact hI.hidden h hseen

theorem take (h : I deeds w) (sequence task : Nat) :
    I (deeds ++ (Work.item (.sequence sequence)).deeds task w) (Render.take sequence w).2 := by
  have htaken : I deeds (Render.take sequence w).2 := by
    rcases Render.take_cases sequence w with ⟨htake, -⟩ | ⟨cell, -, -, htake⟩
    · rw [htake]
      exact h
    · rw [htake]
      exact hI.aside h rfl rfl rfl (Nat.le_refl _)
  rw [Work.deeds]
  split
  · exact hI.reached _ _ htaken
  · rw [List.append_nil]
    exact htaken

theorem step (h : I deeds w) {work : Work} {progress : Progress} {ahead task : Nat}
    (hstepped : work.isStepped = true) (htame : work.IsTame)
    (hstep : work.step ahead task w = (progress, v)) : I (deeds ++ work.deeds task w) v := by
  obtain rfl : (work.step ahead task w).2 = v := by rw [hstep]
  by_cases hprompt : work.isPrompt = true
  · have hnone : work.deeds task w = [] := by
      cases work with
      | item value =>
        cases value with
        | sequence => cases hprompt
        | _ => rfl
      | root | settled | prop | children => rfl
      | _ => cases hprompt
    rw [hnone, List.append_nil]
    exact (hI.survives deeds).step h hprompt ahead task
  · cases work with
    | note event =>
      refine (List.append_nil deeds).symm ▸ hI.noted h ?_
      cases event with
      | entered | began | left => trivial
      | _ => cases htame
    | await cell seat resumption =>
      have hsame : ((Work.await cell seat resumption).step ahead task w).2 =
          (w.await (.task task) cell seat).2 := by
        rw [Work.step]
        split <;> simp_all only
      rw [hsame]
      exact hI.await task cell seat h
    | draw feed =>
      cases hdraw : feed.draw task w with
      | mk drawn next =>
        obtain ⟨feed', u⟩ := next
        have hdeeds : (Work.draw feed).deeds task w = feed.deeds drawn := by
          rw [show (Work.draw feed).deeds task w = feed.deeds (feed.draw task w).1 from rfl, hdraw]
        have hsame : ((Work.draw feed).step ahead task w).2 = u := by
          rw [Work.step, hdraw]
          cases drawn <;> rfl
        rw [hdeeds, hsame]
        exact hI.draw h hdraw
    | item value =>
      cases value with
      | sequence cell =>
        rw [Work.step_sequence]
        exact (hI.survives _).feed (hI.take h cell task) ..
      | _ => exact absurd rfl hprompt
    | emit | fail | ahead => cases hstepped
    | _ => exact absurd rfl hprompt

theorem invariant : Invariant fun deeds w _ => I deeds w where
  hidden h hseen := hI.hidden h hseen
  entered _ _ h := hI.noted h trivial
  through _ _ h := h
  only h _ := h
  step h hstepped htame hstep := hI.step h hstepped htame hstep
  draw h hdraw := hI.draw h hdraw
  run a h := hI.run a h
  reported _ h := hI.noted h trivial
  aside h hlog hcomponents hpendings _ hclock := hI.aside h hlog hcomponents hpendings hclock
  opened h _ := h

end WorldInvariant

/-! ## Every stream makes history -/

/-- The tasks of members in work are there. -/
def Tasked (r : Renders) : Prop :=
  ∀ stream ∈ r.streams, Work.TaskedAll r.world.tasks.size stream.stack

theorem Tasked.mono {w v : World} {streams : List RenderStream} (h : Tasked ⟨w, streams⟩)
    (hsize : w.tasks.size ≤ v.tasks.size) : Tasked ⟨v, streams⟩ :=
  fun stream hstream => (h stream hstream).mono hsize

theorem tasked_nil (w : World) : Tasked ⟨w, []⟩ := nofun

theorem Tasked.cons {w : World} {streams : List RenderStream} {stream : RenderStream}
    (h : Tasked ⟨w, streams⟩) (hstack : Work.TaskedAll w.tasks.size stream.stack) :
    Tasked ⟨w, stream :: streams⟩ := List.forall_mem_cons.mpr ⟨hstack, h⟩

variable {r : Renders} {deeds : List Deed} {w v : World} {before after : List RenderStream}
  {stream : RenderStream}

theorem Tasked.adjust (h : Tasked ⟨w, before ++ stream :: after⟩) {stream' : RenderStream}
    (hstack : stream'.stack = stream.stack) : Tasked ⟨w, before ++ stream' :: after⟩ := by
  obtain ⟨hbefore, hrest⟩ := List.forall_mem_append.mp h
  obtain ⟨hstream, hafter⟩ := List.forall_mem_cons.mp hrest
  refine List.forall_mem_append.mpr ⟨hbefore, List.forall_mem_cons.mpr ⟨?_, hafter⟩⟩
  rw [hstack]
  exact hstream

/-- A turn of a stream that is being taken. -/
theorem Tasked.turn (h : Tasked ⟨w, before ++ stream :: after⟩) {fuel : Nat} {turn : Turn}
    {stack : List Work} (hturn : Render.turn stream.config.concurrency fuel [] stream.task
      stream.stack (w.beginTurn stream.task) = some (turn, stack, v)) :
    Tasked ⟨v, before ++ { stream with stack } :: after⟩ ∧
      ∃ more, Course (w.beginTurn stream.task) (Work.piecesOfAll stream.stack) more v
        (turn.pieces ++ Work.piecesOfAll stack) := by
  have hstack : Work.TaskedAll (w.beginTurn stream.task).tasks.size stream.stack := by
    rw [World.size_tasks_beginTurn]
    exact h stream (List.mem_append_right _ List.mem_cons_self)
  obtain ⟨hsize, hleft, deeds, hway⟩ :=
    (Render.TakesCourse.all stream.config.concurrency fuel).whole hstack hturn
  rw [World.size_tasks_beginTurn] at hsize
  refine ⟨fun other hother => ?_, deeds, hway.course⟩
  rcases List.mem_append.mp hother with hbefore | hafter
  · exact (h other (List.mem_append_left _ hbefore)).mono hsize
  · rcases List.mem_cons.mp hafter with rfl | hafter
    · exact hleft
    · exact (h other (List.mem_append_right _ (List.mem_cons_of_mem _ hafter))).mono hsize

/-- Whatever is taken from a stream, by letting it have turns while time passes, makes history. -/
theorem Leads.await {fuel : Nat} {out : Delivery} {t : RenderStream}
    (h : r.Leads deeds ⟨w, before ++ stream :: after⟩) (htasked : Tasked ⟨w, before ++ stream :: after⟩)
    (hawait : stream.await fuel w = some (out, t, v)) :
    Tasked ⟨v, before ++ t :: after⟩ ∧ ∃ more, r.Leads (deeds ++ more) ⟨v, before ++ t :: after⟩ := by
  induction fuel generalizing stream w deeds with
  | zero => cases hawait
  | succ fuel ih =>
    rw [RenderStream.await] at hawait
    have hpolled : ∀ {turn : Turn} {stack : List Work} {u : World},
        Render.turn stream.config.concurrency fuel [] stream.task stream.stack
          (w.beginTurn stream.task) = some (turn, stack, u) →
            Tasked ⟨u, before ++ { stream with stack } :: after⟩ ∧
              ∃ more, r.Leads (deeds ++ more) ⟨u, before ++ { stream with stack } :: after⟩ := by
      intro turn stack u hturn
      obtain ⟨hleft, more, hcourse⟩ := htasked.turn hturn
      exact ⟨hleft, more, h.poll hturn hcourse⟩
    split at hawait
    · cases hawait
    · rename_i hturn
      cases hawait
      exact hpolled hturn
    · rename_i hturn
      cases hawait
      exact hpolled hturn
    · rename_i hturn
      cases hawait
      exact hpolled hturn
    · rename_i hturn
      obtain ⟨hleft, more, hblocked⟩ := hpolled hturn
      split at hawait
      · obtain ⟨hdone, later, hrest⟩ := ih hblocked hleft hawait
        exact ⟨hdone, _, List.append_assoc deeds more later ▸ hrest⟩
      · split at hawait
        · cases hawait
        · rename_i u hadvance
          have hsize := World.size_tasks_advance? hadvance
          obtain ⟨hdone, later, hrest⟩ :=
            ih (hblocked.advance hadvance) (hleft.mono (Nat.le_of_eq hsize.symm)) hawait
          exact ⟨hdone, _, List.append_assoc deeds more later ▸ hrest⟩

/-- The same past the inner guard. -/
theorem Leads.pull {fuel : Nat} {out : Delivery} {t : RenderStream}
    (h : r.Leads deeds ⟨w, before ++ stream :: after⟩) (htasked : Tasked ⟨w, before ++ stream :: after⟩)
    (hpull : stream.pull fuel w = some (out, t, v)) :
    Tasked ⟨v, before ++ t :: after⟩ ∧ ∃ more, r.Leads (deeds ++ more) ⟨v, before ++ t :: after⟩ := by
  rw [RenderStream.pull] at hpull
  split at hpull
  · cases hpull
    exact ⟨htasked, [], (List.append_nil deeds).symm ▸ h⟩
  · split at hpull
    · cases hpull
    · rename_i hawait
      cases hpull
      exact h.await htasked hawait
    · rename_i hawait
      obtain ⟨hleft, more, hmore⟩ := h.await htasked hawait
      split at hpull
      · cases hpull
        exact ⟨hleft.adjust rfl, more, hmore.adjust rfl⟩
      · split at hpull
        · cases hpull
          exact ⟨hleft.adjust rfl, more, hmore.adjust rfl⟩
        · cases hpull
          exact ⟨hleft, more, hmore⟩

/-- The same past both guards. -/
theorem Leads.next {fuel : Nat} {out : Delivery} {t : RenderStream}
    (h : r.Leads deeds ⟨w, before ++ stream :: after⟩) (htasked : Tasked ⟨w, before ++ stream :: after⟩)
    (hnext : stream.next fuel w = some (out, t, v)) :
    Tasked ⟨v, before ++ t :: after⟩ ∧ ∃ more, r.Leads (deeds ++ more) ⟨v, before ++ t :: after⟩ := by
  rw [RenderStream.next] at hnext
  split at hnext
  · cases hnext
    exact ⟨htasked, [], (List.append_nil deeds).symm ▸ h⟩
  · split at hnext
    · rename_i hpull
      cases hnext
      exact h.pull htasked hpull
    · rename_i hpull
      cases hnext
      obtain ⟨hleft, more, hmore⟩ := h.pull htasked hpull
      exact ⟨hleft.adjust rfl, more, hmore.adjust rfl⟩
    · cases hnext

end Renders

end TaggedMarkup
