import Mathlib.Data.List.Perm.Subperm
import TaggedMarkup.Proofs.Render.Lineups
import TaggedMarkup.Proofs.Render.Turning
import TaggedMarkup.Render.Stream

/-!
# The course of a turn

However many members are rendered ahead, a turn is made up of **steps**: one piece of work after the
other is done, wherever it stands, in a stack or in a member of a window, and gives way to what it comes
to. In between members are drawn into windows, whoever has to be told is told, and what is not needed
any more is let go of.

So a turn takes a **course** (`Course`) from the pieces of work that are in play before it to those that
are in play after it. What it did on the way is written down as **deeds**: sequences that were reached,
members that were drawn from them, and pending values that were asked. A property of the world and the
pieces in play holds after every turn if every step preserves it.
-/

namespace TaggedMarkup

/-! ## Pieces in play -/

mutual

/-- The pieces of work in play in a piece of work: those of the members of a window besides the window
itself. A fragment is through, and is not in play. -/
def Work.pieces : Work → List Work
  | .emit _ => []
  | .ahead lineup => .ahead { lineup with members := [] } :: Member.piecesOfAll lineup.members
  | .fail error => [.fail error]
  | .note event => [.note event]
  | .root value => [.root value]
  | .settled value => [.settled value]
  | .item value => [.item value]
  | .await pending seat resumption => [.await pending seat resumption]
  | .prop name value => [.prop name value]
  | .children element => [.children element]
  | .draw feed => [.draw feed]

/-- The pieces of work in play in a stack. -/
def Work.piecesOfAll : List Work → List Work
  | [] => []
  | work :: rest => work.pieces ++ Work.piecesOfAll rest

/-- The pieces of work in play in a member. -/
def Member.pieces : Member → List Work
  | .running _ _ stack => Work.piecesOfAll stack
  | .finished _ => []
  | .failed error => [.fail error]

/-- The pieces of work in play in the members of a window. -/
def Member.piecesOfAll : List Member → List Work
  | [] => []
  | member :: rest => member.pieces ++ Member.piecesOfAll rest

end

theorem Work.piecesOfAll_append (stack more : List Work) :
    Work.piecesOfAll (stack ++ more) = Work.piecesOfAll stack ++ Work.piecesOfAll more := by
  induction stack with
  | nil => rfl
  | cons work rest ih => rw [List.cons_append, piecesOfAll, ih, piecesOfAll, List.append_assoc]

theorem Work.mem_piecesOfAll {stack : List Work} {piece : Work} :
    piece ∈ Work.piecesOfAll stack ↔ ∃ work ∈ stack, piece ∈ work.pieces := by
  induction stack with
  | nil => simp [piecesOfAll]
  | cons work rest ih => simp [piecesOfAll, ih]

theorem Member.piecesOfAll_append (members more : List Member) :
    Member.piecesOfAll (members ++ more) = Member.piecesOfAll members ++ Member.piecesOfAll more := by
  induction members with
  | nil => rfl
  | cons member rest ih => rw [List.cons_append, piecesOfAll, ih, piecesOfAll, List.append_assoc]

theorem Work.piecesOfAll_emit (fragments : List String) :
    Work.piecesOfAll (fragments.map .emit) = [] := by
  induction fragments with
  | nil => rfl
  | cons text rest ih => exact ih

/-- What is done in steps stands for itself. -/
theorem Work.pieces_stepped {work : Work} (h : work.isStepped = true) : work.pieces = [work] := by
  cases work with
  | emit | fail | ahead => cases h
  | _ => rfl

/-- What waits is done in steps like what it was. -/
theorem Work.isStepped_wait {ahead task : Nat} {work waiting : Work} {w v : World}
    (hstepped : work.isStepped = true) (h : work.step ahead task w = (.wait waiting, v)) :
    waiting.isStepped = true := by
  cases work with
  | emit | fail | ahead => cases hstepped
  | root value => cases value <;> cases h
  | await pending seat resumption =>
    rw [Work.step] at h
    split at h
    · cases h
    · cases h
      rfl
  | draw feed =>
    rw [Work.step] at h
    split at h
    · cases h
    · cases h
      rfl
    · cases h
  | note | settled | item | prop | children => cases h

/-- The pieces of work in play in a list in work. -/
def LineupOf.pieces (l : Lineup) : List Work :=
  .ahead { l with members := [] } :: Member.piecesOfAll l.members

/-- Of what a member leaves on its list when it is through, the note is a piece. -/
theorem Work.piecesOfAll_through (fragments : List String) (window member : Nat) (l : Lineup) (rest : List Work) :
    Work.piecesOfAll (fragments.map .emit ++ [.note (.left window member)] ++ .ahead l :: rest) =
      .note (.left window member) :: (l.pieces ++ Work.piecesOfAll rest) := by
  rw [Work.piecesOfAll_append, Work.piecesOfAll_append, Work.piecesOfAll_emit]
  rfl

/-- The pieces of work that have come into play in the place of one. -/
def Progress.pieces : Progress → List Work
  | .next works => Work.piecesOfAll works
  | .wait work => [work]

/-- The pieces of work that come into play in a window when a member is drawn. -/
def Draw.pieces (l : Lineup) : Draw → List Work
  | .member value => [.note (.began l.window l.feed.index), .item value]
  | .notYet | .exhausted => []

/-! ## Deeds -/

/-- What is done on the way. -/
inductive Deed where
  /-- a sequence was reached, and there were these members to draw -/
  | reached (sequence : Nat) (members : List (Nat × Value))
  /-- the member of a sequence with this number was drawn -/
  | drew (sequence index : Nat) (value : Value)
  /-- a pending value was asked for its outcome -/
  | asked (pending : Nat) (answer : Answer)

/-- Drawing a member of a sequence is a deed. -/
def Feed.deeds (f : Feed) : Draw → List Deed
  | .member value => match f.origin with
    | some (sequence, _) => [.drew sequence f.index value]
    | none => []
  | .notYet | .exhausted => []

/-- The deed of a piece of work, on behalf of a task, if it is one. -/
def Work.deeds (task : Nat) (w : World) : Work → List Deed
  | .item (.sequence sequence) =>
    if sequence < w.sequences.size then [.reached sequence (Render.take sequence w).1.members] else []
  | .await pending seat _ =>
    if pending < w.pendings.size then [.asked pending (w.await (.task task) pending seat).1] else []
  | .draw feed => feed.deeds (feed.draw task w).1
  | _ => []

/-! ## Courses -/

/-- From a world with pieces of work in play, deeds lead to another one. -/
inductive Course (w : World) (pieces : List Work) : List Deed → World → List Work → Prop
  | refl : Course w pieces [] w pieces
  /-- the books are changed: tasks, windows, waiters, timers -/
  | hidden {deeds : List Deed} {v u : World} {more : List Work} :
    Course w pieces deeds v more → u.seen = v.seen → Course w pieces deeds u more
  /-- a member comes into a window -/
  | entered {deeds : List Deed} {v : World} {more : List Work} (window member : Nat) :
    Course w pieces deeds v more → Course w pieces deeds (v.note (.entered window member)) more
  /-- a member is through, which is going to be written down -/
  | through {deeds : List Deed} {v : World} {more : List Work} (window member : Nat) :
    Course w pieces deeds v more →
      Course w pieces deeds v (.note (.left window member) :: more)
  /-- pieces change places, or are not going to be worked off -/
  | only {deeds : List Deed} {v : World} {more less : List Work} :
    Course w pieces deeds v more → less.Subperm more → Course w pieces deeds v less
  | step {deeds : List Deed} {v u : World} {work : Work} {more : List Work} {progress : Progress}
    (ahead task : Nat) :
    Course w pieces deeds v (work :: more) → work.isStepped = true →
      work.step ahead task v = (progress, u) →
        Course w pieces (deeds ++ work.deeds task v) u (progress.pieces ++ more)
  /-- a member is drawn into a window, if there is one -/
  | draw {deeds : List Deed} {v u : World} {l : Lineup} {more : List Work} {drawn : Draw} {feed : Feed}
    (task : Nat) :
    Course w pieces deeds v (.ahead { l with members := [] } :: more) →
      l.feed.draw task v = (drawn, feed, u) →
        Course w pieces (deeds ++ l.feed.deeds drawn) u
          (.ahead { l with feed, members := [] } :: (drawn.pieces l ++ more))

namespace Course

variable {w v u : World} {pieces more rest : List Work} {deeds later : List Deed}

theorem trans (h : Course w pieces deeds v more) (h' : Course v more later u rest) :
    Course w pieces (deeds ++ later) u rest := by
  induction h' with
  | refl =>
    rw [List.append_nil]
    exact h
  | hidden _ hseen ih => exact ih.hidden hseen
  | entered window member _ ih => exact ih.entered window member
  | through window member _ ih => exact ih.through window member
  | only _ hless ih => exact ih.only hless
  | step ahead task _ hstepped hstep ih =>
    rw [← List.append_assoc]
    exact ih.step ahead task hstepped hstep
  | draw task _ hdraw ih =>
    rw [← List.append_assoc]
    exact ih.draw task hdraw

/-- What else is in play stays as it is. -/
theorem frame (h : Course w pieces deeds v more) (others : List Work) :
    Course w (pieces ++ others) deeds v (more ++ others) := by
  induction h with
  | refl => exact .refl
  | hidden _ hseen ih => exact ih.hidden hseen
  | entered window member _ ih => exact ih.entered window member
  | through window member _ ih => exact ih.through window member
  | only _ hless ih => exact ih.only (List.subperm_append_right others |>.mpr hless)
  | step ahead task _ hstepped hstep ih =>
    rw [List.append_assoc]
    exact ih.step ahead task hstepped hstep
  | @draw _ _ _ l _ drawn _ task _ hdraw ih =>
    rw [List.cons_append, List.append_assoc]
    exact ih.draw task hdraw

/-- A course takes no more pieces than there are, in any order. -/
theorem of_subperm (h : Course w pieces deeds v more) {all : List Work} (hall : pieces.Subperm all) :
    Course w all deeds v more := (Course.refl.only hall).trans h

/-- A turn of a task that stands among others. -/
theorem within (h : Course w pieces deeds v more) (before after : List Work) :
    Course w (before ++ (pieces ++ after)) deeds v (before ++ (more ++ after)) := by
  have hswap : ∀ middle : List Work,
      (middle ++ (before ++ after)).Perm (before ++ (middle ++ after)) := fun middle =>
    List.perm_append_comm_assoc middle before after
  exact ((h.frame (before ++ after)).of_subperm (hswap pieces).subperm).only (hswap more).symm.subperm

end Course

/-! ## Ways -/

/-- A course on which no piece of work is given up, except where something failed. What is not in play any more
has been done, and a list in work is left when it is over. -/
inductive Way (w : World) (pieces : List Work) : List Deed → World → List Work → Prop
  | refl : Way w pieces [] w pieces
  | hidden {deeds : List Deed} {v u : World} {more : List Work} :
    Way w pieces deeds v more → u.seen = v.seen → Way w pieces deeds u more
  | entered {deeds : List Deed} {v : World} {more : List Work} (window member : Nat) :
    Way w pieces deeds v more → Way w pieces deeds (v.note (.entered window member)) more
  | through {deeds : List Deed} {v : World} {more : List Work} (window member : Nat) :
    Way w pieces deeds v more → Way w pieces deeds v (.note (.left window member) :: more)
  /-- pieces change places -/
  | swapped {deeds : List Deed} {v : World} {more rest : List Work} :
    Way w pieces deeds v more → rest.Perm more → Way w pieces deeds v rest
  /-- there is nothing left to draw -/
  | exhausted {deeds : List Deed} {v : World} {l : Lineup} {more : List Work} :
    Way w pieces deeds v (.ahead { l with members := [] } :: more) → l.feed.members = [] →
      Way w pieces deeds v more
  /-- after an error, pieces are not going to be worked off -/
  | failed {deeds : List Deed} {v : World} {error : Error} {more less : List Work} :
    Way w pieces deeds v (.fail error :: more) → less.Subperm more →
      Way w pieces deeds v (.fail error :: less)
  | step {deeds : List Deed} {v u : World} {work : Work} {more : List Work} {progress : Progress}
    (ahead task : Nat) :
    Way w pieces deeds v (work :: more) → work.isStepped = true →
      work.step ahead task v = (progress, u) →
        Way w pieces (deeds ++ work.deeds task v) u (progress.pieces ++ more)
  | draw {deeds : List Deed} {v u : World} {l : Lineup} {more : List Work} {drawn : Draw} {feed : Feed}
    (task : Nat) :
    Way w pieces deeds v (.ahead { l with members := [] } :: more) →
      l.feed.draw task v = (drawn, feed, u) →
        Way w pieces (deeds ++ l.feed.deeds drawn) u
          (.ahead { l with feed, members := [] } :: (drawn.pieces l ++ more))

namespace Way

variable {w v u : World} {pieces more rest : List Work} {deeds later : List Deed}

theorem course (h : Way w pieces deeds v more) : Course w pieces deeds v more := by
  induction h with
  | refl => exact .refl
  | hidden _ hseen ih => exact ih.hidden hseen
  | entered window member _ ih => exact ih.entered window member
  | through window member _ ih => exact ih.through window member
  | swapped _ hswap ih => exact ih.only hswap.subperm
  | exhausted _ _ ih => exact ih.only (List.sublist_cons_self ..).subperm
  | failed _ hless ih => exact ih.only (List.subperm_cons _ |>.mpr hless)
  | step ahead task _ hstepped hstep ih => exact ih.step ahead task hstepped hstep
  | draw task _ hdraw ih => exact ih.draw task hdraw

theorem trans (h : Way w pieces deeds v more) (h' : Way v more later u rest) :
    Way w pieces (deeds ++ later) u rest := by
  induction h' with
  | refl =>
    rw [List.append_nil]
    exact h
  | hidden _ hseen ih => exact ih.hidden hseen
  | entered window member _ ih => exact ih.entered window member
  | through window member _ ih => exact ih.through window member
  | swapped _ hswap ih => exact ih.swapped hswap
  | exhausted _ hnone ih => exact ih.exhausted hnone
  | failed _ hless ih => exact ih.failed hless
  | step ahead task _ hstepped hstep ih =>
    rw [← List.append_assoc]
    exact ih.step ahead task hstepped hstep
  | draw task _ hdraw ih =>
    rw [← List.append_assoc]
    exact ih.draw task hdraw

/-- What else is in play stays as it is. -/
theorem frame (h : Way w pieces deeds v more) (others : List Work) :
    Way w (pieces ++ others) deeds v (more ++ others) := by
  induction h with
  | refl => exact .refl
  | hidden _ hseen ih => exact ih.hidden hseen
  | entered window member _ ih => exact ih.entered window member
  | through window member _ ih => exact ih.through window member
  | swapped _ hswap ih => exact ih.swapped (hswap.append_right others)
  | exhausted _ hnone ih => exact ih.exhausted hnone
  | failed _ hless ih => exact ih.failed (List.subperm_append_right others |>.mpr hless)
  | step ahead task _ hstepped hstep ih =>
    rw [List.append_assoc]
    exact ih.step ahead task hstepped hstep
  | @draw _ _ _ l _ drawn _ task _ hdraw ih =>
    rw [List.cons_append, List.append_assoc]
    exact ih.draw task hdraw

/-- A turn of a task that stands among others. -/
theorem within (h : Way w pieces deeds v more) (before after : List Work) :
    Way w (before ++ (pieces ++ after)) deeds v (before ++ (more ++ after)) := by
  have hswap : ∀ middle : List Work,
      (middle ++ (before ++ after)).Perm (before ++ (middle ++ after)) := fun middle =>
    List.perm_append_comm_assoc middle before after
  have hstart : Way w (before ++ (pieces ++ after)) [] w (pieces ++ (before ++ after)) :=
    Way.refl.swapped (hswap pieces)
  exact (hstart.trans (h.frame (before ++ after))).swapped (hswap more).symm

end Way

/-! ## Lists in work -/

namespace LineupOf

theorem pieces_eq {l : Lineup} {task : Nat} {before after : List Member} {fragments : List String}
    {stack : List Work} (hmembers : l.members = before ++ .running task fragments stack :: after) :
    l.pieces = (.ahead { l with members := [] } :: Member.piecesOfAll before) ++
      (Work.piecesOfAll stack ++ Member.piecesOfAll after) := by
  rw [pieces, hmembers, Member.piecesOfAll_append]
  rfl

/-- A member that goes its way takes the whole list along. -/
theorem way_replace {bound task : Nat} {l : Lineup} (hl : l.Tasked bound)
    {before after : List Member} {fragments : List String} {stack : List Work}
    (hmembers : l.members = before ++ .running task fragments stack :: after) {member : Member}
    {w v : World} {deeds : List Deed} (h : Way w (Work.piecesOfAll stack) deeds v member.pieces) :
    Way w l.pieces deeds v (l.replace task member).pieces := by
  have hplaced : (l.replace task member).pieces =
      (.ahead { l with members := [] } :: Member.piecesOfAll before) ++
        (member.pieces ++ Member.piecesOfAll after) := by
    rw [pieces, members_replace hl.nodup hmembers, Member.piecesOfAll_append]
    rfl
  rw [pieces_eq hmembers, hplaced]
  exact h.within _ _

/-- Members are drawn into a window one after the other. -/
theorem way_draw (owner room : Nat) (l : Lineup) (w : World) :
    ∃ deeds, Way w l.pieces deeds (l.draw owner room w).2 (l.draw owner room w).1.pieces := by
  induction room generalizing l w with
  | zero => exact ⟨[], .refl⟩
  | succ room ih =>
    rw [LineupOf.draw]
    split
    · rename_i value feed v hdraw
      let member : Member :=
        .running v.tasks.size [] [.note (.began l.window l.feed.index), .item value]
      let drawn : Lineup := { l with feed, members := l.members ++ [member] }
      have hswap : drawn.pieces.Perm (.ahead { l with feed, members := [] } ::
          ((Draw.member value).pieces l ++ Member.piecesOfAll l.members)) := by
        refine List.Perm.cons _ ?_
        rw [Member.piecesOfAll_append]
        exact List.perm_append_comm
      have hstart : Way w l.pieces [] w l.pieces := .refl
      have hcourse := (hstart.draw owner hdraw).swapped hswap
      have henlisted : Way w l.pieces _ (v.enlist l.window l.feed.index).2 drawn.pieces :=
        (hcourse.entered l.window l.feed.index).hidden rfl
      obtain ⟨deeds, hrest⟩ := ih drawn (v.enlist l.window l.feed.index).2
      exact ⟨_, henlisted.trans hrest⟩
    · rename_i draw feed v hmember hdraw
      have hnone : draw.pieces l = [] := by
        cases draw with
        | member value => exact absurd rfl (hmember value)
        | notYet | exhausted => rfl
      have hstart : Way w l.pieces [] w l.pieces := .refl
      have hcourse := hstart.draw owner hdraw
      rw [hnone] at hcourse
      exact ⟨_, hcourse⟩

end LineupOf

/-! ## Turns -/

/-- The error that a turn ends with is still in play. -/
def Turn.pieces : Turn → List Work
  | .failed error => [.fail error]
  | .fragment _ | .ended | .blocked => []

/-- The same for a turn of a window. -/
def WindowTurn.pieces : WindowTurn → List Work
  | .failed error => [.fail error]
  | .through .. | .ended | .blocked => []

/-- What comes out at the front is taken off the list. -/
theorem LineupOf.pieces_front? {l l' : Lineup} {out : WindowTurn} (h : l.front? = some (out, l')) :
    (out.pieces ++ l'.pieces).Perm l.pieces := by
  unfold front? at h
  split at h
  · rename_i hmembers
    cases h
    rw [pieces, pieces, hmembers]
    exact List.Perm.refl _
  · rename_i error rest hmembers
    cases h
    rw [pieces, pieces, hmembers]
    exact List.Perm.swap _ _ _
  · cases h

/-- A list that is over is left. -/
theorem Way.leave {w v : World} {l : Lineup} {pieces more : List Work} {deeds : List Deed}
    (h : Way w pieces deeds v (l.pieces ++ more)) (hover : l.isOver = true) : Way w pieces deeds v more := by
  rw [LineupOf.isOver, Bool.and_eq_true, List.isEmpty_iff, List.isEmpty_iff] at hover
  rw [LineupOf.pieces, hover.1] at h
  exact h.exhausted hover.2

/-- A list does not end at the front. -/
theorem LineupOf.front?_ne_ended {l l' : Lineup} : l.front? ≠ some (.ended, l') := by
  unfold front?
  split <;> nofun

theorem World.seen_dequeue? {w v : World} {window task : Nat}
    (h : w.dequeue? window = some (task, v)) : v.seen = w.seen := by
  unfold dequeue? at h
  split at h
  · split at h
    · cases h
      rfl
    · cases h
  · cases h

/-- What a turn comes to of a stack that stands on another one: either it ends within the first one, or
that one is worked off, and then the turn is one of the other one. -/
inductive Render.TurnsOver (ahead fuel : Nat) (around : List Surrounding) (task : Nat)
    (stack outer : List Work) (w : World) (t : Turn) (rest : List Work) (v : World) : Prop
  | within {left : List Work} {deeds : List Deed} (hrest : rest = left ++ outer)
    (hsize : w.tasks.size ≤ v.tasks.size) (hleft : Work.TaskedAll v.tasks.size left)
    (hcourse : Way w (Work.piecesOfAll stack) deeds v (t.pieces ++ Work.piecesOfAll left))
  | beyond {fuel' : Nat} {u : World} {deeds : List Deed} (hfuel : fuel' ≤ fuel)
    (hsize : w.tasks.size ≤ u.tasks.size) (hcourse : Way w (Work.piecesOfAll stack) deeds u [])
    (hturn : Render.turn ahead fuel' around task outer u = some (t, rest, v))

/-- A course comes first. -/
theorem Render.TurnsOver.after {ahead fuel task : Nat} {around : List Surrounding}
    {stack stack' outer rest : List Work} {w u v : World} {t : Turn} {deeds : List Deed}
    (h : TurnsOver ahead fuel around task stack' outer u t rest v)
    (hsize : w.tasks.size ≤ u.tasks.size)
    (hcourse : Way w (Work.piecesOfAll stack) deeds u (Work.piecesOfAll stack')) :
    TurnsOver ahead (fuel + 1) around task stack outer w t rest v := by
  cases h with
  | within hrest hgrown hleft hmore =>
    exact .within hrest (Nat.le_trans hsize hgrown) hleft (hcourse.trans hmore)
  | beyond hfuel hgrown hmore hturn =>
    exact .beyond (Nat.le_succ_of_le hfuel) (Nat.le_trans hsize hgrown) (hcourse.trans hmore) hturn

/-- A step of a stack is a course. -/
theorem Work.way_step {ahead task : Nat} {work : Work} (rest : List Work) {progress : Progress}
    {w v : World} (hstepped : work.isStepped = true) (hstep : work.step ahead task w = (progress, v)) :
    Way w (Work.piecesOfAll (work :: rest)) (work.deeds task w) v
      (progress.pieces ++ Work.piecesOfAll rest) := by
  have hstart : Way w (Work.piecesOfAll (work :: rest)) [] w (work :: Work.piecesOfAll rest) := by
    rw [Work.piecesOfAll, Work.pieces_stepped hstepped]
    exact .refl
  exact hstart.step ahead task hstepped hstep

/-- Everything that takes part in a turn takes a course, with this much fuel, gives up nothing on the way unless
something fails, and leaves lists in work tasked. -/
structure Render.TakesCourse (ahead fuel : Nat) : Prop where
  turn : ∀ {around : List Surrounding} {task : Nat} {stack outer rest : List Work} {w v : World}
    {t : Turn}, Work.TaskedAll w.tasks.size stack →
      Render.turn ahead fuel around task (stack ++ outer) w = some (t, rest, v) →
        TurnsOver ahead fuel around task stack outer w t rest v
  windowTurn : ∀ {around : List Surrounding} {owner : Nat} {rest : List Work} {l l' : Lineup}
    {w v : World} {t : WindowTurn}, l.Tasked w.tasks.size →
      Render.windowTurn ahead fuel around owner rest l w = some (t, l', v) →
        w.tasks.size ≤ v.tasks.size ∧ l'.Tasked v.tasks.size ∧ (t = .ended → l'.isOver = true) ∧
          ∃ deeds, Way w l.pieces deeds v (t.pieces ++ l'.pieces)
  workOff : ∀ {around : List Surrounding} {owner running turns told : Nat} {rest : List Work}
    {l l' : Lineup} {w v : World} {t : WindowTurn}, l.Tasked w.tasks.size →
      Render.workOff ahead fuel around owner rest running turns told l w = some (t, l', v) →
        w.tasks.size ≤ v.tasks.size ∧ l'.Tasked v.tasks.size ∧ (t = .ended → l'.isOver = true) ∧
          ∃ deeds, Way w l.pieces deeds v (t.pieces ++ l'.pieces)
  memberTurn : ∀ {around : List Surrounding} {task : Nat} {fragments : List String}
    {stack : List Work} {w v : World} {m : Member}, task < w.tasks.size →
      Work.TaskedAll w.tasks.size stack →
        Render.memberTurn ahead fuel around task fragments stack w = some (m, v) →
          w.tasks.size ≤ v.tasks.size ∧ m.Tasked v.tasks.size ∧
            (m.task? = some task ∨ m.task? = none) ∧
              ∃ deeds, Way w (Work.piecesOfAll stack) deeds v m.pieces

namespace Render.TakesCourse

variable {ahead fuel : Nat}

/-- A turn of a stack that stands on nothing. -/
theorem whole (h : TakesCourse ahead fuel) {around : List Surrounding} {task : Nat}
    {stack rest : List Work} {w v : World} {t : Turn} (hstack : Work.TaskedAll w.tasks.size stack)
    (hturn : Render.turn ahead fuel around task stack w = some (t, rest, v)) :
    w.tasks.size ≤ v.tasks.size ∧ Work.TaskedAll v.tasks.size rest ∧
      ∃ deeds, Way w (Work.piecesOfAll stack) deeds v (t.pieces ++ Work.piecesOfAll rest) := by
  rw [← List.append_nil stack] at hturn
  cases h.turn hstack hturn with
  | within hrest hsize hleft hcourse =>
    rw [List.append_nil] at hrest
    subst hrest
    exact ⟨hsize, hleft, _, hcourse⟩
  | @beyond fuel' u deeds hfuel hsize hcourse hturn =>
    cases fuel' with
    | zero =>
      rw [Render.turn] at hturn
      cases hturn
    | succ fuel' =>
      rw [Render.turn] at hturn
      cases hturn
      exact ⟨hsize, trivial, deeds, hcourse⟩

theorem zero : TakesCourse ahead 0 where
  turn _ h := by
    rw [Render.turn] at h
    cases h
  windowTurn _ h := by
    rw [Render.windowTurn] at h
    cases h
  workOff _ h := by
    rw [Render.workOff] at h
    cases h
  memberTurn _ _ h := by
    rw [Render.memberTurn] at h
    cases h

theorem succ_windowTurn (ih : TakesCourse ahead fuel) {around : List Surrounding} {owner : Nat}
    {rest : List Work} {l l' : Lineup} {w v : World} {t : WindowTurn} (hl : l.Tasked w.tasks.size)
    (h : Render.windowTurn ahead (fuel + 1) around owner rest l w = some (t, l', v)) :
    w.tasks.size ≤ v.tasks.size ∧ l'.Tasked v.tasks.size ∧ (t = .ended → l'.isOver = true) ∧
      ∃ deeds, Way w l.pieces deeds v (t.pieces ++ l'.pieces) := by
  obtain ⟨hsize, hfilled⟩ := hl.draw owner (ahead - l.members.length)
  obtain ⟨deeds, hdrawn⟩ := l.way_draw owner (ahead - l.members.length) w
  rw [Render.windowTurn] at h
  unfold LineupOf.fill at h
  dsimp only at h
  split at h
  · rename_i hfront
    cases h
    exact ⟨hsize, hfilled.of_front? hfront, fun hended => (LineupOf.front?_ne_ended (hended ▸ hfront)).elim, deeds,
      hdrawn.swapped (LineupOf.pieces_front? hfront)⟩
  · obtain ⟨hgrown, htasked, hover, later, hrest⟩ := ih.workOff hfilled h
    exact ⟨Nat.le_trans hsize hgrown, htasked, hover, _, hdrawn.trans hrest⟩

theorem succ_memberTurn (ih : TakesCourse ahead fuel) {around : List Surrounding} {task : Nat}
    {fragments : List String} {stack : List Work} {w v : World} {m : Member}
    (htask : task < w.tasks.size) (hstack : Work.TaskedAll w.tasks.size stack)
    (h : Render.memberTurn ahead (fuel + 1) around task fragments stack w = some (m, v)) :
    w.tasks.size ≤ v.tasks.size ∧ m.Tasked v.tasks.size ∧
      (m.task? = some task ∨ m.task? = none) ∧
        ∃ deeds, Way w (Work.piecesOfAll stack) deeds v m.pieces := by
  rw [Render.memberTurn] at h
  split at h
  · cases h
  · rename_i text stack' u hturn
    obtain ⟨hsize, hleft, deeds, hcourse⟩ := ih.whole hstack hturn
    obtain ⟨hgrown, htasked, hnumber, later, hrest⟩ :=
      ih.memberTurn (Nat.lt_of_lt_of_le htask hsize) hleft h
    exact ⟨Nat.le_trans hsize hgrown, htasked, hnumber, _, hcourse.trans hrest⟩
  · rename_i error stack' u hturn
    obtain ⟨hsize, -, deeds, hcourse⟩ := ih.whole hstack hturn
    cases h
    rw [World.tasks_abandon]
    have hfailed := hcourse.failed (List.nil_subperm (l := Work.piecesOfAll stack'))
    exact ⟨hsize, trivial, .inr rfl, deeds, hfailed.hidden (World.seen_abandon ..)⟩
  · rename_i stack' u hturn
    obtain ⟨hsize, -, deeds, hcourse⟩ := ih.whole hstack hturn
    cases h
    cases Render.stack_eq_nil_of_turn hturn
    exact ⟨hsize, trivial, .inr rfl, deeds, hcourse⟩
  · rename_i stack' u hturn
    obtain ⟨hsize, hleft, deeds, hcourse⟩ := ih.whole hstack hturn
    cases h
    exact ⟨hsize, ⟨Nat.lt_of_lt_of_le htask hsize, hleft⟩, .inl rfl, deeds, hcourse⟩

/-- Whatever becomes of a member in its turn, it stands in its place. -/
theorem placed (ih : TakesCourse ahead fuel) {around : List Surrounding} {task : Nat} {l : Lineup} {w v : World}
    (hl : l.Tasked w.tasks.size) {before after : List Member} {fragments : List String} {stack : List Work}
    (hmembers : l.members = before ++ .running task fragments stack :: after) {m : Member}
    (h : Render.memberTurn ahead fuel around task fragments stack (w.beginTurn task) = some (m, v)) :
    w.tasks.size ≤ v.tasks.size ∧ (m.task? = some task ∨ m.task? = none) ∧
      (l.replace task m).Tasked v.tasks.size ∧
        ∃ deeds, Way w l.pieces deeds v (l.replace task m).pieces := by
  have hof := Member.taskedAll_iff.mp hl.below (.running task fragments stack)
    (hmembers ▸ List.mem_append_right _ List.mem_cons_self)
  rw [← World.size_tasks_beginTurn w task] at hof
  obtain ⟨hsize, htasked, hnumber, deeds, hcourse⟩ := ih.memberTurn hof.1 hof.2 h
  rw [World.size_tasks_beginTurn] at hsize
  have hbegun : Way w l.pieces [] (w.beginTurn task) l.pieces :=
    Way.refl.hidden (World.seen_beginTurn w task)
  exact ⟨hsize, hnumber, (hl.mono hsize).replace hmembers htasked hnumber, _,
    hbegun.trans (LineupOf.way_replace hl hmembers hcourse)⟩

theorem succ_workOff (ih : TakesCourse ahead fuel) {around : List Surrounding}
    {owner running turns told : Nat} {rest : List Work} {l l' : Lineup} {w v : World}
    {t : WindowTurn} (hl : l.Tasked w.tasks.size)
    (h : Render.workOff ahead (fuel + 1) around owner rest running turns told l w =
      some (t, l', v)) :
    w.tasks.size ≤ v.tasks.size ∧ l'.Tasked v.tasks.size ∧ (t = .ended → l'.isOver = true) ∧
      ∃ deeds, Way w l.pieces deeds v (t.pieces ++ l'.pieces) := by
  rw [Render.workOff] at h
  split at h
  · cases h
    split
    · rename_i hover
      exact ⟨Nat.le_refl _, hl, fun _ => hover, [], .refl⟩
    · exact ⟨Nat.le_refl _, hl, (fun heq => by cases heq), [], .refl⟩
  · rename_i task u hdequeue
    have hu : u.tasks.size = w.tasks.size := congrArg Array.size (World.tasks_dequeue? hdequeue)
    have hdequeued : ∀ {pieces : List Work}, Way w pieces [] u pieces :=
      Way.refl.hidden (World.seen_dequeue? hdequeue)
    rw [← hu] at hl ⊢
    split at h
    · obtain ⟨hgrown, htasked, hover, deeds, hrest⟩ := ih.workOff hl h
      exact ⟨hgrown, htasked, hover, _, hdequeued.trans hrest⟩
    · rename_i fragments stack hfind
      obtain ⟨before, after, hmembers⟩ := LineupOf.find?_eq_some hfind
      have hplaced : ∀ {m : Member} {x : World}, Render.memberTurn ahead fuel (⟨task, l, rest⟩ :: around)
          task fragments stack (u.beginTurn task) = some (m, x) → u.tasks.size ≤ x.tasks.size ∧
            (m.task? = some task ∨ m.task? = none) ∧ (l.replace task m).Tasked x.tasks.size ∧
              ∃ deeds, Way w l.pieces deeds x (l.replace task m).pieces := by
        intro m x hmember
        obtain ⟨hsize, hnumber, htasked, deeds, hcourse⟩ := ih.placed hl hmembers hmember
        exact ⟨hsize, hnumber, htasked, _, hdequeued.trans hcourse⟩
      dsimp only at h
      split at h
      · cases h
      · rename_i number fragments' stack' x hmember
        obtain ⟨hsize, hnumber, htasked, deeds, hcourse⟩ := hplaced hmember
        have hsame : number = task := by
          rcases hnumber with hsame | hnone
          · exact Option.some.inj hsame
          · cases hnone
        subst hsame
        have hsuspended : Way w l.pieces deeds (x.suspend (l.replace number
            (.running number fragments' stack')).window number) _ := hcourse.hidden rfl
        split at h
        · cases h
          rw [World.size_tasks_wake]
          exact ⟨hsize, htasked, (fun heq => by cases heq), deeds, hsuspended.hidden (World.seen_wake ..)⟩
        · obtain ⟨hgrown, hleft, hover, later, hrest⟩ := ih.workOff (w := x.suspend _ _) htasked h
          exact ⟨Nat.le_trans hsize hgrown, hleft, hover, _, hsuspended.trans hrest⟩
      · rename_i m x hother hmember
        obtain ⟨hsize, -, htasked, deeds, hcourse⟩ := hplaced hmember
        have hretired := World.size_tasks_retire x (l.replace task m).window task
        have hended : Way w l.pieces deeds (x.retire (l.replace task m).window task) _ :=
          hcourse.hidden rfl
        split at h
        · rename_i hfront
          cases h
          rw [hretired]
          exact ⟨hsize, htasked.of_front? hfront, fun heq => (LineupOf.front?_ne_ended (heq ▸ hfront)).elim, deeds,
            hended.swapped (LineupOf.pieces_front? hfront)⟩
        · rw [← hretired] at htasked hsize
          obtain ⟨hgrown, hleft, hover, later, hrest⟩ := ih.workOff htasked h
          exact ⟨Nat.le_trans hsize hgrown, hleft, hover, _, hended.trans hrest⟩

theorem succ_turn (ih : TakesCourse ahead fuel) {around : List Surrounding} {task : Nat}
    {stack outer rest : List Work} {w v : World} {t : Turn}
    (hstack : Work.TaskedAll w.tasks.size stack)
    (h : Render.turn ahead (fuel + 1) around task (stack ++ outer) w = some (t, rest, v)) :
    TurnsOver ahead (fuel + 1) around task stack outer w t rest v := by
  match stack with
  | [] => exact .beyond (Nat.le_refl _) (Nat.le_refl _) .refl h
  | work :: more =>
    rw [List.cons_append] at h
    obtain ⟨hwork, hmore⟩ := hstack
    by_cases hstepped : work.isStepped = true
    · have hsize := Work.size_tasks_step w ahead task work
      have htasked : (work.step ahead task w).1.Tasked w.tasks.size := Work.tasked_step hwork w
      cases hs : work.step ahead task w with
      | mk progress u =>
        rw [hs] at hsize htasked
        have hcourse := Work.way_step more hstepped hs
        cases progress with
        | next works =>
          rw [Render.turn_step hstepped hs, ← List.append_assoc] at h
          have htidied : (u.tidied (Work.heldByAll (works ++ more ++ outer) ++
              around.flatMap Surrounding.held)).tasks.size = w.tasks.size := by
            rw [World.tasks_tidied, hsize]
          rw [← htidied] at htasked hmore
          have hnext := hcourse.hidden (u := u.tidied (Work.heldByAll (works ++ more ++ outer) ++
            around.flatMap Surrounding.held)) (World.seen_tidied ..)
          rw [Progress.pieces, ← Work.piecesOfAll_append] at hnext
          exact (ih.turn (Work.taskedAll_append htasked hmore) h).after (Nat.le_of_eq htidied.symm) hnext
        | wait waiting =>
          rw [Render.turn_wait hstepped hs] at h
          cases h
          have hwaits : Work.piecesOfAll (waiting :: more) = waiting :: Work.piecesOfAll more := by
            rw [Work.piecesOfAll, Work.pieces_stepped (Work.isStepped_wait hstepped hs)]
            rfl
          have hleft : Work.TaskedAll v.tasks.size (waiting :: more) := hsize ▸ ⟨htasked, hmore⟩
          rw [Progress.pieces, List.singleton_append, ← hwaits] at hcourse
          exact .within (List.cons_append ..).symm (Nat.le_of_eq hsize.symm) hleft hcourse
    · cases work with
      | emit text =>
        rw [Render.turn] at h
        cases h
        exact .within rfl (Nat.le_refl _) hmore .refl
      | fail error =>
        rw [Render.turn] at h
        cases h
        exact .within rfl (Nat.le_refl _) hmore .refl
      | ahead lineup =>
        have hl : lineup.Tasked w.tasks.size := ⟨hwork.1, hwork.2⟩
        have hpieces : Work.piecesOfAll (.ahead lineup :: more) =
            lineup.pieces ++ Work.piecesOfAll more := rfl
        rw [Render.turn] at h
        split at h
        · cases h
        · rename_i member fragments l' u hwindow
          obtain ⟨hsize, htasked, -, deeds, hcourse⟩ := ih.windowTurn hl hwindow
          let leaving : List Work := fragments.map .emit ++ [.note (.left l'.window member)]
          have hturn : Render.turn ahead fuel around task (leaving ++ .ahead l' :: more ++ outer) u =
              some (t, rest, v) := by rwa [List.append_assoc]
          have hthrough := Work.taskedAll_through fragments l'.window member htasked (hmore.mono hsize)
          have hcome := (hcourse.frame (Work.piecesOfAll more)).through l'.window member
          rw [WindowTurn.pieces, List.nil_append, ← Work.piecesOfAll_through fragments] at hcome
          exact (ih.turn hthrough hturn).after hsize hcome
        · rename_i error l' u hwindow
          obtain ⟨hsize, htasked, -, deeds, hcourse⟩ := ih.windowTurn hl hwindow
          cases h
          have hleft : Work.TaskedAll v.tasks.size (.ahead l' :: more) :=
            ⟨⟨htasked.nodup, htasked.below⟩, hmore.mono hsize⟩
          exact .within (List.cons_append ..).symm hsize hleft (hcourse.frame _)
        · rename_i l' u hwindow
          obtain ⟨hsize, -, hover, deeds, hcourse⟩ := ih.windowTurn hl hwindow
          have hleft := (hcourse.frame (Work.piecesOfAll more)).leave (hover rfl)
          have hgrown : w.tasks.size ≤ (u.tidied (Work.heldByAll (more ++ outer) ++
              around.flatMap Surrounding.held)).tasks.size := by rwa [World.tasks_tidied]
          exact (ih.turn (hmore.mono hgrown) h).after hgrown (hleft.hidden (World.seen_tidied ..))
        · rename_i l' u hwindow
          obtain ⟨hsize, htasked, -, deeds, hcourse⟩ := ih.windowTurn hl hwindow
          cases h
          have hleft : Work.TaskedAll v.tasks.size (.ahead l' :: more) :=
            ⟨⟨htasked.nodup, htasked.below⟩, hmore.mono hsize⟩
          exact .within (List.cons_append ..).symm hsize hleft (hcourse.frame _)
      | _ => exact absurd rfl hstepped

theorem all (ahead fuel : Nat) : TakesCourse ahead fuel := by
  induction fuel with
  | zero => exact zero
  | succ fuel ih =>
    exact ⟨ih.succ_turn, ih.succ_windowTurn, ih.succ_workOff, ih.succ_memberTurn⟩

end Render.TakesCourse

end TaggedMarkup
