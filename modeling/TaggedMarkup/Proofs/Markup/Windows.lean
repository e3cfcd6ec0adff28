import TaggedMarkup.Proofs.Markup.Writing
import TaggedMarkup.Proofs.Render.Lineups
import TaggedMarkup.Proofs.Render.Turning
import TaggedMarkup.Render.Stream

/-!
# Rendering writes what is to be written

A turn takes fragments off the front of what a stack comes to write and leaves the rest, and it fails
or ends only where that fails or ends. The same goes for a window, whatever the order in which its
members have their turns: each member adds to what is left of itself, and only the first one lets
anything out. So a render that ends has delivered the text that there was to be written, with any number of
members rendered ahead.
-/

namespace TaggedMarkup

/-- How a turn that comes to this relates what was to be written before and what is afterwards. -/
def Turn.Leaves (before after : Writing) : Turn → Prop
  | .fragment text => before = .text text.toList ++ after
  | .failed _ => before = .failure
  | .ended => before = .text []
  | .blocked => before = after

/-- The same for a turn of a window. -/
def WindowTurn.Leaves (before after : Writing) : WindowTurn → Prop
  | .through _ fragments => before = .text (fragments.flatMap String.toList) ++ after
  | .failed _ => before = .failure
  | .ended => before = .text []
  | .blocked => before = after

/-! ## Lists in work -/

namespace LineupOf

/-- What a list in work comes to write. -/
def writing (l : Lineup) : Writing := Member.writingAll l.members ++ l.feed.writing

/-- Drawing members changes nothing. -/
theorem writing_draw (owner room : Nat) (l : Lineup) (w : World) :
    (l.draw owner room w).1.writing = l.writing := by
  induction room generalizing l w with
  | zero => rfl
  | succ room ih =>
    have hdraw := l.feed.writing_draw owner w
    rw [LineupOf.draw]
    split
    · rename_i value feed v heq
      rw [heq] at hdraw
      have hmember : ∀ task, Member.writing (.running task []
          [.note (.began l.window l.feed.index), .item value]) = Outline.writingAll value.outline := by
        intro task
        rw [Member.writing, Work.writingAll, Work.writingAll_singleton]
        exact (Writing.nil_append _).trans (Writing.nil_append _)
      refine (ih _ _).trans ?_
      rw [writing, writing, Member.writingAll_append, Member.writingAll, hmember, Member.writingAll,
        Writing.append_nil, Writing.append_assoc, hdraw]
    · rename_i draw feed v hmember heq
      have hsame : l.feed.writing = feed.writing := by
        rw [heq] at hdraw
        cases draw with
        | member value => exact absurd rfl (hmember value)
        | notYet => exact hdraw
        | exhausted => rw [hdraw.2]
      rw [writing, writing, hsame]

/-- What comes out at the front is the first of what was to be written. -/
theorem leaves_of_front? {l l' : Lineup} {out : WindowTurn} (hwriting : l.writing ≠ .unknown)
    (hfront : l.front? = some (out, l')) : out.Leaves l.writing l'.writing := by
  unfold front? at hfront
  split at hfront
  · rename_i fragments rest hmembers
    cases hfront
    rw [WindowTurn.Leaves, writing, hmembers, Member.writingAll, Member.writing,
      Writing.append_assoc]
    rfl
  · rename_i error rest hmembers
    cases hfront
    rw [writing, hmembers, Member.writingAll, Member.writing, Writing.append_assoc] at hwriting
    rw [WindowTurn.Leaves, writing, hmembers, Member.writingAll, Member.writing,
      Writing.append_assoc]
    exact Writing.failure_append (Writing.append_ne_unknown.mp hwriting).2
  · cases hfront

/-- A list that is over has nothing to write. -/
theorem writing_of_isOver {l : Lineup} (h : l.isOver = true) : l.writing = .text [] := by
  rw [isOver, Bool.and_eq_true, List.isEmpty_iff, List.isEmpty_iff] at h
  rw [writing, h.1, Feed.writing, Feed.held, h.2]
  rfl

/-- A member that comes to write the same takes its place without a trace. -/
theorem writing_replace {bound task : Nat} {l : Lineup} (h : l.Tasked bound)
    {before after : List Member} {fragments : List String} {stack : List Work}
    (hmembers : l.members = before ++ .running task fragments stack :: after) {member : Member}
    (hmember : member.writing = (Member.running task fragments stack).writing) :
    (l.replace task member).writing = l.writing := by
  rw [writing, writing, members_replace h.nodup hmembers, hmembers, Member.writingAll_append,
    Member.writingAll_append, Member.writingAll, Member.writingAll, hmember]
  rfl

end LineupOf

theorem Work.writing_ahead (l : Lineup) : (Work.ahead l).writing = l.writing := rfl

/-! ## Turns -/

/-- Everything that takes part in a turn takes what it delivers off what was to be written, with this
much fuel, and leaves lists in work tasked. -/
structure Render.Faithful (ahead fuel : Nat) : Prop where
  turn : ∀ {around : List Surrounding} {task : Nat} {stack rest : List Work} {w v : World} {t : Turn},
    Work.TaskedAll w.tasks.size stack → Work.writingAll stack ≠ .unknown →
      Render.turn ahead fuel around task stack w = some (t, rest, v) →
        w.tasks.size ≤ v.tasks.size ∧ Work.TaskedAll v.tasks.size rest ∧
          t.Leaves (Work.writingAll stack) (Work.writingAll rest)
  windowTurn : ∀ {around : List Surrounding} {owner : Nat} {rest : List Work} {l l' : Lineup}
    {w v : World} {t : WindowTurn}, l.Tasked w.tasks.size → l.writing ≠ .unknown →
      Render.windowTurn ahead fuel around owner rest l w = some (t, l', v) →
        w.tasks.size ≤ v.tasks.size ∧ l'.Tasked v.tasks.size ∧ t.Leaves l.writing l'.writing
  workOff : ∀ {around : List Surrounding} {owner running turns told : Nat} {rest : List Work}
    {l l' : Lineup} {w v : World} {t : WindowTurn}, l.Tasked w.tasks.size → l.writing ≠ .unknown →
      Render.workOff ahead fuel around owner rest running turns told l w = some (t, l', v) →
        w.tasks.size ≤ v.tasks.size ∧ l'.Tasked v.tasks.size ∧ t.Leaves l.writing l'.writing
  memberTurn : ∀ {around : List Surrounding} {task : Nat} {fragments : List String}
    {stack : List Work} {w v : World} {m : Member}, (Member.running task fragments stack).Tasked
      w.tasks.size → (Member.running task fragments stack).writing ≠ .unknown →
        Render.memberTurn ahead fuel around task fragments stack w = some (m, v) →
          w.tasks.size ≤ v.tasks.size ∧ m.Tasked v.tasks.size ∧
            (m.task? = some task ∨ m.task? = none) ∧
              m.writing = (Member.running task fragments stack).writing

namespace Render.Faithful

variable {ahead fuel : Nat}

theorem zero : Faithful ahead 0 where
  turn _ _ h := by
    rw [Render.turn] at h
    cases h
  windowTurn _ _ h := by
    rw [Render.windowTurn] at h
    cases h
  workOff _ _ h := by
    rw [Render.workOff] at h
    cases h
  memberTurn _ _ h := by
    rw [Render.memberTurn] at h
    cases h

theorem succ_windowTurn (ih : Faithful ahead fuel) {around : List Surrounding} {owner : Nat}
    {rest : List Work} {l l' : Lineup} {w v : World} {t : WindowTurn} (hl : l.Tasked w.tasks.size)
    (hwriting : l.writing ≠ .unknown)
    (h : Render.windowTurn ahead (fuel + 1) around owner rest l w = some (t, l', v)) :
    w.tasks.size ≤ v.tasks.size ∧ l'.Tasked v.tasks.size ∧ t.Leaves l.writing l'.writing := by
  obtain ⟨hsize, hfilled⟩ := hl.draw owner (ahead - l.members.length)
  have hsame := l.writing_draw owner (ahead - l.members.length) w
  rw [← hsame] at hwriting ⊢
  rw [Render.windowTurn] at h
  unfold LineupOf.fill at h
  dsimp only at h
  split at h
  · rename_i hfront
    cases h
    exact ⟨hsize, hfilled.of_front? hfront, LineupOf.leaves_of_front? hwriting hfront⟩
  · obtain ⟨hgrown, htasked, hleaves⟩ := ih.workOff hfilled hwriting h
    exact ⟨Nat.le_trans hsize hgrown, htasked, hleaves⟩

theorem succ_memberTurn (ih : Faithful ahead fuel) {around : List Surrounding} {task : Nat}
    {fragments : List String} {stack : List Work} {w v : World} {m : Member}
    (hm : (Member.running task fragments stack).Tasked w.tasks.size)
    (hwriting : (Member.running task fragments stack).writing ≠ .unknown)
    (h : Render.memberTurn ahead (fuel + 1) around task fragments stack w = some (m, v)) :
    w.tasks.size ≤ v.tasks.size ∧ m.Tasked v.tasks.size ∧
      (m.task? = some task ∨ m.task? = none) ∧
        m.writing = (Member.running task fragments stack).writing := by
  obtain ⟨htask, hstack⟩ := hm
  rw [Member.writing] at hwriting
  have hknown := (Writing.append_ne_unknown.mp hwriting).2
  rw [Render.memberTurn] at h
  split at h
  · cases h
  · rename_i text stack' u hturn
    obtain ⟨hsize, hleft, hleaves⟩ := ih.turn hstack hknown hturn
    have hsame : (Member.running task (text :: fragments) stack').writing =
        (Member.running task fragments stack).writing := by
      rw [Turn.Leaves] at hleaves
      rw [Member.writing, Member.writing, hleaves, ← Writing.append_assoc,
        Writing.text_append_text, List.reverse_cons, List.flatMap_append, List.flatMap_singleton]
    have hstill : (Member.running task (text :: fragments) stack').writing ≠ .unknown := by
      rw [hsame, Member.writing]
      exact hwriting
    obtain ⟨hgrown, htasked, hnumber, hdone⟩ :=
      ih.memberTurn ⟨Nat.lt_of_lt_of_le htask hsize, hleft⟩ hstill h
    exact ⟨Nat.le_trans hsize hgrown, htasked, hnumber, hdone.trans hsame⟩
  · rename_i error stack' u hturn
    obtain ⟨hsize, -, hleaves⟩ := ih.turn hstack hknown hturn
    cases h
    rw [World.tasks_abandon]
    refine ⟨hsize, trivial, .inr rfl, ?_⟩
    rw [Turn.Leaves] at hleaves
    rw [Member.writing, Member.writing, hleaves]
    rfl
  · rename_i stack' u hturn
    obtain ⟨hsize, -, hleaves⟩ := ih.turn hstack hknown hturn
    cases h
    refine ⟨hsize, trivial, .inr rfl, ?_⟩
    rw [Turn.Leaves] at hleaves
    rw [Member.writing, Member.writing, hleaves, Writing.append_nil]
  · rename_i stack' u hturn
    obtain ⟨hsize, hleft, hleaves⟩ := ih.turn hstack hknown hturn
    cases h
    refine ⟨hsize, ⟨Nat.lt_of_lt_of_le htask hsize, hleft⟩, .inl rfl, ?_⟩
    rw [Turn.Leaves] at hleaves
    rw [Member.writing, Member.writing, hleaves]

theorem succ_workOff (ih : Faithful ahead fuel) {around : List Surrounding}
    {owner running turns told : Nat} {rest : List Work} {l l' : Lineup} {w v : World}
    {t : WindowTurn} (hl : l.Tasked w.tasks.size) (hwriting : l.writing ≠ .unknown)
    (h : Render.workOff ahead (fuel + 1) around owner rest running turns told l w =
      some (t, l', v)) :
    w.tasks.size ≤ v.tasks.size ∧ l'.Tasked v.tasks.size ∧ t.Leaves l.writing l'.writing := by
  rw [Render.workOff] at h
  split at h
  · cases h
    refine ⟨Nat.le_refl _, hl, ?_⟩
    by_cases hover : l.isOver = true
    · rw [if_pos hover]
      exact LineupOf.writing_of_isOver hover
    · rw [if_neg hover]
      exact rfl
  · rename_i task u hdequeue
    have hu : u.tasks.size = w.tasks.size := congrArg Array.size (World.tasks_dequeue? hdequeue)
    rw [← hu] at hl ⊢
    split at h
    · exact ih.workOff hl hwriting h
    · rename_i fragments stack hfind
      obtain ⟨before, after, hmembers⟩ := LineupOf.find?_eq_some hfind
      have hbegun : (Member.running task fragments stack).Tasked (u.beginTurn task).tasks.size := by
        rw [World.size_tasks_beginTurn]
        exact hl.of_find? hfind
      have hknown : (Member.running task fragments stack).writing ≠ .unknown := by
        rw [LineupOf.writing, hmembers, Member.writingAll_append, Member.writingAll] at hwriting
        have hrest := (Writing.append_ne_unknown.mp (Writing.append_ne_unknown.mp hwriting).1).2
        exact (Writing.append_ne_unknown.mp hrest).1
      -- whatever has become of the member, it stands in its place and writes what it did
      have hplaced : ∀ {m : Member} {x : World}, Render.memberTurn ahead fuel (⟨task, l, rest⟩ :: around)
          task fragments stack (u.beginTurn task) = some (m, x) → u.tasks.size ≤ x.tasks.size ∧
            (l.replace task m).Tasked x.tasks.size ∧ (l.replace task m).writing = l.writing := by
        intro m x hmember
        obtain ⟨hsize, htasked, hnumber, hsame⟩ := ih.memberTurn hbegun hknown hmember
        rw [World.size_tasks_beginTurn] at hsize
        have hroom := hl.mono hsize
        exact ⟨hsize, hroom.replace hmembers htasked hnumber,
          LineupOf.writing_replace hroom hmembers hsame⟩
      dsimp only at h
      split at h
      · cases h
      · rename_i number fragments' stack' x hmember
        have hnumber : number = task := by
          rcases (ih.memberTurn hbegun hknown hmember).2.2.1 with hsame | hnone
          · exact Option.some.inj hsame
          · cases hnone
        subst hnumber
        obtain ⟨hsize, htasked, hsame⟩ := hplaced hmember
        split at h
        · cases h
          rw [World.size_tasks_wake]
          exact ⟨hsize, htasked, hsame.symm⟩
        · rw [← hsame] at hwriting ⊢
          obtain ⟨hgrown, hleft⟩ := ih.workOff (w := x.suspend _ _) htasked hwriting h
          exact ⟨Nat.le_trans hsize hgrown, hleft⟩
      · rename_i m x hother hmember
        obtain ⟨hsize, htasked, hsame⟩ := hplaced hmember
        rw [← hsame] at hwriting ⊢
        have hretired := World.size_tasks_retire x (l.replace task m).window task
        split at h
        · rename_i hfront
          cases h
          rw [hretired]
          exact ⟨hsize, htasked.of_front? hfront, LineupOf.leaves_of_front? hwriting hfront⟩
        · rw [← hretired] at htasked hsize
          obtain ⟨hgrown, hleft⟩ := ih.workOff htasked hwriting h
          exact ⟨Nat.le_trans hsize hgrown, hleft⟩

theorem succ_turn (ih : Faithful ahead fuel) {around : List Surrounding} {task : Nat}
    {stack rest : List Work} {w v : World} {t : Turn} (hstack : Work.TaskedAll w.tasks.size stack)
    (hwriting : Work.writingAll stack ≠ .unknown)
    (h : Render.turn ahead (fuel + 1) around task stack w = some (t, rest, v)) :
    w.tasks.size ≤ v.tasks.size ∧ Work.TaskedAll v.tasks.size rest ∧
      t.Leaves (Work.writingAll stack) (Work.writingAll rest) := by
  match stack with
  | [] =>
    rw [Render.turn] at h
    cases h
    exact ⟨Nat.le_refl _, trivial, rfl⟩
  | work :: more =>
    obtain ⟨hwork, hmore⟩ := hstack
    rw [Work.writingAll] at hwriting ⊢
    obtain ⟨hknown, hrest⟩ := Writing.append_ne_unknown.mp hwriting
    by_cases hstepped : work.isStepped = true
    · have hsize := Work.size_tasks_step w ahead task work
      have hsame := Work.writing_step ahead task hknown w
      have htasked : (work.step ahead task w).1.Tasked w.tasks.size := Work.tasked_step hwork w
      cases hs : work.step ahead task w with
      | mk progress u =>
        rw [hs] at hsize hsame htasked
        cases progress with
        | next works =>
          rw [Render.turn_step hstepped hs] at h
          rw [← hsame, Progress.writing, ← Work.writingAll_append] at hwriting ⊢
          have htidied : (u.tidied (Work.heldByAll (works ++ more) ++
              around.flatMap Surrounding.held)).tasks.size = w.tasks.size := by
            rw [World.tasks_tidied, hsize]
          rw [← htidied] at htasked hmore ⊢
          exact ih.turn (Work.taskedAll_append htasked hmore) hwriting h
        | wait waiting =>
          rw [Render.turn_wait hstepped hs] at h
          cases h
          rw [hsize]
          refine ⟨Nat.le_refl _, ⟨htasked, hmore⟩, ?_⟩
          rw [Turn.Leaves, Work.writingAll, ← hsame]
          rfl
    · cases work with
      | emit text =>
        rw [Render.turn] at h
        cases h
        exact ⟨Nat.le_refl _, hmore, rfl⟩
      | fail error =>
        rw [Render.turn] at h
        cases h
        exact ⟨Nat.le_refl _, hmore, Writing.failure_append hrest⟩
      | ahead lineup =>
        have hl : lineup.Tasked w.tasks.size := ⟨hwork.1, hwork.2⟩
        rw [Render.turn] at h
        split at h
        · cases h
        · rename_i member fragments l' u hwindow
          obtain ⟨hsize, htasked, hleaves⟩ := ih.windowTurn hl hknown hwindow
          have hsame : Work.writingAll (fragments.map .emit ++ [.note (.left l'.window member)] ++
              .ahead l' :: more) = lineup.writing ++ Work.writingAll more := by
            rw [WindowTurn.Leaves] at hleaves
            rw [hleaves, Work.writingAll_append, Work.writingAll_append, Work.writingAll_emit,
              Work.writingAll_singleton, Work.writingAll, Work.writing, Work.writing_ahead,
              Writing.append_nil, Writing.append_assoc]
          have hthrough : Work.TaskedAll u.tasks.size (fragments.map .emit ++
              [.note (.left l'.window member)] ++ .ahead l' :: more) := by
            refine Work.taskedAll_append (Work.taskedAll_append ?_ ⟨trivial, trivial⟩)
              ⟨⟨htasked.nodup, htasked.below⟩, hmore.mono hsize⟩
            exact Work.taskedAll_map (f := .emit) (fun _ => trivial) fragments
          have hstill : Work.writingAll (fragments.map .emit ++ [.note (.left l'.window member)] ++
              .ahead l' :: more) ≠ .unknown := by
            rw [hsame]
            exact hwriting
          obtain ⟨hgrown, hleft, hturn⟩ := ih.turn hthrough hstill h
          rw [hsame] at hturn
          exact ⟨Nat.le_trans hsize hgrown, hleft, hturn⟩
        · rename_i error l' u hwindow
          obtain ⟨hsize, htasked, hleaves⟩ := ih.windowTurn hl hknown hwindow
          cases h
          refine ⟨hsize, ⟨⟨htasked.nodup, htasked.below⟩, hmore.mono hsize⟩, ?_⟩
          rw [WindowTurn.Leaves] at hleaves
          exact (congrArg (· ++ _) hleaves).trans (Writing.failure_append hrest)
        · rename_i l' u hwindow
          obtain ⟨hsize, -, hleaves⟩ := ih.windowTurn hl hknown hwindow
          rw [WindowTurn.Leaves] at hleaves
          have hsame : lineup.writing ++ Work.writingAll more = Work.writingAll more := by
            rw [hleaves, Writing.nil_append]
          have hleft : Work.TaskedAll (u.tidied (Work.heldByAll more ++
              around.flatMap Surrounding.held)).tasks.size more := by
            rw [World.tasks_tidied]
            exact hmore.mono hsize
          obtain ⟨hgrown, hend, hturn⟩ := ih.turn hleft hrest h
          rw [World.tasks_tidied] at hgrown
          rw [Work.writing_ahead, hsame]
          exact ⟨Nat.le_trans hsize hgrown, hend, hturn⟩
        · rename_i l' u hwindow
          obtain ⟨hsize, htasked, hleaves⟩ := ih.windowTurn hl hknown hwindow
          cases h
          refine ⟨hsize, ⟨⟨htasked.nodup, htasked.below⟩, hmore.mono hsize⟩, ?_⟩
          rw [WindowTurn.Leaves] at hleaves
          exact congrArg (· ++ _) hleaves
      | _ => exact absurd rfl hstepped

theorem all (ahead fuel : Nat) : Faithful ahead fuel := by
  induction fuel with
  | zero => exact zero
  | succ fuel ih =>
    exact ⟨ih.succ_turn, ih.succ_windowTurn, ih.succ_workOff, ih.succ_memberTurn⟩

end Render.Faithful

/-! ## Streams -/

/-- What a delivery takes off what was to be written. -/
def Delivery.Leaves (before after : Writing) : Delivery → Prop
  | .fragment text => before = .text text.toList ++ after
  | .failed _ => before = .failure
  | .ended => before = .text []

def Delivery.isFailure : Delivery → Bool
  | .failed _ => true
  | _ => false

namespace RenderStream

/-- What a stream comes to write is known, and its lists in work are tasked. -/
structure Steady (s : RenderStream) (w : World) : Prop where
  tasked : Work.TaskedAll w.tasks.size s.stack
  known : Work.writingAll s.stack ≠ .unknown

theorem leaves_await {fuel : Nat} {s s' : RenderStream} {w v : World} {out : Delivery}
    (hs : s.Steady w) (h : s.await fuel w = some (out, s', v)) :
    out.Leaves (Work.writingAll s.stack) (Work.writingAll s'.stack) ∧
      (∃ stack, s' = { s with stack }) ∧ Work.TaskedAll v.tasks.size s'.stack := by
  induction fuel generalizing s w with
  | zero => cases h
  | succ fuel ih =>
    have hbegun : Work.TaskedAll (w.beginTurn s.task).tasks.size s.stack := by
      rw [World.size_tasks_beginTurn]
      exact hs.tasked
    rw [RenderStream.await] at h
    split at h
    · cases h
    · rename_i hturn
      obtain ⟨-, htasked, hleaves⟩ := (Render.Faithful.all _ _).turn hbegun hs.known hturn
      cases h
      exact ⟨hleaves, ⟨_, rfl⟩, htasked⟩
    · rename_i hturn
      obtain ⟨-, htasked, hleaves⟩ := (Render.Faithful.all _ _).turn hbegun hs.known hturn
      cases h
      exact ⟨hleaves, ⟨_, rfl⟩, htasked⟩
    · rename_i hturn
      obtain ⟨-, htasked, hleaves⟩ := (Render.Faithful.all _ _).turn hbegun hs.known hturn
      cases h
      exact ⟨hleaves, ⟨_, rfl⟩, htasked⟩
    · rename_i stack u hturn
      obtain ⟨-, htasked, hleaves⟩ := (Render.Faithful.all _ _).turn hbegun hs.known hturn
      rw [Turn.Leaves] at hleaves
      have hknown : Work.writingAll stack ≠ .unknown := hleaves ▸ hs.known
      rw [hleaves]
      split at h
      · obtain ⟨hout, ⟨last, rfl⟩, hend⟩ := ih (s := { s with stack }) ⟨htasked, hknown⟩ h
        exact ⟨hout, ⟨last, rfl⟩, hend⟩
      · split at h
        · cases h
        · rename_i x hadvance
          rw [← World.size_tasks_advance? hadvance] at htasked
          obtain ⟨hout, ⟨last, rfl⟩, hend⟩ := ih (s := { s with stack }) ⟨htasked, hknown⟩ h
          exact ⟨hout, ⟨last, rfl⟩, hend⟩

/-- As long as no error has come out, a stream gives what comes next, and remembers an error. -/
theorem pull_of_await {fuel : Nat} {s : RenderStream} {w v : World} {out : Delivery}
    {stack : List Work} (hopen : s.failed = false ∧ s.closed = false)
    (h : s.await fuel w = some (out, { s with stack }, v)) :
    s.pull fuel w = some (out, { s with stack, failed := out.isFailure }, v) := by
  obtain ⟨hfailed, hclosed⟩ := hopen
  unfold pull
  rw [hclosed, h]
  cases out <;> simp [hfailed, hclosed, Delivery.isFailure]

/-- Draining a stream to its end gives everything there was to be written. -/
theorem writing_of_drain {fuel rounds : Nat} {texts texts' : List String} {s : RenderStream}
    {w v : World} (hs : s.Steady w) (hopen : s.failed = false ∧ s.closed = false)
    (h : drain.go fuel rounds texts s w = some (texts', none, v)) :
    .text (texts.reverse.flatMap String.toList) ++ Work.writingAll s.stack =
      Writing.text (texts'.flatMap String.toList) := by
  induction rounds generalizing texts s w with
  | zero => cases h
  | succ rounds ih =>
    rw [drain.go] at h
    cases hawait : s.await fuel w with
    | none =>
      have hpull : s.pull fuel w = none := by
        unfold pull
        rw [hopen.2, hawait]
        rfl
      rw [hpull] at h
      cases h
    | some delivery =>
      obtain ⟨out, s', w'⟩ := delivery
      obtain ⟨hleaves, ⟨stack, rfl⟩, htasked⟩ := leaves_await hs hawait
      rw [pull_of_await hopen hawait] at h
      cases out with
      | failed error => cases h
      | ended =>
        cases h
        rw [Delivery.Leaves] at hleaves
        rw [hleaves, Writing.append_nil]
      | fragment text =>
        rw [Delivery.Leaves] at hleaves
        have hknown : Work.writingAll stack ≠ .unknown := by
          have hwhole := hs.known
          rw [hleaves] at hwhole
          exact (Writing.append_ne_unknown.mp hwhole).2
        have hrest := ih (s := { s with stack, failed := false }) ⟨htasked, hknown⟩ ⟨rfl, hopen.2⟩ h
        rw [hleaves, ← Writing.append_assoc, Writing.text_append_text, ← hrest, List.reverse_cons,
          List.flatMap_append, List.flatMap_singleton]

/-- The same for a stream that starts with one piece of work. -/
theorem writing_of_drain_start {fuel : Nat} {config : RenderConfig} {work : Work} {texts : List String}
    {w v : World} (htasked : ∀ bound, work.Tasked bound) (hknown : work.writing ≠ .unknown)
    (h : (start config [work] w).1.drain fuel (start config [work] w).2 = some (texts, none, v)) :
    work.writing = .text (texts.flatMap String.toList) := by
  have hsteady : (start config [work] w).1.Steady (start config [work] w).2 :=
    ⟨⟨htasked _, trivial⟩, (Work.writingAll_singleton work).symm ▸ hknown⟩
  rw [← Work.writingAll_singleton work, ← writing_of_drain hsteady ⟨rfl, rfl⟩ h]
  exact (Writing.nil_append _).symm

end RenderStream

/-- A root that is rendered into one text has come to write that text. -/
theorem Render.writing_of_toText {fuel : Nat} {config : RenderConfig} {value : Value} {w v : World}
    {text : String} (hknown : Outline.writingAll value.rootOutline ≠ .unknown)
    (h : toText fuel config value w = some (.ok text, v)) :
    Outline.writingAll value.rootOutline = .text text.toList := by
  unfold toText RenderStream.ofRoot at h
  dsimp only at h
  split at h
  · cases h
  · cases h
  · rename_i texts u hdrain
    cases h
    rw [String.toList_join]
    have htasked : ∀ bound, (Work.root value).Tasked bound := fun _ => trivial
    exact RenderStream.writing_of_drain_start htasked hknown hdrain

end TaggedMarkup
