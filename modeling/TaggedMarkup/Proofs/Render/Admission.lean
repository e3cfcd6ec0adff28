import TaggedMarkup.Proofs.Render.Steady

/-!
# Coming into a window, beginning and leaving

What is done to a list in work keeps it steady: members are drawn while there is room, the next one in the
queue has a turn, and what is through comes out at the front.

Whose turn it is either has begun before, or is the first of those that have not: the queue tells them in
the order in which they came.
-/

namespace TaggedMarkup

open World

section

variable {ahead mark due : Nat} {is : Option Nat} {w v : World} {l l' : Lineup} {nested : List Lineup}

/-- What has become of one list. -/
theorem Became.single (hv : v.Orderly ahead mark) (hspares : Spares mark [l.window] w v)
    (hsteady : l'.Steady mark (if is = some l.window then 1 else 0) v) (hwindow : l'.window = l.window) :
    Became ahead mark is [l] w [l'] v where
  orderly := hv
  spares := hspares
  settled := ⟨by simpa [hwindow] using hsteady, by simp⟩
  inside := by simp [Within, hwindow]

/-- A list changes, and those within it do not. -/
theorem Became.outer (h : Became ahead mark is [l] w [l'] v) (hall : Settled mark none w (l :: nested))
    (his : ∀ window, is = some window → window = l.window) :
    Became ahead mark is (l :: nested) w (l' :: nested) v :=
  h.within [] nested hall fun window hwindow => by simp [his window hwindow]

end

namespace World

variable {ahead mark window task : Nat} {waiting : List Nat} {w v : World}

/-! ## Changes of one window -/

theorem spares_modifyWindow (mark window : Nat) (f : WindowCell → WindowCell) (w : World) :
    Spares mark [window] w (w.modifyWindow window f) where
  grown := Nat.le_of_eq Array.size_modify.symm
  tasks := id
  passed _ _ _ := rfl
  waits {other tasks} hnot h := by
    obtain ⟨⟨cell, hcell, hqueue⟩, hqueued⟩ := h
    refine ⟨⟨cell, ?_, hqueue⟩, hqueued⟩
    rw [modifyWindow, Array.getElem?_modify, if_neg, hcell]
    exact fun hsame => hnot (hsame ▸ List.mem_singleton_self _)

theorem Orderly.modifyWindow (h : w.Orderly ahead mark) (window : Nat) (f : WindowCell → WindowCell) :
    (w.modifyWindow window f).Orderly ahead mark :=
  ⟨h.marked, h.orderly, fun other hother =>
    h.fresh other (Nat.le_trans (Nat.le_of_eq Array.size_modify.symm) hother)⟩

/-! ## Coming in -/

/-- Whoever comes in waits behind all others. -/
theorem Waits.enlist (h : w.Waits window waiting) (number : Nat) :
    (w.enlist window number).2.Waits window (waiting ++ [w.tasks.size]) := by
  obtain ⟨⟨cell, hcell, horder, hknown⟩, hqueued⟩ := h
  have hnew : w.tasks.size ∉ cell.queue := fun hmem => Nat.lt_irrefl _ (hknown _ hmem)
  constructor
  · refine ⟨{ cell with
      queue := cell.queue ++ [w.tasks.size], recent := w.tasks.size :: cell.recent }, ?_, ?_, ?_⟩
    · simp [World.enlist, modifyWindow, newTask, note, Array.getElem?_modify, hcell]
    · rw [List.filter_append]
      have hold : cell.queue.filter (· ∈ waiting ++ [w.tasks.size]) = cell.queue.filter (· ∈ waiting) := by
        refine List.filter_congr fun task htask => ?_
        have hne : task ≠ w.tasks.size := fun hsame => hnew (hsame ▸ htask)
        simp [hne]
      rw [hold, horder]
      simp
    · intro task htask
      rcases List.mem_append.mp htask with htask | htask
      · exact Nat.lt_of_lt_of_le (hknown task htask) (by simp [World.enlist, modifyWindow, newTask, note])
      · cases List.mem_singleton.mp htask
        simp [World.enlist, modifyWindow, newTask, note]
  · intro task htask
    rcases List.mem_append.mp htask with htask | htask
    · obtain ⟨c, hc, hrest⟩ := hqueued task htask
      have hlt := (Array.getElem?_eq_some_iff.mp hc).1
      refine ⟨c, ?_, hrest⟩
      simp [World.enlist, modifyWindow, newTask, note, Array.getElem?_push, Nat.ne_of_lt hlt, hc]
    · cases List.mem_singleton.mp htask
      exact ⟨{ window := some window, queued := true },
        by simp [World.enlist, modifyWindow, newTask, note], rfl, rfl⟩

theorem spares_enlist (hmark : mark ≤ w.log.length) (window number : Nat) :
    Spares mark [window] w (w.enlist window number).2 := by
  have hentered : Spares mark [window] w (w.note (.entered window number)) := spares_note hmark rfl
  have htask : Spares mark [window] (w.note (.entered window number))
      ((w.note (.entered window number)).newTask { window := some window, queued := true }).2 := by
    have hcalm := calm_newTask { window := some window, queued := true } (w.note (.entered window number))
    exact ⟨hcalm.windows, hcalm.tasks, fun _ _ _ => rfl, fun _ => hcalm.waits⟩
  exact (hentered.trans htask fun _ => .inl).trans (spares_modifyWindow ..) fun _ => .inl

theorem Orderly.enlist (h : w.Orderly ahead mark) (number : Nat) (hlt : window < w.windows.size)
    (hentered : number = count .entered window (w.since mark))
    (hroom : number < count .left window (w.since mark) + ahead) :
    (w.enlist window number).2.Orderly ahead mark := by
  have hnoted : (w.note (.entered window number)).Orderly ahead mark :=
    h.note ⟨hentered, hroom⟩ rfl hlt
  exact ((calm_newTask { window := some window, queued := true } _).orderly hnoted).modifyWindow ..

theorem isTaskOf_enlist (window number : Nat) (w : World) :
    (w.enlist window number).2.IsTaskOf (some window) w.tasks.size :=
  ⟨{ window := some window, queued := true }, by simp [World.enlist, modifyWindow, newTask, note], rfl⟩

/-! ## Having a turn -/

/-- The queue without its first task. -/
theorem waits_dequeue {next : List Nat} (h : w.Waits window waiting)
    (hdequeue : w.dequeue? window = some (task, v)) (hnext : ∀ task ∈ next, task ∈ waiting)
    (horder : ∀ queue : List Nat, (task :: queue).filter (· ∈ waiting) = waiting →
      queue.filter (· ∈ next) = next) : v.Waits window next := by
  obtain ⟨cell, queue, hcell, hqueue, rfl⟩ := dequeue?_eq_some hdequeue
  obtain ⟨⟨c, hc, hfilter, hknown⟩, hqueued⟩ := h
  rw [hcell, Option.some.injEq] at hc
  subst hc
  rw [hqueue] at hfilter hknown
  refine ⟨⟨{ cell with queue }, ?_, horder queue hfilter, fun n hn => hknown n (List.mem_cons_of_mem _ hn)⟩,
    fun n hn => hqueued n (hnext n hn)⟩
  rw [modifyWindow, Array.getElem?_modify, if_pos rfl, hcell, Option.map_some]

/-- If it is the turn of somebody else, everybody goes on waiting. -/
theorem Waits.dequeue_of_not_mem (h : w.Waits window waiting)
    (hdequeue : w.dequeue? window = some (task, v)) (htask : task ∉ waiting) : v.Waits window waiting := by
  refine waits_dequeue h hdequeue (fun _ => id) fun queue hfilter => ?_
  rwa [List.filter_cons_of_neg (by simpa using htask)] at hfilter

/-- If it is the turn of somebody who waits, then of the first, and the others go on waiting. -/
theorem Waits.dequeue_of_mem (h : w.Waits window waiting)
    (hdequeue : w.dequeue? window = some (task, v)) (htask : task ∈ waiting) :
    ∃ next, waiting = task :: next ∧ v.Waits window next := by
  obtain ⟨cell, queue, hcell, hqueue, -⟩ := dequeue?_eq_some hdequeue
  obtain ⟨c, hc, hfilter, -⟩ := h.queue
  rw [hcell, Option.some.injEq] at hc
  rw [← hc, hqueue, List.filter_cons_of_pos (by simpa using htask)] at hfilter
  refine ⟨queue.filter (· ∈ waiting), hfilter.symm, waits_dequeue h hdequeue ?_ fun rest hrest => ?_⟩
  · intro n hn
    exact of_decide_eq_true (List.mem_filter.mp hn).2
  · rw [List.filter_cons_of_pos (by simpa using htask)] at hrest
    have hsame : rest.filter (· ∈ waiting) = queue.filter (· ∈ waiting) :=
      (List.cons.inj (hrest.trans hfilter.symm)).2
    rw [← hsame]
    exact List.filter_congr fun n hn => by simp [hn]

theorem spares_dequeue (hdequeue : w.dequeue? window = some (task, v)) : Spares mark [window] w v := by
  obtain ⟨_, _, -, -, rfl⟩ := dequeue?_eq_some hdequeue
  exact spares_modifyWindow ..

theorem Orderly.dequeue (h : w.Orderly ahead mark) (hdequeue : w.dequeue? window = some (task, v)) :
    v.Orderly ahead mark := by
  obtain ⟨_, _, -, -, rfl⟩ := dequeue?_eq_some hdequeue
  exact h.modifyWindow ..

theorem since_dequeue (hdequeue : w.dequeue? window = some (task, v)) : v.since mark = w.since mark := by
  obtain ⟨_, _, -, -, rfl⟩ := dequeue?_eq_some hdequeue
  rfl

theorem isTaskOf_beginTurn {window : Option Nat} {other : Nat} (h : w.IsTaskOf window other) :
    (w.beginTurn task).IsTaskOf window other := by
  obtain ⟨cell, hcell, hwindow⟩ := h
  rw [IsTaskOf, beginTurn, modifyTask, Array.getElem?_modify, hcell]
  split
  · exact ⟨_, rfl, hwindow⟩
  · exact ⟨cell, rfl, hwindow⟩

/-- The turn of somebody else. -/
theorem Waits.beginTurn (h : w.Waits window waiting) (htask : task ∉ waiting) :
    (w.beginTurn task).Waits window waiting := by
  obtain ⟨⟨cell, hcell, horder, hknown⟩, hqueued⟩ := h
  refine ⟨⟨cell, hcell, horder, fun n hn => ?_⟩, fun n hn => ?_⟩
  · exact Nat.lt_of_lt_of_eq (hknown n hn) Array.size_modify.symm
  · obtain ⟨c, hc, hrest⟩ := hqueued n hn
    refine ⟨c, ?_, hrest⟩
    rw [World.beginTurn, modifyTask, Array.getElem?_modify, if_neg, hc]
    exact fun hsame => htask (hsame ▸ hn)

/-- The turn of a task spares other windows than its own. -/
theorem spares_beginTurn (own : Option Nat) (htask : w.IsTaskOf own task) :
    Spares mark own.toList w (w.beginTurn task) where
  grown := Nat.le_refl _
  tasks := isTaskOf_beginTurn
  passed _ _ _ := rfl
  waits {other waiting} hnot h := by
    refine h.beginTurn fun hmem => hnot ?_
    obtain ⟨cell, hcell, rfl⟩ := htask
    obtain ⟨cell', hcell', hother⟩ := h.isTaskOf hmem
    rw [hcell, Option.some.injEq] at hcell'
    rw [hcell', hother]
    exact List.mem_singleton_self other

theorem Orderly.beginTurn (h : w.Orderly ahead mark) (task : Nat) :
    (w.beginTurn task).Orderly ahead mark := ⟨h.marked, h.orderly, h.fresh⟩

end World

/-! ## Lists in work -/

theorem Member.Unbegun.not_isQuiet {window number : Nat} {members : List Member} {tasks : List Nat}
    (h : Unbegun window number members tasks) : ∀ member ∈ members, ¬ member.IsQuiet := by
  induction h with
  | nil => exact nofun
  | cons _ ih =>
    rw [List.forall_mem_cons]
    refine ⟨fun hquiet => ?_, ih⟩
    cases hquiet _ List.mem_cons_self

section

variable {ahead mark due : Nat} {is : Option Nat} {w v : World} {l l' : Lineup} {task : Nat}
  {fragments : List String} {stack : List Work}

/-- The list with a member that was drawn at its end. -/
def LineupOf.receive (task : Nat) (value : Value) (feed : Feed) (l : Lineup) : Lineup :=
  { l with
    feed
    members := l.members ++ [.running task [] [.note (.began l.window l.feed.index), .item value]] }

theorem LineupOf.all_receive (task : Nat) (value : Value) (feed : Feed) (l : Lineup) :
    (l.receive task value feed).all = l.receive task value feed :: Member.lineupsOfAll l.members := by
  simp [LineupOf.all, LineupOf.receive, Member.lineupsOfAll_append, Member.lineupsOfAll, Member.lineups,
    Work.lineupsOfAll, Work.lineups]

/-- A member that is drawn. -/
theorem LineupOf.Steady.receive (h : l.Steady mark 0 w) (hw : w.Orderly ahead mark) (value : Value)
    {feed : Feed} (hfeed : feed.index = l.feed.index + 1) :
    (l.receive w.tasks.size value feed).Steady mark 0 (w.enlist l.window l.feed.index).2 := by
  obtain ⟨hentered, hleft, hnodup, howned, begun, unbegun, waiting, hmembers, hquiet, hunbegun, hlength,
    hwaits⟩ := h
  have hsince : (w.enlist l.window l.feed.index).2.since mark =
      (w.clock, .entered l.window l.feed.index) :: w.since mark := since_note _ hw.marked
  have htasks : Member.tasks (l.receive w.tasks.size value feed).members =
      Member.tasks l.members ++ [w.tasks.size] := by
    rw [LineupOf.receive, Member.tasks, List.filterMap_append]
    rfl
  have hconcat := hunbegun.concat w.tasks.size value
  rw [hlength] at hconcat
  constructor
  · simp [LineupOf.receive, hsince, count_cons, Event.passing?, hentered, hfeed]
  · simp [LineupOf.receive, hsince, count_cons, Event.passing?, hfeed]
    omega
  · rw [htasks, List.nodup_append]
    refine ⟨hnodup, by simp, fun task htask other hother => ?_⟩
    cases List.mem_singleton.mp hother
    exact Nat.ne_of_lt (howned task htask).lt_size
  · intro task htask
    rw [htasks] at htask
    rcases List.mem_append.mp htask with htask | htask
    · exact (spares_enlist hw.marked l.window l.feed.index).tasks (howned task htask)
    · cases List.mem_singleton.mp htask
      exact isTaskOf_enlist ..
  · refine ⟨begun, unbegun ++ [.running w.tasks.size [] [.note (.began l.window l.feed.index), .item value]],
      waiting ++ [w.tasks.size], ?_, hquiet, ?_, ?_, hwaits.enlist l.feed.index⟩
    · rw [LineupOf.receive, hmembers, List.append_assoc]
    · simpa [LineupOf.receive, hsince, count_cons, Event.passing?] using hconcat
    · simp [LineupOf.receive, hsince, count_cons, Event.passing?, hfeed]
      omega

/-- A member is drawn while there is room. -/
theorem Settled.receive (h : Settled mark none w l.all) (hw : w.Orderly ahead mark) (value : Value)
    {feed : Feed} (hfeed : feed.index = l.feed.index + 1) (hroom : l.members.length < ahead) :
    Became ahead mark none l.all w (l.receive w.tasks.size value feed).all
      (w.enlist l.window l.feed.index).2 := by
  have hsteady : l.Steady mark 0 w := h.steady l List.mem_cons_self
  have hv := hw.enlist l.feed.index hsteady.lt_size hsteady.entered.symm
    (by have := hsteady.left; omega)
  rw [LineupOf.all_receive]
  exact Became.outer (.single hv (spares_enlist hw.marked ..) (hsteady.receive hw value hfeed) rfl) h nofun

/-- A list with another feed that has come as far. -/
theorem Settled.feed (h : Settled mark none w l.all) (hw : w.Orderly ahead mark) {feed : Feed}
    (hfeed : feed.index = l.feed.index) :
    Became ahead mark none l.all w (LineupOf.all { l with feed }) w := by
  have hsteady : l.Steady mark 0 w := h.steady l List.mem_cons_self
  obtain ⟨hentered, hleft, hnodup, howned, hsplit⟩ := hsteady
  refine Became.outer (.single hw (.refl ..) ⟨?_, ?_, hnodup, howned, ?_⟩ rfl) h nofun
  · exact hentered.trans hfeed.symm
  · exact hleft.trans hfeed.symm
  · dsimp only
    rw [hfeed]
    exact hsplit

theorem Feed.index_draw (task : Nat) (f : Feed) (w : World) :
    (f.draw task w).2.1.index = f.index + (match (f.draw task w).1 with | .member _ => 1 | _ => 0) := by
  unfold Feed.draw
  split
  · rfl
  · dsimp only
    split
    · split <;> rfl
    · split <;> rfl

/-- Members come in while there is room. -/
theorem Settled.draw (owner : Nat) {room : Nat} (h : Settled mark none w l.all) (hw : w.Orderly ahead mark)
    (hroom : room ≤ ahead - l.members.length) :
    Became ahead mark none l.all w (l.draw owner room w).1.all (l.draw owner room w).2 ∧
      (l.draw owner room w).1.window = l.window := by
  induction room generalizing l w with
  | zero => exact ⟨h.calm hw (.refl w), rfl⟩
  | succ room ih =>
    have hcalm := Feed.calm_draw w owner l.feed
    have hindex := Feed.index_draw owner l.feed w
    rw [LineupOf.draw]
    split
    · rename_i value feed u heq
      rw [heq] at hcalm hindex
      have hdrawn := h.calm hw hcalm
      have hin := hdrawn.settled.receive hdrawn.orderly value hindex (by omega)
      obtain ⟨hmore, hwindow⟩ := ih hin.settled hin.orderly (by simp [LineupOf.receive]; omega)
      exact ⟨hdrawn.trans (hin.trans hmore), hwindow⟩
    · rename_i draw feed u hother heq
      rw [heq] at hcalm hindex
      have hsame : feed.index = l.feed.index := by
        cases draw with
        | member value => exact (hother value rfl).elim
        | _ => exact hindex
      have hdrawn := h.calm hw hcalm
      exact ⟨hdrawn.trans (hdrawn.settled.feed hdrawn.orderly hsame), rfl⟩

/-- The first member comes out if it is through. -/
theorem Settled.front (h : Settled mark none w l.all) (hw : w.Orderly ahead mark) {member : Nat}
    (hfront : l.front? = some (.through member fragments, l')) :
    Became ahead mark (some l.window) l.all w l'.all w ∧
      member = count .left l.window (w.since mark) ∧ l'.window = l.window := by
  have hsteady : l.Steady mark 0 w := h.steady l List.mem_cons_self
  obtain ⟨hentered, hleft, hnodup, howned, begun, unbegun, waiting, hmembers, hquiet, hunbegun, hlength,
    hwaits⟩ := hsteady
  unfold LineupOf.front? at hfront
  split at hfront
  · rename_i rest hfirst
    cases hfront
    -- the first member has begun, so those that have not are among the others
    obtain ⟨begun, rfl⟩ : ∃ others, begun = .finished fragments :: others := by
      rw [hfirst] at hmembers
      cases begun with
      | nil =>
        rw [List.nil_append] at hmembers
        rw [← hmembers] at hunbegun
        cases hunbegun
      | cons first others => exact ⟨others, by rw [(List.cons.inj hmembers).1]⟩
    rw [List.forall_mem_cons] at hquiet
    rw [hfirst] at hmembers hleft hnodup howned
    have hsteady : LineupOf.Steady mark 1 w { l with members := rest } := by
      refine ⟨hentered, ?_, hnodup, howned, begun, unbegun, waiting, (List.cons.inj hmembers).2, hquiet.2,
        hunbegun, hlength, hwaits⟩
      rw [List.length_cons] at hleft
      dsimp only
      omega
    have hone : Became ahead mark (some l.window) [l] w [{ l with members := rest }] w :=
      .single hw (.refl ..) (by simpa using hsteady) rfl
    have hnested : Member.lineupsOfAll l.members = Member.lineupsOfAll rest := by
      simp [hfirst, Member.lineupsOfAll, Member.lineups]
    refine ⟨?_, ?_, rfl⟩
    · rw [LineupOf.all] at h ⊢
      rw [hnested] at h ⊢
      exact hone.outer h fun window hwindow => (Option.some.inj hwindow).symm
    · rw [LineupOf.first, hfirst]
      omega
  · cases hfront
  · cases hfront

/-- The task of a member that is found. -/
theorem LineupOf.mem_tasks_of_find? (h : l.find? task = some (fragments, stack)) :
    task ∈ Member.tasks l.members := by
  obtain ⟨before, after, hmembers⟩ := LineupOf.find?_eq_some h
  rw [hmembers]
  exact List.mem_filterMap.mpr ⟨_, List.mem_append_right _ List.mem_cons_self, rfl⟩

/-- Every task of a member is found. -/
theorem LineupOf.find?_isSome (h : task ∈ Member.tasks l.members) : (l.find? task).isSome := by
  obtain ⟨member, hmember, htask⟩ := List.mem_filterMap.mp h
  cases member with
  | running number fragments stack =>
    cases htask
    have hsome : (l.members.find? (Member.isTask task)).isSome :=
      List.find?_isSome.mpr ⟨_, hmember, beq_self_eq_true task⟩
    obtain ⟨found, hfound⟩ := Option.isSome_iff_exists.mp hsome
    have htask := List.find?_some hfound
    cases found with
    | running => rw [LineupOf.find?, hfound, Option.isSome_some]
    | finished | failed => cases htask
  | finished | failed => cases htask

/-- A member is found by its task, which no other member has. -/
theorem LineupOf.find?_of_members (hnodup : (Member.tasks l.members).Nodup)
    {before after : List Member}
    (hmembers : l.members = before ++ .running task fragments stack :: after) :
    l.find? task = some (fragments, stack) := by
  rw [hmembers, Member.tasks, List.filterMap_append, List.nodup_append] at hnodup
  obtain ⟨-, -, hdisjoint⟩ := hnodup
  have hbefore : before.find? (Member.isTask task) = none := by
    refine List.find?_eq_none.mpr fun m hm htask => ?_
    cases m with
    | running number _ _ =>
      exact hdisjoint number (List.mem_filterMap.mpr ⟨_, hm, rfl⟩) task
        (List.mem_filterMap.mpr ⟨_, List.mem_cons_self, rfl⟩) (eq_of_beq htask)
    | finished | failed => cases htask
  have hself : (Member.running task fragments stack).isTask task = true := beq_self_eq_true task
  rw [LineupOf.find?, hmembers, List.find?_append, hbefore, List.find?_cons, hself]
  rfl

/-- In a queue there may be tasks of members that are through; nothing comes of them. -/
theorem Settled.skip (h : Settled mark none w l.all) (hw : w.Orderly ahead mark)
    (hdequeue : w.dequeue? l.window = some (task, v)) (hfind : l.find? task = none) :
    Became ahead mark none l.all w l.all v := by
  have hsteady : l.Steady mark 0 w := h.steady l List.mem_cons_self
  obtain ⟨hentered, hleft, hnodup, howned, begun, unbegun, waiting, hmembers, hquiet, hunbegun, hlength,
    hwaits⟩ := hsteady
  have hnot : task ∉ waiting := by
    intro hmem
    have hsome : task ∈ Member.tasks l.members := by
      rw [hmembers, Member.tasks, List.filterMap_append]
      rw [← hunbegun.tasks_eq] at hmem
      exact List.mem_append_right _ hmem
    have hfound := LineupOf.find?_isSome hsome
    rw [hfind] at hfound
    cases hfound
  have hspares : Spares mark [l.window] w v := spares_dequeue hdequeue
  have hsame : v.since mark = w.since mark := since_dequeue hdequeue
  refine Became.outer (.single (hw.dequeue hdequeue) hspares ?_ rfl) h fun _ hdue => by cases hdue
  refine ⟨hsame ▸ hentered, hsame ▸ hleft, hnodup, fun task htask => hspares.tasks (howned task htask),
    begun, unbegun, waiting, hmembers, hquiet, ?_, ?_, hwaits.dequeue_of_not_mem hdequeue hnot⟩
  · rw [hsame]
    exact hunbegun
  · rw [hsame]
    exact hlength

/-- A member further on takes the place of one that has begun. -/
theorem LineupOf.Steady.replace (h : l.Steady mark due w) {before after : List Member}
    (hmembers : l.members = before ++ .running task fragments stack :: after)
    (hstack : Work.IsQuiet stack) {member : Member} (hmember : member.IsQuiet)
    (htask : member.task? = some task ∨ member.task? = none) :
    (l.replace task member).Steady mark due w := by
  obtain ⟨hentered, hleft, hnodup, howned, begun, unbegun, waiting, hsplit, hquiet, hunbegun, hlength,
    hwaits⟩ := h
  have hreplaced := LineupOf.members_replace hnodup hmembers member
  have hsublist : (Member.tasks (l.replace task member).members).Sublist (Member.tasks l.members) := by
    rw [hreplaced, hmembers, Member.tasks, Member.tasks, List.filterMap_append, List.filterMap_append,
      List.filterMap_cons, List.filterMap_cons]
    rcases htask with htask | htask
    · rw [htask]
      exact List.Sublist.refl _
    · rw [htask]
      exact (List.sublist_cons_self ..).append_left _
  have hquiet' : (Member.running task fragments stack).IsQuiet := hstack
  obtain ⟨others, hbegun, hafter⟩ : ∃ others, begun = before ++ .running task fragments stack :: others ∧
      after = others ++ unbegun := by
    rw [hmembers] at hsplit
    rcases List.append_eq_append_iff.mp hsplit with ⟨between, hbegun, hrest⟩ | ⟨between, -, hrest⟩
    · cases between with
      | nil =>
        rw [List.nil_append] at hrest
        exact absurd hquiet' (hunbegun.not_isQuiet _ (hrest ▸ List.mem_cons_self))
      | cons first others =>
        obtain ⟨rfl, hafter⟩ := List.cons.inj hrest
        exact ⟨others, hbegun, hafter⟩
    · exact absurd hquiet' (hunbegun.not_isQuiet _ (hrest ▸ List.mem_append_right _ List.mem_cons_self))
  have hlength' : (l.replace task member).members.length = l.members.length := by
    rw [hreplaced, hmembers, List.length_append, List.length_append, List.length_cons, List.length_cons]
  refine ⟨hentered, hlength'.symm ▸ hleft, hnodup.sublist hsublist,
    fun n hn => howned n (hsublist.subset hn), before ++ member :: others, unbegun, waiting, ?_, ?_,
    hunbegun, hlength, hwaits⟩
  · rw [hreplaced, hafter, List.append_assoc]
    rfl
  · rw [hbegun] at hquiet
    intro m hm
    rcases List.mem_append.mp hm with hm | hm
    · exact hquiet m (List.mem_append_left _ hm)
    · rcases List.mem_cons.mp hm with rfl | hm
      · exact hmember
      · exact hquiet m (List.mem_append_right _ (List.mem_cons_of_mem _ hm))

theorem LineupOf.all_of_members {before after : List Member} {member : Member}
    (h : l.members = before ++ member :: after) :
    l.all = (l :: Member.lineupsOfAll before) ++ member.lineups ++ Member.lineupsOfAll after := by
  simp [LineupOf.all, h, Member.lineupsOfAll_append, Member.lineupsOfAll]

/-- A member that has begun had a turn. -/
theorem Settled.replace (h : Settled mark none w l.all) {before after : List Member}
    (hmembers : l.members = before ++ .running task fragments stack :: after)
    (hstack : Work.IsQuiet stack) {member : Member} (hmember : member.IsQuiet)
    (htask : member.task? = some task ∨ member.task? = none)
    (hturn : Became ahead mark none (Work.lineupsOfAll stack) w member.lineups v) :
    Became ahead mark none l.all w (l.replace task member).all v := by
  have hsteady : l.Steady mark 0 w := h.steady l List.mem_cons_self
  have hreplaced := LineupOf.members_replace hsteady.tasks hmembers member
  rw [LineupOf.all_of_members hmembers] at h ⊢
  rw [LineupOf.all_of_members hreplaced]
  have hinner := hturn.within _ _ h nofun
  have hkept : l.Steady mark 0 v := hinner.settled.steady l (by simp)
  have hsame : Became ahead mark none [l] v [l.replace task member] v :=
    .single hinner.orderly (.refl ..) (hkept.replace hmembers hstack hmember htask) rfl
  exact hinner.trans (hsame.outer hinner.settled nofun)

/-- The turn of a member either begins where the last one ended, or is its first: then the member has not
begun, but those before it have. -/
theorem Settled.start (h : Settled mark none w l.all) (hw : w.Orderly ahead mark)
    (hdequeue : w.dequeue? l.window = some (task, v))
    (hfind : l.find? task = some (fragments, stack)) :
    (Work.IsQuiet stack ∧ Became ahead mark none l.all w l.all (v.beginTurn task)) ∨
      ∃ number value, fragments = [] ∧ stack = [.note (.began l.window number), .item value] ∧
        Became ahead mark none l.all w (l.replace task (.running task [] [.item value])).all
          ((v.beginTurn task).note (.began l.window number)) := by
  have hsteady : l.Steady mark 0 w := h.steady l List.mem_cons_self
  obtain ⟨hentered, hleft, hnodup, howned, begun, unbegun, waiting, hsplit, hquiet, hunbegun, hlength,
    hwaits⟩ := hsteady
  have htask := LineupOf.mem_tasks_of_find? hfind
  obtain ⟨before, after, hmembers⟩ := LineupOf.find?_eq_some hfind
  -- the turn as such spares the other windows
  have hdequeued : Spares mark [l.window] w v := spares_dequeue hdequeue
  have hbegun : Spares mark [l.window] v (v.beginTurn task) :=
    spares_beginTurn (some l.window) (hdequeued.tasks (howned task htask))
  have hspares := hdequeued.trans hbegun fun _ => .inl
  have horderly := (hw.dequeue hdequeue).beginTurn task
  have hsame : (v.beginTurn task).since mark = w.since mark :=
    show v.since mark = w.since mark from since_dequeue hdequeue
  by_cases hmem : task ∈ waiting
  · right
    have hwaiting : waiting.Nodup := by
      rw [hsplit, Member.tasks, List.filterMap_append] at hnodup
      exact hunbegun.tasks_eq ▸ (List.nodup_append.mp hnodup).2.1
    obtain ⟨next, rfl, hnext⟩ := hwaits.dequeue_of_mem hdequeue hmem
    have hother : task ∉ next := (List.nodup_cons.mp hwaiting).1
    generalize hnumber : count .began l.window (w.since mark) = number at hunbegun hlength
    cases hunbegun with
    | @cons _ _ value unbegun _ hrest =>
      -- the member that was found is the first of those that have not begun
      have hfirst := LineupOf.find?_of_members hnodup hsplit
      rw [hfind] at hfirst
      cases hfirst
      have hreplaced := LineupOf.members_replace hnodup hsplit (.running task [] [.item value])
      have hnoted : ((v.beginTurn task).note (.began l.window number)).since mark =
          ((v.beginTurn task).clock, .began l.window number) :: w.since mark := by
        rw [since_note _ horderly.marked, hsame]
      have hlt : l.window < (v.beginTurn task).windows.size :=
        Nat.lt_of_lt_of_le hwaits.lt_size hspares.grown
      rw [List.length_cons] at hlength
      have hadmissible : (Event.began l.window number).Admissible ahead
          ((v.beginTurn task).since mark) := by
        rw [hsame]
        exact ⟨hnumber.symm, by omega⟩
      have htasks : Member.tasks (l.replace task (.running task [] [.item value])).members =
          Member.tasks l.members := by
        rw [hreplaced, hsplit, Member.tasks, Member.tasks, List.filterMap_append, List.filterMap_append]
        rfl
      have hnested : Member.lineupsOfAll (l.replace task (.running task [] [.item value])).members =
          Member.lineupsOfAll l.members := by
        simp [hreplaced, hsplit, Member.lineupsOfAll_append, Member.lineupsOfAll, Member.lineups,
          Work.lineupsOfAll, Work.lineups]
      refine ⟨number, value, rfl, rfl, ?_⟩
      have hone : Became ahead mark none [l] w [l.replace task (.running task [] [.item value])]
          ((v.beginTurn task).note (.began l.window number)) := by
        refine .single (horderly.note hadmissible rfl hlt)
          (hspares.trans (spares_note horderly.marked rfl) fun _ => .inl) ?_ rfl
        refine ⟨?_, ?_, htasks ▸ hnodup, fun n hn => ?_, begun ++ [.running task [] [.item value]],
          unbegun, next, ?_, ?_, ?_, ?_, ?_⟩
        · simpa [LineupOf.replace, hnoted, count_cons, Event.passing?] using hentered
        · simpa [LineupOf.replace, hnoted, count_cons, Event.passing?] using hleft
        · exact hspares.tasks (howned n (htasks ▸ hn))
        · rw [hreplaced, List.append_assoc]
          rfl
        · intro m hm
          rcases List.mem_append.mp hm with hm | hm
          · exact hquiet m hm
          · cases List.mem_singleton.mp hm
            intro work hwork
            cases List.mem_singleton.mp hwork
            rfl
        · simpa [LineupOf.replace, hnoted, count_cons, Event.passing?, hnumber] using hrest
        · simp [LineupOf.replace, hnoted, count_cons, Event.passing?, hnumber]
          omega
        · have hbegun' := hnext.beginTurn hother
          exact ⟨hbegun'.queue, hbegun'.queued⟩
      have hall := hone.outer h fun _ hdue => by cases hdue
      rw [← hnested] at hall
      rw [LineupOf.all, ← hnested]
      exact hall
  · left
    constructor
    · have hmember : Member.running task fragments stack ∈ begun ++ unbegun := by
        rw [← hsplit, hmembers]
        exact List.mem_append_right _ List.mem_cons_self
      rcases List.mem_append.mp hmember with hbegun | hunbegun'
      · exact hquiet _ hbegun
      · refine absurd ?_ hmem
        rw [← hunbegun.tasks_eq]
        exact List.mem_filterMap.mpr ⟨_, hunbegun', rfl⟩
    · refine Became.outer (.single horderly hspares ?_ rfl) h fun _ hdue => by cases hdue
      refine ⟨hsame ▸ hentered, hsame ▸ hleft, hnodup, fun n hn => hspares.tasks (howned n hn),
        begun, unbegun, waiting, hsplit, hquiet, ?_, ?_,
        (hwaits.dequeue_of_not_mem hdequeue hmem).beginTurn hmem⟩
      · rw [hsame]
        exact hunbegun
      · rw [hsame]
        exact hlength

end

end TaggedMarkup
