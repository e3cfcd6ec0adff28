import TaggedMarkup.Proofs.Render.Passages

/-!
# Steady lists in work

A list in work is **steady** if the log agrees with what it looks like: the members that entered its window
are those that were drawn, those that have not left are there, and those that have not begun stand at its
end, untouched, and wait in the queue.

Whatever happens to other windows leaves it steady. So the lists in work within a stack, or within a member,
may be looked at on their own: what becomes of them is put back among those around them (`Became.within`).
-/

namespace TaggedMarkup

namespace World

/-- What the log says since it had `mark` entries. -/
def since (mark : Nat) (w : World) : List (Nat × Event) := w.log.take (w.log.length - mark)

/-- The log has been orderly since the mark, and says nothing about windows that are not there. -/
structure Orderly (ahead mark : Nat) (w : World) : Prop where
  marked : mark ≤ w.log.length
  orderly : TaggedMarkup.Orderly ahead (w.since mark)
  fresh : ∀ window ≥ w.windows.size, ∀ passage, passed passage window (w.since mark) = []

/-- In other windows than these, nobody passed and whoever waited waits. -/
structure Spares (mark : Nat) (windows : List Nat) (w v : World) : Prop where
  grown : w.windows.size ≤ v.windows.size
  tasks : ∀ {window : Option Nat} {task : Nat}, w.IsTaskOf window task → v.IsTaskOf window task
  passed : ∀ {window : Nat}, window ∉ windows → window < w.windows.size → ∀ passage,
    passed passage window (v.since mark) = passed passage window (w.since mark)
  waits : ∀ {window : Nat} {tasks : List Nat}, window ∉ windows → w.Waits window tasks →
    v.Waits window tasks

variable {w v u : World} {ahead mark : Nat} {windows more : List Nat}

theorem since_append (new : List (Nat × Event)) (h : v.log = new ++ w.log)
    (hmark : mark ≤ w.log.length) : v.since mark = new ++ w.since mark := by
  rw [since, since, h, List.length_append, Nat.add_sub_assoc hmark, List.take_length_add_append]

theorem since_mark {start : World} {new : List (Nat × Event)} (h : w.log = new ++ start.log) :
    w.since start.mark = new := by
  rw [since, h, mark, List.length_append, Nat.add_sub_cancel, List.take_left]

theorem since_note (event : Event) (hmark : mark ≤ w.log.length) :
    (w.note event).since mark = (w.clock, event) :: w.since mark :=
  since_append [(w.clock, event)] rfl hmark

theorem Spares.refl (mark : Nat) (windows : List Nat) (w : World) : Spares mark windows w w :=
  ⟨Nat.le_refl _, id, fun _ _ _ => rfl, fun _ => id⟩

/-- Windows that came up in between do not count. -/
theorem Spares.trans (h : Spares mark windows w v) (h' : Spares mark more v u)
    (hmore : ∀ window ∈ more, window ∈ windows ∨ w.windows.size ≤ window) :
    Spares mark windows w u where
  grown := Nat.le_trans h.grown h'.grown
  tasks htask := h'.tasks (h.tasks htask)
  passed {window} hnot hlt passage := by
    have hnot' : window ∉ more := fun hmem =>
      (hmore window hmem).elim hnot fun hle => Nat.lt_irrefl _ (Nat.lt_of_lt_of_le hlt hle)
    rw [h'.passed hnot' (Nat.lt_of_lt_of_le hlt h.grown), h.passed hnot hlt]
  waits {window tasks} hnot hwaits := by
    have hnot' : window ∉ more := fun hmem =>
      (hmore window hmem).elim hnot fun hle => Nat.lt_irrefl _ (Nat.lt_of_lt_of_le hwaits.lt_size hle)
    exact h'.waits hnot' (h.waits hnot hwaits)

theorem Spares.mono (h : Spares mark windows w v) (hsub : ∀ window ∈ windows, window ∈ more) :
    Spares mark more w v where
  grown := h.grown
  tasks := h.tasks
  passed hnot hlt := h.passed (fun hmem => hnot (hsub _ hmem)) hlt
  waits hnot hwaits := h.waits (fun hmem => hnot (hsub _ hmem)) hwaits

theorem Calm.passed (h : Calm w v) (hmark : mark ≤ w.log.length) (passage : Passage) (window : Nat) :
    passed passage window (v.since mark) = passed passage window (w.since mark) := by
  obtain ⟨new, hnew, hcalm⟩ := h.log
  rw [since_append _ hnew hmark, passed_append hcalm]

theorem Calm.spares (h : Calm w v) (hw : w.Orderly ahead mark) (windows : List Nat) :
    Spares mark windows w v :=
  ⟨h.windows, h.tasks, fun _ _ passage => h.passed hw.marked passage _, fun _ => h.waits⟩

theorem Calm.orderly (h : Calm w v) (hw : w.Orderly ahead mark) : v.Orderly ahead mark := by
  obtain ⟨new, hnew, hcalm⟩ := h.log
  refine ⟨?_, ?_, fun window hwindow passage => ?_⟩
  · rw [hnew, List.length_append]
    exact Nat.le_trans hw.marked (Nat.le_add_left ..)
  · rw [since_append _ hnew hw.marked]
    exact hw.orderly.append hcalm
  · rw [h.passed hw.marked]
    exact hw.fresh window (Nat.le_trans h.windows hwindow) passage

/-- An admissible event about a window that is there. -/
theorem Orderly.note (h : w.Orderly ahead mark) {event : Event} {window : Nat}
    (hevent : event.Admissible ahead (w.since mark)) (hwindow : event.window? = some window)
    (hlt : window < w.windows.size) : (w.note event).Orderly ahead mark := by
  refine ⟨Nat.le_succ_of_le h.marked, ?_, fun other hother passage => ?_⟩
  · rw [since_note event h.marked]
    exact ⟨hevent, h.orderly⟩
  · rw [since_note event h.marked, passed_cons_of_ne ?_]
    · exact h.fresh other hother passage
    · rw [hwindow]
      rintro ⟨⟩
      exact Nat.lt_irrefl _ (Nat.lt_of_lt_of_le hlt hother)

/-- An event about a window spares the others. -/
theorem spares_note {event : Event} {window : Nat} (hmark : mark ≤ w.log.length)
    (hwindow : event.window? = some window) : Spares mark [window] w (w.note event) where
  grown := Nat.le_refl _
  tasks := id
  passed {other} hnot _ passage := by
    rw [since_note event hmark, passed_cons_of_ne]
    rw [hwindow]
    rintro ⟨⟩
    exact hnot (List.mem_singleton_self _)
  waits _ h := ⟨h.queue, h.queued⟩

end World

open World

/-! ## Members that have not begun -/

/-- These members of the window, from this number on, have not begun; these are their tasks. -/
inductive Member.Unbegun (window : Nat) : Nat → List Member → List Nat → Prop
  | nil {number : Nat} : Unbegun window number [] []
  | cons {number task : Nat} {value : Value} {members : List Member} {tasks : List Nat}
    (h : Unbegun window (number + 1) members tasks) :
      Unbegun window number
        (.running task [] [.note (.began window number), .item value] :: members) (task :: tasks)

/-- No event is waiting to be written down. -/
def Work.IsQuiet (stack : List Work) : Prop := ∀ work ∈ stack, work.isNote = false

/-- No event is waiting to be written down for the member. -/
def Member.IsQuiet : Member → Prop
  | .running _ _ stack => Work.IsQuiet stack
  | _ => True

mutual

/-- The lists in work, from the outside in. -/
def Work.lineups : Work → List Lineup
  | .ahead l => l :: Member.lineupsOfAll l.members
  | _ => []

def Work.lineupsOfAll : List Work → List Lineup
  | [] => []
  | work :: rest => work.lineups ++ Work.lineupsOfAll rest

def Member.lineups : Member → List Lineup
  | .running _ _ stack => Work.lineupsOfAll stack
  | _ => []

def Member.lineupsOfAll : List Member → List Lineup
  | [] => []
  | member :: rest => member.lineups ++ Member.lineupsOfAll rest

end

/-- A list in work and those within it. -/
def LineupOf.all (l : Lineup) : List Lineup := l :: Member.lineupsOfAll l.members

theorem Work.lineupsOfAll_append (stack more : List Work) :
    Work.lineupsOfAll (stack ++ more) = Work.lineupsOfAll stack ++ Work.lineupsOfAll more := by
  induction stack with
  | nil => rfl
  | cons work rest ih => rw [List.cons_append, Work.lineupsOfAll, Work.lineupsOfAll, ih, List.append_assoc]

theorem Member.lineupsOfAll_append (members more : List Member) :
    Member.lineupsOfAll (members ++ more) = Member.lineupsOfAll members ++ Member.lineupsOfAll more := by
  induction members with
  | nil => rfl
  | cons member rest ih =>
    rw [List.cons_append, Member.lineupsOfAll, Member.lineupsOfAll, ih, List.append_assoc]

namespace Member.Unbegun

variable {window number : Nat} {members : List Member} {tasks : List Nat}

theorem tasks_eq (h : Unbegun window number members tasks) : Member.tasks members = tasks := by
  induction h with
  | nil => rfl
  | cons _ ih => rw [Member.tasks, List.filterMap_cons, task?, ← ih]

/-- One more at the end. -/
theorem concat (h : Unbegun window number members tasks) (task : Nat) (value : Value) :
    Unbegun window number
      (members ++ [.running task [] [.note (.began window (number + members.length)), .item value]])
      (tasks ++ [task]) := by
  induction h with
  | nil => exact .cons .nil
  | @cons number _ _ members _ _ ih =>
    rw [Nat.add_right_comm, Nat.add_assoc] at ih
    exact .cons ih

end Member.Unbegun

/-! ## Steady lists -/

/-- The log agrees with the list in work; the last member to come out, if it is `due`, has not left. -/
structure LineupOf.Steady (mark due : Nat) (w : World) (l : Lineup) : Prop where
  entered : count .entered l.window (w.since mark) = l.feed.index
  left : count .left l.window (w.since mark) + due + l.members.length = l.feed.index
  tasks : (Member.tasks l.members).Nodup
  owned : ∀ task ∈ Member.tasks l.members, w.IsTaskOf (some l.window) task
  split : ∃ begun unbegun waiting, l.members = begun ++ unbegun ∧ (∀ m ∈ begun, m.IsQuiet) ∧
    Member.Unbegun l.window (count .began l.window (w.since mark)) unbegun waiting ∧
    count .began l.window (w.since mark) + unbegun.length = l.feed.index ∧ w.Waits l.window waiting

/-- Lists in work that are steady, each with a window of its own; in one window a member may be due. -/
structure Settled (mark : Nat) (due : Option Nat) (w : World) (ls : List Lineup) : Prop where
  steady : ∀ l ∈ ls, l.Steady mark (if due = some l.window then 1 else 0) w
  nodup : (ls.map (·.window)).Nodup

/-- Something was done to these lists in work, and to no others. -/
structure Moved (ahead mark : Nat) (ls : List Lineup) (w v : World) : Prop where
  orderly : v.Orderly ahead mark
  spares : Spares mark (ls.map (·.window)) w v

/-- These windows are among those of the lists before, or have come up since. -/
def Within (before : List Lineup) (size : Nat) (after : List Lineup) : Prop :=
  ∀ l ∈ after, l.window ∈ before.map (·.window) ∨ size ≤ l.window

/-- What these lists in work have become. -/
structure Became (ahead mark : Nat) (due : Option Nat) (before : List Lineup) (w : World)
    (after : List Lineup) (v : World) : Prop extends Moved ahead mark before w v where
  settled : Settled mark due v after
  inside : Within before w.windows.size after

section

variable {ahead mark : Nat} {was is : Option Nat} {w v u : World} {l : Lineup}
  {before between after front back : List Lineup}

theorem LineupOf.Steady.lt_size {due : Nat} (h : l.Steady mark due w) : l.window < w.windows.size := by
  obtain ⟨_, _, _, -, -, -, -, hwaits⟩ := h.split
  exact hwaits.lt_size

/-- What happens in other windows leaves a list steady. -/
theorem LineupOf.Steady.spared {due : Nat} (h : l.Steady mark due w) {windows : List Nat}
    (hspares : Spares mark windows w v) (hnot : l.window ∉ windows) : l.Steady mark due v := by
  have hcount : ∀ passage, count passage l.window (v.since mark) =
      count passage l.window (w.since mark) := fun passage =>
    congrArg List.length (hspares.passed hnot h.lt_size passage)
  obtain ⟨begun, unbegun, waiting, hmembers, hquiet, hunbegun, hlength, hwaits⟩ := h.split
  refine ⟨(hcount _).trans h.entered, ?_, h.tasks, fun task htask => hspares.tasks (h.owned task htask),
    begun, unbegun, waiting, hmembers, hquiet, ?_, ?_, hspares.waits hnot hwaits⟩
  · rw [hcount]
    exact h.left
  · rw [hcount]
    exact hunbegun
  · rw [hcount]
    exact hlength

theorem settled_nil (mark : Nat) (due : Option Nat) (w : World) : Settled mark due w [] :=
  ⟨nofun, List.nodup_nil⟩

theorem Within.refl (ls : List Lineup) (size : Nat) : Within ls size ls :=
  fun _ hl => .inl (List.mem_map_of_mem hl)

theorem Within.trans {size more : Nat} (h : Within before size between)
    (h' : Within between more after) (hle : size ≤ more) : Within before size after := by
  intro l hl
  rcases h' l hl with hmem | hnew
  · obtain ⟨k, hk, hsame⟩ := List.mem_map.mp hmem
    exact hsame ▸ h k hk
  · exact .inr (Nat.le_trans hle hnew)

/-- Nothing was done. -/
theorem Moved.refl (h : w.Orderly ahead mark) (ls : List Lineup) : Moved ahead mark ls w w :=
  ⟨h, .refl ..⟩

/-- First one thing is done, then another one to what has become of the lists. -/
theorem Moved.trans (h : Moved ahead mark before w v) (hinside : Within before w.windows.size between)
    (h' : Moved ahead mark between v u) : Moved ahead mark before w u where
  orderly := h'.orderly
  spares := h.spares.trans h'.spares fun window hwindow => by
    obtain ⟨l, hl, rfl⟩ := List.mem_map.mp hwindow
    exact hinside l hl

theorem Moved.calm (h : Moved ahead mark before w v) (hcalm : Calm v u) :
    Moved ahead mark before w u :=
  h.trans (Within.refl before _) ⟨hcalm.orderly h.orderly, hcalm.spares h.orderly _⟩

theorem Became.moved (h : Became ahead mark was before w between v)
    (h' : Moved ahead mark between v u) : Moved ahead mark before w u := h.toMoved.trans h.inside h'

theorem Became.trans (h : Became ahead mark was before w between v)
    (h' : Became ahead mark is between v after u) : Became ahead mark is before w after u where
  toMoved := h.moved h'.toMoved
  settled := h'.settled
  inside := h.inside.trans h'.inside h.spares.grown

/-- What is calm changes no list. -/
theorem Settled.calm (h : Settled mark was w before) (hw : w.Orderly ahead mark) (hcalm : Calm w v) :
    Became ahead mark was before w before v where
  orderly := hcalm.orderly hw
  spares := hcalm.spares hw _
  settled := ⟨fun l hl => (h.steady l hl).spared (hcalm.spares hw []) List.not_mem_nil, h.nodup⟩
  inside := Within.refl before _

theorem Became.calm (h : Became ahead mark was before w after v) (hcalm : Calm v u) :
    Became ahead mark was before w after u := h.trans (h.settled.calm h.orderly hcalm)

theorem settled_append : Settled mark was w (before ++ after) ↔
    Settled mark was w before ∧ Settled mark was w after ∧
      ∀ l ∈ before, ∀ k ∈ after, l.window ≠ k.window := by
  constructor
  · rintro ⟨hsteady, hnodup⟩
    rw [List.map_append, List.nodup_append] at hnodup
    obtain ⟨hbefore, hafter, hne⟩ := hnodup
    exact ⟨⟨fun l hl => hsteady l (List.mem_append_left _ hl), hbefore⟩,
      ⟨fun l hl => hsteady l (List.mem_append_right _ hl), hafter⟩,
      fun l hl k hk => hne _ (List.mem_map_of_mem hl) _ (List.mem_map_of_mem hk)⟩
  · rintro ⟨hbefore, hafter, hne⟩
    refine ⟨fun l hl => (List.mem_append.mp hl).elim (hbefore.steady l) (hafter.steady l), ?_⟩
    rw [List.map_append, List.nodup_append]
    refine ⟨hbefore.nodup, hafter.nodup, fun window hl other hk => ?_⟩
    obtain ⟨l, hmem, rfl⟩ := List.mem_map.mp hl
    obtain ⟨k, hmem', rfl⟩ := List.mem_map.mp hk
    exact hne l hmem k hmem'

/-- A member that becomes due in one window is not due in others. -/
theorem Settled.due (h : Settled mark none w before)
    (hdue : ∀ l ∈ before, is ≠ some l.window) : Settled mark is w before :=
  ⟨fun l hl => by
    rw [if_neg (hdue l hl)]
    exact h.steady l hl, h.nodup⟩

/-- What has become of some lists is put back among the others. -/
theorem Became.within (h : Became ahead mark is before w after v) (front back : List Lineup)
    (hall : Settled mark none w (front ++ before ++ back))
    (hdue : ∀ window, is = some window → window ∈ before.map (·.window)) :
    Became ahead mark is (front ++ before ++ back) w (front ++ after ++ back) v := by
  obtain ⟨hfront, hback, hdisjoint⟩ := settled_append.mp hall
  obtain ⟨hfront, hbefore, hdisjoint'⟩ := settled_append.mp hfront
  -- the others have windows of their own, which were spared
  have hother : ∀ l : Lineup, (∀ k ∈ before, l.window ≠ k.window) → l.window ∉ before.map (·.window) := by
    rintro l hne hmem
    obtain ⟨k, hk, hsame⟩ := List.mem_map.mp hmem
    exact hne k hk hsame.symm
  have hspared : ∀ ls : List Lineup, Settled mark none w ls → (∀ l ∈ ls, ∀ k ∈ before, l.window ≠ k.window) →
      Settled mark is v ls := by
    intro ls hls hne
    refine Settled.due ⟨fun l hl => ?_, hls.nodup⟩ fun l hl hsame => ?_
    · exact (hls.steady l hl).spared h.spares (hother l (hne l hl))
    · exact hother l (hne l hl) (hdue _ hsame)
  have hnew : ∀ ls : List Lineup, Settled mark none w ls → (∀ l ∈ ls, ∀ k ∈ before, l.window ≠ k.window) →
      ∀ l ∈ ls, ∀ k ∈ after, l.window ≠ k.window := by
    intro ls hls hne l hl k hk hsame
    rcases h.inside k hk with hmem | hle
    · exact hother l (hne l hl) (hsame ▸ hmem)
    · exact Nat.lt_irrefl _ (Nat.lt_of_lt_of_le (hsame ▸ (hls.steady l hl).lt_size) hle)
  have hback' : ∀ l ∈ back, ∀ k ∈ before, l.window ≠ k.window := fun l hl k hk =>
    (hdisjoint k (List.mem_append_right _ hk) l hl).symm
  refine ⟨⟨h.orderly, h.spares.mono fun window hwindow => ?_⟩, ?_, ?_⟩
  · simp only [List.map_append, List.mem_append]
    exact .inl (.inr hwindow)
  · refine settled_append.mpr ⟨settled_append.mpr ⟨hspared front hfront hdisjoint', h.settled,
      hnew front hfront hdisjoint'⟩, hspared back hback hback', fun l hl k hk => ?_⟩
    rcases List.mem_append.mp hl with hl | hl
    · exact hdisjoint l (List.mem_append_left _ hl) k hk
    · exact (hnew back hback hback' k hk l hl).symm
  · intro l hl
    simp only [List.map_append, List.mem_append]
    rcases List.mem_append.mp hl with hl | hl
    · rcases List.mem_append.mp hl with hl | hl
      · exact .inl (.inl (.inl (List.mem_map_of_mem hl)))
      · exact (h.inside l hl).imp (fun hmem => .inl (.inr hmem)) id
    · exact .inl (.inr (List.mem_map_of_mem hl))

end

end TaggedMarkup
