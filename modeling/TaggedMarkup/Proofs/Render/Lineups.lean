import TaggedMarkup.Proofs.Render.Prompt

/-!
# The tasks of lists in work

Each member in work has a task of its own, by which it is found and replaced. That finds the right one
because within a list no two members have the same task: a new task has a number that no task had
before. So a list in work is **tasked** if its tasks are distinct and below a bound, the number of
tasks there are, and so are the lists in work within its members.
-/

namespace TaggedMarkup

namespace Member

/-- The task of a member in work. -/
def task? : Member → Option Nat
  | running task _ _ => some task
  | _ => none

end Member

/-- The tasks of members in work. -/
abbrev Member.tasks (members : List Member) : List Nat := members.filterMap Member.task?

mutual

/-- The lists in work have tasks of their own below a bound. -/
def Work.Tasked (bound : Nat) : Work → Prop
  | .ahead lineup => (Member.tasks lineup.members).Nodup ∧ Member.TaskedAll bound lineup.members
  | _ => True

def Work.TaskedAll (bound : Nat) : List Work → Prop
  | [] => True
  | work :: rest => work.Tasked bound ∧ Work.TaskedAll bound rest

def Member.Tasked (bound : Nat) : Member → Prop
  | .running task _ stack => task < bound ∧ Work.TaskedAll bound stack
  | _ => True

def Member.TaskedAll (bound : Nat) : List Member → Prop
  | [] => True
  | member :: rest => member.Tasked bound ∧ Member.TaskedAll bound rest

end

theorem Work.taskedAll_iff {bound : Nat} {stack : List Work} :
    Work.TaskedAll bound stack ↔ ∀ work ∈ stack, work.Tasked bound := by
  induction stack with
  | nil => simp [Work.TaskedAll]
  | cons work rest ih => simp [Work.TaskedAll, ih]

theorem Member.taskedAll_iff {bound : Nat} {members : List Member} :
    Member.TaskedAll bound members ↔ ∀ member ∈ members, member.Tasked bound := by
  induction members with
  | nil => simp [Member.TaskedAll]
  | cons member rest ih => simp [Member.TaskedAll, ih]

theorem Work.taskedAll_append {bound : Nat} {stack more : List Work}
    (h : Work.TaskedAll bound stack) (hmore : Work.TaskedAll bound more) :
    Work.TaskedAll bound (stack ++ more) := by
  rw [Work.taskedAll_iff] at h hmore ⊢
  intro work hwork
  exact (List.mem_append.mp hwork).elim (h work) (hmore work)

mutual

/-- There is more room below a higher bound. -/
theorem Work.Tasked.mono {bound more : Nat} (hle : bound ≤ more) :
    ∀ {work : Work}, work.Tasked bound → work.Tasked more
  | .ahead _, h => ⟨h.1, Member.TaskedAll.mono hle h.2⟩
  | .emit _, _ | .fail _, _ | .note _, _ | .root _, _ | .settled _, _ | .item _, _ | .await .., _
  | .prop .., _ | .children _, _ | .draw _, _ => trivial

theorem Work.TaskedAll.mono {bound more : Nat} (hle : bound ≤ more) :
    ∀ {stack : List Work}, Work.TaskedAll bound stack → Work.TaskedAll more stack
  | [], _ => trivial
  | _ :: _, h => ⟨h.1.mono hle, Work.TaskedAll.mono hle h.2⟩

theorem Member.Tasked.mono {bound more : Nat} (hle : bound ≤ more) :
    ∀ {member : Member}, member.Tasked bound → member.Tasked more
  | .running .., h => ⟨Nat.lt_of_lt_of_le h.1 hle, Work.TaskedAll.mono hle h.2⟩
  | .finished _, _ | .failed _, _ => trivial

theorem Member.TaskedAll.mono {bound more : Nat} (hle : bound ≤ more) :
    ∀ {members : List Member}, Member.TaskedAll bound members → Member.TaskedAll more members
  | [], _ => trivial
  | _ :: _, h => ⟨h.1.mono hle, Member.TaskedAll.mono hle h.2⟩

end

namespace LineupOf

/-- The members in work have tasks of their own below a bound. -/
structure Tasked (bound : Nat) (l : Lineup) : Prop where
  nodup : (Member.tasks l.members).Nodup
  below : Member.TaskedAll bound l.members

variable {bound task : Nat} {l : Lineup} {fragments : List String} {stack : List Work}

theorem Tasked.mono {more : Nat} (h : l.Tasked bound) (hle : bound ≤ more) : l.Tasked more :=
  ⟨h.nodup, h.below.mono hle⟩

/-! ## The member of a task -/

/-- The member that is found stands somewhere in the list. -/
theorem find?_eq_some (h : l.find? task = some (fragments, stack)) :
    ∃ before after, l.members = before ++ .running task fragments stack :: after := by
  unfold find? at h
  split at h
  · rename_i number fragments' stack' hfind
    cases h
    obtain ⟨htask, before, after, hmembers, -⟩ := List.find?_eq_some_iff_append.mp hfind
    have hnumber : number = task := eq_of_beq htask
    exact ⟨before, after, hnumber ▸ hmembers⟩
  · cases h

/-- Only the member that was found is replaced. -/
theorem members_replace (hnodup : (Member.tasks l.members).Nodup) {before after : List Member}
    (hmembers : l.members = before ++ .running task fragments stack :: after) (member : Member) :
    (l.replace task member).members = before ++ member :: after := by
  rw [hmembers] at hnodup
  have hothers : ∀ m ∈ before ++ after, m.isTask task = false := by
    intro m hm
    cases m with
    | running number _ _ =>
      have hne : number ≠ task := by
        rintro rfl
        simp only [Member.tasks, List.filterMap_append, List.filterMap_cons, Member.task?] at hnodup
        rw [List.nodup_append] at hnodup
        obtain ⟨-, hafter, hbefore⟩ := hnodup
        rcases List.mem_append.mp hm with hmem | hmem
        · exact hbefore number (List.mem_filterMap.mpr ⟨_, hmem, rfl⟩) number List.mem_cons_self rfl
        · exact (List.nodup_cons.mp hafter).1 (List.mem_filterMap.mpr ⟨_, hmem, rfl⟩)
      exact beq_eq_false_iff_ne.mpr hne
    | finished | failed => rfl
  have hkept : ∀ members : List Member, (∀ m ∈ members, m.isTask task = false) →
      (members.map fun m => if m.isTask task then member else m) = members := by
    intro members hmem
    have hid : (members.map fun m => if m.isTask task then member else m) = members.map id := by
      refine List.map_congr_left fun m hm => ?_
      rw [hmem m hm]
      rfl
    rw [hid, List.map_id]
  have hself : (Member.running task fragments stack).isTask task = true := beq_self_eq_true task
  rw [replace, hmembers]
  simp only [List.map_append, List.map_cons, hself, if_true]
  rw [hkept before fun m hm => hothers m (List.mem_append_left _ hm),
    hkept after fun m hm => hothers m (List.mem_append_right _ hm)]

theorem Tasked.of_find? (h : l.Tasked bound) (hfind : l.find? task = some (fragments, stack)) :
    task < bound ∧ Work.TaskedAll bound stack := by
  obtain ⟨before, after, hmembers⟩ := find?_eq_some hfind
  have hbelow := Member.taskedAll_iff.mp h.below (.running task fragments stack)
  rw [hmembers] at hbelow
  exact hbelow (List.mem_append_right _ List.mem_cons_self)

/-- A member's place is taken by the same member further on, or by one that is no longer in work. -/
theorem Tasked.replace (h : l.Tasked bound) {before after : List Member}
    (hmembers : l.members = before ++ .running task fragments stack :: after) {member : Member}
    (hmember : member.Tasked bound) (htask : member.task? = some task ∨ member.task? = none) :
    (l.replace task member).Tasked bound := by
  have hnodup := h.nodup
  have hbelow := h.below
  rw [Member.taskedAll_iff, hmembers] at hbelow
  rw [hmembers, Member.tasks, List.filterMap_append, List.filterMap_cons] at hnodup
  constructor
  · rw [members_replace h.nodup hmembers, Member.tasks, List.filterMap_append, List.filterMap_cons]
    rcases htask with htask | htask
    · rw [htask]
      exact hnodup
    · rw [htask]
      exact hnodup.sublist ((List.sublist_cons_self _ _).append_left _)
  · rw [members_replace h.nodup hmembers, Member.taskedAll_iff]
    intro m hm
    rcases List.mem_append.mp hm with hm | hm
    · exact hbelow m (List.mem_append_left _ hm)
    · rcases List.mem_cons.mp hm with rfl | hm
      · exact hmember
      · exact hbelow m (List.mem_append_right _ (List.mem_cons_of_mem _ hm))

theorem Tasked.of_members {l' : Lineup} (h : l.Tasked bound) {member : Member}
    (hmembers : l.members = member :: l'.members) : l'.Tasked bound := by
  have hnodup := h.nodup
  have hbelow := h.below
  rw [hmembers] at hnodup hbelow
  rw [Member.tasks, List.filterMap_cons] at hnodup
  refine ⟨?_, hbelow.2⟩
  cases hm : member.task? with
  | none => rwa [hm] at hnodup
  | some number =>
    rw [hm] at hnodup
    exact (List.nodup_cons.mp hnodup).2

/-- What comes out at the front leaves the others as they are. -/
theorem Tasked.of_front? (h : l.Tasked bound) {out : WindowTurn} {l' : Lineup}
    (hfront : l.front? = some (out, l')) : l'.Tasked bound := by
  unfold front? at hfront
  split at hfront
  · rename_i hmembers
    cases hfront
    exact h.of_members hmembers
  · rename_i hmembers
    cases hfront
    exact h.of_members hmembers
  · cases hfront

/-! ## Drawing -/

/-- A member that is drawn gets a number that is new. -/
theorem Tasked.enlist {w : World} (h : l.Tasked w.tasks.size) (stack : List Work)
    (hstack : Work.TaskedAll (w.tasks.size + 1) stack) (feed : Feed) :
    LineupOf.Tasked (w.tasks.size + 1)
      { l with feed, members := l.members ++ [.running w.tasks.size [] stack] } := by
  have hbelow := Member.taskedAll_iff.mp h.below
  constructor
  · rw [Member.tasks, List.filterMap_append, List.nodup_append]
    refine ⟨h.nodup, by simp [Member.task?], ?_⟩
    rintro number hnumber _ hnew rfl
    obtain ⟨m, hm, hnumber⟩ := List.mem_filterMap.mp hnumber
    cases List.mem_singleton.mp hnew
    cases m with
    | running number _ _ =>
      cases hnumber
      exact Nat.lt_irrefl _ (hbelow _ hm).1
    | finished | failed => cases hnumber
  · rw [Member.taskedAll_iff]
    intro m hm
    rcases List.mem_append.mp hm with hm | hm
    · exact (hbelow m hm).mono (Nat.le_succ _)
    · cases List.mem_singleton.mp hm
      exact ⟨Nat.lt_succ_self _, hstack⟩

theorem Tasked.draw {w : World} (h : l.Tasked w.tasks.size) (owner room : Nat) :
    w.tasks.size ≤ (l.draw owner room w).2.tasks.size ∧
      (l.draw owner room w).1.Tasked (l.draw owner room w).2.tasks.size := by
  induction room generalizing l w with
  | zero => exact ⟨Nat.le_refl _, h⟩
  | succ room ih =>
    have hsize := congrArg Array.size (Feed.tasks_draw w owner l.feed)
    rw [LineupOf.draw]
    split
    · rename_i value feed v heq
      rw [heq] at hsize
      have hv : l.Tasked v.tasks.size := h.mono (Nat.le_of_eq hsize.symm)
      have henlisted : (v.enlist l.window l.feed.index).2.tasks.size = v.tasks.size + 1 :=
        Array.size_push _
      have hmembers := hv.enlist [.note (.began l.window l.feed.index), .item value]
        ⟨trivial, trivial, trivial⟩ feed
      rw [← henlisted] at hmembers
      obtain ⟨hle, htasked⟩ := ih hmembers
      refine ⟨Nat.le_trans ?_ hle, htasked⟩
      rw [henlisted, hsize]
      exact Nat.le_succ _
    · rename_i draw feed v _ heq
      rw [heq] at hsize
      exact ⟨Nat.le_of_eq hsize.symm, h.nodup, h.mono (Nat.le_of_eq hsize.symm) |>.below⟩

end LineupOf

/-! ## Steps -/

/-- What comes next, or waits, is tasked. -/
def Progress.Tasked (bound : Nat) : Progress → Prop
  | .next works => Work.TaskedAll bound works
  | .wait work => work.Tasked bound

variable {bound : Nat}

theorem Work.taskedAll_map {α : Type} {f : α → Work} (h : ∀ a, (f a).Tasked bound) (as : List α) :
    Work.TaskedAll bound (as.map f) := by
  rw [Work.taskedAll_iff]
  intro work hwork
  obtain ⟨a, -, rfl⟩ := List.mem_map.mp hwork
  exact h a

/-- What a member leaves on its list when it is through has no members in work. -/
theorem Work.taskedAll_through (fragments : List String) (window member : Nat) {l : Lineup} {rest : List Work}
    (hl : l.Tasked bound) (hrest : Work.TaskedAll bound rest) : Work.TaskedAll bound
      (fragments.map .emit ++ [.note (.left window member)] ++ .ahead l :: rest) := by
  refine Work.taskedAll_append (Work.taskedAll_append ?_ ⟨trivial, trivial⟩) ⟨⟨hl.nodup, hl.below⟩, hrest⟩
  exact Work.taskedAll_map (f := .emit) (fun _ => trivial) fragments

/-- What goes unnoticed has no members in work. -/
theorem Work.Unnoticed.tasked {work : Work} (h : work.Unnoticed) : work.Tasked bound := by
  cases work with
  | ahead lineup =>
    rw [Work.Tasked, h.2]
    exact ⟨List.nodup_nil, trivial⟩
  | _ => trivial

theorem Work.taskedAll_of_unnoticed {works : List Work} (h : ∀ work ∈ works, work.Unnoticed) :
    TaskedAll bound works := Work.taskedAll_iff.mpr fun work hwork => (h work hwork).tasked

theorem Progress.Unnoticed.tasked {progress : Progress} (h : progress.Unnoticed) :
    progress.Tasked bound := by
  cases progress with
  | next works => exact Work.taskedAll_of_unnoticed h
  | wait work => exact (h work List.mem_cons_self).tasked

/-- A list that comes into work has no members in work. -/
theorem Render.tasked_feed (ahead task : Nat) (f : Feed) (kept : List Value) (w : World) :
    Work.TaskedAll bound (feed ahead task f kept w).1 := by
  unfold feed
  split
  · exact ⟨trivial, trivial⟩
  · exact ⟨⟨List.nodup_nil, trivial⟩, trivial⟩

theorem Work.tasked_step {ahead task : Nat} {work : Work} (h : work.Tasked bound) (w : World) :
    (work.step ahead task w).1.Tasked bound := by
  by_cases hprompt : work.isPrompt = true
  · exact (unnoticed_step hprompt w).tasked
  · cases work with
    | note => trivial
    | await cell seat resumption =>
      rw [Work.step]
      split
      · exact Work.taskedAll_of_unnoticed (Render.unnoticed_resume _ _)
      · trivial
    | draw feed =>
      rw [Work.step]
      split
      · exact ⟨trivial, trivial, trivial⟩
      · trivial
      · trivial
    | item value =>
      cases value with
      | sequence cell => exact Render.tasked_feed ..
      | _ => exact absurd rfl hprompt
    | emit | fail | ahead => exact h
    | _ => exact absurd rfl hprompt

end TaggedMarkup
