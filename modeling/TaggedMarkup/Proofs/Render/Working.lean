import TaggedMarkup.Proofs.Render.Faring

/-!
# How a window fares

A turn of a window ends with what comes out first, or with nothing left, or in a wait (`WindowTurn.Fares`).
Its queue may be worked off for ever only if members are called up again and again: but a member that was
called up either takes effort or was told in place of others, so that fewer members are told than before
(`World.Relieved`). So the working off ends (`Render.workOff_fares`), and the task that renders the list goes
on: it was told, or no member was, and the first one waits.
-/

namespace TaggedMarkup

/-- The task that renders a list stands with it alone, while these other pieces are in play. -/
structure World.Lists (n : Nat) (w : World) (σ : Seating) (owner : Nat) (l : Lineup) (others : List Work)
    (out : Output) (effort : Nat) : Prop where
  stands : w.Stands σ owner [.ahead l]
  tasked : l.Tasked w.tasks.size
  clean : Clean w (l.pieces ++ others)
  yields : (Work.ahead l).Yields n w out effort

/-- What comes of a turn of a window. -/
inductive WindowTurn.Fares (n : Nat) (w : World) (σ : Seating) (owner : Nat) (l : Lineup) (others : List Work)
    (out : Output) (effort : Nat) : WindowTurn → Lineup → World → Prop
  | through {number : Nat} {fragments : List String} {l' : Lineup} {v : World} {τ : Seating} {last : Output}
      {less : Nat} :
    v.Lists n τ owner l' others last less → World.Moves w v σ τ owner → out = fragments.map .ok ++ last →
      less + fragments.length + 2 ≤ effort →
        Fares n w σ owner l others out effort (.through number fragments) l' v
  | failed {error : Error} {l' : Lineup} {v : World} {τ : Seating} :
    v.Stands τ owner [.ahead l'] → World.Moves w v σ τ owner → Output.error? out = some error →
      Fares n w σ owner l others out effort (.failed error) l' v
  | ended {l' : Lineup} {v : World} {τ : Seating} :
    v.Stands τ owner [.ahead l'] → World.Moves w v σ τ owner → out = [] →
      Fares n w σ owner l others out effort .ended l' v
  | blocked {l' : Lineup} {v : World} {τ : Seating} {less : Nat} :
    v.Lists n τ owner l' others out less → World.Moves w v σ τ owner → v.GoesOn owner [.ahead l'] →
      less ≤ effort → (less < effort ∨ w.Idle v owner [.ahead l] [.ahead l']) →
        Fares n w σ owner l others out effort .blocked l' v

variable {n owner task effort less : Nat} {w v u x : World} {σ τ ρ : Seating} {l l' mid : Lineup}
  {others : List Work} {out : Output}

/-- What comes of a turn after something was done for the list. -/
theorem WindowTurn.Fares.after {t : WindowTurn} (h : t.Fares n v τ owner mid others out less l' u)
    (hmoves : World.Moves w v σ τ owner) (hroot : w.Rooted) (howner : owner < w.tasks.size) (hle : less ≤ effort)
    (hidle : less < effort ∨ w.Idle v owner [.ahead l] [.ahead mid]) :
    t.Fares n w σ owner l others out effort l' u := by
  cases h with
  | through hlists hmoves' hout hless =>
    exact .through hlists (hmoves.trans hmoves' hroot) hout (Nat.le_trans hless hle)
  | failed hstands hmoves' herror => exact .failed hstands (hmoves.trans hmoves' hroot) herror
  | ended hstands hmoves' hout => exact .ended hstands (hmoves.trans hmoves' hroot) hout
  | blocked hlists hmoves' hgoes hless hidle' =>
    refine .blocked hlists (hmoves.trans hmoves' hroot) hgoes (Nat.le_trans hless hle) ?_
    rcases hidle with hlt | hidle
    · exact .inl (Nat.lt_of_le_of_lt hless hlt)
    · exact hidle'.imp (fun hlt => Nat.lt_of_lt_of_le hlt hle)
        fun hidle' => hidle.trans hidle' hmoves.respects hroot howner

namespace World

/-! ## Fewer members are told -/

/-- Nothing came of anything, but that a member was attended to. -/
structure Relieved (w v : World) (owner : Nat) (before after : List Work) : Prop where
  timers : v.timers = w.timers
  told : ∀ k < w.tasks.size, v.Told (.task k) → w.Told (.task k) ∨ w.Under k owner ∨ w.Under owner k
  alerts : Work.alertsOfAll v after + 1 ≤ Work.alertsOfAll w before

theorem Relieved.idle {before after : List Work} (h : Relieved w v owner before after) :
    w.Idle v owner before after where
  timers := h.timers
  told := h.told
  alerts := by
    have hless := h.alerts
    have hone := v.alert_le_one owner
    omega

/-- Nobody in the stack is told by telling the task that works it off, and those over it. -/
theorem Relieved.mono {X : Nat → Prop} {before after : List Work} (h : Relieved w v owner before after)
    (hv : w.Respects X v) (hroot : w.Rooted) (hstands : v.Stands τ owner after) (howner : owner < w.tasks.size)
    (htimers : x.timers = v.timers)
    (htold : ∀ k, x.Told (.task k) → v.Told (.task k) ∨ v.Under k owner) : Relieved w x owner before after where
  timers := htimers.trans h.timers
  told k hk hx := by
    rcases htold k hx with hv' | hover
    · exact h.told k hk hv'
    · exact .inr (.inl ((hv.under_iff hroot howner).mp hover))
  alerts := by
    have hnone := Work.alertsOfAll_le (v := x) hstands.balanced.rooted (fun k hk hne hx => by
      refine (htold k hx).resolve_right fun hover => hne ?_
      exact Nat.le_antisymm (hover.le hstands.balanced.rooted) (hk.le hstands.balanced.rooted))
      hstands.poised
    have hless := h.alerts
    omega

end World

theorem Member.alertsOfAll_append (w : World) (members more : List Member) :
    Member.alertsOfAll w (members ++ more) = Member.alertsOfAll w members + Member.alertsOfAll w more := by
  induction members with
  | nil => exact (Nat.zero_add _).symm
  | cons member rest ih => rw [List.cons_append, alertsOfAll, alertsOfAll, ih, Nat.add_assoc]

theorem Member.alertsOfAll_mono {members : List Member} (h : ∀ member ∈ members, member.alerts v ≤ member.alerts w) :
    Member.alertsOfAll v members ≤ Member.alertsOfAll w members := by
  induction members with
  | nil => exact Nat.le_refl _
  | cons member rest ih =>
    exact Nat.add_le_add (h member List.mem_cons_self) (ih fun other hother => h other (List.mem_cons_of_mem _ hother))

theorem Work.alertsOfAll_ahead (w : World) (l : Lineup) :
    Work.alertsOfAll w [.ahead l] = Member.alertsOfAll w l.members := rfl

/-! ## A member is called up -/

namespace World

variable {before after : List Member} {fragments : List String} {stack rest : List Work}

/-- A member that is called up while nothing comes of its turn was told, and at most as many are told in place
of it as in its stack before. -/
theorem Stands.relieved (h : w.Stands σ owner [.ahead l]) (hdequeue : w.dequeue? l.window = some (task, u))
    (hmembers : l.members = before ++ .running task fragments stack :: after)
    (hidle : (u.beginTurn task).Idle v task stack rest) (texts : List String) :
    w.Relieved v owner [.ahead l] [.ahead (l.replace task (.running task texts rest))] := by
  obtain ⟨-, hmoves, htold, hreset, hothers⟩ := h.calledUp hdequeue hmembers
  obtain ⟨hmember, howner⟩ := h.member hmembers
  obtain ⟨⟨hwindow, -, hnodup, hall⟩, -⟩ := h.poised.of_not_passing rfl
  have hroot := h.balanced.rooted
  have hbegun : ∀ k < w.tasks.size, v.Told (.task k) →
      (u.beginTurn task).Told (.task k) ∨ w.Under k task ∨ w.Under task k := by
    intro k hk hv
    rcases hidle.told k (Nat.lt_of_lt_of_le hk hmoves.respects.size) hv with hbefore | hover | hunder
    · exact .inl hbefore
    · exact .inr (.inl ((hmoves.respects.under_iff hroot (lt_size_of_owner? howner)).mp hover))
    · exact .inr (.inr ((hmoves.respects.under_iff hroot hk).mp hunder))
  refine ⟨?_, fun k hk hv => ?_, ?_⟩
  · obtain ⟨frame, queue, -, -, rfl⟩ := dequeue?_eq_some hdequeue
    exact hidle.timers
  · rcases hbegun k hk hv with hbefore | hover | hunder
    · by_cases heq : k = task
      · exact absurd (heq ▸ hbefore) hreset
      · exact .inl (hothers k heq hbefore)
    · cases hover with
      | refl => exact .inr (.inr (.member howner .refl))
      | member howner' hover =>
        cases howner.symm.trans howner'
        exact .inr (.inl hover)
    · exact .inr (.inr (.trans (.member howner .refl) hunder))
  · rw [Work.alertsOfAll_ahead, Work.alertsOfAll_ahead, LineupOf.members_replace hnodup hmembers, hmembers,
      Member.alertsOfAll_append, Member.alertsOfAll_append, Member.alertsOfAll, Member.alertsOfAll]
    -- nobody else in the list is told
    have hsibling : ∀ other ∈ before ++ after, other.alerts v ≤ other.alerts w := by
      intro other hother
      have hin : other ∈ l.members := by
        rw [hmembers]
        exact (List.mem_append.mp hother).elim (List.mem_append_left _)
          fun hafter => List.mem_append_right _ (List.mem_cons_of_mem _ hafter)
      have hpoised := Member.poisedAll_iff.mp hall other hin
      refine Member.alerts_le hroot hwindow (fun m hm k hk hv => ?_) hpoised
      cases other with
      | finished | failed => cases hm
      | running number texts works =>
        cases hm
        have howner' := hpoised.owner? hwindow
        have hne : m ≠ task := by
          rintro rfl
          rw [hmembers, Member.tasks, List.filterMap_append, List.filterMap_cons] at hnodup
          obtain ⟨-, hafter, hbefore⟩ := List.nodup_append.mp hnodup
          rcases List.mem_append.mp hother with hmem | hmem
          · exact hbefore _ (List.mem_filterMap.mpr ⟨_, hmem, rfl⟩) _ List.mem_cons_self rfl
          · exact (List.nodup_cons.mp hafter).1 (List.mem_filterMap.mpr ⟨_, hmem, rfl⟩)
        by_cases hbound : k < w.tasks.size
        · rcases hbegun k hbound hv with hbefore | hover | hunder
          · refine hothers k (fun heq => hne ?_) hbefore
            exact Under.of_siblings hroot howner' howner (heq ▸ hk) .refl
          · exact absurd (Under.of_siblings hroot howner' howner (hk.trans hover) .refl) hne
          · exact absurd (Under.of_siblings hroot howner' howner hk hunder) hne
        · intro cell hcell
          exact absurd (Array.getElem?_eq_some_iff.mp hcell).1 hbound
    have hfront := Member.alertsOfAll_mono fun m hm => hsibling m (List.mem_append_left _ hm)
    have hback := Member.alertsOfAll_mono fun m hm => hsibling m (List.mem_append_right _ hm)
    -- in the stack of the member there were as many told, and the member itself
    have hself : Work.alertsOfAll (u.beginTurn task) stack ≤ Work.alertsOfAll w stack :=
      Work.alertsOfAll_le hroot (fun k _ hne hv => hothers k hne hv) hmember.2.2.1
    have hone : w.alert task = 1 := alert_of_told htold (lt_size_of_owner? howner)
    have hzero : (u.beginTurn task).alert task = 0 := alert_of_not_told hreset
    have hturn := hidle.alerts
    rw [Member.alerts, Member.alerts]
    omega

/-- What is known of the list stays known while the books are changed. -/
theorem Lists.hidden (h : w.Lists n σ owner l others out effort) (hstands : v.Stands τ owner [.ahead l])
    (hseen : v.seen = w.seen) (hsize : v.tasks.size = w.tasks.size) :
    v.Lists n τ owner l others out effort :=
  ⟨hstands, hsize ▸ h.tasked, h.clean.hidden hseen, h.yields.becomes (.hidden .refl hseen)⟩

/-- A member that was called up is ready for its turn, and what it yields is part of what the list does. -/
theorem Lists.calledUp (h : w.Lists n σ owner l others out effort)
    (hdequeue : w.dequeue? l.window = some (task, u))
    (hmembers : l.members = before ++ .running task fragments stack :: after) :
    ∃ pieces last less keep, (u.beginTurn task).Ready n σ task stack pieces last less ∧
      keep + (2 * less + fragments.length + 3) ≤ effort ∧
        ∀ {x : World} {member : Member} {cost : Nat}, w.Becomes x →
          member.Yields n x (fragments.reverse.map .ok ++ last) cost →
            (Work.ahead (l.replace task member)).Yields n x out (keep + cost) := by
  obtain ⟨⟨-, -, hnodup, -⟩, -⟩ := h.stands.poised.of_not_passing rfl
  obtain ⟨part, paid, keep, hmember, hle, hreplace⟩ := h.yields.member hmembers
  obtain ⟨last, less, hstack, rfl, hpaid⟩ := hmember
  have hseen : (u.beginTurn task).seen = w.seen := (seen_beginTurn u task).trans (seen_dequeue? hdequeue)
  have hsize : (u.beginTurn task).tasks.size = w.tasks.size :=
    (size_tasks_beginTurn u task).trans (congrArg Array.size (tasks_dequeue? hdequeue))
  obtain ⟨hstands, -⟩ := h.stands.calledUp hdequeue hmembers
  have htasked := Member.taskedAll_iff.mp h.tasked.below (.running task fragments stack)
    (hmembers ▸ List.mem_append_right _ List.mem_cons_self)
  have hclean := h.clean
  rw [LineupOf.pieces_eq hmembers, List.append_assoc, List.append_assoc] at hclean
  have hready := (hclean.hidden hseen).only (List.perm_append_comm_assoc _ _ _).subperm
  exact ⟨_, last, less, keep, ⟨hstands, hsize ▸ htasked.2, hready, hstack.becomes (.hidden .refl hseen)⟩, by omega,
    fun {x member cost} hx hmember => hreplace hx hmember (LineupOf.members_replace hnodup hmembers member) rfl⟩

end World

/-- What has become of a list in which a member had its turn. -/
inductive Member.Turned (n : Nat) (w : World) (σ : Seating) (owner task : Nat) (l : Lineup) (others : List Work)
    (out : Output) (effort : Nat) : Member → World → Prop
  | running {fragments : List String} {stack : List Work} {v : World} {τ : Seating} {less : Nat} :
    (v.suspend l.window task).Lists n τ owner (l.replace task (.running task fragments stack)) others out less →
      World.Moves w (v.suspend l.window task) σ τ owner → less ≤ effort →
        (less < effort ∨ w.Relieved (v.suspend l.window task) owner [.ahead l]
          [.ahead (l.replace task (.running task fragments stack))]) →
            Turned n w σ owner task l others out effort (.running task fragments stack) v
  | through {member : Member} {v : World} {τ : Seating} {less : Nat} :
    member.task? = none → (v.retire l.window task).Lists n τ owner (l.replace task member) others out less →
      World.Moves w (v.retire l.window task) σ τ owner → less < effort →
        Turned n w σ owner task l others out effort member v

namespace World

variable {before after : List Member} {fragments : List String} {stack rest : List Work}

/-- A member that is called up comes to something, and the list with it. -/
theorem Lists.memberTurn (h : w.Lists n σ owner l others out effort)
    (hturn : ∀ less < effort, Render.TurnFares n less) (around : List Surrounding)
    (hdequeue : w.dequeue? l.window = some (task, u))
    (hmembers : l.members = before ++ .running task fragments stack :: after) :
    ∃ fuel member v, Render.memberTurn n fuel around task fragments stack (u.beginTurn task) = some (member, v) ∧
      Member.Turned n w σ owner task l others out effort member v := by
  have hroot := h.stands.balanced.rooted
  obtain ⟨hmember, howner⟩ := h.stands.member hmembers
  obtain ⟨⟨cell, hcell, hsome, -⟩, -⟩ := hmember
  obtain ⟨-, hbegun, -⟩ := h.stands.calledUp hdequeue hmembers
  obtain ⟨pieces, last, less, keep, hready, hle, hreplace⟩ := h.calledUp hdequeue hmembers
  obtain ⟨fuel, member, v, τ, heq, hfares⟩ :=
    Render.memberTurn_fares (fun k hk => hturn k (by omega)) around hready fragments
  refine ⟨fuel, member, v, heq, ?_⟩
  -- whatever was done, the list has taken a course
  have hu : u.tasks.size = w.tasks.size := congrArg Array.size (tasks_dequeue? hdequeue)
  obtain ⟨-, hnumber, htasked, deeds, hway⟩ :=
    (Render.TakesCourse.all n fuel).placed (hu ▸ h.tasked) hmembers heq
  have hclean := (h.clean.hidden (seen_dequeue? hdequeue)).course (hway.course.frame others)
  have hbecomes : w.Becomes v := (Becomes.hidden .refl (seen_dequeue? hdequeue)).trans (.course hway.course)
  have hmoves := hbegun.trans hfares.moves hroot
  have hpoised := hfares.poised l.window (hbegun.window ⟨cell, hcell, hsome⟩)
  obtain ⟨cost, hcost, hyields, hprogress⟩ := hfares.yields
  have hvalue := hreplace hbecomes hyields
  have htask : task < v.tasks.size := Nat.lt_of_lt_of_le (lt_size_of_owner? howner) hmoves.respects.size
  obtain ⟨hstands, hmoved⟩ := h.stands.replaced hmembers hmoves hfares.balanced hpoised hnumber
  have hlists : v.Lists n τ owner (l.replace task member) others out (keep + cost) :=
    ⟨hstands, htasked, hclean, hvalue⟩
  have hthrough : member.task? = none → Member.Turned n w σ owner task l others out effort member v := by
    intro hnone
    have hless : cost < 2 * less + fragments.length + 3 := by
      refine hprogress.resolve_right ?_
      rintro ⟨texts, works, rfl, -⟩
      cases hnone
    obtain ⟨hretired, hrespects⟩ := hfares.balanced.retire l.window task
    have hgone : Moves v (v.retire l.window task) τ τ task :=
      ⟨hrespects.mono fun k _ hk => hk ▸ .refl, fun _ _ _ => rfl⟩
    have hplaced : member.Poised (v.retire l.window task) τ l.window := by
      cases member with
      | running => cases hnone
      | finished | failed => trivial
    obtain ⟨hafter, hmoved'⟩ := h.stands.replaced hmembers (hmoves.trans hgone hroot) hretired hplaced hnumber
    exact .through hnone (hlists.hidden hafter rfl (size_tasks_retire ..)) hmoved' (by omega)
  cases member with
  | running number texts works =>
    obtain rfl : number = task := hnumber.elim Option.some.inj fun hnone => by cases hnone
    obtain ⟨hsuspended, hrespects⟩ := hfares.balanced.suspend (X := fun _ => False) l.window htask
    have hafter := hstands.carried hrespects hsuspended
    refine .running (hlists.hidden hafter rfl rfl) (hmoved.trans (.of_respects hrespects τ owner) hroot)
      (by omega) ?_
    rcases hprogress with hless | ⟨texts', works', heq, hidle⟩
    · exact .inl (by omega)
    · cases heq
      refine .inr ((h.stands.relieved hdequeue hmembers hidle texts).mono hmoved.respects hroot hstands
        h.stands.lt_size rfl fun k hk => .inl hk)
  | finished | failed => exact hthrough rfl

/-! ## Working off -/

/-- What comes out at the front. -/
theorem Lists.front? (h : w.Lists n σ owner l others out effort) {t : WindowTurn}
    (hfront : l.front? = some (t, l')) : t.Fares n w σ owner l others out effort l' w := by
  have htasked := h.tasked.of_front? hfront
  have hpieces := LineupOf.pieces_front? hfront
  have hstands : w.Stands σ owner [.ahead l'] := by
    obtain ⟨⟨hwindow, htimed, hnodup, hall⟩, -⟩ := h.stands.poised.of_not_passing rfl
    have hsame : l'.window = l.window ∧ l'.feed = l.feed ∧ ∀ member ∈ l'.members, member ∈ l.members := by
      unfold LineupOf.front? at hfront
      split at hfront
      · rename_i hmembers
        cases hfront
        exact ⟨rfl, rfl, fun member hmember => hmembers ▸ List.mem_cons_of_mem _ hmember⟩
      · rename_i hmembers
        cases hfront
        exact ⟨rfl, rfl, fun member hmember => hmembers ▸ List.mem_cons_of_mem _ hmember⟩
      · cases hfront
    refine h.stands.relisted (X := fun _ => False) (.refl w) id h.stands.balanced hsame.1 (hsame.2.1 ▸ htimed) htasked.nodup ?_
    exact Member.poisedAll_iff.mpr fun member hmember =>
      Member.poisedAll_iff.mp hall member (hsame.2.2 member hmember)
  cases t with
  | through number fragments =>
    obtain ⟨last, less, hless, hout, hle⟩ := h.yields.through hfront
    have hclean := h.clean.only ((List.perm_append_right_iff others).mpr hpieces).subperm
    exact .through ⟨hstands, htasked, hclean, hless⟩ (.refl w σ owner) hout hle
  | failed error => exact .failed hstands (.refl w σ owner) (h.yields.failed hfront)
  | ended | blocked =>
    unfold LineupOf.front? at hfront
    split at hfront <;> cases hfront

/-- When nobody is left in the queue, the list is over or its first member waits. -/
theorem Lists.dequeued (h : w.Lists n σ owner l others out effort) (hdequeue : w.dequeue? l.window = none)
    (hfront : l.front? = none) (hempty : l.members = [] → l.feed.members = [] ∨ l.feed.Expected w owner)
    (hlater : ∀ deadline, l.feed.deadline = some deadline → w.clock < deadline) :
    (if l.isOver then WindowTurn.ended else .blocked).Fares n w σ owner l others out effort l w := by
  split
  · exact .ended h.stands (.refl w σ owner) (h.yields.isOver ‹_›)
  · rename_i hover
    obtain ⟨⟨⟨frame, hframe, -⟩, htimed, -, hall⟩, -⟩ := h.stands.poised.of_not_passing rfl
    have hqueue := dequeue?_eq_none hdequeue hframe
    have hexpected : l.feed.deadline.isSome = true → l.feed.Expected w owner := by
      intro hsome
      obtain ⟨deadline, hdeadline⟩ := Option.isSome_iff_exists.mp hsome
      exact ⟨deadline, hdeadline, (htimed deadline hdeadline).resolve_left (Nat.not_le.mpr (hlater deadline hdeadline))⟩
    refine .blocked h (.refl w σ owner) (.inr ⟨fun k hk htold => ?_, hexpected, ?_⟩) (Nat.le_refl _)
      (.inr (.refl w owner _))
    · obtain ⟨fragments, stack, hmember⟩ := Member.mem_tasks.mp hk
      obtain ⟨⟨cell, hcell, hsome, hended⟩, hlined, -⟩ := Member.poisedAll_iff.mp hall _ hmember
      have hcount := hlined cell l.window frame hcell hsome hframe
      have hqueued := htold cell hcell
      rw [TaskCell.isTold, hended, hsome] at hqueued
      rw [hqueue, List.count_nil] at hcount
      rw [show cell.queued = true from hqueued] at hcount
      cases hcount
    · cases hmembers : l.members with
      | nil =>
        refine (hempty hmembers).resolve_left fun hnone => hover ?_
        rw [LineupOf.isOver, hmembers, hnone]
        rfl
      | cons member rest =>
        unfold LineupOf.front? at hfront
        rw [hmembers] at hfront
        cases member with
        | running => rfl
        | finished | failed => cases hfront

end World

/-- How many are queued up in a window. -/
def World.queued (window : Nat) (w : World) : Nat :=
  match w.windows[window]? with
  | some frame => frame.queue.length
  | none => 0

theorem World.queued_dequeue {window : Nat} (h : w.dequeue? window = some (task, u)) :
    u.queued window < w.queued window := by
  obtain ⟨frame, queue, hframe, hqueue, rfl⟩ := dequeue?_eq_some h
  rw [queued, queued, getElem?_modifyWindow, if_pos rfl, hframe, Option.map_some]
  dsimp only
  rw [hqueue]
  exact Nat.lt_succ_self _

/-- A task that is none of the members is taken off the queue, and nothing else happens. -/
theorem World.Lists.skipped (h : w.Lists n σ owner l others out effort)
    (hdequeue : w.dequeue? l.window = some (task, u)) (hfind : l.find? task = none) :
    u.Lists n σ owner l others out effort ∧ Moves w u σ σ owner ∧ w.Idle u owner [.ahead l] [.ahead l] ∧
      Member.alertsOfAll u l.members = Member.alertsOfAll w l.members ∧ u.timers = w.timers := by
  obtain ⟨hstands, hmoves⟩ := h.stands.dequeued hdequeue hfind
  have htasks := tasks_dequeue? hdequeue
  have htimers : u.timers = w.timers := by
    obtain ⟨frame, queue, -, -, rfl⟩ := dequeue?_eq_some hdequeue
    rfl
  have htold : ∀ k, u.Told (.task k) ↔ w.Told (.task k) := by
    intro k
    rw [Told, Told, htasks]
  have hle := Work.alertsOfAll_le h.stands.balanced.rooted (fun k _ _ => (htold k).mp) h.stands.poised
  have hge := Work.alertsOfAll_le hstands.balanced.rooted (fun k _ _ => (htold k).mpr) hstands.poised
  have hself := alert_le h.stands.lt_size (htold owner).mp
  exact ⟨h.hidden hstands (seen_dequeue? hdequeue) (congrArg Array.size htasks), hmoves,
    ⟨htimers, fun k _ hk => .inl ((htold k).mp hk), Nat.add_le_add hle hself⟩, Nat.le_antisymm hle hge, htimers⟩

/-- A member that is still in work does not come out at the front. -/
theorem LineupOf.front?_replace {before after : List Member} {fragments : List String} {stack : List Work}
    (texts : List String) (works : List Work) (hfront : l.front? = none) (hnodup : (Member.tasks l.members).Nodup)
    (hmembers : l.members = before ++ .running task fragments stack :: after) :
    (l.replace task (.running task texts works)).front? = none := by
  unfold front? at hfront ⊢
  rw [members_replace hnodup hmembers]
  cases before with
  | nil => rfl
  | cons first others =>
    rw [hmembers] at hfront
    cases first with
    | running => rfl
    | finished | failed => cases hfront

/-- When a member is through, it comes out at the front, or the queue is worked off further. -/
theorem Render.workOff_through {fuel running turns told : Nat} {around : List Surrounding} {rest : List Work}
    {fragments : List String} {stack : List Work} {member : Member} (hdequeue : w.dequeue? l.window = some (task, u))
    (hfind : l.find? task = some (fragments, stack))
    (hturn : memberTurn n fuel (⟨task, l, rest⟩ :: around) task fragments stack (u.beginTurn task) =
      some (member, v)) (hnone : member.task? = none) :
    workOff n (fuel + 1) around owner rest running turns told l w =
      match (l.replace task member).front? with
      | some (out, l') => some (out, l', v.retire l.window task)
      | none => workOff n fuel around owner rest (l.replace task member).running 0 0 (l.replace task member)
        (v.retire l.window task) := by
  rw [workOff, hdequeue]
  dsimp only
  rw [hfind]
  dsimp only
  rw [hturn]
  cases member with
  | running => cases hnone
  | finished | failed => rfl

/-- With enough fuel, the working off of a queue comes to an end. -/
theorem Render.workOff_fares (hturn : ∀ less < effort, TurnFares n less) {around : List Surrounding}
    {rest : List Work} {running turns told : Nat} (h : w.Lists n σ owner l others out effort)
    (hfront : l.front? = none) (hempty : l.members = [] → l.feed.members = [] ∨ l.feed.Expected w owner)
    (hlater : ∀ deadline, l.feed.deadline = some deadline → w.clock < deadline) :
    ∃ fuel t l' v, workOff n fuel around owner rest running turns told l w = some (t, l', v) ∧
      t.Fares n w σ owner l others out effort l' v := by
  -- each round takes effort, or somebody off those who were told, or off the queue
  induction effort using Nat.strong_induction_on generalizing l w σ running turns told with
  | _ effort ihEffort =>
    generalize halerts : Member.alertsOfAll w l.members = alerts
    induction alerts using Nat.strong_induction_on generalizing l w σ running turns told with
    | _ alerts ihAlerts =>
      generalize hqueued : w.queued l.window = queued
      induction queued using Nat.strong_induction_on generalizing w with
      | _ queued ihQueued =>
        have hroot := h.stands.balanced.rooted
        cases hdequeue : w.dequeue? l.window with
        | none =>
          refine ⟨1, _, l, w, ?_, h.dequeued hdequeue hfront hempty hlater⟩
          rw [workOff, hdequeue]
        | some next =>
          obtain ⟨task, u⟩ := next
          cases hfind : l.find? task with
          | none =>
            obtain ⟨hlists, hmoves, hidle, hsame, htimers⟩ := h.skipped hdequeue hfind
            have hexpected : l.members = [] → l.feed.members = [] ∨ l.feed.Expected u owner := by
              intro hnone
              rw [Feed.Expected, htimers]
              exact hempty hnone
            have hlater' : ∀ deadline, l.feed.deadline = some deadline → u.clock < deadline := by
              rw [World.clock_of_seen (World.seen_dequeue? hdequeue)]
              exact hlater
            obtain ⟨fuel, t, l', v, heq, hfares⟩ := ihQueued _ (hqueued ▸ World.queued_dequeue hdequeue)
              hlists hexpected hlater' (hsame.trans halerts) rfl
            refine ⟨fuel + 1, t, l', v, ?_, hfares.after hmoves hroot h.stands.lt_size (Nat.le_refl _) (.inr hidle)⟩
            rw [workOff, hdequeue]
            dsimp only
            rw [hfind]
            exact heq
          | some found =>
            obtain ⟨fragments, stack⟩ := found
            obtain ⟨before, after, hmembers⟩ := LineupOf.find?_eq_some hfind
            obtain ⟨⟨-, -, hnodup, -⟩, -⟩ := h.stands.poised.of_not_passing rfl
            obtain ⟨fuel, member, v, heq, hturned⟩ := h.memberTurn hturn (⟨task, l, rest⟩ :: around) hdequeue hmembers
            have hlater' : ∀ deadline, l.feed.deadline = some deadline → v.clock < deadline := by
              have hu : u.tasks.size = w.tasks.size := congrArg Array.size (World.tasks_dequeue? hdequeue)
              obtain ⟨-, -, -, deeds, hway⟩ :=
                (Render.TakesCourse.all n fuel).placed (hu ▸ h.tasked) hmembers heq
              rw [hway.course.clock, World.clock_of_seen (World.seen_dequeue? hdequeue)]
              exact hlater
            have hsome : ∀ member, (l.replace task member).members ≠ [] := by
              intro member
              rw [LineupOf.members_replace hnodup hmembers]
              simp
            cases hturned with
            | @running texts works v τ less hlists hmoves hle hprogress =>
              by_cases hstop : 2 ≤ told + (v.isWoken task).toNat ∨ turns + 1 = running
              · -- others are let go on, and the task that renders the list is told
                obtain ⟨hstands, hwoken, htold, htimers, hover⟩ := hlists.stands.wake
                refine ⟨fuel + 1, .blocked, _, (v.suspend l.window task).wake (.task owner), ?_,
                  .blocked (hlists.hidden hstands (World.seen_wake ..) (World.size_tasks_wake ..))
                    (hmoves.trans hwoken hroot) (.inl htold) hle (hprogress.imp id fun hrelieved =>
                      (hrelieved.mono hmoves.respects hroot hlists.stands h.stands.lt_size htimers hover).idle)⟩
                rw [workOff, hdequeue]
                dsimp only
                rw [hfind]
                dsimp only
                rw [heq]
                dsimp only
                rw [if_pos hstop]
                rfl
              · have hquiet := LineupOf.front?_replace texts works hfront hnodup hmembers
                have hrest : ∃ fuel' t l' u, workOff n fuel' around owner rest running (turns + 1)
                    (told + (v.isWoken task).toNat) (l.replace task (.running task texts works))
                      (v.suspend l.window task) = some (t, l', u) ∧
                    t.Fares n (v.suspend l.window task) τ owner (l.replace task (.running task texts works))
                      others out less l' u := by
                  rcases Nat.lt_or_eq_of_le hle with hless | rfl
                  · exact ihEffort less hless (fun k hk => hturn k (by omega)) hlists hquiet
                      (fun hnone => absurd hnone (hsome _)) hlater'
                  · have hrelieved := (hprogress.resolve_left (Nat.lt_irrefl _)).alerts
                    rw [Work.alertsOfAll_ahead, Work.alertsOfAll_ahead, halerts] at hrelieved
                    exact ihAlerts _ (Nat.lt_of_succ_le hrelieved) hlists hquiet
                      (fun hnone => absurd hnone (hsome _)) hlater' rfl
                obtain ⟨fuel', t, l', x, heq', hfares⟩ := hrest
                refine ⟨max fuel fuel' + 1, t, l', x, ?_,
                  hfares.after hmoves hroot h.stands.lt_size hle (hprogress.imp id World.Relieved.idle)⟩
                rw [workOff, hdequeue]
                dsimp only
                rw [hfind]
                dsimp only
                rw [memberTurn_mono (Nat.le_max_left ..) heq]
                dsimp only
                rw [if_neg hstop]
                exact workOff_mono (Nat.le_max_right ..) heq'
            | @through member v τ less hnone hlists hmoves hless =>
              cases hout : (l.replace task member).front? with
              | some next =>
                obtain ⟨t, l'⟩ := next
                refine ⟨fuel + 1, t, l', _, ?_,
                  (hlists.front? hout).after hmoves hroot h.stands.lt_size (Nat.le_of_lt hless) (.inl hless)⟩
                rw [workOff_through hdequeue hfind heq hnone, hout]
              | none =>
                have hrest : ∃ fuel' t l' u, workOff n fuel' around owner rest (l.replace task member).running 0 0
                    (l.replace task member) (v.retire l.window task) = some (t, l', u) ∧
                    t.Fares n (v.retire l.window task) τ owner (l.replace task member) others out less l' u :=
                  ihEffort less hless (fun k hk => hturn k (by omega)) hlists hout
                    (fun hnone => absurd hnone (hsome _)) hlater'
                obtain ⟨fuel', t, l', x, heq', hfares⟩ := hrest
                refine ⟨max fuel fuel' + 1, t, l', x, ?_,
                  hfares.after hmoves hroot h.stands.lt_size (Nat.le_of_lt hless) (.inl hless)⟩
                rw [workOff_through hdequeue hfind (memberTurn_mono (Nat.le_max_left ..) heq) hnone, hout]
                exact workOff_mono (Nat.le_max_right ..) heq'

end TaggedMarkup
