import TaggedMarkup.Proofs.Render.Following

/-!
# Turns further the plan

However long a turn is, it furthers the plan, step by step (`Render.Furthers.all`). In a window each member goes
on in its own part of the plan, and where there is room for another one, the step to begin it is one that may be
taken: all but as many as may be held back are over (`Member.PlansAll.opens`).
-/

namespace TaggedMarkup

variable {n owner task : Nat} {given : Origin → Option Nat} {w v u : World} {origins more : List Origin}
  {plan plan' : Plan} {plans others : List Plan} {led led' : Ledger} {l l' : Lineup} {members : List Member}

/-! ## The members of a window -/

/-- A member that was drawn has come. -/
theorem Member.Plans.isDrawn {member : Member} (h : member.Plans n w origins plan) : plan.isDrawn = true := by
  cases member with
  | running => 
    obtain ⟨-, delay, moment, value, plans, rfl, -⟩ := h
    rfl
  | finished => exact Plan.isDrawn_of_isOver h
  | failed => exact h.elim

namespace Member.PlansAll

variable {before after : List Member} {member : Member}

theorem length_eq (h : Member.PlansAll n w origins members plans) : plans.length = members.length := by
  induction members generalizing plans with
  | nil =>
    cases h
    rfl
  | cons member rest ih =>
    obtain ⟨plan, others, rfl, -, hrest⟩ := h
    rw [List.length_cons, List.length_cons, ih hrest]

theorem append (h : Member.PlansAll n w origins before plans) (hafter : Member.PlansAll n w origins after others) :
    Member.PlansAll n w origins (before ++ after) (plans ++ others) := by
  induction before generalizing plans with
  | nil =>
    cases h
    exact hafter
  | cons member rest ih =>
    obtain ⟨plan, last, rfl, hmember, hrest⟩ := h
    exact ⟨plan, last ++ others, rfl, hmember, ih hrest⟩

theorem split (h : Member.PlansAll n w origins (before ++ after) plans) :
    ∃ first last, plans = first ++ last ∧ Member.PlansAll n w origins before first ∧
      Member.PlansAll n w origins after last := by
  induction before generalizing plans with
  | nil => exact ⟨[], plans, rfl, rfl, h⟩
  | cons member rest ih =>
    obtain ⟨plan, others, rfl, hmember, hrest⟩ := h
    obtain ⟨first, last, rfl, hfirst, hlast⟩ := ih hrest
    exact ⟨plan :: first, last, rfl, ⟨plan, first, rfl, hmember, hfirst⟩, hlast⟩

theorem isDrawn (h : Member.PlansAll n w origins members plans) : ∀ plan ∈ plans, plan.isDrawn = true := by
  induction members generalizing plans with
  | nil =>
    cases h
    exact nofun
  | cons member rest ih =>
    obtain ⟨plan, others, rfl, hmember, hrest⟩ := h
    exact List.forall_mem_cons.mpr ⟨hmember.isDrawn, ih hrest⟩

/-- Where there is room in the window, the next part may be begun. -/
theorem opens (h : Member.PlansAll n w origins members plans) (hroom : members.length < n) {gone : List Plan}
    (hgone : ∀ plan ∈ gone, plan.isOver = true) : Plan.Opens n (gone ++ plans) := by
  have hlength := h.length_eq
  intro i plan hplan
  rw [List.length_append]
  rcases Nat.lt_or_ge i gone.length with hi | hi
  · rw [List.getElem?_append_left hi] at hplan
    have hover := hgone plan (List.mem_of_getElem? hplan)
    exact ⟨fun _ => Plan.isDrawn_of_isOver hover, fun _ => hover⟩
  · rw [List.getElem?_append_right hi] at hplan
    exact ⟨fun _ => h.isDrawn plan (List.mem_of_getElem? hplan), fun _ => by omega⟩

end Member.PlansAll

/-! ## Windows -/

/-- A member comes into a window. -/
theorem World.Follows.enlist (h : w.Follows given origins led plan) (window member : Nat) :
    w.Furthers n given origins led plan (w.enlist window member).2 origins led plan :=
  .stays (.hidden (.noted (.entered window member) .refl) rfl) rfl (h.tallies.same rfl rfl)
    (h.timely.aside rfl rfl rfl)

namespace Work.Plans

variable {before after : List Member} {member : Member}

/-- The plan of a member is a part of that of the list, which goes on as the member does. -/
theorem exists_part (h : (Work.ahead l).Plans n w origins [plan]) (hfollows : w.Follows given origins led plan)
    (hmembers : l.members = before ++ member :: after) :
    ∃ part, member.Plans n w origins part ∧ w.Follows given origins led part ∧
      ∀ {v : World} {more : List Origin} {led' : Ledger} {part' : Plan} {member' : Member} {l' : Lineup},
        w.Furthers n given origins led part v more led' part' → member'.Plans n v more part' →
          l'.members = before ++ member' :: after → l'.feed = l.feed →
            ∃ plan', w.Furthers n given origins led plan v more led' plan' ∧
              (Work.ahead l').Plans n v more [plan'] := by
  obtain ⟨⟨hn, hlength⟩, kind, gone, inWork, next, heq, hwidth, hgone, hall, hfeed⟩ := h
  cases heq
  rw [hmembers] at hall hlength
  obtain ⟨first, last, rfl, hfirst, hlast⟩ := hall.split
  obtain ⟨part, others, rfl, hmember, hothers⟩ := hlast
  rw [List.length_append, List.length_cons] at hlength
  have hopens : Plan.Opens (kind.width n) (gone ++ first) := by
    rw [hwidth]
    exact hfirst.opens (by omega) hgone
  have hparts : gone ++ ((first ++ part :: others) ++ next) = (gone ++ first) ++ part :: (others ++ next) := by
    simp only [List.append_assoc, List.cons_append]
  rw [hparts] at hfollows ⊢
  have hpart : part ∈ (gone ++ first) ++ part :: (others ++ next) := by simp
  have hdated := Plan.dateAll_iff.mp hfollows.dated part hpart
  refine ⟨part, hmember, ⟨hfollows.tallies, hfollows.timely, hfollows.sound.part hpart, hdated⟩, ?_⟩
  intro v more led' part' member' l' hfurthers hmember' hmembers' hsame
  refine ⟨.group kind ((gone ++ first) ++ part' :: (others ++ next)),
    ⟨hfurthers.records, hfurthers.clock, hfurthers.steps.part hopens, hfurthers.tallies, hfurthers.timely⟩,
    ⟨hn, ?_⟩, kind, gone, first ++ part' :: others, next, ?_, hwidth, hgone, ?_,
    hsame ▸ hfeed.records hfurthers.records⟩
  · rw [hmembers', List.length_append, List.length_cons]
    omega
  · simp only [List.append_assoc, List.cons_append]
  · rw [hmembers']
    exact (hfirst.records hfurthers.records).append
      ⟨part', others, rfl, hmember', hothers.records hfurthers.records⟩

/-- Members are drawn into a window until no other one can be. -/
theorem fill (owner : Nat) (h : (Work.ahead l).Plans n w origins [plan])
    (hfollows : w.Follows given origins led plan) :
    ∃ plan', w.Furthers n given origins led plan (l.fill n owner w).2 origins led plan' ∧
      (Work.ahead (l.fill n owner w).1).Plans n (l.fill n owner w).2 origins [plan'] ∧
        (l.fill n owner w).1.IsFilled n := by
  rw [LineupOf.fill]
  generalize hroom : n - l.members.length = room
  induction room generalizing l w plan with
  | zero => exact ⟨plan, hfollows.refl, h, fun _ => .inl (Nat.sub_eq_zero_iff_le.mp hroom)⟩
  | succ room ih =>
    obtain ⟨⟨hn, hlength⟩, kind, gone, inWork, next, heq, hwidth, hgone, hall, hfeed⟩ := h
    cases heq
    have hopens : Plan.Opens (kind.width n) (gone ++ inWork) := by
      rw [hwidth]
      exact hall.opens (by omega) hgone
    rw [LineupOf.draw]
    split
    · rename_i value feed u hdraw
      obtain ⟨delay, moment, m, head, rest, rfl, hsteps, hhead, hrest, rfl⟩ := hfeed.member hdraw
      have hpart : Plan.Steps n given w.clock
          (.group kind ((gone ++ inWork) ++ .later none delay moment false head :: rest)) led
          (.group kind ((gone ++ inWork) ++ .later none delay (some m) true head :: rest)) led :=
        (hsteps n given led).part hopens
      rw [List.append_assoc] at hpart
      have hdrawn := hfollows.onward hpart
      have hnoted := hdrawn.trans ((hdrawn.follows hfollows).noteDrawn l.feed)
      have hentered := hnoted.trans ((hnoted.follows hfollows).enlist l.window l.feed.index)
      have hmember : Member.Plans n w origins
          (.running (l.feed.noteDrawn w).tasks.size [] [.note (.began l.window l.feed.index), .item value])
          (.later none delay (some m) true head) := by
        refine ⟨trivial, delay, m, head, [head], rfl, .whole head, ?_⟩
        have hitem : Work.PlansAll n w origins [.item value] [head] := .singleton hhead.planned
        have hpassing : ∀ work ∈ [Work.note (.began l.window l.feed.index)], work.isPassing = true :=
          List.forall_mem_singleton.mpr rfl
        exact hitem.passing hpassing
      have hplans : (Work.ahead { l with feed, members := l.members ++ [.running (l.feed.noteDrawn w).tasks.size []
          [.note (.began l.window l.feed.index), .item value]] }).Plans n w origins
            [.group kind (gone ++ inWork ++ .later none delay (some m) true head :: rest)] := by
        refine ⟨⟨hn, ?_⟩, kind, gone, inWork ++ [.later none delay (some m) true head], rest, ?_, hwidth, hgone,
          hall.append ⟨_, [], rfl, hmember, rfl⟩, hrest⟩
        · rw [List.length_append, List.length_singleton]
          omega
        · simp only [List.append_assoc, List.cons_append, List.nil_append]
      have hleft : n - (l.members.length + 1) = room := by omega
      obtain ⟨plan', hfurthers, hplan', hfilled⟩ := ih (hplans.records hentered.records)
        (hentered.follows hfollows) (by rw [List.length_append]; exact hleft)
      exact ⟨plan', hentered.trans hfurthers, hplan', hfilled⟩
    · rename_i drawn feed u hmember hdraw
      cases drawn with
      | member value => exact absurd rfl (hmember value)
      | exhausted =>
        obtain ⟨rfl, hnone, rfl, rfl⟩ := hfeed.exhausted hdraw
        exact ⟨_, hfollows.refl, ⟨⟨hn, hlength⟩, kind, gone, inWork, [], rfl, hwidth, hgone, hall, hfeed⟩,
          fun _ => .inr hnone⟩
      | notYet =>
        obtain ⟨delay, moment, m, head, rest, rfl, hsteps, hfeed', hdeadline, hseen, htimely⟩ := hfeed.notYet hdraw
        have hpart : Plan.Steps n given w.clock
            (.group kind ((gone ++ inWork) ++ .later none delay moment false head :: rest)) led
            (.group kind ((gone ++ inWork) ++ .later none delay (some m) false head :: rest)) led :=
          (hsteps n given led).part hopens
        rw [List.append_assoc, List.append_assoc] at hpart
        have hwaits := hfollows.onward hpart
        have hhidden := hwaits.trans ((hwaits.follows hfollows).hidden hseen (htimely hfollows.timely))
        refine ⟨_, hhidden, ⟨⟨hn, hlength⟩, kind, gone, inWork, _, rfl, hwidth, hgone, hall.records hhidden.records,
          hfeed'.records hhidden.records⟩, fun hnone => ?_⟩
        cases hdeadline.symm.trans hnone

/-- What comes out at the front is through. -/
theorem front? (h : (Work.ahead l).Plans n w origins [plan]) {t : WindowTurn} (hfront : l.front? = some (t, l')) :
    (∃ number fragments, t = .through number fragments) ∧ (Work.ahead l').Plans n w origins [plan] := by
  obtain ⟨⟨hn, hlength⟩, kind, gone, inWork, next, heq, hwidth, hgone, hall, hfeed⟩ := h
  cases heq
  unfold LineupOf.front? at hfront
  split at hfront
  · rename_i fragments rest hmembers
    cases hfront
    rw [hmembers] at hall hlength
    obtain ⟨part, others, rfl, hover, hothers⟩ := hall
    have hgone' : ∀ plan ∈ gone ++ [part], plan.isOver = true := by
      intro plan hplan
      rcases List.mem_append.mp hplan with hmem | hmem
      · exact hgone plan hmem
      · exact List.mem_singleton.mp hmem ▸ hover
    refine ⟨⟨_, fragments, rfl⟩, ⟨hn, Nat.le_of_succ_le hlength⟩, kind, gone ++ [part], others, next, ?_, hwidth,
      hgone',
      hothers, hfeed⟩
    simp only [List.append_assoc, List.cons_append, List.nil_append]
  · rename_i error rest hmembers
    rw [hmembers] at hall
    obtain ⟨_, _, -, hfailed, -⟩ := hall
    exact hfailed.elim
  · cases hfront

/-- A list with nothing left is over. -/
theorem isOver (h : (Work.ahead l).Plans n w origins [plan]) (hover : l.isOver = true) : plan.isOver = true := by
  obtain ⟨-, kind, gone, inWork, next, heq, hwidth, hgone, hall, hfeed⟩ := h
  cases heq
  rw [LineupOf.isOver, Bool.and_eq_true, List.isEmpty_iff, List.isEmpty_iff] at hover
  rw [hover.1] at hall
  cases hall
  have hnone : next = [] := by
    rw [Feed.Plans] at hfeed
    split at hfeed
    · rw [hover.2] at hfeed
      cases next with
      | nil => rfl
      | cons plan rest =>
        obtain ⟨_, _, _, _, -, hcons, -⟩ := Plan.describeMembers_cons.mp hfeed
        cases hcons
    · obtain ⟨_, _, _, _, _, hcons, -⟩ := hfeed
      cases hover.2.symm.trans hcons
  subst hnone
  rw [List.nil_append, List.append_nil, Plan.isOver, Plan.areOver_iff]
  exact hgone

end Work.Plans

/-! ## Leaves -/

theorem Plan.Describes.eq_leaf {work : Work} {out : Except Error String} (h : plan.Describes w origins work)
    (hlayer : work.layer = .leaf out) : plan = .leaf out := by
  match plan, h with
  | .leaf out', h =>
    cases hlayer.symm.trans h
    rfl
  | .group .row _, ⟨_, hother, _⟩ | .group .list _, ⟨_, _, hother, _⟩ | .group .sequence _, ⟨_, _, hother, _⟩
  | .later (some _) _ none false _, ⟨_, _, _, hother, _⟩ | .call _ false _, ⟨_, _, hother, _⟩ =>
    cases hlayer.symm.trans hother

/-- A fragment that is on top comes out. -/
theorem Work.PlansAll.emit {text : String} {rest : List Work}
    (h : Work.PlansAll n w origins (.emit text :: rest) plans) (hplan : Plan.Unfolds n plan plans)
    (hfollows : w.Follows given origins led plan) : ∃ plan' plans',
      w.Furthers n given origins led plan w origins led plan' ∧ Plan.Unfolds n plan' plans' ∧
        Work.PlansAll n w origins rest plans' := by
  obtain ⟨first, others, rfl, hwork, hrest⟩ := h
  rcases (Work.plans_iff (by nofun)).mp hwork with ⟨-, rfl⟩ | ⟨head, hhead, rfl | rfl⟩
  · exact ⟨plan, others, hfollows.refl, hplan, hrest⟩
  · obtain rfl := hhead.eq_leaf rfl
    obtain ⟨plan', hplan', hunfolds⟩ := hplan.steps (l := led) (n := n) .refl (.nothing rfl)
    exact ⟨plan', others, hfollows.onward hplan', hunfolds, hrest⟩
  · obtain rfl := hhead.eq_leaf rfl
    have hcome : Plan.Steps n given w.clock (.later none 0 none false (.leaf (.ok text))) led
        (.later none 0 (some (w.clock + 0)) true (.leaf (.ok text))) led :=
      (Plan.Steps.single (.expect 0 _ led)).step (.come _ led (Nat.le_refl _))
    obtain ⟨plan', hplan', hunfolds⟩ := hplan.steps hcome (.value (.nothing rfl))
    exact ⟨plan', others, hfollows.onward hplan', hunfolds, hrest⟩

/-- Nothing that is planned fails. -/
theorem Work.PlansAll.ne_fail {error : Error} {rest : List Work}
    (h : Work.PlansAll n w origins (.fail error :: rest) plans) (hplan : Plan.Unfolds n plan plans)
    (hsound : plan.Sound led) : False := by
  obtain ⟨first, others, rfl, hwork, -⟩ := h
  have hfails : ¬(Plan.leaf (.error error)).Succeeds := fun ⟨_, heq⟩ => by cases heq
  rcases (Work.plans_iff (by nofun)).mp hwork with ⟨hpassing, -⟩ | ⟨head, hhead, rfl | rfl⟩
  · cases hpassing
  · obtain rfl := hhead.eq_leaf rfl
    exact hfails (hsound.unfolds hplan _ List.mem_cons_self).succeeds
  · obtain rfl := hhead.eq_leaf rfl
    exact hfails (hsound.unfolds hplan _ List.mem_cons_self).succeeds

/-! ## Turns -/

/-- A task is called up. -/
theorem World.Follows.dequeue (h : w.Follows given origins led plan) {window : Nat}
    (hdequeue : w.dequeue? window = some (task, u)) : w.Furthers n given origins led plan u origins led plan := by
  refine h.hidden (World.seen_dequeue? hdequeue) ?_
  unfold World.dequeue? at hdequeue
  split at hdequeue
  · split at hdequeue
    · cases hdequeue
      exact h.timely.aside rfl rfl rfl
    · cases hdequeue
  · cases hdequeue

/-- What a turn of a window leaves of the list, and its plan. -/
def WindowTurn.LeavesPlans (n : Nat) (v : World) (more : List Origin) (l' : Lineup) (plan' : Plan) :
    WindowTurn → Prop
  | .through .. => (Work.ahead l').Plans n v more [plan']
  | .failed _ => False
  | .ended => plan'.isOver = true
  | .blocked => (Work.ahead l').Plans n v more [plan'] ∧ l'.IsFilled n

/-- What a turn leaves of the stack, and its plans. -/
def Turn.LeavesPlans (n : Nat) (v : World) (more : List Origin) (rest : List Work) (plans : List Plan) : Turn → Prop
  | .fragment _ => Work.PlansAll n v more rest plans
  | .failed _ => False
  | .ended => plans = []
  | .blocked => Work.PlansAll n v more rest plans ∧ Work.IsFilled n rest

/-- Turns with so much fuel further the plan. -/
structure Render.Furthers (n : Nat) (given : Origin → Option Nat) (fuel : Nat) : Prop where
  turn : ∀ {around : List Surrounding} {task : Nat} {stack rest others : List Work} {origins : List Origin}
    {led : Ledger} {plan : Plan} {plans : List Plan} {w v : World} {t : Turn},
      Work.TaskedAll w.tasks.size stack → Clean w (Work.piecesOfAll stack ++ others) →
        Work.PlansAll n w origins stack plans → Plan.Unfolds n plan plans → w.Follows given origins led plan →
          Render.turn n fuel around task stack w = some (t, rest, v) →
            ∃ more led' plan' plans', w.Furthers n given origins led plan v more led' plan' ∧
              Plan.Unfolds n plan' plans' ∧ t.LeavesPlans n v more rest plans'
  windowTurn : ∀ {around : List Surrounding} {owner : Nat} {rest others : List Work} {l l' : Lineup}
    {origins : List Origin} {led : Ledger} {plan : Plan} {w v : World} {t : WindowTurn},
      l.Tasked w.tasks.size → Clean w (l.pieces ++ others) → (Work.ahead l).Plans n w origins [plan] →
        w.Follows given origins led plan → Render.windowTurn n fuel around owner rest l w = some (t, l', v) →
          ∃ more led' plan', w.Furthers n given origins led plan v more led' plan' ∧ t.LeavesPlans n v more l' plan'
  workOff : ∀ {around : List Surrounding} {owner running turns told : Nat} {rest others : List Work}
    {l l' : Lineup} {origins : List Origin} {led : Ledger} {plan : Plan} {w v : World} {t : WindowTurn},
      l.Tasked w.tasks.size → Clean w (l.pieces ++ others) → (Work.ahead l).Plans n w origins [plan] →
        l.IsFilled n → w.Follows given origins led plan →
          Render.workOff n fuel around owner rest running turns told l w = some (t, l', v) →
            ∃ more led' plan', w.Furthers n given origins led plan v more led' plan' ∧
              t.LeavesPlans n v more l' plan'
  memberTurn : ∀ {around : List Surrounding} {task : Nat} {fragments : List String} {stack others : List Work}
    {origins : List Origin} {led : Ledger} {plan : Plan} {plans : List Plan} {w v : World} {m : Member},
      Work.TaskedAll w.tasks.size stack → Clean w (Work.piecesOfAll stack ++ others) →
        Work.PlansAll n w origins stack plans → Plan.Unfolds n plan plans → w.Follows given origins led plan →
          Render.memberTurn n fuel around task fragments stack w = some (m, v) →
            ∃ more led' plan', w.Furthers n given origins led plan v more led' plan' ∧
              ∀ delay moment, m.Plans n v more (.later none delay (some moment) true plan')

namespace Render.Furthers

variable {fuel : Nat} {around : List Surrounding} {stack rest besides : List Work}

theorem zero : Furthers n given 0 where
  turn _ _ _ _ _ h := by
    rw [Render.turn] at h
    cases h
  windowTurn _ _ _ _ h := by
    rw [Render.windowTurn] at h
    cases h
  workOff _ _ _ _ _ h := by
    rw [Render.workOff] at h
    cases h
  memberTurn _ _ _ _ _ h := by
    rw [Render.memberTurn] at h
    cases h

theorem succ_windowTurn (ih : Furthers n given fuel) {t : WindowTurn} (hl : l.Tasked w.tasks.size)
    (hclean : Clean w (l.pieces ++ besides)) (hplan : (Work.ahead l).Plans n w origins [plan])
    (hfollows : w.Follows given origins led plan)
    (h : Render.windowTurn n (fuel + 1) around owner rest l w = some (t, l', v)) :
    ∃ more led' plan', w.Furthers n given origins led plan v more led' plan' ∧ t.LeavesPlans n v more l' plan' := by
  obtain ⟨-, htasked⟩ := hl.draw owner (n - l.members.length)
  obtain ⟨deeds, hway⟩ := l.way_draw owner (n - l.members.length) w
  have hclean' := hclean.course (hway.course.frame besides)
  obtain ⟨plan', hfurthers, hplan', hfilled⟩ := hplan.fill owner hfollows
  rw [Render.windowTurn] at h
  dsimp only at h
  split at h
  · rename_i out l'' hfront
    cases h
    obtain ⟨⟨number, fragments, rfl⟩, hleft⟩ := hplan'.front? hfront
    exact ⟨origins, led, plan', hfurthers, hleft⟩
  · obtain ⟨more, led', plan'', hmore, hleaves⟩ :=
      ih.workOff htasked hclean' hplan' hfilled (hfurthers.follows hfollows) h
    exact ⟨more, led', plan'', hfurthers.trans hmore, hleaves⟩

theorem succ_memberTurn (ih : Furthers n given fuel) {fragments : List String} {m : Member}
    (hstack : Work.TaskedAll w.tasks.size stack) (hclean : Clean w (Work.piecesOfAll stack ++ besides))
    (hworks : Work.PlansAll n w origins stack plans) (hplan : Plan.Unfolds n plan plans)
    (hfollows : w.Follows given origins led plan)
    (h : Render.memberTurn n (fuel + 1) around task fragments stack w = some (m, v)) :
    ∃ more led' plan', w.Furthers n given origins led plan v more led' plan' ∧
      ∀ delay moment, m.Plans n v more (.later none delay (some moment) true plan') := by
  rw [Render.memberTurn] at h
  split at h
  · cases h
  · rename_i text stack' u hturn
    obtain ⟨-, hstack', deeds, hway⟩ := (TakesCourse.all n fuel).whole hstack hturn
    obtain ⟨more, led', plan', plans', hfurthers, hplan', hleaves⟩ :=
      ih.turn hstack hclean hworks hplan hfollows hturn
    have hclean' := hclean.course (hway.course.frame besides)
    obtain ⟨more', led'', plan'', hrest, hmember⟩ :=
      ih.memberTurn hstack' hclean' hleaves hplan' (hfurthers.follows hfollows) h
    exact ⟨more', led'', plan'', hfurthers.trans hrest, hmember⟩
  · rename_i error stack' u hturn
    obtain ⟨_, _, _, _, -, -, hfailed⟩ := ih.turn hstack hclean hworks hplan hfollows hturn
    exact hfailed.elim
  · rename_i stack' u hturn
    obtain ⟨more, led', plan', plans', hfurthers, hplan', hleaves⟩ :=
      ih.turn hstack hclean hworks hplan hfollows hturn
    cases h
    cases hleaves
    refine ⟨more, led', plan', hfurthers, fun delay moment => ?_⟩
    rw [Member.Plans, Plan.isOver, Bool.true_and]
    exact hplan'.isOver
  · rename_i stack' u hturn
    obtain ⟨more, led', plan', plans', hfurthers, hplan', hworks', hfilled⟩ :=
      ih.turn hstack hclean hworks hplan hfollows hturn
    cases h
    exact ⟨more, led', plan', hfurthers,
      fun delay moment => ⟨hfilled, delay, moment, plan', plans', rfl, hplan', hworks'⟩⟩

/-- The member whose turn it is goes on in its place. -/
theorem placed (ih : Furthers n given fuel) {before after : List Member} {fragments : List String} {m : Member}
    (hl : l.Tasked w.tasks.size) (hclean : Clean w (l.pieces ++ besides))
    (hplan : (Work.ahead l).Plans n w origins [plan]) (hfollows : w.Follows given origins led plan)
    (hmembers : l.members = before ++ .running task fragments stack :: after)
    (h : Render.memberTurn n fuel around task fragments stack (w.beginTurn task) = some (m, v)) :
    ∃ more led' plan', w.Furthers n given origins led plan v more led' plan' ∧
      (Work.ahead (l.replace task m)).Plans n v more [plan'] := by
  obtain ⟨part, ⟨-, delay, moment, value, plans, rfl, hunfolds, hworks⟩, hpart, hplaced⟩ :=
    hplan.exists_part hfollows hmembers
  have hvalue : w.Follows given origins led value :=
    ⟨hpart.tallies, hpart.timely, ⟨hpart.sound.nodup, hpart.sound.fresh, hpart.sound.succeeds⟩, hpart.dated.2.2⟩
  have hbegun : w.Furthers n given origins led value (w.beginTurn task) origins led value :=
    hvalue.hidden (World.seen_beginTurn w task) (hvalue.timely.aside rfl rfl rfl)
  have hof := Member.taskedAll_iff.mp hl.below (.running task fragments stack)
    (hmembers ▸ List.mem_append_right _ List.mem_cons_self)
  have hstack : Work.TaskedAll (w.beginTurn task).tasks.size stack := by
    rw [World.size_tasks_beginTurn]
    exact hof.2
  have hclean' : Clean (w.beginTurn task) (Work.piecesOfAll stack ++ ((.ahead { l with members := [] } ::
      Member.piecesOfAll before) ++ (Member.piecesOfAll after ++ besides))) := by
    refine (hclean.hidden (World.seen_beginTurn w task)).only (List.Perm.subperm ?_)
    rw [LineupOf.pieces_eq hmembers, List.append_assoc, List.append_assoc]
    exact List.perm_append_comm_assoc ..
  obtain ⟨more, led', value', hmember, hm⟩ := ih.memberTurn hstack hclean' (hworks.records hbegun.records) hunfolds
    (hbegun.follows hvalue) h
  have hturn := hbegun.trans hmember
  have hfurthers : w.Furthers n given origins led (.later none delay (some moment) true value) v more led'
      (.later none delay (some moment) true value') :=
    ⟨hturn.records, hturn.clock, hturn.steps.value, hturn.tallies, hturn.timely⟩
  have hreplaced := LineupOf.members_replace hl.nodup hmembers m
  obtain ⟨plan', hplan', hlist⟩ := hplaced hfurthers (hm delay moment) hreplaced rfl
  exact ⟨more, led', plan', hplan', hlist⟩

/-- The list is as before, but for that member. -/
theorem replaced {before after : List Member} {fragments : List String} {m : Member} (hl : l.Tasked w.tasks.size)
    (hclean : Clean w (l.pieces ++ besides)) (hfilled : l.IsFilled n)
    (hmembers : l.members = before ++ .running task fragments stack :: after)
    (h : Render.memberTurn n fuel around task fragments stack (w.beginTurn task) = some (m, v)) :
    (l.replace task m).IsFilled n ∧ (m.task? = some task ∨ m.task? = none) ∧
      (l.replace task m).Tasked v.tasks.size ∧ Clean v ((l.replace task m).pieces ++ besides) := by
  obtain ⟨-, hnumber, htasked, deeds, hway⟩ := (TakesCourse.all n fuel).placed hl hmembers h
  refine ⟨fun hnone => ?_, hnumber, htasked, hclean.course (hway.course.frame besides)⟩
  rw [LineupOf.replace, List.length_map]
  exact hfilled hnone

theorem succ_workOff (ih : Furthers n given fuel) {running turns told : Nat} {t : WindowTurn}
    (hl : l.Tasked w.tasks.size) (hclean : Clean w (l.pieces ++ besides))
    (hplan : (Work.ahead l).Plans n w origins [plan]) (hfilled : l.IsFilled n)
    (hfollows : w.Follows given origins led plan)
    (h : Render.workOff n (fuel + 1) around owner rest running turns told l w = some (t, l', v)) :
    ∃ more led' plan', w.Furthers n given origins led plan v more led' plan' ∧ t.LeavesPlans n v more l' plan' := by
  rw [Render.workOff] at h
  split at h
  · cases h
    refine ⟨origins, led, plan, hfollows.refl, ?_⟩
    split
    · rename_i hover
      exact hplan.isOver hover
    · exact ⟨hplan, hfilled⟩
  · rename_i task u hdequeue
    have hu : u.tasks.size = w.tasks.size := congrArg Array.size (World.tasks_dequeue? hdequeue)
    have hdequeued := hfollows.dequeue (n := n) hdequeue
    have hclean' := hclean.hidden (World.seen_dequeue? hdequeue)
    have hplan' := hplan.records hdequeued.records
    rw [← hu] at hl
    split at h
    · obtain ⟨more, led', plan', hfurthers, hleaves⟩ :=
        ih.workOff hl hclean' hplan' hfilled (hdequeued.follows hfollows) h
      exact ⟨more, led', plan', hdequeued.trans hfurthers, hleaves⟩
    · rename_i fragments stack hfind
      obtain ⟨before, after, hmembers⟩ := LineupOf.find?_eq_some hfind
      dsimp only at h
      split at h
      · cases h
      · rename_i number fragments' stack' x hmember
        obtain ⟨hfilled', hnumber, htasked, hclean''⟩ := replaced hl hclean' hfilled hmembers hmember
        obtain ⟨more, led', plan', hplaced, hlist⟩ :=
          ih.placed hl hclean' hplan' (hdequeued.follows hfollows) hmembers hmember
        have hfurthers := hdequeued.trans hplaced
        have hsame : number = task := by
          rcases hnumber with hsame | hnone
          · exact Option.some.inj hsame
          · cases hnone
        subst hsame
        have hafter := hfurthers.follows hfollows
        have hsuspended : x.Furthers n given more led' plan' (x.suspend l.window number) more led' plan' :=
          hafter.hidden rfl (hafter.timely.aside rfl rfl rfl)
        have hstands := hsuspended.follows hafter
        split at h
        · cases h
          have hwoken := hstands.hidden (n := n) (World.seen_wake ..) (hstands.timely.wake (.task owner))
          exact ⟨more, led', plan', (hfurthers.trans hsuspended).trans hwoken,
            (hlist.records hsuspended.records).records hwoken.records, hfilled'⟩
        · obtain ⟨more', led'', plan'', hrest, hleaves⟩ := ih.workOff (w := x.suspend l.window number) htasked
            (hclean''.hidden rfl) (hlist.records hsuspended.records) hfilled' hstands h
          exact ⟨more', led'', plan'', (hfurthers.trans hsuspended).trans hrest, hleaves⟩
      · rename_i m x hother hmember
        obtain ⟨hfilled', -, htasked, hclean''⟩ := replaced hl hclean' hfilled hmembers hmember
        obtain ⟨more, led', plan', hplaced, hlist⟩ :=
          ih.placed hl hclean' hplan' (hdequeued.follows hfollows) hmembers hmember
        have hfurthers := hdequeued.trans hplaced
        have hafter := hfurthers.follows hfollows
        have hretired : x.Furthers n given more led' plan' (x.retire l.window task) more led' plan' :=
          hafter.hidden rfl (hafter.timely.aside rfl rfl rfl)
        have hplan'' := hlist.records hretired.records
        split at h
        · rename_i out l'' hfront
          cases h
          obtain ⟨⟨number, texts, rfl⟩, hleft⟩ := hplan''.front? hfront
          exact ⟨more, led', plan', hfurthers.trans hretired, hleft⟩
        · rw [← World.size_tasks_retire x l.window task] at htasked
          obtain ⟨more', led'', plan'', hrest, hleaves⟩ :=
            ih.workOff htasked (hclean''.hidden rfl) hplan'' hfilled' (hretired.follows hafter) h
          exact ⟨more', led'', plan'', (hfurthers.trans hretired).trans hrest, hleaves⟩

/-- A turn that begins with a step. -/
theorem turn_stepped (ih : Furthers n given fuel) {work : Work} {t : Turn} {left : List Work}
    (hstack : Work.TaskedAll w.tasks.size (work :: rest))
    (hclean : Clean w (Work.piecesOfAll (work :: rest) ++ besides))
    (hworks : Work.PlansAll n w origins (work :: rest) plans) (hplan : Plan.Unfolds n plan plans)
    (hfollows : w.Follows given origins led plan) (hstepped : work.isStepped = true)
    (h : Render.turn n (fuel + 1) around task (work :: rest) w = some (t, left, v)) :
    ∃ more led' plan' plans', w.Furthers n given origins led plan v more led' plan' ∧
      Plan.Unfolds n plan' plans' ∧ t.LeavesPlans n v more left plans' := by
  obtain ⟨hwork, hrest⟩ := hstack
  obtain ⟨first, others, rfl, hfirst, hothers⟩ := hworks
  have htaken : ∀ cell, work = .item (.sequence cell) → w.isTaken cell = false := by
    rintro cell rfl
    exact hclean.isTaken List.mem_cons_self
  have hsize := Work.size_tasks_step w n task work
  have htasked : (work.step n task w).1.Tasked w.tasks.size := Work.tasked_step hwork w
  cases hs : work.step n task w with
  | mk progress u =>
    rw [hs] at hsize htasked
    have hcourse := (Work.way_step rest hstepped hs).course.frame besides
    have hclean' := hclean.course hcourse
    obtain ⟨more, led', plan', plans', hfurthers, hplan', hstep⟩ :=
      hfirst.step hplan hfollows hstepped htaken hclean'.inOrder hs
    cases progress with
    | next works =>
      rw [Render.turn_step hstepped hs] at h
      have hafter := hfurthers.follows hfollows
      have htidied := hafter.tidied (n := n) (Work.heldByAll (works ++ rest) ++ around.flatMap Surrounding.held)
      have hbound : (u.tidied (Work.heldByAll (works ++ rest) ++
          around.flatMap Surrounding.held)).tasks.size = w.tasks.size := by rw [World.tasks_tidied, hsize]
      rw [← hbound] at htasked hrest
      rw [Progress.pieces, ← Work.piecesOfAll_append] at hclean'
      have hboth := hstep.append (hothers.records hfurthers.records)
      obtain ⟨more', led'', plan'', plans'', hturn, hplan'', hleaves⟩ :=
        ih.turn (Work.taskedAll_append htasked hrest) (hclean'.hidden (World.seen_tidied ..))
          (hboth.records htidied.records) hplan' (htidied.follows hafter) h
      exact ⟨more', led'', plan'', plans'', (hfurthers.trans htidied).trans hturn, hplan'', hleaves⟩
    | wait waiting =>
      rw [Render.turn_wait hstepped hs] at h
      cases h
      have hboth := hstep.append (hothers.records hfurthers.records)
      refine ⟨more, led', plan', _, hfurthers, hplan', hboth, ?_⟩
      have hwaits := Work.isStepped_wait hstepped hs
      cases waiting with
      | ahead => cases hwaits
      | _ => trivial

/-- A turn that begins with a list in work. -/
theorem turn_ahead (ih : Furthers n given fuel) {t : Turn} {left : List Work}
    (hstack : Work.TaskedAll w.tasks.size (.ahead l :: rest))
    (hclean : Clean w (Work.piecesOfAll (.ahead l :: rest) ++ besides))
    (hworks : Work.PlansAll n w origins (.ahead l :: rest) plans) (hplan : Plan.Unfolds n plan plans)
    (hfollows : w.Follows given origins led plan)
    (h : Render.turn n (fuel + 1) around task (.ahead l :: rest) w = some (t, left, v)) :
    ∃ more led' plan' plans', w.Furthers n given origins led plan v more led' plan' ∧
      Plan.Unfolds n plan' plans' ∧ t.LeavesPlans n v more left plans' := by
  obtain ⟨hwork, hrest⟩ := hstack
  obtain ⟨first, others, rfl, hfirst, hothers⟩ := hworks
  obtain ⟨head, rfl⟩ : ∃ head, first = [head] := by
    obtain ⟨-, kind, gone, inWork, next, rfl, -⟩ := hfirst
    exact ⟨_, rfl⟩
  have hl : l.Tasked w.tasks.size := ⟨hwork.1, hwork.2⟩
  have hpieces : Work.piecesOfAll (.ahead l :: rest) ++ besides =
      l.pieces ++ (Work.piecesOfAll rest ++ besides) := List.append_assoc ..
  rw [hpieces] at hclean
  have hhead := hfollows.unfolds hplan head List.mem_cons_self
  rw [Render.turn] at h
  split at h
  · cases h
  · rename_i member fragments l' u hwindow
    obtain ⟨hsize, htasked, -, deeds, hway⟩ := (TakesCourse.all n fuel).windowTurn hl hwindow
    obtain ⟨more, led', head', hfurthers, hleaves⟩ := ih.windowTurn hl hclean hfirst hhead hwindow
    obtain ⟨plan', hplan', hunfolds⟩ := hfurthers.within hplan (.whole head')
    have hthrough := Work.taskedAll_through fragments l'.window member htasked (hrest.mono hsize)
    have hclean' := hclean.course ((hway.course.frame _).through l'.window member)
    rw [WindowTurn.pieces, List.nil_append, ← List.append_assoc, ← List.cons_append,
      ← Work.piecesOfAll_through fragments] at hclean'
    have hstack' : Work.PlansAll n u more (.ahead l' :: rest) ([head'] ++ others) :=
      ⟨[head'], others, rfl, hleaves, hothers.records hfurthers.records⟩
    obtain ⟨more', led'', plan'', plans'', hturn, hplan'', hleaves'⟩ :=
      ih.turn hthrough hclean' (hstack'.passing (Work.isPassing_through fragments l'.window member)) hunfolds
        (hplan'.follows hfollows) h
    exact ⟨more', led'', plan'', plans'', hplan'.trans hturn, hplan'', hleaves'⟩
  · rename_i error l' u hwindow
    obtain ⟨_, _, _, -, hfailed⟩ := ih.windowTurn hl hclean hfirst hhead hwindow
    exact hfailed.elim
  · rename_i l' u hwindow
    obtain ⟨hsize, -, -, deeds, hway⟩ := (TakesCourse.all n fuel).windowTurn hl hwindow
    obtain ⟨more, led', head', hfurthers, hleaves⟩ := ih.windowTurn hl hclean hfirst hhead hwindow
    obtain ⟨plan', hplan', hunfolds⟩ := hfurthers.within hplan (.nothing hleaves)
    have hafter := hplan'.follows hfollows
    have htidied := hafter.tidied (n := n) (Work.heldByAll rest ++ around.flatMap Surrounding.held)
    have hover := (hclean.course (hway.course.frame _)).only (List.sublist_append_right ..).subperm
    have hbound : w.tasks.size ≤ (u.tidied (Work.heldByAll rest ++
        around.flatMap Surrounding.held)).tasks.size := by rwa [World.tasks_tidied]
    obtain ⟨more', led'', plan'', plans'', hturn, hplan'', hleaves'⟩ :=
      ih.turn (hrest.mono hbound) (hover.hidden (World.seen_tidied ..))
        ((hothers.records hfurthers.records).records htidied.records) hunfolds (htidied.follows hafter) h
    exact ⟨more', led'', plan'', plans'', (hplan'.trans htidied).trans hturn, hplan'', hleaves'⟩
  · rename_i l' u hwindow
    obtain ⟨more, led', head', hfurthers, hlist, hfilled⟩ := ih.windowTurn hl hclean hfirst hhead hwindow
    obtain ⟨plan', hplan', hunfolds⟩ := hfurthers.within hplan (.whole head')
    cases h
    exact ⟨more, led', plan', _, hplan', hunfolds, ⟨[head'], others, rfl, hlist, hothers.records hfurthers.records⟩,
      hfilled⟩

theorem succ_turn (ih : Furthers n given fuel) {t : Turn}
    (hstack : Work.TaskedAll w.tasks.size stack) (hclean : Clean w (Work.piecesOfAll stack ++ besides))
    (hworks : Work.PlansAll n w origins stack plans) (hplan : Plan.Unfolds n plan plans)
    (hfollows : w.Follows given origins led plan)
    (h : Render.turn n (fuel + 1) around task stack w = some (t, rest, v)) :
    ∃ more led' plan' plans', w.Furthers n given origins led plan v more led' plan' ∧
      Plan.Unfolds n plan' plans' ∧ t.LeavesPlans n v more rest plans' := by
  match stack with
  | [] =>
    rw [Render.turn] at h
    cases h
    cases hworks
    exact ⟨origins, led, plan, [], hfollows.refl, hplan, rfl⟩
  | .emit text :: left =>
    rw [Render.turn] at h
    cases h
    obtain ⟨plan', plans', hfurthers, hplan', hrest⟩ := hworks.emit hplan hfollows
    exact ⟨origins, led, plan', plans', hfurthers, hplan', hrest⟩
  | .fail error :: left => exact (hworks.ne_fail hplan hfollows.sound).elim
  | .ahead l :: left => exact ih.turn_ahead hstack hclean hworks hplan hfollows h
  | .note _ :: _ | .root _ :: _ | .settled _ :: _ | .item _ :: _ | .await .. :: _ | .prop .. :: _
  | .children _ :: _ | .draw _ :: _ => exact ih.turn_stepped hstack hclean hworks hplan hfollows rfl h

/-- However long a turn is, it furthers the plan. -/
theorem all (n : Nat) (given : Origin → Option Nat) (fuel : Nat) : Furthers n given fuel := by
  induction fuel with
  | zero => exact zero
  | succ fuel ih => exact ⟨ih.succ_turn, ih.succ_windowTurn, ih.succ_workOff, ih.succ_memberTurn⟩

end Render.Furthers

end TaggedMarkup
