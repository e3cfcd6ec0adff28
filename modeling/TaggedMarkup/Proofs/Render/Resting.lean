import TaggedMarkup.Proofs.Render.Furthering

/-!
# Whoever waits has nothing to do

A stack that waits has plans with which nothing can be done before the next timer goes off
(`Work.Waits.idles`): whatever is under way waits for a moment, and at that moment a timer goes off.
-/

namespace TaggedMarkup

/-- There is nothing to do before the next timer goes off. -/
def Plan.Idles (n : Nat) (w : World) (plan : Plan) : Prop :=
  ∀ x, (∀ timer ∈ w.timers, x < timer.deadline) → plan.Rests n x

variable {n task : Nat} {given : Origin → Option Nat} {w : World} {origins : List Origin} {σ : Seating}
  {led : Ledger}

/-! ## Pending values -/

/-- Where somebody waits for a pending value, there is a timer for the base. -/
theorem World.Hinges.exists_timer {pending base delay : Nat} {origin : Origin}
    (h : w.Hinges origins pending base origin delay) (hw : w.Balanced σ fun _ => False) (htimely : w.Timely)
    {seat : Nat} {waiter : Waiter} (huntold : w.Untold pending seat waiter) :
    ∃ moment, ⟨moment, .pending base⟩ ∈ w.timers := by
  induction h generalizing seat waiter with
  | @clock pending delay origin keeps body horigin hjob =>
    rcases hw.expects pending id with htold | htimer | ⟨source, seat', hsource⟩
    · exact absurd huntold (htold seat waiter)
    · exact htimer
    · rw [htimely.seated hsource] at hjob
      cases hjob
  | @source pending source base delay origin hjob _ ih =>
    rcases hw.expects pending id with htold | ⟨deadline, htimer⟩ | ⟨other, seat', hsource⟩
    · exact absurd huntold (htold seat waiter)
    · obtain ⟨cell, delay, keeps, body, hcell, hafter, -⟩ := htimely.timed htimer
      rw [← World.job?_seen, World.job?_of_getElem? hcell, hafter] at hjob
      cases hjob
    · cases hjob.symm.trans (htimely.seated hsource)
      exact ih hsource

/-- Whoever waits for a pending value waits for the moment that is noted for the base, and no longer. -/
theorem World.Hinges.idles {pending base delay : Nat} {origin : Origin}
    (h : w.Hinges origins pending base origin delay) (hw : w.Balanced σ fun _ => False) (htimely : w.Timely)
    (htallies : w.Tallies given origins led) {seat : Nat} {waiter : Waiter}
    (huntold : w.Untold pending seat waiter) {time moment : Nat} {value : Plan}
    (hdated : (Plan.later (some origin) time (some moment) false value).Dated given w.clock led) :
    (Plan.later (some origin) time (some moment) false value).Idles n w := by
  obtain ⟨deadline, htimer⟩ := h.exists_timer hw htimely huntold
  obtain ⟨cell, delay, keeps, body, hcell, hjob, hstage⟩ := htimely.timed htimer
  have hnoted : led.moments origin = some deadline := by
    have htally := htallies.cell h.origin_eq hcell
    simp only [PendingCell.Tallies, hjob, hstage] at htally
    exact htally.1
  have hmoment : deadline = moment :=
    Option.some.inj (hnoted.symm.trans ((hdated.2.1 moment rfl).1 origin rfl))
  intro x hx
  refine ⟨⟨moment, rfl, fun hle => ?_⟩, fun hcome => by cases hcome⟩
  exact absurd (hx _ htimer) (Nat.not_lt.mpr (hmoment ▸ hle))

/-! ## Windows -/

/-- What has not been drawn has not come. -/
theorem Plan.DescribeMembers.isDrawn_eq_false {plans : List Plan} {members : List (Nat × Value)}
    (h : Plan.DescribeMembers plans w origins members) : ∀ plan ∈ plans, plan.isDrawn = false := by
  induction plans generalizing members with
  | nil => nofun
  | cons plan rest ih =>
    obtain ⟨delay, member, members, value, rfl, rfl, -, hrest⟩ := Plan.describeMembers_cons.mp h
    exact List.forall_mem_cons.mpr ⟨rfl, ih hrest⟩

/-- No member that was not drawn has come. -/
theorem Feed.Plans.isDrawn_eq_false {feed : Feed} {plans : List Plan} (h : feed.Plans w origins plans) :
    ∀ plan ∈ plans, plan.isDrawn = false := by
  rw [Feed.Plans] at h
  split at h
  · exact h.isDrawn_eq_false
  · obtain ⟨delay, member, members, value, rest, -, rfl, -, hrest⟩ := h
    exact List.forall_mem_cons.mpr ⟨rfl, hrest.isDrawn_eq_false⟩

/-- The member that is next has a timer. -/
theorem Feed.Plans.idles {feed : Feed} {plan : Plan} {plans : List Plan}
    (h : feed.Plans w origins (plan :: plans)) (hexpected : feed.Expected w task) : plan.Idles n w := by
  obtain ⟨deadline, hdeadline, htimer⟩ := hexpected
  rw [Feed.Plans, hdeadline] at h
  obtain ⟨delay, member, members, value, rest, -, hplans, -⟩ := h
  cases hplans
  intro x hx
  refine ⟨⟨deadline, rfl, fun hle => ?_⟩, fun hcome => by cases hcome⟩
  exact absurd (hx _ htimer) (Nat.not_lt.mpr hle)

/-- Another part may be begun only if the one before it was. -/
theorem Plan.Opens.eq_nil {width : Nat} {before after : List Plan} (h : Plan.Opens width (before ++ after))
    (hafter : ∀ plan ∈ after, plan.isDrawn = false) : after = [] := by
  induction after using List.reverseRecOn with
  | nil => rfl
  | append_singleton front last _ =>
    have hlast := (h (before ++ front).length last (by simp)).1 (by simp; omega)
    rw [hafter last (by simp)] at hlast
    cases hlast

/-- Something stands in the first part, or in the second one. -/
theorem mem_or_of_append {α : Type} {xs ys front back : List α} {y : α} (h : xs ++ ys = front ++ y :: back) :
    y ∈ xs ∨ ∃ front', front = xs ++ front' ∧ ys = front' ++ y :: back := by
  rcases List.append_eq_append_iff.mp h with ⟨front', hfront, hys⟩ | ⟨xs', hxs, hrest⟩
  · exact .inr ⟨front', hfront, hys⟩
  · cases xs' with
    | nil => exact .inr ⟨[], by rw [hxs, List.append_nil, List.append_nil], hrest.symm⟩
    | cons x xs' =>
      cases hrest
      exact .inl (hxs ▸ by simp)

/-- In a window that is full, or whose next member has a moment, there is nothing to do if there is nothing to do
for those in it. -/
theorem Plan.group_idles {kind : Plan.Kind} {gone inWork next : List Plan} {feed : Feed} (hwidth : kind.width n = n)
    (hgone : ∀ plan ∈ gone, plan.isOver = true)
    (hdated : (Plan.group kind (gone ++ (inWork ++ next))).Dated given w.clock led)
    (hinWork : ∀ plan ∈ inWork, plan.Idles n w) (hnext : feed.Plans w origins next)
    (hexpected : feed.deadline.isSome = true → feed.Expected w task)
    (hfull : feed.deadline = none → feed.members = [] ∨ ¬Plan.Opens n (gone ++ inWork)) :
    (Plan.group kind (gone ++ (inWork ++ next))).Idles n w := by
  intro x hx
  rw [Plan.Rests, Plan.restAll_iff, hwidth]
  intro front plan back hparts hopens
  rw [List.nil_append] at hopens
  rcases mem_or_of_append hparts with hmem | ⟨front', rfl, hparts'⟩
  · have hplan := Plan.dateAll_iff.mp hdated plan (List.mem_append_left _ hmem)
    exact hplan.rests (hgone plan hmem) n x
  · rcases mem_or_of_append hparts' with hmem | ⟨front'', rfl, rfl⟩
    · exact hinWork plan hmem x hx
    · -- a member that was not drawn: it is the first one, for the others wait until that one has come
      rw [← List.append_assoc] at hopens
      cases hopens.eq_nil fun plan hplan => hnext.isDrawn_eq_false plan (List.mem_append_left _ hplan)
      rw [List.append_nil] at hopens
      cases hdeadline : feed.deadline with
      | some => exact hnext.idles (hexpected (by rw [hdeadline]; rfl)) x hx
      | none =>
        refine ((hfull hdeadline).elim (fun hmembers => ?_) fun hshut => hshut hopens).elim
        rw [List.nil_append, Feed.Plans, hdeadline, hmembers] at hnext
        obtain ⟨_, _, _, _, _, hcontra, -⟩ := Plan.describeMembers_cons.mp hnext
        cases hcontra

/-- A window that is full is shut as long as the first member in it is not over. -/
theorem Plan.not_opens {gone inWork : List Plan} {head : Plan} {rest : List Plan} (hinWork : inWork = head :: rest)
    (hover : head.isOver = false) (hfull : n ≤ inWork.length) : ¬Plan.Opens n (gone ++ inWork) := by
  intro hopens
  have hhead : (gone ++ inWork)[gone.length]? = some head := by
    rw [List.getElem?_append_right (Nat.le_refl _), Nat.sub_self, hinWork]
    rfl
  have hcontra := (hopens gone.length head hhead).2 (by rw [List.length_append]; omega)
  rw [hover] at hcontra
  cases hcontra

/-! ## Stacks that wait -/

/-- A list in work that waits. -/
theorem Work.Plans.ahead_idles {lineup : Lineup} {rest : List Work} {plans : List Plan}
    (h : (Work.ahead lineup).Plans n w origins plans) (hfilled : lineup.IsFilled n)
    (hwaits : Work.Waits w task (.ahead lineup :: rest)) (hdated : ∀ plan ∈ plans, plan.Dated given w.clock led)
    (hmembers : ∀ inWork, Member.PlansAll n w origins lineup.members inWork →
      (∀ plan ∈ inWork, plan.Dated given w.clock led) → (∀ plan ∈ inWork, plan.Idles n w) ∧
        ∀ member more, lineup.members = member :: more → member.isRunning = true →
          ∃ head others, inWork = head :: others ∧ head.isOver = false) :
    ∃ head others, plans = head :: others ∧ head.isOver = false ∧ head.Idles n w := by
  obtain ⟨-, kind, gone, inWork, next, rfl, hwidth, hgone, hinWork, hnext⟩ := h
  have hgroup := hdated _ List.mem_cons_self
  have hparts := Plan.dateAll_iff.mp hgroup
  obtain ⟨hidles, hrunning⟩ := hmembers inWork hinWork fun plan hplan =>
    hparts plan (List.mem_append_right _ (List.mem_append_left _ hplan))
  obtain ⟨-, hexpected, hfirst⟩ := hwaits
  -- something is not over: the first member, or if there is none, the one that is next
  have hleft : (∃ head others, inWork = head :: others ∧ head.isOver = false) ∨
      lineup.members = [] ∧ lineup.feed.deadline.isSome = true := by
    cases hcase : lineup.members with
    | nil =>
      rw [hcase] at hfirst
      obtain ⟨deadline, hdeadline, -⟩ := hfirst
      exact .inr ⟨rfl, by rw [hdeadline]; rfl⟩
    | cons member more =>
      rw [hcase] at hfirst
      exact .inl (hrunning member more hcase hfirst)
  refine ⟨_, [], rfl, ?_, Plan.group_idles hwidth hgone hgroup hidles hnext hexpected fun hnone => ?_⟩
  · rw [Plan.isOver, ← Bool.not_eq_true, Plan.areOver_iff]
    intro hall
    rcases hleft with ⟨head, others, rfl, hhead⟩ | ⟨-, hsome⟩
    · rw [hall head (by simp)] at hhead
      cases hhead
    · obtain ⟨deadline, hdeadline⟩ := Option.isSome_iff_exists.mp hsome
      rw [Feed.Plans, hdeadline] at hnext
      obtain ⟨delay, member, members, value, later, -, rfl, -⟩ := hnext
      have hcontra := hall (.later none delay (some deadline) false value) (by simp)
      rw [Plan.isOver] at hcontra
      cases hcontra
  · rcases hfilled hnone with hfull | hnil
    · rcases hleft with ⟨head, others, heq, hhead⟩ | ⟨-, hsome⟩
      · exact .inr (Plan.not_opens heq hhead (hinWork.length_eq.symm ▸ hfull))
      · rw [hnone] at hsome
        cases hsome
    · exact .inl hnil

mutual

/-- A stack that waits has a part of the plan before it in which there is nothing to do, and which is not over. -/
theorem Work.Waits.idles (hw : w.Balanced σ fun _ => False) (htimely : w.Timely)
    (htallies : w.Tallies given origins led) (hn : 1 < n) {task : Nat} : ∀ {stack : List Work} {plans : List Plan},
      Work.PoisedAll w σ task stack → Work.Waits w task stack → Work.IsFilled n stack →
        Work.PlansAll n w origins stack plans → (∀ plan ∈ plans, plan.Dated given w.clock led) →
          ∃ head rest, plans = head :: rest ∧ head.isOver = false ∧ head.Idles n w
  | .await pending (some seat) resumption :: _, _, _, hwaits, _, ⟨_, others, rfl, hplans, _⟩, hdated => by
    obtain ⟨origin, delay, moment, value, rfl, p, r, base, hlayer, hhinges, -⟩ := hplans
    cases hlayer
    exact ⟨_, others, rfl, rfl, hhinges.idles hw htimely htallies hwaits (hdated _ List.mem_cons_self)⟩
  | .draw _ :: _, _, _, _, _, ⟨_, _, _, hplans, _⟩, _ => absurd hplans.1 (Nat.not_le.mpr hn)
  | .ahead ⟨window, feed, kept, members⟩ :: _, _, hpoised, hwaits, hfilled, ⟨first, others, rfl, hplans, _⟩,
      hdated => by
    obtain ⟨⟨-, -, -, hmembers⟩, -⟩ := hpoised.of_not_passing rfl
    obtain ⟨head, rest, hfirst, hhead⟩ := hplans.ahead_idles hfilled hwaits
      (fun plan hplan => hdated plan (List.mem_append_left _ hplan)) fun inWork =>
        Member.PoisedAll.idles hw htimely htallies hn hmembers hwaits.1
    exact ⟨head, rest ++ others, by rw [hfirst, List.cons_append], hhead⟩
  | .await _ none _ :: _, _, _, h, _, _, _ | [], _, _, h, _, _, _ | .emit _ :: _, _, _, h, _, _, _
  | .fail _ :: _, _, _, h, _, _, _ | .note _ :: _, _, _, h, _, _, _ | .root _ :: _, _, _, h, _, _, _
  | .settled _ :: _, _, _, h, _, _, _ | .item _ :: _, _, _, h, _, _, _ | .prop .. :: _, _, _, h, _, _, _
  | .children _ :: _, _, _, h, _, _, _ => h.elim

/-- There is nothing to do for a member that was not told, and if it is in work, it is not over. -/
theorem Member.Poised.idles (hw : w.Balanced σ fun _ => False) (htimely : w.Timely)
    (htallies : w.Tallies given origins led) (hn : 1 < n) {window : Nat} : ∀ {member : Member} {plan : Plan},
      member.Poised w σ window → (∀ k, member.task? = some k → ¬w.Told (.task k)) →
        member.Plans n w origins plan → plan.Dated given w.clock led →
          plan.Idles n w ∧ (member.isRunning = true → plan.isOver = false)
  | .running k _ stack, _, ⟨_, _, hpoised, hready⟩, huntold,
      ⟨hfilled, delay, moment, value, plans, rfl, hvalue, hplans⟩, hdated => by
    have hwaits := hready.resolve_left (huntold k rfl)
    obtain ⟨head, rest, rfl, hover, hidles⟩ := Work.Waits.idles hw htimely htallies hn hpoised hwaits hfilled hplans
      (hdated.2.2.unfolds hvalue)
    refine ⟨fun x hx => ⟨⟨moment, rfl, fun _ => rfl⟩, fun _ => ?_⟩, fun _ => ?_⟩
    · exact hvalue.rests hover (hidles x hx) hdated.2.2
    · rw [Plan.isOver, hvalue.isOver_eq_false hover, Bool.and_false]
  | .finished _, _, _, _, hover, hdated => ⟨fun x _ => hdated.rests hover n x, nofun⟩
  | .failed _, _, _, _, h, _ => h.elim

theorem Member.PoisedAll.idles (hw : w.Balanced σ fun _ => False) (htimely : w.Timely)
    (htallies : w.Tallies given origins led) (hn : 1 < n) {window : Nat} :
    ∀ {members : List Member} {plans : List Plan}, Member.PoisedAll w σ window members →
      (∀ k ∈ Member.tasks members, ¬w.Told (.task k)) → Member.PlansAll n w origins members plans →
        (∀ plan ∈ plans, plan.Dated given w.clock led) → (∀ plan ∈ plans, plan.Idles n w) ∧
          ∀ member more, members = member :: more → member.isRunning = true →
            ∃ head others, plans = head :: others ∧ head.isOver = false
  | [], _, _, _, h, _ => ⟨h ▸ nofun, nofun⟩
  | member :: more, _, ⟨hmember, hmore⟩, huntold, ⟨plan, others, rfl, hplan, hothers⟩, hdated => by
    obtain ⟨hhead, hrest⟩ := List.forall_mem_cons.mp hdated
    obtain ⟨hidles, hrunning⟩ := Member.Poised.idles hw htimely htallies hn hmember
      (fun k hk => huntold k (List.mem_filterMap.mpr ⟨member, List.mem_cons_self, hk⟩)) hplan hhead
    obtain ⟨hothers', -⟩ := Member.PoisedAll.idles hw htimely htallies hn hmore
      (fun k hk => huntold k (by
        obtain ⟨other, hother, hk⟩ := List.mem_filterMap.mp hk
        exact List.mem_filterMap.mpr ⟨other, List.mem_cons_of_mem _ hother, hk⟩)) hothers hrest
    refine ⟨List.forall_mem_cons.mpr ⟨hidles, hothers'⟩, fun first rest heq hfirst => ?_⟩
    cases heq
    exact ⟨plan, others, rfl, hrunning hfirst⟩

end

/-- **Whoever waits has nothing to do** before the next timer goes off, and is not through. -/
theorem World.Follows.idles {led : Ledger} {plan : Plan} {plans : List Plan} {stack : List Work}
    (h : w.Follows given origins led plan) (hw : w.Balanced σ fun _ => False) (hn : 1 < n)
    (hpoised : Work.PoisedAll w σ task stack) (hwaits : Work.Waits w task stack) (hfilled : Work.IsFilled n stack)
    (hplan : Plan.Unfolds n plan plans) (hplans : Work.PlansAll n w origins stack plans) :
    plan.isOver = false ∧ plan.Idles n w := by
  obtain ⟨head, rest, rfl, hover, hidles⟩ := Work.Waits.idles hw h.timely h.tallies hn hpoised hwaits hfilled hplans
    (h.dated.unfolds hplan)
  exact ⟨hplan.isOver_eq_false hover, fun x hx => hplan.rests hover (hidles x hx) h.dated⟩

end TaggedMarkup
