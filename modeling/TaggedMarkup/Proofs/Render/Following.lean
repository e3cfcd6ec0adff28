import TaggedMarkup.Proofs.Render.Ledgers

/-!
# Work and its plans

What a stack is going to do stands in plans (`Work.PlansAll`): each piece of work has plans of its own, and so
has each member of a window. A member that was drawn has come; one that waits for its moment is the first of
those to be drawn. What only passes through the stack has no plan.

While a plan is **followed** (`World.Follows`), the ledger tallies with the world and timers are right. Each step
of the work **furthers** its plan (`World.Furthers`), without time passing.
-/

namespace TaggedMarkup

/-! ## Plans of work -/

/-- The plans of the members that have not been drawn. The first of them may have a moment. -/
def Feed.Plans (w : World) (origins : List Origin) (f : Feed) (plans : List Plan) : Prop :=
  match f.deadline with
  | none => Plan.DescribeMembers plans w origins f.members
  | some moment => ∃ delay member members value rest, f.members = (delay, member) :: members ∧
    plans = .later none delay (some moment) false value :: rest ∧ value.Describes w origins (.item member) ∧
      Plan.DescribeMembers rest w origins members

/-- No member can be drawn: as many are in work or held back as may be, the next one has a moment, or there is
none. -/
def LineupOf.IsFilled (n : Nat) (l : Lineup) : Prop :=
  l.feed.deadline = none → n ≤ l.members.length ∨ l.feed.members = []

/-- If a list in work is on top, no member of it can be drawn. -/
def Work.IsFilled (n : Nat) : List Work → Prop
  | .ahead lineup :: _ => lineup.IsFilled n
  | _ => True

mutual

/-- The plans of a piece of work. -/
def Work.Plans (n : Nat) (w : World) (origins : List Origin) : Work → List Plan → Prop
  | .await pending (some _) resumption, plans => ∃ origin delay moment value,
    plans = [.later (some origin) delay (some moment) false value] ∧
      (Plan.later (some origin) delay none false value).Describes w origins (.await pending none resumption)
  | .draw feed, plans => n ≤ 1 ∧ feed.Plans w origins plans
  | .ahead lineup, plans => (1 < n ∧ lineup.members.length ≤ n) ∧ ∃ kind gone inWork next,
    plans = [.group kind (gone ++ (inWork ++ next))] ∧ kind.width n = n ∧ (∀ plan ∈ gone, plan.isOver = true) ∧
      Member.PlansAll n w origins lineup.members inWork ∧ lineup.feed.Plans w origins next
  | work, plans => (work.isPassing = true ∧ plans = []) ∨ ∃ plan : Plan, plan.Describes w origins work ∧
    (plans = [plan] ∨ plans = [.later none 0 none false plan])

/-- The plans of a stack. -/
def Work.PlansAll (n : Nat) (w : World) (origins : List Origin) : List Work → List Plan → Prop
  | [], plans => plans = []
  | work :: rest, plans => ∃ first others, plans = first ++ others ∧ work.Plans n w origins first ∧
    Work.PlansAll n w origins rest others

/-- The plan of a member in a window. -/
def Member.Plans (n : Nat) (w : World) (origins : List Origin) : Member → Plan → Prop
  | .running _ _ stack, plan => Work.IsFilled n stack ∧ ∃ delay moment value plans,
    plan = .later none delay (some moment) true value ∧ Plan.Unfolds n value plans ∧
      Work.PlansAll n w origins stack plans
  | .finished _, plan => plan.isOver = true
  | .failed _, _ => False

def Member.PlansAll (n : Nat) (w : World) (origins : List Origin) : List Member → List Plan → Prop
  | [], plans => plans = []
  | member :: rest, plans => ∃ plan others, plans = plan :: others ∧ member.Plans n w origins plan ∧
    Member.PlansAll n w origins rest others

end

variable {n : Nat} {given : Origin → Option Nat} {w v u : World} {origins more rest : List Origin}
  {plan plan' plan'' : Plan} {plans others : List Plan} {l l' l'' : Ledger} {work : Work}

theorem Work.plans_iff (h : work.layer ≠ .busy) : work.Plans n w origins plans ↔
    (work.isPassing = true ∧ plans = []) ∨ ∃ plan : Plan, plan.Describes w origins work ∧
      (plans = [plan] ∨ plans = [.later none 0 none false plan]) := by
  cases work with
  | await pending seat resumption =>
    cases seat with
    | none => exact Iff.rfl
    | some seat => exact absurd rfl h
  | draw | ahead => exact absurd rfl h
  | _ => exact Iff.rfl

/-- Nothing that is under way already is described. -/
theorem Plan.Describes.layer_ne_busy (h : plan.Describes w origins work) : work.layer ≠ .busy :=
  (Plan.Describes.tree h).layer_ne_busy

theorem Plan.Describes.planned (h : plan.Describes w origins work) : work.Plans n w origins [plan] :=
  (Work.plans_iff h.layer_ne_busy).mpr (.inr ⟨plan, h, .inl rfl⟩)

/-! ## What is planned stays planned -/

theorem Feed.Plans.records {f : Feed} (hv : w.Records origins v more) (h : f.Plans w origins plans) :
    f.Plans v more plans := by
  rw [Plans] at h ⊢
  split at h
  · exact Plan.DescribeMembers.records hv h
  · obtain ⟨delay, member, members, value, rest, hmembers, hplans, hvalue, hrest⟩ := h
    exact ⟨delay, member, members, value, rest, hmembers, hplans, hvalue.records hv,
      Plan.DescribeMembers.records hv hrest⟩

mutual

theorem Work.Plans.records (hv : w.Records origins v more) : ∀ {work : Work} {plans : List Plan},
    work.Plans n w origins plans → work.Plans n v more plans
  | .await _ (some _) _, _, ⟨origin, delay, moment, value, hplans, hvalue⟩ =>
    ⟨origin, delay, moment, value, hplans, Plan.Describes.records hv hvalue⟩
  | .draw _, _, ⟨hn, hfeed⟩ => ⟨hn, hfeed.records hv⟩
  | .ahead _, _, ⟨hn, kind, gone, inWork, next, hplans, hkind, hgone, hmembers, hfeed⟩ =>
    ⟨hn, kind, gone, inWork, next, hplans, hkind, hgone, Member.PlansAll.records hv hmembers, hfeed.records hv⟩
  | .await _ none _, _, h | .emit _, _, h | .fail _, _, h | .note _, _, h | .root _, _, h | .settled _, _, h
  | .item _, _, h | .prop .., _, h | .children _, _, h =>
    h.imp id fun ⟨plan, hplan, hplans⟩ => ⟨plan, Plan.Describes.records hv hplan, hplans⟩

/-- The plans of a stack do not depend on what is rendered meanwhile. -/
theorem Work.PlansAll.records (hv : w.Records origins v more) : ∀ {stack : List Work} {plans : List Plan},
    Work.PlansAll n w origins stack plans → Work.PlansAll n v more stack plans
  | [], _, h => h
  | _ :: _, _, ⟨first, others, hplans, hwork, hrest⟩ =>
    ⟨first, others, hplans, Work.Plans.records hv hwork, Work.PlansAll.records hv hrest⟩

theorem Member.Plans.records (hv : w.Records origins v more) : ∀ {member : Member} {plan : Plan},
    member.Plans n w origins plan → member.Plans n v more plan
  | .running .., _, ⟨hfilled, delay, moment, value, plans, hplan, hvalue, hstack⟩ =>
    ⟨hfilled, delay, moment, value, plans, hplan, hvalue, Work.PlansAll.records hv hstack⟩
  | .finished _, _, h => h

theorem Member.PlansAll.records (hv : w.Records origins v more) : ∀ {members : List Member} {plans : List Plan},
    Member.PlansAll n w origins members plans → Member.PlansAll n v more members plans
  | [], _, h => h
  | _ :: _, _, ⟨plan, others, hplans, hmember, hrest⟩ =>
    ⟨plan, others, hplans, Member.Plans.records hv hmember, Member.PlansAll.records hv hrest⟩

end

/-! ## Stacks -/

theorem Work.PlansAll.append {stack works : List Work} (h : Work.PlansAll n w origins stack plans)
    (hworks : Work.PlansAll n w origins works others) :
    Work.PlansAll n w origins (stack ++ works) (plans ++ others) := by
  induction stack generalizing plans with
  | nil =>
    cases h
    exact hworks
  | cons work rest ih =>
    obtain ⟨first, last, rfl, hwork, hrest⟩ := h
    exact ⟨first, last ++ others, List.append_assoc .., hwork, ih hrest⟩

theorem Work.PlansAll.singleton (h : work.Plans n w origins plans) : Work.PlansAll n w origins [work] plans :=
  ⟨plans, [], (List.append_nil plans).symm, h, rfl⟩

/-- What only passes through the stack may have no plan. -/
theorem Work.PlansAll.passing {works stack : List Work} (h : Work.PlansAll n w origins stack plans)
    (hworks : ∀ work ∈ works, work.isPassing = true) : Work.PlansAll n w origins (works ++ stack) plans := by
  induction works with
  | nil => exact h
  | cons work more ih =>
    have hpassing := hworks work List.mem_cons_self
    refine ⟨[], plans, rfl, ?_, ih fun other hother => hworks other (List.mem_cons_of_mem _ hother)⟩
    have hlayer : work.layer ≠ .busy := by
      cases work with
      | emit | note => nofun
      | _ => cases hpassing
    exact (plans_iff hlayer).mpr (.inl ⟨hpassing, rfl⟩)

theorem Plan.DescribeAll.plansAll {works : List Work} (h : Plan.DescribeAll plans w origins works) :
    Work.PlansAll n w origins works plans := by
  induction plans generalizing works with
  | nil =>
    cases h
    rfl
  | cons plan others ih =>
    obtain ⟨work, more, rfl, hwork, hmore⟩ := h
    exact ⟨[plan], others, rfl, hwork.planned, ih hmore⟩

/-- Members of a list that are rendered one after the other. -/
theorem Plan.DescribeMembers.plansAll {values : List Value}
    (h : Plan.DescribeMembers plans w origins (values.map (0, ·))) :
    Work.PlansAll n w origins (values.map .item) plans := by
  induction plans generalizing values with
  | nil =>
    rw [DescribeMembers, List.map_eq_nil_iff] at h
    subst h
    rfl
  | cons plan others ih =>
    obtain ⟨delay, member, members, value, rfl, hmembers, hvalue, hrest⟩ := describeMembers_cons.mp h
    obtain ⟨value', values', rfl, heq, rfl⟩ := List.map_eq_cons_iff.mp hmembers
    cases heq
    exact ⟨[_], others, rfl, (Work.plans_iff hvalue.layer_ne_busy).mpr (.inr ⟨value, hvalue, .inr rfl⟩), ih hrest⟩

/-! ## Following a plan -/

/-- The plan is followed: the ledger and the timers are right, and so are the moments in the plan, where no call
is planned twice and nothing fails. -/
structure World.Follows (given : Origin → Option Nat) (w : World) (origins : List Origin) (l : Ledger)
    (plan : Plan) : Prop where
  tallies : w.Tallies given origins l
  timely : w.Timely
  sound : plan.Sound l
  dated : plan.Dated given w.clock l

/-- What is done furthers the plan, at the same time. -/
structure World.Furthers (n : Nat) (given : Origin → Option Nat) (w : World) (origins : List Origin) (l : Ledger)
    (plan : Plan) (v : World) (more : List Origin) (l' : Ledger) (plan' : Plan) : Prop where
  records : w.Records origins v more
  clock : v.clock = w.clock
  steps : Plan.Steps n given w.clock plan l plan' l'
  tallies : v.Tallies given more l'
  timely : v.Timely

namespace World

theorem Furthers.follows (h : w.Furthers n given origins l plan v more l' plan')
    (hw : w.Follows given origins l plan) :
    v.Follows given more l' plan' where
  tallies := h.tallies
  timely := h.timely
  sound := hw.sound.steps h.steps
  dated := h.clock ▸ hw.dated.steps h.steps

theorem Furthers.trans (h : w.Furthers n given origins l plan v more l' plan')
    (h' : v.Furthers n given more l' plan' u rest l'' plan'') :
    w.Furthers n given origins l plan u rest l'' plan'' where
  records := h.records.trans h'.records
  clock := h'.clock.trans h.clock
  steps := h.steps.trans (h.clock ▸ h'.steps)
  tallies := h'.tallies
  timely := h'.timely

/-- What is left of a plan that is followed. -/
theorem Follows.unfolds (h : w.Follows given origins l plan) (hleft : Plan.Unfolds n plan plans) :
    ∀ head ∈ plans, w.Follows given origins l head :=
  fun head hhead => ⟨h.tallies, h.timely, h.sound.unfolds hleft head hhead, h.dated.unfolds hleft head hhead⟩

/-- Where nothing was done in the plan. -/
theorem Furthers.stays (hrecords : w.Records origins v origins) (hclock : v.clock = w.clock)
    (htallies : v.Tallies given origins l) (htimely : v.Timely) :
    w.Furthers n given origins l plan v origins l plan := ⟨hrecords, hclock, .refl, htallies, htimely⟩

theorem Follows.refl (h : w.Follows given origins l plan) : w.Furthers n given origins l plan w origins l plan :=
  .stays .refl rfl h.tallies h.timely

/-- Steps that change nothing in the world. -/
theorem Follows.onward (h : w.Follows given origins l plan) (hsteps : Plan.Steps n given w.clock plan l plan' l) :
    w.Furthers n given origins l plan w origins l plan' := ⟨.refl, rfl, hsteps, h.tallies, h.timely⟩

/-- The books are changed. -/
theorem Follows.hidden (h : w.Follows given origins l plan) (hseen : v.seen = w.seen) (htimely : v.Timely) :
    w.Furthers n given origins l plan v origins l plan :=
  .stays (.hidden .refl hseen) (clock_of_seen hseen) (h.tallies.hidden hseen) htimely

/-- What nobody holds on to is let go. -/
theorem Follows.tidied (h : w.Follows given origins l plan) (held : List Value) :
    w.Furthers n given origins l plan (w.tidied held) origins l plan :=
  h.hidden (seen_tidied w held) (h.timely.tidied held)

/-- What furthers the first part that is left furthers the plan. -/
theorem Furthers.within {head head' : Plan} {left : List Plan}
    (h : w.Furthers n given origins l head v more l' head') (hplan : Plan.Unfolds n plan (head :: others)) (hleft : Plan.Unfolds n head' left) :
    ∃ plan', w.Furthers n given origins l plan v more l' plan' ∧ Plan.Unfolds n plan' (left ++ others) := by
  obtain ⟨plan', hplan', hunfolds⟩ := hplan.steps h.steps hleft
  exact ⟨plan', ⟨h.records, h.clock, hplan', h.tallies, h.timely⟩, hunfolds⟩

/-- What is done furthers the plan, and leaves these pieces of work and then these plans. -/
def Leaves (n : Nat) (given : Origin → Option Nat) (w : World) (origins : List Origin) (l : Ledger) (plan : Plan)
    (v : World) (works : List Work) (others : List Plan) : Prop :=
  ∃ more l' plan' plans, w.Furthers n given origins l plan v more l' plan' ∧
    Plan.Unfolds n plan' (plans ++ others) ∧ Work.PlansAll n v more works plans

variable {works : List Work}

theorem Furthers.leaves (h : w.Furthers n given origins l plan v more l' plan') (hleft : Plan.Unfolds n plan' plans)
    (hworks : Work.PlansAll n v more works plans) : w.Leaves n given origins l plan v works [] :=
  ⟨more, l', plan', plans, h, by rwa [List.append_nil], hworks⟩

/-- Something was done before. -/
theorem Leaves.after {others : List Plan} (h : v.Leaves n given more l' plan' u works others)
    (hbefore : w.Furthers n given origins l plan v more l' plan') :
    w.Leaves n given origins l plan u works others := by
  obtain ⟨rest, l'', plan'', plans, hfurthers, hleft, hworks⟩ := h
  exact ⟨rest, l'', plan'', plans, hbefore.trans hfurthers, hleft, hworks⟩

theorem Leaves.within {head : Plan} {last : List Plan} (h : w.Leaves n given origins l head v works last)
    (hplan : Plan.Unfolds n plan (head :: others)) : w.Leaves n given origins l plan v works (last ++ others) := by
  obtain ⟨more, l', head', plans, hfurthers, hleft, hworks⟩ := h
  obtain ⟨plan', hplan', hunfolds⟩ := hfurthers.within hplan hleft
  rw [List.append_assoc] at hunfolds
  exact ⟨more, l', plan', plans, hplan', hunfolds, hworks⟩

end World

/-! ## Steps -/

namespace Plan.Describes

variable {parts : List Plan} {task : Nat} {progress : Progress}

/-- A row. -/
theorem row (h : (group .row parts).Describes w origins work)
    (hfollows : w.Follows given origins l (group .row parts)) (hstep : work.step n task w = (progress, v)) :
    w.Leaves n given origins l (group .row parts) v progress.works [] := by
  obtain ⟨works, hlayer, hparts⟩ := h
  obtain ⟨u, hrow, hu⟩ := Work.step_row hlayer n task w
  cases hrow.symm.trans hstep
  have hleft : Unfolds n (group .row parts) parts := .parts (show Kind.row.width n ≤ 1 from Nat.le_refl 1) parts
  obtain ⟨hrecords, hstays⟩ : w.Records origins v origins ∧
      w.Furthers n given origins l (group .row parts) v origins l (group .row parts) := by
    rcases hu with rfl | ⟨event, rfl⟩
    · exact ⟨.refl, hfollows.refl⟩
    · have hrecords : w.Records origins (w.note event) origins := World.Records.refl.noted event
      exact ⟨hrecords, .stays hrecords rfl (hfollows.tallies.same rfl rfl) (hfollows.timely.aside rfl rfl rfl)⟩
  exact hstays.leaves hleft (DescribeAll.records hrecords hparts).plansAll

/-- What has not been drawn becomes work. -/
theorem feed {kind : Kind} {f : Feed} (hwidth : kind.width n = n) (hdeadline : f.deadline = none)
    (h : DescribeMembers parts w origins f.members) (hfollows : w.Follows given origins l (group kind parts))
    (kept : List Value) : w.Leaves n given origins l (group kind parts) (Render.feed n task f kept w).2
      (Render.feed n task f kept w).1 [] := by
  have hfeed : f.Plans w origins parts := by
    rw [Feed.Plans, hdeadline]
    exact h
  rw [Render.feed]
  split
  · rename_i hn
    have hleft : Unfolds n (group kind parts) parts := .parts (hwidth.le.trans hn) parts
    have hdraw : (Work.draw f).Plans n w origins parts := ⟨hn, hfeed⟩
    exact hfollows.refl.leaves hleft (.singleton hdraw)
  · rename_i hn
    have hhidden : w.Furthers n given origins l (group kind parts) (w.newWindow task).2 origins l
        (group kind parts) :=
      hfollows.hidden rfl (hfollows.timely.aside rfl rfl rfl)
    have hahead : (Work.ahead { window := w.windows.size, feed := f, kept, members := [] }).Plans n
        (w.newWindow task).2 origins [group kind parts] :=
      ⟨⟨Nat.lt_of_not_le hn, Nat.zero_le n⟩, kind, [], [], parts, rfl, hwidth, List.forall_mem_nil _, rfl,
        hfeed.records hhidden.records⟩
    exact hhidden.leaves (.whole _) (.singleton hahead)

/-- A list. -/
theorem list (h : (group .list parts).Describes w origins work)
    (hfollows : w.Follows given origins l (group .list parts)) (hstep : work.step n task w = (progress, v)) :
    w.Leaves n given origins l (group .list parts) v progress.works [] := by
  obtain ⟨values, kept, hlayer, hmembers⟩ := h
  rw [Work.step_list hlayer] at hstep
  cases hstep
  rw [Progress.works, Render.members]
  split
  · rename_i hn
    have hleft : Unfolds n (group .list parts) parts := .parts (show Kind.list.width n ≤ 1 from hn) parts
    exact hfollows.refl.leaves hleft hmembers.plansAll
  · have hwidth : Kind.list.width n = n := rfl
    exact feed hwidth rfl hmembers hfollows kept

/-- A sequence that was not taken before. -/
theorem sequence (h : (group .sequence parts).Describes w origins work)
    (hfollows : w.Follows given origins l (group .sequence parts))
    (htaken : ∀ cell, work = .item (.sequence cell) → w.isTaken cell = false)
    (hstep : work.step n task w = (progress, v)) :
    w.Leaves n given origins l (group .sequence parts) v progress.works [] := by
  obtain ⟨k, cell, hlayer, hcell, hmembers⟩ := h
  obtain rfl := Work.eq_of_layer_sequence hlayer
  have hfresh := htaken k rfl
  rw [World.isTaken_of_getElem? hcell] at hfresh
  rw [Work.step_sequence] at hstep
  cases hstep
  have hrecords : w.Records origins (Render.take k w).2 origins := World.Records.refl.took k
  obtain ⟨htake, hpendings, hclock, htimers⟩ : ((Render.take k w).1.members = cell.members ∧
      (Render.take k w).1.deadline = none) ∧ (Render.take k w).2.pendings = w.pendings ∧
        (Render.take k w).2.clock = w.clock ∧ (Render.take k w).2.timers = w.timers := by
    rcases Render.take_cases k w with ⟨-, hnone | htaken⟩ | ⟨cell', hcell', -, htake⟩
    · rw [Array.getElem?_eq_none hnone] at hcell
      cases hcell
    · rw [World.isTaken_of_getElem? hcell, hfresh] at htaken
      cases htaken
    · rw [htake]
      cases hcell.symm.trans hcell'
      exact ⟨⟨rfl, rfl⟩, rfl, rfl, rfl⟩
  have htook : w.Furthers n given origins l (group .sequence parts) (Render.take k w).2 origins l
      (group .sequence parts) := by
    refine .stays hrecords hclock (hfollows.tallies.same ?_ hclock) (hfollows.timely.aside hpendings hclock htimers)
    rw [World.seen, World.seen, hpendings]
  rw [← htake.1] at hmembers
  have hwidth : Kind.sequence.width n = n := rfl
  exact (feed hwidth htake.2 (DescribeMembers.records hrecords hmembers) (htook.follows hfollows) []).after htook

/-- A pending value is asked, for the first time or again. -/
theorem await {origin : Origin} {delay pending : Nat} {moment seat : Option Nat} {resumption : Resumption}
    {value : Plan}
    (h : (later (some origin) delay none false value).Describes w origins (.await pending none resumption))
    (hfollows : w.Follows given origins l (later (some origin) delay moment false value))
    (horder : (w.await (.task task) pending seat).2.InOrder)
    (hstep : (Work.await pending seat resumption).step n task w = (progress, v)) :
    w.Leaves n given origins l (later (some origin) delay moment false value) v progress.works [] := by
  obtain ⟨_, _, base, hlayer, hhinges, hvalue⟩ := h
  cases hlayer
  obtain ⟨m, l', hmoment, htallies, hanswer⟩ := hfollows.tallies.ask hhinges (.task task) seat horder
  have hclock : (w.await (.task task) pending seat).2.clock = w.clock := World.clock_ask ..
  have hstart : w.Records origins w origins := .refl
  have hrecords := hstart.asked (.task task) pending seat
  have htimely : (w.await (.task task) pending seat).2.Timely := hfollows.timely.ask _ nofun
  have hasked : World.Asked 0 pending w (w.await (.task task) pending seat) :=
    World.asked_ask (Nat.lt_succ_self _) _ _ horder hhinges.lt_size
  have hwaits : Steps n given w.clock (later (some origin) delay moment false value) l
      (later (some origin) delay (some m) false value) l' := by
    cases moment with
    | none =>
      rcases hmoment with ⟨hsome, hdue, rfl⟩ | ⟨hnone, rfl, rfl⟩
      · exact .single (.join value hsome hdue)
      · exact .single (.start delay value hnone)
    | some moment =>
      have hsame := (hfollows.dated.2.1 moment rfl).1 origin rfl
      rcases hmoment with ⟨hsome, -, rfl⟩ | ⟨hnone, -⟩
      · cases hsame.symm.trans hsome
        exact .refl
      · cases hnone.symm.trans hsame
  rw [Work.step] at hstep
  generalize w.await (.task task) pending seat = r at hstep hanswer hclock hrecords htimely htallies hasked
  obtain ⟨answer, u⟩ := r
  rcases hanswer with ⟨hpast, outcome, rfl⟩ | ⟨-, seat', rfl⟩
  · cases hstep
    have hpeek := hasked.ready outcome rfl
    obtain ⟨next, hnext⟩ := Render.resume_singleton resumption outcome
    have hdescribes := hvalue v _ outcome hrecords hpeek
    rw [Progress.works, hnext]
    rw [hnext] at hdescribes
    have hfurthers : w.Furthers n given origins l (later (some origin) delay moment false value) v _ l'
        (later (some origin) delay (some m) true value) :=
      ⟨hrecords, hclock, hwaits.step (.come value l' hpast), htallies, htimely⟩
    exact hfurthers.leaves (.value (.whole value)) (.singleton (hdescribes next List.mem_cons_self).planned)
  · cases hstep
    have hfurthers : w.Furthers n given origins l (later (some origin) delay moment false value) v _ l'
        (later (some origin) delay (some m) false value) := ⟨hrecords, hclock, hwaits, htallies, htimely⟩
    have hdescribes : (later (some origin) delay none false value).Describes v _ (.await pending none resumption) :=
      Describes.records hrecords ⟨pending, resumption, base, rfl, hhinges, hvalue⟩
    have hwait : (Work.await pending (some seat') resumption).Plans n v _
        [later (some origin) delay (some m) false value] := ⟨origin, delay, m, value, rfl, hdescribes⟩
    exact hfurthers.leaves (.whole _) (.singleton hwait)

/-- A component is called. -/
theorem call {site : Nat} {result : Plan} (h : (Plan.call site false result).Describes w origins work)
    (hfollows : w.Follows given origins l (Plan.call site false result))
    (hstep : work.step n task w = (progress, v)) :
    w.Leaves n given origins l (Plan.call site false result) v progress.works [] := by
  obtain ⟨component, e, hlayer, hresult⟩ := h
  rw [Work.step_call hlayer] at hstep
  cases hstep
  have hsite : site ∉ l.sites := hfollows.sound.fresh site List.mem_cons_self
  have hstart : w.Records origins w origins := .refl
  have hrecords := hstart.called site component e.props e.children
  have hfurthers : w.Furthers n given origins l (Plan.call site false result) _ _ (l.make site)
      (Plan.call site true result) :=
    ⟨hrecords, (World.kept_callComponent component e.props e.children w).clock, .single (.call result hsite),
      hfollows.tallies.callComponent hsite component e.props e.children,
      hfollows.timely.callComponent component e.props e.children⟩
  have hnext := hresult w origins .refl
  obtain ⟨next, heq⟩ := Render.result_singleton e.raw (w.callComponent component e.props e.children).1
  rw [Progress.works, heq]
  rw [heq] at hnext
  exact hfurthers.leaves (.result (.whole result)) (.singleton (hnext next List.mem_cons_self).planned)

/-- A step of what is planned. -/
theorem step {head : Plan} (h : head.Describes w origins work) (hfollows : w.Follows given origins l head)
    (hstepped : work.isStepped = true) (htaken : ∀ cell, work = .item (.sequence cell) → w.isTaken cell = false)
    (horder : v.InOrder) (hstep : work.step n task w = (progress, v)) :
    w.Leaves n given origins l head v progress.works [] := by
  match head, h with
  | .leaf out, h =>
    rw [Work.isStepped_of_layer_leaf h] at hstepped
    cases hstepped
  | .group .row parts, h => exact row h hfollows hstep
  | .group .list parts, h => exact list h hfollows hstep
  | .group .sequence parts, h => exact sequence h hfollows htaken hstep
  | .later (some origin) delay none false value, h =>
    have hlayer := h
    obtain ⟨pending, resumption, -, hlayer, -⟩ := hlayer
    obtain rfl := Work.eq_of_layer_later hlayer
    have hsame : (w.await (.task task) pending none).2 = v := by
      rw [Work.step] at hstep
      split at hstep <;> rename_i hask <;> cases hstep <;> rw [hask]
    exact await h hfollows (hsame ▸ horder) hstep
  | .call site false result, h => exact call h hfollows hstep

end Plan.Describes

/-! ## Drawing -/

namespace Feed.Plans

variable {f feed : Feed} {task : Nat} {value : Value}

theorem exhausted (h : f.Plans w origins plans) (hdraw : f.draw task w = (.exhausted, feed, v)) :
    plans = [] ∧ f.members = [] ∧ feed = f ∧ v = w := by
  rcases draw_cases hdraw with ⟨-, hmembers, rfl, rfl⟩ | ⟨_, _, _, -, heq, -⟩ | ⟨heq, -⟩
  · refine ⟨?_, hmembers, rfl, rfl⟩
    rw [Plans] at h
    split at h
    · rw [hmembers] at h
      cases plans with
      | nil => rfl
      | cons plan rest =>
        obtain ⟨_, _, _, _, -, hcons, -⟩ := Plan.describeMembers_cons.mp h
        cases hcons
    · obtain ⟨_, _, _, _, _, hcons, -⟩ := h
      cases hmembers.symm.trans hcons
  · cases heq
  · cases heq

/-- A member that is drawn has come. -/
theorem member (h : f.Plans w origins plans) (hdraw : f.draw task w = (.member value, feed, v)) :
    ∃ delay moment m plan rest, plans = .later none delay moment false plan :: rest ∧
      (∀ n given l, Plan.Steps n given w.clock (.later none delay moment false plan) l
        (.later none delay (some m) true plan) l) ∧
      plan.Describes w origins (.item value) ∧ feed.Plans w origins rest ∧ v = f.noteDrawn w := by
  rw [Plans] at h
  rw [Feed.draw.eq_def] at hdraw
  split at hdraw
  · cases hdraw
  · rename_i delay value' members hmembers
    dsimp only at hdraw
    split at hdraw
    · rename_i moment hdeadline
      rw [hdeadline] at h
      obtain ⟨_, _, _, plan, rest, hcons, rfl, hplan, hrest⟩ := h
      cases hmembers.symm.trans hcons
      split at hdraw
      · rename_i hpast
        cases hdraw
        exact ⟨delay, some moment, moment, plan, rest, rfl, fun _ _ l => .single (.come plan l hpast), hplan,
          hrest, rfl⟩
      · cases hdraw
    · rename_i hnone
      rw [hnone, hmembers] at h
      split at hdraw
      · rename_i hdelay
        subst hdelay
        cases hdraw
        cases plans with
        | nil => cases h
        | cons head rest =>
          obtain ⟨_, _, _, plan, rfl, hcons, hplan, hrest⟩ := Plan.describeMembers_cons.mp h
          cases hcons
          refine ⟨0, none, w.clock, plan, rest, rfl, fun _ _ l => ?_, hplan, hrest, rfl⟩
          exact (Plan.Steps.single (.expect 0 plan l)).step (.come plan l (Nat.le_refl _))
      · cases hdraw

/-- A member that is not ready has a moment, or gets one. -/
theorem notYet (h : f.Plans w origins plans) (hdraw : f.draw task w = (.notYet, feed, v)) :
    ∃ delay moment m plan rest, plans = .later none delay moment false plan :: rest ∧
      (∀ n given l, Plan.Steps n given w.clock (.later none delay moment false plan) l
        (.later none delay (some m) false plan) l) ∧
      feed.Plans w origins (.later none delay (some m) false plan :: rest) ∧ feed.deadline = some m ∧
        v.seen = w.seen ∧ (w.Timely → v.Timely) := by
  rw [Plans] at h
  rw [Feed.draw.eq_def] at hdraw
  split at hdraw
  · cases hdraw
  · rename_i delay value' members hmembers
    dsimp only at hdraw
    split at hdraw
    · rename_i moment hdeadline
      have hmoment := h
      rw [hdeadline] at hmoment
      obtain ⟨_, _, _, plan, rest, hcons, rfl, -⟩ := hmoment
      cases hmembers.symm.trans hcons
      split at hdraw
      · cases hdraw
      · cases hdraw
        exact ⟨delay, some moment, moment, plan, rest, rfl, fun _ _ l => .refl, h, hdeadline, rfl, id⟩
    · rename_i hnone
      rw [hnone, hmembers] at h
      split at hdraw
      · cases hdraw
      · rename_i hdelay
        cases hdraw
        cases plans with
        | nil => cases h
        | cons head rest =>
          obtain ⟨_, _, _, plan, rfl, hcons, hplan, hrest⟩ := Plan.describeMembers_cons.mp h
          cases hcons
          exact ⟨delay, none, w.clock + delay, plan, rest, rfl, fun _ _ l => .single (.expect delay plan l),
            ⟨delay, _, _, plan, rest, hmembers, rfl, hplan, hrest⟩, rfl, rfl, fun ht => ht.setTimer hdelay task⟩

end Feed.Plans

/-- What is written down when a member is drawn. -/
theorem World.Follows.noteDrawn (h : w.Follows given origins l plan) (f : Feed) :
    w.Furthers n given origins l plan (f.noteDrawn w) origins l plan := by
  rw [Feed.noteDrawn]
  split
  · exact .stays (World.Records.refl.noted _) rfl (h.tallies.same rfl rfl) (h.timely.aside rfl rfl rfl)
  · exact h.refl

/-! ## Each step furthers the plan -/

/-- The next member of a feed is drawn, and rendered before the others are drawn. -/
theorem Feed.Plans.step {f : Feed} {task : Nat} {progress : Progress} (hn : n ≤ 1) (h : f.Plans w origins plans)
    (hplan : Plan.Unfolds n plan (plans ++ others)) (hfollows : w.Follows given origins l plan)
    (hstep : (Work.draw f).step n task w = (progress, v)) :
    w.Leaves n given origins l plan v progress.works others := by
  cases hdraw : f.draw task w with
  | mk drawn next =>
    obtain ⟨feed, u⟩ := next
    rw [Work.step, hdraw] at hstep
    cases drawn with
    | exhausted =>
      cases hstep
      obtain ⟨rfl, -, -, rfl⟩ := h.exhausted hdraw
      exact ⟨origins, l, plan, [], hfollows.refl, hplan, rfl⟩
    | member value =>
      cases hstep
      obtain ⟨delay, moment, m, head, rest, rfl, hsteps, hhead, hrest, rfl⟩ := h.member hdraw
      obtain ⟨plan', hplan', hunfolds⟩ := hplan.steps (hsteps n given l) (.value (.whole head))
      have hdrawn : w.Furthers n given origins l plan w origins l plan' := hfollows.onward hplan'
      have hnoted := (hdrawn.follows hfollows).noteDrawn (n := n) f
      have hworks : Work.PlansAll n w origins [.item value, .draw feed] (head :: rest) :=
        ⟨[head], rest, rfl, hhead.planned, .singleton ⟨hn, hrest⟩⟩
      exact ⟨origins, l, plan', head :: rest, hdrawn.trans hnoted, hunfolds, hworks.records hnoted.records⟩
    | notYet =>
      cases hstep
      obtain ⟨delay, moment, m, head, rest, rfl, hsteps, hfeed, -, hseen, htimely⟩ := h.notYet hdraw
      obtain ⟨plan', hplan', hunfolds⟩ := hplan.steps (hsteps n given l) (.whole _)
      have hwaits : w.Furthers n given origins l plan w origins l plan' := hfollows.onward hplan'
      have hhidden := (hwaits.follows hfollows).hidden (n := n) hseen (htimely hfollows.timely)
      have hdraw' : (Work.draw feed).Plans n v origins _ := ⟨hn, hfeed.records hhidden.records⟩
      exact ⟨origins, l, plan', _, hwaits.trans hhidden, hunfolds, .singleton hdraw'⟩

/-- **Each step furthers the plan**, and leaves the plans of the work that is then to be done. -/
theorem Work.Plans.step {task : Nat} {progress : Progress} (h : work.Plans n w origins plans)
    (hplan : Plan.Unfolds n plan (plans ++ others)) (hfollows : w.Follows given origins l plan)
    (hstepped : work.isStepped = true) (htaken : ∀ cell, work = .item (.sequence cell) → w.isTaken cell = false)
    (horder : v.InOrder) (hstep : work.step n task w = (progress, v)) :
    w.Leaves n given origins l plan v progress.works others := by
  have hawait : ∀ {pending : Nat} {seat : Option Nat} {resumption : Resumption},
      work = .await pending seat resumption → (w.await (.task task) pending seat).2.InOrder := by
    rintro pending seat resumption rfl
    rw [Work.step] at hstep
    split at hstep <;> rename_i hask <;> cases hstep <;> rwa [hask]
  by_cases hbusy : work.layer = .busy
  · obtain ⟨pending, seat, resumption, rfl⟩ | ⟨feed, rfl⟩ | ⟨lineup, rfl⟩ := Work.cases_of_layer_busy hbusy
    · obtain ⟨origin, delay, moment, value, rfl, hvalue⟩ := h
      have hhead := hfollows.unfolds hplan _ List.mem_cons_self
      exact (hvalue.await hhead (hawait rfl) hstep).within hplan
    · exact h.2.step h.1 hplan hfollows hstep
    · cases hstepped
  · rcases (Work.plans_iff hbusy).mp h with ⟨hpassing, rfl⟩ | ⟨head, hhead, rfl | rfl⟩
    · -- it has no plan: it is only written down
      cases work with
      | note event =>
        cases hstep
        have hnoted : w.Furthers n given origins l plan (w.note event) origins l plan :=
          .stays (World.Records.refl.noted event) rfl (hfollows.tallies.same rfl rfl)
            (hfollows.timely.aside rfl rfl rfl)
        exact ⟨origins, l, plan, [], hnoted, hplan, rfl⟩
      | emit => cases hstepped
      | _ => cases hpassing
    · exact (hhead.step (hfollows.unfolds hplan head List.mem_cons_self) hstepped htaken horder hstep).within hplan
    · -- a member of a list that is ready at once
      have hcome : Plan.Steps n given w.clock (.later none 0 none false head) l
          (.later none 0 (some (w.clock + 0)) true head) l :=
        (Plan.Steps.single (.expect 0 head l)).step (.come head l (Nat.le_refl _))
      obtain ⟨plan', hplan', hunfolds⟩ := hplan.steps hcome (.value (.whole head))
      have hdrawn : w.Furthers n given origins l plan w origins l plan' := hfollows.onward hplan'
      have hhead' := (hdrawn.follows hfollows).unfolds hunfolds head List.mem_cons_self
      exact ((hhead.step hhead' hstepped htaken horder hstep).within hunfolds).after hdrawn

end TaggedMarkup
