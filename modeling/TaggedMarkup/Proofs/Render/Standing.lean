import TaggedMarkup.Proofs.Render.Yield

/-!
# How a task stands

Between two steps a task **stands** with its stack (`World.Stands`): the books are balanced, the task goes
on, and its stack is poised. Each step keeps it so and leaves the tasks that are not under it alone
(`World.Moves`), and a step that has to wait leaves the task where it is going to be told (`Stands.wait`).

A turn in which nothing came of anything is **idle** (`World.Idle`): no timer was set, and of those who had
been told to go on at least as many have been attended to as were told meanwhile.
-/

namespace TaggedMarkup

namespace World

/-- What was done for a task concerned nobody else. -/
structure Moves (w v : World) (σ τ : Seating) (task : Nat) : Prop where
  respects : w.Respects (w.Under task) v
  seating : ∀ n < w.tasks.size, ¬w.Under task n → τ n = σ n

/-- The task goes on, and is poised. -/
structure Stands (w : World) (σ : Seating) (task : Nat) (stack : List Work) : Prop where
  balanced : w.Balanced σ fun _ => False
  alive : ∃ cell, w.tasks[task]? = some cell ∧ cell.ended = false
  lined : w.Lined task
  poised : Work.PoisedAll w σ task stack

variable {w v u : World} {σ τ ρ : Seating} {task n : Nat} {stack rest : List Work}

namespace Moves

theorem refl (w : World) (σ : Seating) (task : Nat) : Moves w w σ σ task := ⟨.refl w, fun _ _ _ => rfl⟩

theorem of_respects (h : w.Respects (fun _ => False) v) (σ : Seating) (task : Nat) : Moves w v σ σ task :=
  ⟨h.mono fun _ _ hX => hX.elim, fun _ _ _ => rfl⟩

theorem trans (h : Moves w v σ τ task) (h' : Moves v u τ ρ task) (hroot : w.Rooted) :
    Moves w u σ ρ task where
  respects := h.respects.trans_under h'.respects hroot
  seating n hn hunder := by
    have hafter := (h.respects.under_iff hroot hn).not.mpr hunder
    exact (h'.seating n (Nat.lt_of_lt_of_le hn h.respects.size) hafter).trans (h.seating n hn hunder)

end Moves

namespace Stands

theorem lt_size (h : w.Stands σ task stack) : task < w.tasks.size := by
  obtain ⟨cell, hcell, -⟩ := h.alive
  exact (Array.getElem?_eq_some_iff.mp hcell).1

/-- What concerns no task. -/
theorem carried (h : w.Stands σ task stack) (hv : w.Respects (fun _ => False) v)
    (hbalanced : v.Balanced σ fun _ => False) : v.Stands σ task stack where
  balanced := hbalanced
  alive := by
    obtain ⟨cell, hcell, hended⟩ := h.alive
    obtain ⟨cell', hcell', -, hroused⟩ := hv.task task cell hcell
    exact ⟨cell', hcell', (hroused id).ended.trans hended⟩
  lined := hv.lined task h.lt_size id h.lined
  poised := h.poised.respected hv h.balanced.rooted (fun _ _ _ => rfl) h.lt_size fun _ _ => id

/-- Another stack of the same task. -/
theorem of_stack (h : w.Stands σ task stack) (hpoised : Work.PoisedAll w σ task rest) :
    w.Stands σ task rest := { h with poised := hpoised }

theorem tidied (h : w.Stands σ task stack) (held : List Value) :
    (w.tidied held).Stands σ task stack ∧ Moves w (w.tidied held) σ σ task := by
  obtain ⟨hbalanced, hrespects⟩ := h.balanced.tidied held
  exact ⟨h.carried hrespects hbalanced, .of_respects hrespects σ task⟩

end Stands

end World

/-! ## Nothing came of it -/

/-- One if the task was told. -/
def World.alert (task : Nat) (w : World) : Nat :=
  match w.tasks[task]? with
  | some cell => cell.isTold.toNat
  | none => 0

mutual

/-- How many members of lists in work were told. -/
def Work.alerts (w : World) : Work → Nat
  | .ahead lineup => Member.alertsOfAll w lineup.members
  | _ => 0

def Work.alertsOfAll (w : World) : List Work → Nat
  | [] => 0
  | work :: rest => work.alerts w + Work.alertsOfAll w rest

def Member.alerts (w : World) : Member → Nat
  | .running task _ stack => w.alert task + Work.alertsOfAll w stack
  | _ => 0

def Member.alertsOfAll (w : World) : List Member → Nat
  | [] => 0
  | member :: rest => member.alerts w + Member.alertsOfAll w rest

end

namespace World

variable {w v u : World} {σ τ : Seating} {task n : Nat} {stack rest : List Work}

theorem alert_le_one (task : Nat) (w : World) : w.alert task ≤ 1 := by
  unfold alert
  split
  · exact Bool.toNat_le _
  · exact Nat.zero_le 1

theorem alert_of_told (h : w.Told (.task task)) (htask : task < w.tasks.size) : w.alert task = 1 := by
  have hcell := Array.getElem?_eq_getElem htask
  rw [alert, hcell]
  dsimp only
  rw [h _ hcell]
  rfl

theorem alert_of_not_told (h : ¬w.Told (.task task)) : w.alert task = 0 := by
  unfold alert
  split
  · rename_i cell hcell
    cases htold : cell.isTold with
    | false => rfl
    | true => exact absurd (told_of_isTold hcell htold) h
  · rfl

theorem alert_le (htask : task < w.tasks.size) (h : v.Told (.task task) → w.Told (.task task)) :
    v.alert task ≤ w.alert task := by
  by_cases htold : v.Told (.task task)
  · rw [alert_of_told (h htold) htask]
    exact v.alert_le_one task
  · rw [alert_of_not_told htold]
    exact Nat.zero_le _

/-- From one world to the other one, nothing came of anything: no timer was set, and whoever was told in the
stack of a task was told in place of others. -/
structure Idle (w v : World) (task : Nat) (before after : List Work) : Prop where
  timers : v.timers = w.timers
  told : ∀ k < w.tasks.size, v.Told (.task k) → w.Told (.task k) ∨ w.Under k task ∨ w.Under task k
  alerts : Work.alertsOfAll v after + v.alert task ≤ Work.alertsOfAll w before + w.alert task

/-- Nothing was done. -/
theorem Idle.refl (w : World) (task : Nat) (stack : List Work) : w.Idle w task stack stack :=
  ⟨rfl, fun _ _ htold => .inl htold, Nat.le_refl _⟩

theorem Idle.trans {X : Nat → Prop} {before mid after : List Work} (h : w.Idle v task before mid)
    (h' : v.Idle u task mid after) (hv : w.Respects X v) (hroot : w.Rooted) (htask : task < w.tasks.size) :
    w.Idle u task before after where
  timers := h'.timers.trans h.timers
  told k hk htold := by
    rcases h'.told k (Nat.lt_of_lt_of_le hk hv.size) htold with hbefore | hover | hunder
    · exact h.told k hk hbefore
    · exact .inr (.inl ((hv.under_iff hroot htask).mp hover))
    · exact .inr (.inr ((hv.under_iff hroot hk).mp hunder))
  alerts := Nat.le_trans h'.alerts h.alerts

end World

theorem Work.alertsOfAll_of_not_busy {stack : List Work} (h : ∀ work ∈ stack, work.isBusy = false) (w : World) :
    Work.alertsOfAll w stack = 0 := by
  induction stack with
  | nil => rfl
  | cons work rest ih =>
    rw [Work.alertsOfAll, ih fun other hother => h other (List.mem_cons_of_mem _ hother)]
    have hwork := h work List.mem_cons_self
    cases work with
    | ahead => cases hwork
    | _ => rfl

mutual

theorem Work.alerts_le {w v : World} {σ : Seating} (hroot : w.Rooted) {task : Nat}
    (h : ∀ k, w.Under task k → k ≠ task → v.Told (.task k) → w.Told (.task k)) :
    ∀ {work : Work}, work.Poised w σ task → work.alerts v ≤ work.alerts w
  | .ahead _, ⟨hwindow, _, _, hmembers⟩ => Member.alertsOfAll_le hroot hwindow h hmembers
  | .await _ (some _) _, _ | .await _ none _, _ | .draw _, _ | .emit _, _ | .fail _, _ | .note _, _
  | .root _, _ | .settled _, _ | .item _, _ | .prop .., _ | .children _, _ => Nat.le_refl 0

/-- Where nobody is told under a task, nobody is in its stack. -/
theorem Work.alertsOfAll_le {w v : World} {σ : Seating} (hroot : w.Rooted) {task : Nat}
    (h : ∀ k, w.Under task k → k ≠ task → v.Told (.task k) → w.Told (.task k)) :
    ∀ {stack : List Work}, Work.PoisedAll w σ task stack →
      Work.alertsOfAll v stack ≤ Work.alertsOfAll w stack
  | [], _ => Nat.le_refl 0
  | work :: rest, .inl hpoised => by
    rw [Work.alertsOfAll, Work.alertsOfAll, Work.alertsOfAll_of_not_busy hpoised.2 v,
      Work.alertsOfAll_of_not_busy hpoised.2 w]
    exact Work.alerts_le hroot h hpoised.1
  | work :: rest, .inr hpoised => by
    have hnone : ∀ u : World, work.alerts u = 0 := by
      intro u
      have hpassing := hpoised.1
      cases work with
      | ahead => cases hpassing
      | _ => rfl
    rw [Work.alertsOfAll, Work.alertsOfAll, hnone, hnone, Nat.zero_add, Nat.zero_add]
    exact Work.alertsOfAll_le hroot h hpoised.2

theorem Member.alerts_le {w v : World} {σ : Seating} (hroot : w.Rooted) {task window : Nat}
    (hwindow : ∃ frame, w.windows[window]? = some frame ∧ frame.owner = task) :
    ∀ {member : Member}, (∀ m, member.task? = some m → ∀ k, w.Under m k → v.Told (.task k) → w.Told (.task k)) →
      member.Poised w σ window → member.alerts v ≤ member.alerts w
  | .running m _ _, h, hmember => by
    have hm := World.lt_size_of_owner? (Member.Poised.owner? hmember hwindow)
    obtain ⟨-, -, hstack, -⟩ := hmember
    have hunder := h m rfl
    exact Nat.add_le_add (World.alert_le hm (hunder m .refl))
      (Work.alertsOfAll_le hroot (fun k hk _ => hunder k hk) hstack)
  | .finished _, _, _ | .failed _, _, _ => Nat.le_refl 0

theorem Member.alertsOfAll_le {w v : World} {σ : Seating} (hroot : w.Rooted) {task window : Nat}
    (hwindow : ∃ frame, w.windows[window]? = some frame ∧ frame.owner = task)
    (h : ∀ k, w.Under task k → k ≠ task → v.Told (.task k) → w.Told (.task k)) :
    ∀ {members : List Member}, Member.PoisedAll w σ window members →
      Member.alertsOfAll v members ≤ Member.alertsOfAll w members
  | [], _ => Nat.le_refl 0
  | member :: rest, hmembers => by
    refine Nat.add_le_add (Member.alerts_le hroot hwindow (fun m hm k hk => ?_) hmembers.1)
      (Member.alertsOfAll_le hroot hwindow h hmembers.2)
    cases member with
    | running n fragments stack =>
      cases hm
      have howner := Member.Poised.owner? hmembers.1 hwindow
      refine h k (World.Under.trans (.member howner .refl) hk) fun heq => ?_
      exact absurd (heq ▸ hk.le hroot) (Nat.not_le.mpr (hroot.owner_lt howner))
    | finished | failed => cases hm

end

/-! ## Taking a seat -/

namespace World

variable {w v u : World} {σ τ : Seating} {task n : Nat} {stack rest : List Work}

/-- A task that sits where it is going to be told holds its seat there, and no other one. -/
theorem Balanced.seat {E : Nat → Prop} {pending seat : Nat} (h : w.Balanced σ E)
    (hsits : w.Sits σ (.task task) pending seat) (hunderWay : w.IsUnderWay pending) :
    w.Balanced (Function.update σ task (some (pending, seat))) E := by
  have hholds : ∀ {waiter : Waiter} {n s : Nat},
      w.Holds (Function.update σ task (some (pending, seat))) waiter n s →
        (waiter = .task task ∧ n = pending ∧ s = seat) ∨ w.Holds σ waiter n s := by
    intro waiter n s hholds
    cases waiter with
    | task other =>
      by_cases heq : other = task
      · subst heq
        rw [Holds, Function.update_self, Option.some.injEq, Prod.mk.injEq] at hholds
        exact .inl ⟨rfl, hholds.1.symm, hholds.2.symm⟩
      · rw [Holds, Function.update_of_ne heq] at hholds
        exact .inr hholds
    | pending later => exact .inr hholds
  exact { h with
    underWay := fun waiter n s hn => by
      rcases hholds hn with ⟨-, rfl, -⟩ | hn
      · exact hunderWay
      · exact h.underWay waiter n s hn
    sits := fun waiter n s hn hopen => by
      rcases hholds hn with ⟨-, rfl, rfl⟩ | hold
      · exact ⟨⟨_, hsits.untold⟩, hsits.held⟩
      · exact h.sits waiter n s hold hopen
    alone := fun waiter other n s hn hm => by
      rcases hholds hn with ⟨rfl, rfl, rfl⟩ | hold
      · rcases hholds hm with ⟨rfl, -, -⟩ | hold'
        · rfl
        · exact (hsits.alone other hold').symm
      · rcases hholds hm with ⟨rfl, rfl, rfl⟩ | hold'
        · exact hsits.alone waiter hold
        · exact h.alone waiter other n s hold hold'
    own := fun waiter other n s hn huntold => by
      rcases hholds hn with ⟨rfl, rfl, rfl⟩ | hn
      · have hsame := huntold.symm.trans hsits.untold
        cases hsame
        rfl
      · exact h.own waiter other n s hn huntold }

end World

/-! ## Steps -/

variable {w v : World} {σ : Seating} {n task : Nat} {out : Output} {effort : Nat}

theorem Work.Yields.lt_size {pending : Nat} {seat : Option Nat} {resumption : Resumption}
    (h : (Work.await pending seat resumption).Yields n w out effort) : pending < w.pendings.size := by
  have hdescribed : ∃ tree : Tree, tree.Describes w (.await pending none resumption) := by
    cases seat with
    | none =>
      obtain ⟨tree, htree, -⟩ := (Work.yields_iff (by nofun)).mp h
      exact ⟨tree, htree⟩
    | some seat =>
      obtain ⟨value, hvalue, -⟩ := h
      exact ⟨_, hvalue⟩
  obtain ⟨tree, htree⟩ := hdescribed
  cases tree with
  | later value =>
    obtain ⟨_, _, hlayer, hsize, -⟩ := htree
    cases hlayer
    exact hsize
  | leaf => cases htree
  | row => obtain ⟨_, hlayer, -⟩ := htree; cases hlayer
  | list | sequence | call => obtain ⟨_, _, hlayer, -⟩ := htree; cases hlayer

theorem World.Extends.feed (ahead task : Nat) (f : Feed) (kept : List Value) (w : World) :
    w.Extends (Render.feed ahead task f kept w).2 := by
  rw [Render.feed]
  split
  · exact .refl w
  · exact .newWindow task w

theorem World.Extends.take (cell : Nat) (w : World) : w.Extends (Render.take cell w).2 := by
  rcases Render.take_cases cell w with ⟨htake, -⟩ | ⟨_, -, -, htake⟩
  · rw [htake]
    exact .refl w
  · rw [htake]
    exact .of_eq rfl rfl rfl rfl rfl

theorem World.Extends.noteDrawn (f : Feed) (w : World) : w.Extends (f.noteDrawn w) := by
  rw [Feed.noteDrawn]
  split
  · exact .note _ w
  · exact .refl w

/-- Drawing a member, or setting a timer for it, leaves everything there was as it was. -/
theorem World.Extends.draw {f feed : Feed} {drawn : Draw} (h : f.draw task w = (drawn, feed, v)) :
    w.Extends v := by
  rw [Feed.draw.eq_def] at h
  split at h
  · cases h
    exact .refl w
  · dsimp only at h
    split at h
    · split at h
      · cases h
        exact .noteDrawn f w
      · cases h
        exact .refl w
    · split at h
      · cases h
        exact .noteDrawn f w
      · cases h
        exact .setTimer ..

/-- A member that is not ready has a moment, or gets one with a timer. -/
theorem Feed.draw_notYet {f feed : Feed} (h : f.draw task w = (.notYet, feed, v)) :
    (feed = f ∧ v = w ∧ ∃ deadline, f.deadline = some deadline ∧ w.clock < deadline) ∨
      (f.deadline = none ∧ ∃ delay, feed = { f with deadline := some (w.clock + delay) } ∧
        v = w.setTimer delay (.task task)) := by
  rw [Feed.draw.eq_def] at h
  split at h
  · cases h
  · dsimp only at h
    split at h
    · rename_i deadline hdeadline
      split at h
      · cases h
      · cases h
        exact .inl ⟨rfl, rfl, deadline, hdeadline, Nat.lt_of_not_le ‹_›⟩
    · rename_i hnone
      split at h
      · cases h
      · cases h
        exact .inr ⟨hnone, _, rfl, rfl⟩

/-- Then it is expected. -/
theorem Feed.expected_of_draw {f feed : Feed} (h : f.draw task w = (.notYet, feed, v))
    (htimed : f.IsTimed w task) : feed.IsTimed v task ∧ feed.Expected v task := by
  rcases Feed.draw_notYet h with ⟨rfl, rfl, deadline, hdeadline, hlater⟩ | ⟨-, delay, rfl, rfl⟩
  · refine ⟨htimed, deadline, hdeadline, (htimed deadline hdeadline).resolve_left ?_⟩
    exact Nat.not_le.mpr hlater
  · have htimer : ⟨w.clock + delay, .task task⟩ ∈ (w.setTimer delay (.task task)).timers :=
      List.mem_append_right _ List.mem_cons_self
    exact ⟨fun deadline hdeadline => .inr (Option.some.inj hdeadline ▸ htimer), _, rfl, htimer⟩

theorem Feed.members_ne_nil_of_draw {f feed : Feed} (h : f.draw task w = (.notYet, feed, v)) : f.members ≠ [] := by
  intro hnone
  rw [Feed.draw.eq_def, hnone] at h
  cases h

/-- It is expected later. -/
theorem Feed.lt_deadline_of_draw {f feed : Feed} (h : f.draw task w = (.notYet, feed, v)) {deadline : Nat}
    (hdeadline : feed.deadline = some deadline) : v.clock < deadline := by
  rw [Feed.draw.eq_def] at h
  split at h
  · cases h
  · dsimp only at h
    split at h
    · rename_i moment hmoment
      split at h
      · cases h
      · cases h
        cases hmoment.symm.trans hdeadline
        exact Nat.lt_of_not_le ‹_›
    · split at h
      · cases h
      · rename_i hdelay
        cases h
        cases hdeadline
        exact Nat.lt_add_of_pos_right (Nat.pos_of_ne_zero hdelay)

/-- So does every step but awaiting. -/
theorem Work.Yields.extends {work : Work} {progress : Progress} (h : work.Yields n w out effort)
    (hstepped : work.isStepped = true)
    (hawait : ∀ pending seat resumption, work ≠ .await pending seat resumption)
    (hstep : work.step n task w = (progress, v)) : w.Extends v := by
  by_cases hbusy : work.layer = .busy
  · obtain ⟨pending, seat, resumption, rfl⟩ | ⟨feed, rfl⟩ | ⟨lineup, rfl⟩ := Work.cases_of_layer_busy hbusy
    · exact absurd rfl (hawait pending (some seat) resumption)
    · cases hdraw : feed.draw task w with
      | mk drawn next =>
        obtain ⟨feed', u⟩ := next
        have hsame : v = u := by
          rw [Work.step, hdraw] at hstep
          cases drawn <;> cases hstep <;> rfl
        exact hsame ▸ World.Extends.draw hdraw
    · cases hstepped
  · obtain ⟨tree, htree, -⟩ := (Work.yields_iff hbusy).mp h
    cases tree with
    | leaf leaf =>
      rw [Work.isStepped_of_layer_leaf htree] at hstepped
      cases hstepped
    | row parts =>
      obtain ⟨works, hlayer, -⟩ := htree
      obtain ⟨u, hrow, rfl | ⟨event, rfl⟩⟩ := Work.step_row hlayer n task w
      · cases hrow.symm.trans hstep
        exact .refl _
      · cases hrow.symm.trans hstep
        exact .note event w
    | list members =>
      obtain ⟨values, kept, hlayer, -⟩ := htree
      rw [Work.step_list hlayer, Render.members] at hstep
      split at hstep
      · cases hstep
        exact .refl w
      · cases hstep
        exact .feed ..
    | sequence members =>
      obtain ⟨k, cell, hlayer, -⟩ := htree
      obtain rfl := Work.eq_of_layer_sequence hlayer
      rw [Work.step_sequence] at hstep
      cases hstep
      exact (World.Extends.take k w).trans (.feed ..)
    | later value =>
      obtain ⟨pending, resumption, hlayer, -⟩ := htree
      exact absurd (Work.eq_of_layer_later hlayer) (hawait pending none resumption)
    | call result =>
      obtain ⟨component, e, hlayer, -⟩ := htree
      rw [Work.step_call hlayer] at hstep
      cases hstep
      exact .callComponent ..

namespace World.Stands

variable {rest : List Work}

/-- Whoever asks gets the outcome, or is going to be told. -/
theorem attends {pending : Nat} {seat : Option Nat} {resumption : Resumption}
    (h : w.Stands σ task (.await pending seat resumption :: rest))
    (hyields : (Work.await pending seat resumption).Yields n w out effort) (horder : w.InOrder) :
    w.Attends σ (fun _ => False) (.task task) pending (w.await (.task task) pending seat) := by
  refine h.balanced.ask horder (Nat.lt_succ_self pending) hyields.lt_size nofun nofun fun own hown => ?_
  subst hown
  exact (h.poised.of_not_passing rfl).1

/-- Where something begins, the stack is poised. -/
theorem begins {work : Work} {works : List Work} (h : w.Stands σ task (work :: rest))
    (hbegins : w.Begins task works)
    (hrest : (∀ other ∈ rest, other.isBusy = false) ∨ works = []) :
    w.Stands σ task (works ++ rest) := by
  refine h.of_stack ?_
  rcases hrest with hrest | rfl
  · rcases hbegins with hworks | ⟨lineup, rfl, hmembers, hdeadline, hwindow⟩
    · refine Work.poisedAll_of_not_busy fun other hother => ?_
      exact (List.mem_append.mp hother).elim (hworks other) (hrest other)
    · obtain ⟨window, feed, kept, members⟩ := lineup
      dsimp only at hmembers hdeadline
      subst hmembers
      refine .inl ⟨⟨hwindow, ?_, List.nodup_nil, trivial⟩, hrest⟩
      intro deadline hsome
      rw [hdeadline] at hsome
      cases hsome
  · exact h.poised.tail

/-- A step forward. -/
theorem next {work : Work} {works : List Work} (h : w.Stands σ task (work :: rest))
    (hyields : work.Yields n w out effort) (horder : w.InOrder) (hstepped : work.isStepped = true)
    (htaken : ∀ cell, work = .item (.sequence cell) → w.isTaken cell = false)
    (hstep : work.step n task w = (.next works, v)) :
    v.Stands σ task (works ++ rest) ∧ Moves w v σ σ task ∧
      ∃ less < effort, Work.YieldsAll n v works out less := by
  have hdone : v.Balanced σ (fun _ => False) ∧ w.Respects (fun _ => False) v ∧
      ∀ pending seat resumption outcome, work = .await pending seat resumption →
        w.await (.task task) pending seat = (.ready outcome, v) → v.peek pending = some outcome := by
    by_cases hawait : ∃ pending seat resumption, work = .await pending seat resumption
    · obtain ⟨pending, seat, resumption, rfl⟩ := hawait
      have hattends := h.attends hyields horder
      rw [Work.step] at hstep
      generalize hask : w.await (.task task) pending seat = r at hattends hstep
      cases hattends with
      | @ready u outcome hbalanced hrespects hpeek =>
        cases hstep
        refine ⟨hbalanced, hrespects, fun pending' seat' resumption' outcome' heq hask' => ?_⟩
        cases heq
        cases hask.symm.trans hask'
        exact hpeek
      | notYet => cases hstep
    · have hextends := hyields.extends hstepped (fun p s r heq => hawait ⟨p, s, r, heq⟩) hstep
      exact ⟨h.balanced.extends hextends, .of_extends hextends h.balanced.rooted,
        fun pending seat resumption _ heq => absurd ⟨pending, seat, resumption, heq⟩ hawait⟩
  obtain ⟨hbalanced, hrespects, hpeek⟩ := hdone
  obtain ⟨hbegins, hless⟩ := hyields.next hstepped hstep htaken hpeek
  refine ⟨(h.carried hrespects hbalanced).begins hbegins ?_, .of_respects hrespects σ task, hless⟩
  -- only what is written down may stand on a list in work
  cases work with
  | note event =>
    cases hstep
    exact .inr rfl
  | emit => cases hstepped
  | _ => exact .inl (h.poised.of_not_passing rfl).2

/-- Where nothing is told and no task is made, waiting work is idle. -/
theorem idle_of_tasks {work waiting : Work} (htasks : v.tasks = w.tasks) (htimers : v.timers = w.timers)
    (hwork : work.alerts w = 0) (hwaiting : waiting.alerts v = 0)
    (h : w.Stands σ task (work :: rest)) : w.Idle v task (work :: rest) (waiting :: rest) where
  timers := htimers
  told k _ htold := .inl fun cell hcell => htold cell (htasks ▸ hcell)
  alerts := by
    have htold : ∀ k, v.Told (.task k) → w.Told (.task k) :=
      fun k htold cell hcell => htold cell (htasks ▸ hcell)
    have hrest := Work.alertsOfAll_le h.balanced.rooted (fun k _ _ => htold k) h.poised.tail
    have hself := alert_le h.lt_size (htold task)
    rw [Work.alertsOfAll, Work.alertsOfAll, hwork, hwaiting]
    omega

/-- A step that has to wait. The task is going to be told, and it takes no effort to wait again. -/
theorem wait {work waiting : Work} (h : w.Stands σ task (work :: rest))
    (hyields : work.Yields n w out effort) (horder : w.InOrder) (hstepped : work.isStepped = true)
    (hstep : work.step n task w = (.wait waiting, v)) :
    ∃ τ, v.Stands τ task (waiting :: rest) ∧ Moves w v σ τ task ∧
      Work.Waits v task (waiting :: rest) ∧ ∃ less ≤ effort, waiting.Yields n v out less ∧
        (less < effort ∨ w.Idle v task (work :: rest) (waiting :: rest)) := by
  have hv := Becomes.step hstep
  cases work with
  | await pending seat resumption =>
    obtain ⟨hpoised, hrest⟩ := h.poised.of_not_passing rfl
    have hattends := h.attends hyields horder
    rw [Work.step] at hstep
    generalize w.await (.task task) pending seat = r at hattends hstep
    cases hattends with
    | ready => cases hstep
    | @notYet u seat' hbalanced hrespects hparks =>
      cases hstep
      have hstands := h.carried hrespects hbalanced
      let τ : Seating := Function.update σ task (some (pending, seat'))
      have hseated : v.Balanced τ fun _ => False := hbalanced.seat hparks.sits hparks.underWay
      have hself : τ task = some (pending, seat') := Function.update_self ..
      refine ⟨τ, ⟨hseated, hstands.alive, hstands.lined, .inl ⟨hself, hrest⟩⟩,
        ⟨hrespects.mono fun _ _ hX => hX.elim, fun k _ hk => ?_⟩, hparks.sits.untold, ?_⟩
      · have hne : k ≠ task := fun heq => hk (heq ▸ .refl)
        exact Function.update_of_ne hne _ σ
      · cases seat with
        | none =>
          obtain ⟨tree, htree, rfl, heffort⟩ := (Work.yields_iff fun hbusy => by cases hbusy).mp hyields
          cases tree with
          | later value =>
            rw [Tree.effort] at heffort
            exact ⟨value.effort + 2, by omega, ⟨value, htree.becomes hv, rfl, Nat.le_refl _⟩,
              .inl (by omega)⟩
          | leaf => cases htree
          | row => obtain ⟨_, hlayer, -⟩ := htree; cases hlayer
          | list | sequence | call => obtain ⟨_, _, hlayer, -⟩ := htree; cases hlayer
        | some seat =>
          obtain ⟨value, hvalue, rfl, heffort⟩ := hyields
          have hunderWay : w.IsUnderWay pending := h.balanced.underWay (.task task) pending seat hpoised
          exact ⟨effort, Nat.le_refl _, ⟨value, hvalue.becomes hv, rfl, heffort⟩,
            .inr (idle_of_tasks hparks.tasks (hparks.timers hunderWay) rfl rfl h)⟩
  | draw feed =>
    obtain ⟨hpoised, hrest⟩ := h.poised.of_not_passing rfl
    obtain ⟨less, hfeed, hless⟩ := hyields
    have hdrawing : (Work.draw feed).Yields n w out effort := ⟨less, hfeed, hless⟩
    have hextends := hdrawing.extends rfl (fun _ _ _ hawait => by cases hawait) hstep
    have hstands := h.carried (.of_extends hextends h.balanced.rooted) (h.balanced.extends hextends)
    cases hdraw : feed.draw task w with
    | mk drawn next =>
      obtain ⟨feed', u⟩ := next
      rw [Work.step, hdraw] at hstep
      cases drawn with
      | member | exhausted => cases hstep
      | notYet =>
        cases hstep
        obtain ⟨htimed, hexpected⟩ := Feed.expected_of_draw hdraw hpoised
        refine ⟨σ, hstands.of_stack (.inl ⟨htimed, hrest⟩),
          .of_respects (.of_extends hextends h.balanced.rooted) σ task, hexpected, ?_⟩
        rcases Feed.draw_notYet hdraw with ⟨rfl, rfl, -⟩ | ⟨hnone, delay, rfl, rfl⟩
        · exact ⟨effort, Nat.le_refl _, ⟨less, hfeed, hless⟩, .inr (idle_of_tasks rfl rfl rfl rfl h)⟩
        · obtain ⟨less', hlt, hfeed'⟩ := hfeed.wait hnone (w.clock + delay)
          exact ⟨less' + 1, by omega, ⟨less', hfeed'.becomes hv, Nat.le_refl _⟩, .inl (by omega)⟩
  | note | settled | item | prop | children => cases hstep
  | root value => cases value <;> cases hstep
  | emit | fail | ahead => cases hstepped

end World.Stands

end TaggedMarkup
