import TaggedMarkup.Proofs.Render.Checks
import TaggedMarkup.Proofs.Render.Histories
import TaggedMarkup.Proofs.Render.Steady

/-!
# A pending value lives once

A pending value is not started before somebody asks for its outcome; then it is started, and its delay
later at the earliest it is finished and has its outcome, for good. That is its **life**, and whoever asks
at any time, from whatever render, is one and the same life's witness (`Lives`).

Checked forms ask on behalf of whoever asks them. So a pending value has been **reached** when it, or a
checked form at any remove, was asked.
-/

namespace TaggedMarkup

/-! ## Lives -/

/-- What is written down of the life of a pending value. -/
inductive Milestone where
  | started
  | finished
  deriving DecidableEq, Repr

/-- The milestone in the life of the pending value, if the event is one. -/
def Event.milestone? (p : Nat) : Event → Option Milestone
  | started pending _ => if pending = p then some .started else none
  | finished pending _ => if pending = p then some .finished else none
  | _ => none

/-- The life of the pending value, with the times, the latest milestone first. -/
def Event.life (p : Nat) (log : List (Nat × Event)) : List (Nat × Milestone) :=
  log.filterMap fun entry => (entry.2.milestone? p).map (entry.1, ·)

namespace Event

variable {p : Nat} {log more : List (Nat × Event)}

theorem life_append : life p (log ++ more) = life p log ++ life p more := List.filterMap_append

theorem life_cons {time : Nat} {event : Event} :
    life p ((time, event) :: log) = ((event.milestone? p).map (time, ·)).toList ++ life p log := by
  rw [life, List.filterMap_cons]
  cases event.milestone? p <;> rfl

theorem life_cons_of_none {time : Nat} {event : Event} (h : event.milestone? p = none) :
    life p ((time, event) :: log) = life p log := by
  rw [life_cons, h]
  rfl

end Event

/-- The time that the work takes at least once it is started. -/
def Job.delay : Job → Nat
  | after delay _ _ => delay
  | checking _ => 0

/-- The stage of the work when it has been started at a time, but for the seat. -/
def Job.stageFrom (time : Nat) : Job → Stage
  | after delay _ _ => .waiting (time + delay)
  | checking _ => .gone

namespace World

open Event (life life_append life_cons life_cons_of_none)

/-! ## What passes a pending value by -/

/-- Nothing happened to the pending value. -/
structure PassesBy (p : Nat) (w v : World) : Prop extends Lasts w v where
  log : ∃ new, v.log = new ++ w.log ∧ life p new = []
  clock : w.clock ≤ v.clock
  cell : ∀ {cell : PendingCell}, w.seen.pendings[p]? = some cell → v.seen.pendings[p]? = some cell
  fresh : w.seen.pendings[p]? = none →
    ∀ cell, v.seen.pendings[p]? = some cell → cell.stage = .unstarted

variable {p q : Nat} {w v u : World}

namespace PassesBy

theorem of_seen (h : v.seen = w.seen) : PassesBy p w v where
  toLasts := (Grown.of_seen h).toLasts
  log := ⟨[], by rw [← seen_log, h, seen_log]; rfl, rfl⟩
  clock := Nat.le_of_eq (clock_of_seen h).symm
  cell hcell := by rwa [h]
  fresh hnone cell hcell := by
    rw [h, hnone] at hcell
    cases hcell

theorem refl (w : World) : PassesBy p w w := of_seen rfl

theorem trans (h : PassesBy p w v) (h' : PassesBy p v u) : PassesBy p w u where
  toLasts := h.toLasts.trans h'.toLasts
  log := by
    obtain ⟨new, hnew, hnone⟩ := h.log
    obtain ⟨more, hmore, hnone'⟩ := h'.log
    refine ⟨more ++ new, by rw [hmore, hnew, List.append_assoc], ?_⟩
    rw [life_append, hnone, hnone']
    rfl
  clock := Nat.le_trans h.clock h'.clock
  cell hcell := h'.cell (h.cell hcell)
  fresh hnone cell hcell := by
    cases hmiddle : v.seen.pendings[p]? with
    | none => exact h'.fresh hmiddle cell hcell
    | some middle =>
      obtain rfl : middle = cell := Option.some.inj ((h'.cell hmiddle).symm.trans hcell)
      exact h.fresh hnone middle hmiddle

/-- Only the log and the clock change, and not for this pending value. -/
theorem of_pendings (h : v.pendings = w.pendings) (hclock : w.clock ≤ v.clock)
    (hlog : ∃ new, v.log = new ++ w.log ∧ life p new = []) : PassesBy p w v where
  toLasts := (Grown.of_pendings h).toLasts
  log := hlog
  clock := hclock
  cell hcell := by rwa [seen_getElem?, h, ← seen_getElem?]
  fresh hnone cell hcell := by
    rw [seen_getElem?, h, ← seen_getElem?, hnone] at hcell
    cases hcell

theorem note {event : Event} (h : event.milestone? p = none) (w : World) :
    PassesBy p w (w.note event) :=
  .of_pendings rfl (Nat.le_refl _) ⟨[(w.clock, event)], rfl, life_cons_of_none h⟩

theorem newPending (label : Option String) (job : Job) (w : World) :
    PassesBy p w (w.newPending { label, job }).2 where
  toLasts := (Grown.newPending label job w).toLasts
  log := ⟨[], rfl, rfl⟩
  clock := Nat.le_refl _
  cell {cell} hcell := by
    rw [seen_getElem?] at hcell ⊢
    obtain ⟨c, hc, -⟩ := Option.map_eq_some_iff.mp hcell
    rw [World.newPending, Array.getElem?_push, if_neg (Nat.ne_of_lt (lt_size_of_getElem? hc)), hcell]
  fresh hnone cell hcell := by
    rw [seen_getElem?, Option.map_eq_none_iff] at hnone
    rw [seen_getElem?, World.newPending, Array.getElem?_push, hnone] at hcell
    split at hcell
    · cases hcell
      rfl
    · cases hcell

theorem run (a : Action) (w : World) : PassesBy p w (a.run w).2 := by
  refine a.run_stable (P := PassesBy p w) ⟨?_, ?_, ?_, ?_, ?_⟩ (.refl w)
  · exact fun _ _ h => h.trans (.of_pendings rfl (Nat.le_refl _) ⟨[], rfl, rfl⟩)
  · exact fun _ h => h.trans (.note rfl _)
  · exact fun _ _ h => h.trans (.of_pendings rfl (Nat.le_refl _) ⟨[], rfl, rfl⟩)
  · exact fun label job h => h.trans (.newPending label job _)
  · exact fun _ _ h => h.trans (.of_pendings rfl (Nat.le_refl _) ⟨[], rfl, rfl⟩)

/-- A component is called. -/
theorem callComponent (component : Component) (props : Props) (children : List Value) (w : World) :
    PassesBy p w (w.callComponent component props children).2 := by
  rw [World.callComponent]
  split
  · rename_i cell _
    have hnote : PassesBy p w (w.note (.called component.cell cell.label)) := .note rfl w
    exact hnote.trans (run _ _)
  · exact refl w

/-- Time passes. -/
theorem advance (h : w.advance? = some v) : PassesBy p w v := by
  obtain ⟨deadline, -, hseen⟩ := seen_advance h
  have hclock : PassesBy p w (w.sleepUntil deadline) := .of_pendings rfl (Nat.le_max_left ..) ⟨[], rfl, rfl⟩
  exact hclock.trans (.of_seen hseen)

/-- Another pending value changes its stage. -/
theorem setStage (hne : q ≠ p) (stage : Stage) (w : World) :
    PassesBy p w (w.modifyPending q fun cell => { cell with stage }) := by
  have hcell : (w.modifyPending q fun cell => { cell with stage }).seen.pendings[p]? =
      w.seen.pendings[p]? := by
    rw [seen_getElem?, modifyPending, Array.getElem?_modify, if_neg hne, seen_getElem?]
  refine ⟨.setStage q stage w, ⟨[], rfl, rfl⟩, Nat.le_refl _, fun h => hcell.trans h, ?_⟩
  intro hnone cell h
  rw [hcell, hnone] at h
  cases h

/-- Somebody has a seat at another pending value. -/
theorem seatedAt (hne : q ≠ p) (waiter : Waiter) (own : Option Nat) (cell : PendingCell) (w : World) :
    PassesBy p w (w.seatedAt waiter q own cell).2 := by
  have hnote : PassesBy p w (w.noteStart q cell) := by
    rw [noteStart]
    split
    · exact .note (by rw [Event.milestone?, if_neg hne]) w
    · exact .refl w
  refine hnote.trans (.of_seen ?_)
  rw [seen_seatedAt, noteStart_seen]

/-- Another pending value ends. -/
theorem settle (hne : q ≠ p) (outcome : Outcome) (w : World) : PassesBy p w (w.settle q outcome) := by
  have hseen : (w.settle q outcome).seen =
      (w.modifyPending q fun cell => { cell with stage := .done outcome }).seen := by
    rw [seen_settle]
    exact (seen_modifyPending w (g := fun cell => { cell with stage := .done outcome })
      (fun _ => rfl) q).symm
  exact (setStage hne (.done outcome) w).trans (.of_seen hseen)

theorem conclude (hne : q ≠ p) (label : Option String) (body : Action) (w : World) :
    PassesBy p w (w.conclude q label body).2 := by
  have hnote : PassesBy p w (w.note (.finished q label)) :=
    .note (by rw [Event.milestone?, if_neg hne]) w
  exact hnote.trans ((run body _).trans (settle hne _ _))

end PassesBy

/-! ## Being asked on behalf of others -/

/-- Who asks the one for its outcome comes to ask the other one: it is the same, or the pending value at
some remove that the one checks. -/
inductive Awaits (w : World) : Nat → Nat → Prop
  | refl (pending : Nat) : Awaits w pending pending
  | source {pending source p : Nat} : w.job? pending = some (.checking source) → Awaits w source p →
    Awaits w pending p

theorem Awaits.lasts (h : w.Awaits q p) (hlasts : Lasts w v) : v.Awaits q p := by
  induction h with
  | refl pending => exact .refl pending
  | source hjob _ ih => exact .source (hlasts.job? hjob) ih

theorem Awaits.le (h : w.Awaits q p) (horder : w.InOrder) : p ≤ q := by
  induction h with
  | refl pending => exact Nat.le_refl _
  | source hjob _ ih => exact Nat.le_trans ih (Nat.le_of_lt (horder hjob))

/-- A pending value that nobody comes to is passed by. -/
theorem passesBy_ask (depth : Nat) (waiter : Waiter) (own : Option Nat)
    (h : ¬ (w.ask depth waiter q own).2.Awaits q p) :
    PassesBy p w (w.ask depth waiter q own).2 := by
  induction depth generalizing w waiter q own with
  | zero => exact .refl w
  | succ depth ih =>
    have hne : q ≠ p := fun heq => h (heq ▸ .refl _)
    cases hcell : w.pendings[q]? with
    | none =>
      rw [ask, hcell]
      exact .refl w
    | some cell =>
      by_cases hdone : ∃ o, cell.stage = .done o
      · obtain ⟨o, ho⟩ := hdone
        rw [ask, hcell]
        simp only [ho]
        exact .refl w
      have hjob? := (Lasts.ask (depth + 1) waiter q own w).job? (job?_of_getElem? hcell)
      rw [ask_open hcell fun o ho => hdone ⟨o, ho⟩] at h hjob? ⊢
      have hseated := PassesBy.seatedAt hne waiter own cell w
      cases hjob : cell.job with
      | after delay keeps body =>
        dsimp only
        split
        · exact hseated.trans (.conclude hne ..)
        · exact hseated.trans ((PassesBy.of_seen (seen_startTimer ..)).trans (.setStage hne _ _))
      | checking source =>
        rw [hjob] at h hjob?
        dsimp only at h hjob? ⊢
        generalize (w.seatedAt waiter q own cell).2 = u at *
        have hsource := ih (w := u) (q := source) (.pending q) (Stage.seat? cell.stage)
        generalize u.ask depth (.pending q) source (Stage.seat? cell.stage) = r at *
        obtain ⟨answer, v⟩ := r
        cases answer with
        | ready outcome =>
          refine hseated.trans ((hsource fun hawaits => h (.source hjob? ?_)).trans (.conclude hne ..))
          exact hawaits.lasts (.conclude ..)
        | notYet seat =>
          refine hseated.trans ((hsource fun hawaits => h (.source hjob? ?_)).trans (.setStage hne ..))
          exact hawaits.lasts (.setStage ..)

/-! ## How a life goes -/

/-- The pending value was started at this time, with this work to do. -/
structure Due (p time : Nat) (job : Job) (start w : World) : Prop where
  log : ∃ new, w.log = new ++ start.log ∧ life p new = [(time, .started)]
  clock : time ≤ w.clock
  job : w.job? p = some job

/-- The life of a pending value since the world was `start`, as far as it has gone. -/
inductive Lives (p : Nat) (start w : World) : Prop
  | fresh {new : List (Nat × Event)} (hlog : w.log = new ++ start.log) (hlife : life p new = [])
    (hcell : ∀ cell, w.seen.pendings[p]? = some cell → cell.stage = .unstarted)
  | begun {time : Nat} {cell : PendingCell} (hdue : Due p time cell.job start w)
    (hcell : w.seen.pendings[p]? = some cell) (hstage : cell.stage = cell.job.stageFrom time)
  | ended {new : List (Nat × Event)} {time finish : Nat} {cell : PendingCell} {outcome : Outcome}
    (hlog : w.log = new ++ start.log)
    (hlife : life p new = [(finish, .finished), (time, .started)])
    (hdelay : time + cell.job.delay ≤ finish) (hcell : w.seen.pendings[p]? = some cell)
    (hstage : cell.stage = .done outcome)

variable {start : World} {job : Job} {time : Nat}

theorem log_passed (hlog : ∃ new, w.log = new ++ start.log ∧ life p new = l) (h : PassesBy p w v) :
    ∃ new, v.log = new ++ start.log ∧ life p new = l := by
  obtain ⟨new, hnew, hlife⟩ := hlog
  obtain ⟨more, hmore, hnone⟩ := h.log
  refine ⟨more ++ new, by rw [hmore, hnew, List.append_assoc], ?_⟩
  rw [life_append, hnone, hlife]
  rfl

theorem Due.passed (h : Due p time job start w) (hv : PassesBy p w v) : Due p time job start v where
  log := log_passed h.log hv
  clock := Nat.le_trans h.clock hv.clock
  job := hv.job? h.job

theorem Lives.passed (h : Lives p start w) (hv : PassesBy p w v) : Lives p start v := by
  cases h with
  | fresh hlog hlife hcell =>
    obtain ⟨new, hnew, hlife⟩ := log_passed ⟨_, hlog, hlife⟩ hv
    refine .fresh hnew hlife fun cell hv' => ?_
    cases hw : w.seen.pendings[p]? with
    | none => exact hv.fresh hw cell hv'
    | some cell' =>
      obtain rfl : cell' = cell := Option.some.inj ((hv.cell hw).symm.trans hv')
      exact hcell cell' hw
  | begun hdue hcell hstage => exact .begun (hdue.passed hv) (hv.cell hcell) hstage
  | ended hlog hlife hdelay hcell hstage =>
    obtain ⟨new, hnew, hlife⟩ := log_passed ⟨_, hlog, hlife⟩ hv
    exact .ended hnew hlife hdelay (hv.cell hcell) hstage

/-- Somebody who asks finds it started, now or before. -/
theorem Lives.due (h : Lives p start w) {cell : PendingCell} (hcell : w.pendings[p]? = some cell)
    (hopen : ∀ o, cell.stage ≠ .done o) (waiter : Waiter) (own : Option Nat) :
    ∃ time, Due p time cell.job start (w.seatedAt waiter p own cell).2 ∧
      (cell.stage = .unstarted ∧ time = w.clock ∨ cell.stage.seen = cell.job.stageFrom time) := by
  have hseen : w.seen.pendings[p]? = some cell.seen := by rw [seen_getElem?, hcell, Option.map_some]
  have hjob := (grown_seatedAt waiter p own cell w).job? (job?_of_getElem? hcell)
  cases h with
  | @fresh new hlog hlife hstage =>
    have hunstarted : cell.stage = .unstarted := by
      have := hstage cell.seen hseen
      rw [PendingCell.seen] at this
      cases hcase : cell.stage <;> rw [hcase] at this <;> cases this
    have hstart : (w.seatedAt waiter p own cell).2.log = (w.clock, .started p cell.label) :: w.log := by
      rw [← seen_log, seen_seatedAt, ← noteStart_seen, seen_log, noteStart, hunstarted]
      rfl
    refine ⟨w.clock, ⟨⟨(w.clock, .started p cell.label) :: new, ?_, ?_⟩, ?_, hjob⟩,
      .inl ⟨hunstarted, rfl⟩⟩
    · rw [hstart, hlog, List.cons_append]
    · rw [life_cons, hlife, Event.milestone?, if_pos rfl]
      rfl
    · exact Nat.le_of_eq (clock_seatedAt ..).symm
  | @begun time cell' hdue hcell' hstage =>
    obtain rfl : cell.seen = cell' := Option.some.inj (hseen.symm.trans hcell')
    have hsame : (w.seatedAt waiter p own cell).2.seen = w.seen := by
      rw [seen_seatedAt, noteStart]
      have hstarted : cell.seen.stage ≠ .unstarted := by
        rw [hstage, Job.stageFrom.eq_def]
        split <;> exact fun h => by cases h
      split
      · rename_i hunstarted
        exact absurd hunstarted hstarted
      · rfl
    exact ⟨time, hdue.passed (.of_seen hsame), .inr hstage⟩
  | ended _ _ _ hcell' hstage =>
    rw [hseen, Option.some.injEq] at hcell'
    rw [← hcell', PendingCell.seen] at hstage
    cases hcase : cell.stage with
    | done o => exact absurd hcase (hopen o)
    | _ =>
      rw [hcase] at hstage
      cases hstage

/-- It is waiting. -/
theorem Due.lives (h : Due p time job start w) {stage : Stage}
    (hstage : stage.seen = job.stageFrom time) :
    Lives p start (w.modifyPending p fun cell => { cell with stage }) := by
  obtain ⟨cell, hcell, rfl⟩ := Option.map_eq_some_iff.mp h.job
  let waiting : PendingCell := { cell with stage := stage.seen, waiters := {} }
  have hcell' : (w.modifyPending p fun cell => { cell with stage }).seen.pendings[p]? =
      some waiting := by
    rw [seen_getElem?, getElem?_modifyPending_self _ hcell]
    rfl
  have hdue : Due p time waiting.job start (w.modifyPending p fun cell => { cell with stage }) :=
    ⟨h.log, h.clock, (job?_setStage ..).trans h.job⟩
  exact .begun hdue hcell' hstage

/-- It ends, its delay after the start at the earliest. -/
theorem Due.conclude (h : Due p time job start w) (hdelay : time + job.delay ≤ w.clock)
    (label : Option String) (body : Action) : Lives p start (w.conclude p label body).2 := by
  obtain ⟨new, hlog, hlife⟩ := h.log
  let u : World := (body.run (w.note (.finished p label))).2
  have hrun : PassesBy p (w.note (.finished p label)) u := .run body _
  have hfinished : ∃ new, (w.note (.finished p label)).log = new ++ start.log ∧
      life p new = [(w.clock, .finished), (time, .started)] := by
    refine ⟨(w.clock, .finished p label) :: new, by rw [note, hlog, List.cons_append], ?_⟩
    rw [life_cons, hlife, Event.milestone?, if_pos rfl]
    rfl
  obtain ⟨more, hmore, hended⟩ := log_passed hfinished hrun
  have hnoted : (w.note (.finished p label)).job? p = some job := h.job
  obtain ⟨cell, hcell, rfl⟩ := Option.map_eq_some_iff.mp (hrun.job? hnoted)
  let outcome : Outcome := (body.run (w.note (.finished p label))).1
  let ended : PendingCell := { cell.seen with stage := .done outcome }
  have hsettled : (u.settle p outcome).seen.pendings[p]? = some ended := by
    rw [seen_settle]
    exact getElem?_modifyPending_self _ (by rw [seen_getElem?, hcell, Option.map_some])
  have hsame : (u.settle p outcome).log = u.log := by
    rw [← seen_log, seen_settle]
    rfl
  have hdelay' : time + ended.job.delay ≤ w.clock := hdelay
  exact .ended (hsame.trans hmore) hended hdelay' hsettled rfl

/-- Asking any pending value lets the life go on. -/
theorem Lives.ask (h : Lives p start w) (depth : Nat) (waiter : Waiter) (own : Option Nat)
    (horder : (w.ask depth waiter q own).2.InOrder) :
    Lives p start (w.ask depth waiter q own).2 := by
  induction depth generalizing w waiter q own with
  | zero => exact h
  | succ depth ih =>
    cases hcell : w.pendings[q]? with
    | none =>
      rw [World.ask, hcell]
      exact h
    | some cell =>
      by_cases hdone : ∃ o, cell.stage = .done o
      · obtain ⟨o, ho⟩ := hdone
        rw [World.ask, hcell]
        simp only [ho]
        exact h
      have hopen : ∀ o, cell.stage ≠ .done o := fun o ho => hdone ⟨o, ho⟩
      have hjob? := (Lasts.ask (depth + 1) waiter q own w).job? (job?_of_getElem? hcell)
      rw [ask_open hcell hopen] at horder hjob? ⊢
      by_cases heq : q = p
      · -- the pending value itself is asked, and its source is an earlier one
        subst heq
        obtain ⟨time, hdue, hstage⟩ := h.due hcell hopen waiter own
        cases hjob : cell.job with
        | after delay keeps body =>
          rw [hjob] at hdue hstage
          have hdeadline : cell.stage.deadline (w.clock + delay) = time + delay := by
            rcases hstage with ⟨hunstarted, rfl⟩ | hwaiting
            · rw [hunstarted]
              rfl
            · cases hcase : cell.stage <;> rw [hcase] at hwaiting <;> cases hwaiting
              rfl
          dsimp only
          split
          · rename_i hle
            rw [hdeadline, ← clock_seatedAt waiter q own cell w] at hle
            exact hdue.conclude hle ..
          · refine (hdue.passed (.of_seen (seen_startTimer ..))).lives ?_
            rw [hdeadline]
            rfl
        | checking source =>
          rw [hjob] at hdue horder hjob?
          dsimp only at horder hjob? ⊢
          generalize (w.seatedAt waiter q own cell).2 = u at *
          have hpasses := passesBy_ask (p := q) (q := source) (w := u) depth (.pending q)
            (Stage.seat? cell.stage)
          generalize u.ask depth (.pending q) source (Stage.seat? cell.stage) = r at *
          obtain ⟨answer, v⟩ := r
          cases answer with
          | ready outcome =>
            have hpassed := hpasses fun hawaits =>
              Nat.lt_irrefl _ (Nat.lt_of_lt_of_le (horder hjob?)
                ((hawaits.lasts (.conclude ..)).le horder))
            exact (hdue.passed hpassed).conclude (hdue.passed hpassed).clock ..
          | notYet seat =>
            have hpassed := hpasses fun hawaits =>
              Nat.lt_irrefl _ (Nat.lt_of_lt_of_le (horder hjob?)
                ((hawaits.lasts (.setStage ..)).le horder))
            exact (hdue.passed hpassed).lives rfl
      · -- another one is asked, which may come to this one
        have hseated := h.passed (.seatedAt heq waiter own cell w)
        cases hjob : cell.job with
        | after delay keeps body =>
          dsimp only
          split
          · exact hseated.passed (.conclude heq ..)
          · exact (hseated.passed (.of_seen (seen_startTimer ..))).passed (.setStage heq ..)
        | checking source =>
          rw [hjob] at horder
          dsimp only at horder ⊢
          generalize (w.seatedAt waiter q own cell).2 = u at *
          have hsource := ih (w := u) (q := source) hseated (.pending q) (Stage.seat? cell.stage)
          generalize u.ask depth (.pending q) source (Stage.seat? cell.stage) = r at *
          obtain ⟨answer, v⟩ := r
          cases answer with
          | ready outcome =>
            exact (hsource (horder.before (.conclude ..))).passed (.conclude heq ..)
          | notYet seat =>
            exact (hsource (horder.before (.setStage ..))).passed (.setStage heq ..)

/-- What is written down of a life is one of these. -/
theorem Lives.life_cases (h : Lives p start w) :
    life p (w.since start.mark) = [] ∨ ∃ time job, w.job? p = some job ∧
      (life p (w.since start.mark) = [(time, .started)] ∨
        ∃ finish, life p (w.since start.mark) = [(finish, .finished), (time, .started)] ∧
          time + job.delay ≤ finish) := by
  cases h with
  | fresh hlog hlife => exact .inl (by rw [since_mark hlog, hlife])
  | @begun time cell hdue =>
    obtain ⟨new, hlog, hlife⟩ := hdue.log
    exact .inr ⟨time, cell.job, hdue.job, .inl (by rw [since_mark hlog, hlife])⟩
  | @ended new time finish cell _ hlog hlife hdelay hcell =>
    have hjob : w.job? p = some cell.job := by rw [← job?_seen, job?_of_getElem? hcell]
    exact .inr ⟨time, cell.job, hjob, .inr ⟨finish, by rw [since_mark hlog, hlife], hdelay⟩⟩

/-- There is an outcome as soon as it is finished, and not before. -/
theorem Lives.peek_eq_none_iff (h : Lives p start w) :
    w.peek p = none ↔ ∀ finish, (finish, .finished) ∉ life p (w.since start.mark) := by
  rw [← peek_seen]
  cases h with
  | fresh hlog hlife hcell =>
    have hnone : w.seen.peek p = none := by
      cases hp : w.seen.pendings[p]? with
      | none => rw [peek, hp]
      | some cell =>
        rw [peek_of_getElem? hp, hcell cell hp]
        rfl
    simp [hnone, since_mark hlog, hlife]
  | begun hdue hcell hstage =>
    obtain ⟨new, hlog, hlife⟩ := hdue.log
    have hnone : w.seen.peek p = none := by
      rw [peek_of_getElem? hcell, hstage, Job.stageFrom.eq_def]
      split <;> rfl
    simp [hnone, since_mark hlog, hlife]
  | ended hlog hlife _ hcell hstage =>
    simp [peek_of_getElem? hcell, hstage, Stage.outcome?, since_mark hlog, hlife]

theorem Lives.life_passed (h : Lives p start w) (hv : PassesBy p w v) :
    life p (v.since start.mark) = life p (w.since start.mark) := by
  have hlog : ∃ new, w.log = new ++ start.log := by
    cases h with
    | fresh hlog => exact ⟨_, hlog⟩
    | begun hdue => exact hdue.log.imp fun _ h => h.1
    | ended hlog => exact ⟨_, hlog⟩
  obtain ⟨new, hlog⟩ := hlog
  obtain ⟨more, hmore, hlife⟩ := log_passed ⟨new, hlog, rfl⟩ hv
  rw [since_mark hmore, since_mark hlog, hlife]

theorem PassesBy.peek (h : PassesBy p w v) {outcome : Outcome} (hpeek : w.peek p = some outcome) :
    v.peek p = some outcome := by
  rw [← peek_seen] at hpeek ⊢
  cases hcell : w.seen.pendings[p]? with
  | none =>
    rw [World.peek, hcell] at hpeek
    cases hpeek
  | some cell =>
    rw [peek_of_getElem? hcell] at hpeek
    rw [peek_of_getElem? (h.cell hcell), hpeek]

end World

/-! ## In every history -/

open World (Lives PassesBy Awaits)
open Event (life)

/-- Somebody asked for the outcome, be it by asking for that of a checked form. -/
def Deed.Reaches (p : Nat) (deeds : List Deed) (w : World) : Prop :=
  ∃ q answer, .asked q answer ∈ deeds ∧ w.Awaits q p

/-- The life of a pending value goes on, it was not started without being reached, and everybody has got
the outcome that there is. -/
structure Alive (p : Nat) (start : World) (deeds : List Deed) (w : World) : Prop where
  lives : Lives p start w
  reached : life p (w.since start.mark) ≠ [] → Deed.Reaches p deeds w
  answers : ∀ {outcome : Outcome}, .asked p (.ready outcome) ∈ deeds → w.peek p = some outcome

namespace Alive

variable {p : Nat} {start w v : World} {deeds more : List Deed}

theorem passed (h : Alive p start deeds w) (hv : PassesBy p w v) : Alive p start deeds v where
  lives := h.lives.passed hv
  reached hlife := by
    rw [h.lives.life_passed hv] at hlife
    obtain ⟨q, answer, hasked, hawaits⟩ := h.reached hlife
    exact ⟨q, answer, hasked, hawaits.lasts hv.toLasts⟩
  answers hasked := hv.peek (h.answers hasked)

/-- More is done, but nobody is told anything else. -/
theorem goesOn (h : Alive p start deeds w)
    (hmore : ∀ {outcome : Outcome}, .asked p (.ready outcome) ∈ more → w.peek p = some outcome) :
    Alive p start (deeds ++ more) w where
  lives := h.lives
  reached hlife := by
    obtain ⟨q, answer, hasked, hawaits⟩ := h.reached hlife
    exact ⟨q, answer, List.mem_append_left _ hasked, hawaits⟩
  answers hasked := (List.mem_append.mp hasked).elim h.answers hmore

/-- Whoever is asked, it goes on. -/
theorem await (h : Alive p start deeds w) (task q : Nat) (seat : Option Nat)
    (horder : (w.await (.task task) q seat).2.InOrder) :
    Alive p start (deeds ++ (Work.await q seat .item).deeds task w)
      (w.await (.task task) q seat).2 := by
  by_cases hsize : q < w.pendings.size
  · have hdeeds : (Work.await q seat .item).deeds task w =
        [.asked q (w.await (.task task) q seat).1] := if_pos hsize
    have hasked : World.Asked 0 q w (w.await (.task task) q seat) :=
      World.asked_ask (Nat.lt_succ_self q) _ _ horder hsize
    rw [hdeeds]
    refine ⟨h.lives.ask _ _ _ horder, fun hlife => ?_, fun {outcome} hmem => ?_⟩
    · by_cases hawaits : (w.await (.task task) q seat).2.Awaits q p
      · exact ⟨q, _, List.mem_append_right _ List.mem_cons_self, hawaits⟩
      · have hpassed : Alive p start deeds (w.await (.task task) q seat).2 :=
          h.passed (World.passesBy_ask _ _ _ hawaits)
        obtain ⟨q', answer, hasked, hawaits⟩ := hpassed.reached hlife
        exact ⟨q', answer, List.mem_append_left _ hasked, hawaits⟩
    · rcases List.mem_append.mp hmem with hold | hnew
      · exact hasked.passed.kept (h.answers hold)
      · rw [List.mem_singleton, Deed.asked.injEq] at hnew
        obtain ⟨rfl, hready⟩ := hnew
        exact hasked.ready outcome hready.symm
  · have hdeeds : (Work.await q seat .item).deeds task w = [] := if_neg hsize
    have hnone : (w.await (.task task) q seat).2 = w := by
      rw [World.await, World.ask, Array.getElem?_eq_none (Nat.le_of_not_lt hsize)]
    rw [hdeeds, hnone, List.append_nil]
    exact h

/-- Every history lets it go on, as long as checked forms are made after what they check. -/
theorem invariant (p : Nat) (start : World) :
    Renders.WorldInvariant fun deeds w => w.InOrder → Alive p start deeds w := by
  have hpassed : ∀ {deeds : List Deed} {w v : World}, (w.InOrder → Alive p start deeds w) →
      PassesBy p w v → v.InOrder → Alive p start deeds v :=
    fun h hv horder => (h (horder.before hv.toLasts)).passed hv
  constructor
  case hidden => exact fun h hseen => hpassed h (.of_seen hseen)
  case noted =>
    intro deeds w event h haside
    refine hpassed h (.note ?_ w)
    cases event with
    | started | finished => cases haside
    | _ => rfl
  case run => exact fun a h => hpassed h (.run a _)
  case aside =>
    exact fun h hlog _ hpendings hclock => hpassed h (.of_pendings hpendings hclock ⟨[], hlog, rfl⟩)
  case await =>
    exact fun task pending seat h horder =>
      (h (horder.before (World.Lasts.ask ..))).await task pending seat horder
  case reached => exact fun _ _ h horder => (h horder).goesOn (by simp)
  case drew => exact fun _ _ _ h horder => (h horder).goesOn (by simp)

end Alive

namespace Renders

variable {p : Nat} {w : World} {r : Renders} {deeds : List Deed}

/-- Up to any moment of a history, within a turn as well, a pending value that had not been started is
alive. -/
theorem Leads.alive {more : List Deed} {v : World} {pieces : List Work}
    (hfresh : ∀ cell, w.pendings[p]? = some cell → cell.stage = .unstarted)
    (h : Leads ⟨w, []⟩ deeds r) (hcourse : Course r.world r.pieces more v pieces)
    (horder : v.InOrder) : Alive p w (deeds ++ more) v := by
  have hstart : w.InOrder → Alive p w [] w := fun _ => by
    have hlog : w.log = [] ++ w.log := rfl
    refine ⟨.fresh hlog rfl fun cell hcell => ?_, fun hlife => ?_, fun h => by cases h⟩
    · obtain ⟨c, hc, rfl⟩ := Option.map_eq_some_iff.mp ((World.seen_getElem? w p).symm.trans hcell)
      rw [PendingCell.seen, hfresh c hc]
      rfl
    · rw [World.since_mark hlog] at hlife
      exact absurd rfl hlife
  have hreached := (Alive.invariant p w).invariant.leads h (List.forall_mem_nil _) hstart
  exact (Alive.invariant p w).invariant.course hreached (h.isTame (List.forall_mem_nil _)) hcourse horder

/-- **A pending value runs once and has one outcome.** Whatever renders are taken, polled in any order,
dropped or failing on the way, and whoever else asks, up to any moment within a turn:

* it is started once at most, then finished once at most, its delay later at the earliest;
* there is an outcome from when it is finished on, and it stays;
* everybody who was told an outcome was told that one;
* it is not started unless it was asked, or a checked form of it. -/
theorem runs_once {more : List Deed} {v : World} {pieces : List Work}
    (hfresh : ∀ cell, w.pendings[p]? = some cell → cell.stage = .unstarted)
    (h : Leads ⟨w, []⟩ deeds r) (hcourse : Course r.world r.pieces more v pieces)
    (horder : v.InOrder) :
    (life p (v.since w.mark) = [] ∨ ∃ time job, v.job? p = some job ∧
      (life p (v.since w.mark) = [(time, .started)] ∨
        ∃ finish, life p (v.since w.mark) = [(finish, .finished), (time, .started)] ∧
          time + job.delay ≤ finish)) ∧
      (v.peek p = none ↔ ∀ finish, (finish, .finished) ∉ life p (v.since w.mark)) ∧
      (∀ {outcome}, v.peek p = some outcome →
        ∀ {u rest later}, Course v pieces later u rest → u.InOrder → u.peek p = some outcome) ∧
      (∀ {outcome}, r.world.peek p = some outcome →
        ∀ {s later}, r.Leads later s → s.world.InOrder → s.world.peek p = some outcome) ∧
      (∀ {outcome}, .asked p (.ready outcome) ∈ deeds ++ more → v.peek p = some outcome) ∧
      (life p (v.since w.mark) ≠ [] → Deed.Reaches p (deeds ++ more) v) := by
  have halive := h.alive hfresh hcourse horder
  have hinvariant := (Alive.invariant p w).invariant
  have hreached : r.world.InOrder → Alive p w deeds r.world := fun horder => by
    have := h.alive hfresh .refl horder
    rwa [List.append_nil] at this
  refine ⟨halive.lives.life_cases, halive.lives.peek_eq_none_iff, ?_, ?_, halive.answers,
    halive.reached⟩
  · -- whoever asked now would be told what there is later
    intro outcome hpeek u rest later hrest horder'
    have hknown : Alive p w (deeds ++ more ++ [.asked p (.ready outcome)]) v :=
      halive.goesOn (by simp [hpeek])
    have hlater := hinvariant.course (fun _ => hknown) (hcourse.isTame (h.isTame (List.forall_mem_nil _))) hrest horder'
    exact hlater.answers (by simp)
  · intro outcome hpeek s later hlater horder'
    have hknown : r.world.InOrder → Alive p w (deeds ++ [.asked p (.ready outcome)]) r.world :=
      fun horder => (hreached horder).goesOn (by simp [hpeek])
    have hlater := hinvariant.leads hlater (h.isTame (List.forall_mem_nil _)) hknown horder'
    exact hlater.answers (by simp)

/-- A pending value that takes a while. -/
def slow : PendingCell where
  label := some "p"
  job := .after 2 [] (.give (.str "x"))

/-- The render that starts it is dropped while it waits, and another one takes over. -/
theorem runs_once_dropped : ∃ deeds r, Leads ⟨(World.newPending slow {}).2, []⟩ deeds r ∧
    r.world.InOrder ∧ life 0 (r.world.since 0) = [(2, .finished), (0, .started)] ∧
    ∀ outcome, .asked 0 (.ready outcome) ∈ deeds → outcome = .ok (.str "x") := by
  let w : World := (World.newPending slow {}).2
  let first : RenderStream := (RenderStream.ofItem {} (.pending 0) w).1
  obtain ⟨stack, v, t, u, hblocked, hsecond, horder, hlife, hpeek⟩ : ∃ stack v t u,
      Render.turn first.config.concurrency 9 [] first.task first.stack
          ((RenderStream.ofItem {} (.pending 0) w).2.beginTurn first.task) =
        some (.blocked, stack, v) ∧
      (RenderStream.ofItem { concurrency := 2 } (.pending 0)
          (RenderStream.drop { first with stack } v)).1.next 20
          (RenderStream.ofItem { concurrency := 2 } (.pending 0)
            (RenderStream.drop { first with stack } v)).2 = some (.fragment "x", t, u) ∧
      u.InOrder ∧ life 0 (u.since 0) = [(2, .finished), (0, .started)] ∧
      u.peek 0 = some (.ok (.str "x")) :=
    ⟨_, _, _, _, by cbv, by cbv, of_decide_eq_true (by cbv), by cbv, by cbv⟩
  have hopened : ∀ (config : RenderConfig) (u : World),
      Tasked ⟨(RenderStream.ofItem config (.pending 0) u).2,
        [] ++ (RenderStream.ofItem config (.pending 0) u).1 :: []⟩ :=
    fun _ _ => (tasked_nil _).cons ⟨trivial, trivial⟩
  have hstart : Leads ⟨w, []⟩ [] ⟨(RenderStream.ofItem {} (.pending 0) w).2, [] ++ first :: []⟩ :=
    Leads.refl.ofItem {} (.pending 0)
  obtain ⟨-, more, hcourse⟩ := (hopened {} w).turn hblocked
  have hrestart := (hstart.poll hblocked hcourse).drop.ofItem { concurrency := 2 } (.pending 0)
  obtain ⟨-, later, hended⟩ : _ ∧ ∃ later, Leads ⟨w, []⟩ ([] ++ more ++ later) ⟨u, [] ++ t :: []⟩ :=
    Leads.next hrestart (hopened _ _) hsecond
  obtain ⟨-, -, -, -, hanswers, -⟩ := runs_once (p := 0) (fun cell hcell => by cases hcell; rfl)
    hended .refl horder
  refine ⟨_, _, hended, horder, hlife, fun outcome hasked => ?_⟩
  have hsame := hanswers (List.mem_append_left _ hasked)
  exact Option.some.inj (hsame.symm.trans hpeek)

end Renders

end TaggedMarkup
