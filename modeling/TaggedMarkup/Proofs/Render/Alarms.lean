import TaggedMarkup.Proofs.Render.Lives
import TaggedMarkup.Proofs.Render.Departure
import TaggedMarkup.Proofs.Render.Meanwhile

/-!
# Timers are right

A timer goes off in the future, and the timer of a pending value goes off at the moment for which it waits. A
pending value sits only where it is to check the outcome. A world in which this is so is **timely**
(`World.Timely`), and stays so whatever is done in it.
-/

namespace TaggedMarkup

/-- Whoever is in a seat was there before or sat down. -/
theorem Seats.of_sit {s : Seats} {own : Option Nat} {waiter other : Waiter} {seat : Nat}
    (h : (s.sit own waiter).2.seats[seat]? = some (some other)) :
    s.seats[seat]? = some (some other) ∨ other = waiter := by
  have hset : ∀ n : Nat, (s.seats.set n (some waiter))[seat]? = some (some other) →
      s.seats[seat]? = some (some other) ∨ other = waiter := by
    intro n hn
    rw [List.getElem?_set] at hn
    split at hn
    · split at hn
      · cases hn
        exact .inr rfl
      · cases hn
    · exact .inl hn
  obtain ⟨seats, vacant⟩ := s
  cases own with
  | some n => exact hset n h
  | none =>
    cases vacant with
    | cons n vacant => exact hset n h
    | nil =>
      have happend : (seats ++ [some waiter])[seat]? = some (some other) := h
      rw [List.getElem?_append] at happend
      split at happend
      · exact .inl happend
      · exact .inr (Option.some.inj (List.mem_singleton.mp (List.mem_of_getElem? happend)))

namespace World

/-- Nobody sits down from the one world to the other. -/
def Unseats (w v : World) : Prop :=
  ∀ ⦃pending seat : Nat⦄ ⦃waiter : Waiter⦄, v.Untold pending seat waiter → w.Untold pending seat waiter

/-- Timers are for what is to come, pending values have timers for the moment for which they wait, and sit
only where they are to check the outcome. -/
structure Timely (w : World) : Prop where
  ahead : ∀ timer ∈ w.timers, w.clock < timer.deadline
  timed : ∀ {deadline pending : Nat}, ⟨deadline, .pending pending⟩ ∈ w.timers →
    ∃ cell delay keeps body, w.seen.pendings[pending]? = some cell ∧ cell.job = .after delay keeps body ∧
      cell.stage = .waiting deadline
  seated : ∀ {source seat pending : Nat}, w.Untold source seat (.pending pending) →
    w.job? pending = some (.checking source)

variable {w v u : World} {pending seat : Nat} {waiter : Waiter}

namespace Unseats

theorem refl (w : World) : w.Unseats w := fun _ _ _ h => h

theorem trans (h : w.Unseats v) (h' : v.Unseats u) : w.Unseats u := fun _ _ _ hu => h (h' hu)

theorem of_pendings (h : v.pendings = w.pendings) : w.Unseats v := by
  intro p s x hv
  rwa [Untold, seatsAt, h] at hv

theorem modifyPending {f : PendingCell → PendingCell}
    (hf : ∀ (cell : PendingCell) (s : Nat) (x : Waiter), (f cell).waiters.seats[s]? = some (some x) →
      cell.waiters.seats[s]? = some (some x)) (pending : Nat) (w : World) :
    w.Unseats (w.modifyPending pending f) := by
  intro p s x hv
  obtain ⟨cell, hcell, hseat⟩ := untold_iff.mp hv
  rw [getElem?_modifyPending] at hcell
  split at hcell
  · obtain ⟨cell', hcell', rfl⟩ := Option.map_eq_some_iff.mp hcell
    exact untold_iff.mpr ⟨cell', hcell', hf cell' s x hseat⟩
  · exact untold_iff.mpr ⟨cell, hcell, hseat⟩

theorem setStage (pending : Nat) (stage : Stage) (w : World) :
    w.Unseats (w.modifyPending pending fun cell => { cell with stage }) :=
  modifyPending (f := fun cell => { cell with stage }) (fun _ _ _ h => h) pending w

theorem foldl {α : Type} {f : World → α → World} (h : ∀ (w : World) (a : α), w.Unseats (f w a)) (as : List α)
    (w : World) :
    w.Unseats (as.foldl f w) := by
  induction as generalizing w with
  | nil => exact .refl w
  | cons a rest ih => exact (h w a).trans (ih _)

theorem tell (depth : Nat) (waiter : Waiter) (w : World) : w.Unseats (w.tell depth waiter) := by
  induction depth generalizing waiter w with
  | zero => exact .refl w
  | succ depth ih =>
    cases waiter with
    | task task =>
      simp only [World.tell]
      split
      · exact .refl w
      · split
        · exact .refl w
        · split
          · exact .of_pendings rfl
          · split
            · exact .of_pendings rfl
            · split
              · exact Unseats.trans (of_pendings rfl) (ih _ _)
              · exact .of_pendings rfl
    | pending pending =>
      simp only [World.tell]
      split
      · exact .refl w
      · rename_i cell _
        refine trans (modifyPending (fun c s x hseat => ?_) pending w) (foldl (fun w waiter => ih waiter w) _ _)
        exact absurd hseat (seats_call cell.waiters s x)

theorem wake (waiter : Waiter) (w : World) : w.Unseats (w.wake waiter) := tell ..

theorem giveUp (pending seat : Nat) (w : World) : w.Unseats (w.giveUp pending seat) :=
  fun _ _ _ h => of_untold_giveUp h

theorem letGo (pending : Nat) (w : World) : w.Unseats (w.letGo pending) := by
  unfold World.letGo
  dsimp only
  split
  · split
    · have hforsaken : w.Unseats { w with forsaken := w.forsaken.erase pending } := of_pendings rfl
      exact (hforsaken.trans (setStage pending .gone _)).trans (giveUp ..)
    · exact of_pendings rfl
  · exact of_pendings rfl

theorem letGoOfAll (reached : Std.HashSet Cell) (count : Nat) (w : World) :
    w.Unseats (w.letGoOfAll reached count) := by
  induction count generalizing w with
  | zero => exact .refl w
  | succ count ih =>
    simp only [World.letGoOfAll]
    split
    · exact trans (letGo ..) (ih _)
    · exact of_pendings rfl

theorem tidied (held : List Value) (w : World) : w.Unseats (w.tidied held) := by
  unfold World.tidied
  split
  · exact .refl w
  · exact letGoOfAll ..

theorem of_extends (h : w.Extends v) : w.Unseats v := fun _ _ _ hv => h.untold.mp hv

theorem settle (pending : Nat) (outcome : Outcome) (w : World) : w.Unseats (w.settle pending outcome) := by
  unfold World.settle
  split
  · exact .refl w
  · refine trans (modifyPending (fun c s x hseat => ?_) pending w) (foldl (fun w waiter => wake waiter w) _ _)
    cases hseat

theorem conclude (pending : Nat) (label : Option String) (body : Action) (w : World) :
    w.Unseats (w.conclude pending label body).2 := by
  have hnote : w.Unseats (w.note (.finished pending label)) := of_pendings rfl
  exact (hnote.trans (of_extends (.run body _))).trans (settle ..)

/-- Only the one who asks sits down. -/
theorem seatedAt {cell : PendingCell} {own : Option Nat} {p s : Nat} {x : Waiter}
    (hcell : w.pendings[pending]? = some cell) (h : (w.seatedAt waiter pending own cell).2.Untold p s x) :
    w.Untold p s x ∨ p = pending ∧ x = waiter := by
  have hpendings : (w.seatedAt waiter pending own cell).2.pendings =
      (w.modifyPending pending fun c => { c with waiters := (cell.waiters.sit own waiter).2 }).pendings := by
    obtain ⟨label, job, stage, waiters⟩ := cell
    cases stage <;> rfl
  rw [Untold, seatsAt, hpendings, ← seatsAt, ← Untold] at h
  obtain ⟨c, hc, hseat⟩ := untold_iff.mp h
  rw [getElem?_modifyPending] at hc
  split at hc
  · rename_i heq
    subst heq
    rw [hcell, Option.map_some] at hc
    cases hc
    rcases Seats.of_sit hseat with hold | hnew
    · exact .inl (untold_iff.mpr ⟨cell, hcell, hold⟩)
    · exact .inr ⟨rfl, hnew⟩
  · exact .inl (untold_iff.mpr ⟨c, hc, hseat⟩)

end Unseats

/-- Every pending value that has a timer is as it was. -/
theorem Timely.changes (h : w.Timely) (htimers : ∀ timer ∈ v.timers, timer ∈ w.timers)
    (hclock : ∀ timer ∈ v.timers, v.clock < timer.deadline)
    (hcell : ∀ deadline n, ⟨deadline, .pending n⟩ ∈ v.timers → ∀ cell, w.seen.pendings[n]? = some cell →
      v.seen.pendings[n]? = some cell)
    (hjob : ∀ {n : Nat} {job : Job}, w.job? n = some job → v.job? n = some job) (hseats : w.Unseats v) :
    v.Timely where
  ahead := hclock
  timed {deadline n} hmem := by
    obtain ⟨cell, delay, keeps, body, hn, hafter, hstage⟩ := h.timed (htimers _ hmem)
    exact ⟨cell, delay, keeps, body, hcell deadline n hmem cell hn, hafter, hstage⟩
  seated huntold := hjob (h.seated (hseats huntold))

theorem Timely.of_seen (h : w.Timely) (hseen : v.seen = w.seen) (htimers : v.timers = w.timers)
    (hseats : w.Unseats v) : v.Timely := by
  refine h.changes (fun timer hmem => htimers ▸ hmem) (fun timer hmem => ?_) (fun _ _ _ cell hn => by rwa [hseen])
    (fun hjob => ?_) hseats
  · rw [clock_of_seen hseen]
    exact h.ahead timer (htimers ▸ hmem)
  · rwa [← job?_seen, hseen, job?_seen]

/-- What concerns neither pending values nor time. -/
theorem Timely.aside (h : w.Timely) (hpendings : v.pendings = w.pendings) (hclock : v.clock = w.clock)
    (htimers : v.timers = w.timers) : v.Timely := by
  refine h.changes (fun timer hmem => htimers ▸ hmem) (fun timer hmem => ?_) (fun _ _ _ cell hn => ?_)
    (fun hjob => ?_) (.of_pendings hpendings)
  · rw [hclock]
    exact h.ahead timer (htimers ▸ hmem)
  · rwa [seen_getElem?, hpendings, ← seen_getElem?]
  · rwa [job?, hpendings]

theorem Timely.wake (h : w.Timely) (waiter : Waiter) : (w.wake waiter).Timely :=
  h.of_seen (seen_wake w waiter) (timers_wake w waiter) (.wake waiter w)

theorem Timely.tidied (h : w.Timely) (held : List Value) : (w.tidied held).Timely :=
  h.of_seen (seen_tidied w held) (timers_tidied w held) (.tidied held w)

/-- A task sets a timer. -/
theorem Timely.setTimer (h : w.Timely) {delay : Nat} (hdelay : delay ≠ 0) (task : Nat) :
    (w.setTimer delay (.task task)).Timely where
  ahead timer hmem := by
    rcases List.mem_append.mp hmem with hold | hnew
    · exact h.ahead timer hold
    · rw [List.mem_singleton.mp hnew]
      exact Nat.lt_add_of_pos_right (Nat.pos_of_ne_zero hdelay)
  timed hmem := by
    rcases List.mem_append.mp hmem with hold | hnew
    · exact h.timed hold
    · cases List.mem_singleton.mp hnew
  seated huntold := h.seated huntold

/-- Time passes. -/
theorem Timely.advance (h : w.Timely) (hadvance : w.advance? = some v) : v.Timely := by
  have hsame := same_advance hadvance
  obtain ⟨earliest, -, rfl⟩ := Option.map_eq_some_iff.mp hadvance
  let u : World := { w with
    clock := max w.clock earliest, timers := w.timers.filter (earliest < ·.deadline) }
  have hu : u.Timely := by
    refine h.changes (fun timer hmem => (List.mem_filter.mp hmem).1) (fun timer hmem => ?_)
      (fun _ _ _ cell hn => hn) id (.of_pendings rfl)
    obtain ⟨hold, hlater⟩ := List.mem_filter.mp hmem
    exact Nat.max_lt.mpr ⟨h.ahead timer hold, of_decide_eq_true hlater⟩
  refine hu.of_seen (seen_foldl _ (fun w (timer : Timer) => seen_wake w timer.waiter) _)
    (timers_foldl _ (fun w (timer : Timer) => timers_wake w timer.waiter) _) ?_
  exact Unseats.foldl (fun w (timer : Timer) => .wake timer.waiter w) _ u

theorem Timely.run (h : w.Timely) (a : Action) : (a.run w).2.Timely := by
  have hkept := kept_run a w
  have hextends := Extends.run a w
  refine h.changes (fun timer hmem => hkept.timers ▸ hmem) (fun timer hmem => ?_) (fun _ _ _ cell hn => ?_)
    (Grown.run a w).job? (.of_extends hextends)
  · rw [hkept.clock]
    exact h.ahead timer (hkept.timers ▸ hmem)
  · rw [seen_getElem?, Option.map_eq_some_iff] at hn ⊢
    obtain ⟨cell', hcell', rfl⟩ := hn
    exact ⟨cell', hextends.pending _ cell' hcell', rfl⟩

theorem Timely.callComponent (h : w.Timely) (component : Component) (props : Props) (children : List Value) :
    (w.callComponent component props children).2.Timely := by
  rw [World.callComponent]
  split
  · rename_i cell _
    have hnote : (w.note (.called component.cell cell.label)).Timely := h.aside rfl rfl rfl
    exact hnote.run _
  · exact h

/-! ## Asking -/

variable {cell : PendingCell} {own : Option Nat}

/-- What does not wait for a moment has no timer, and neither has what waited for a moment that has come. -/
theorem Timely.no_timer (h : w.Timely) (hcell : w.pendings[pending]? = some cell)
    (hstage : ∀ deadline, cell.stage = .waiting deadline → (∃ source, cell.job = .checking source) ∨
      deadline ≤ w.clock) {deadline : Nat} : ⟨deadline, .pending pending⟩ ∉ w.timers := by
  intro hmem
  obtain ⟨seen, delay, keeps, body, hseen, hjob, hwaiting⟩ := h.timed hmem
  rw [seen_getElem?, hcell, Option.map_some, Option.some.injEq] at hseen
  subst hseen
  have hsame : cell.stage = .waiting deadline := by
    cases hcase : cell.stage with
    | waiting m =>
      rw [PendingCell.seen, hcase] at hwaiting
      exact hwaiting
    | _ =>
      rw [PendingCell.seen, hcase] at hwaiting
      cases hwaiting
  rcases hstage deadline hsame with ⟨source, hchecking⟩ | hpast
  · cases hjob.symm.trans hchecking
  · exact Nat.not_le.mpr (h.ahead _ hmem) hpast

theorem timers_conclude (label : Option String) (body : Action) (w : World) :
    (w.conclude pending label body).2.timers = w.timers := by
  rw [conclude, timers_settle, (kept_run _ _).timers]
  rfl

/-- An open pending value ends that has no timer. -/
theorem Timely.conclude (h : w.Timely) (hnone : ∀ deadline, ⟨deadline, .pending pending⟩ ∉ w.timers)
    (label : Option String) (body : Action) : (w.conclude pending label body).2.Timely := by
  have htimers : (w.conclude pending label body).2.timers = w.timers := timers_conclude label body w
  refine h.changes (fun timer hmem => htimers ▸ hmem) (fun timer hmem => ?_) (fun deadline n hmem cell hn => ?_)
    (Lasts.conclude pending label body w).job? (.conclude pending label body w)
  · rw [clock_conclude]
    exact h.ahead timer (htimers ▸ hmem)
  · have hne : pending ≠ n := by
      rintro rfl
      exact hnone deadline (htimers ▸ hmem)
    exact (PassesBy.conclude hne label body w).cell hn

/-- A pending value that has no timer comes to another stage. -/
theorem Timely.setStage (h : w.Timely) (hnone : ∀ deadline, ⟨deadline, .pending pending⟩ ∉ w.timers)
    (stage : Stage) : (w.modifyPending pending fun cell => { cell with stage }).Timely := by
  refine h.changes (fun timer hmem => hmem) h.ahead (fun deadline n hmem cell hn => ?_)
    (Lasts.setStage pending stage w).job? (.setStage pending stage w)
  have hne : pending ≠ n := by
    rintro rfl
    exact hnone deadline hmem
  exact (PassesBy.setStage hne stage w).cell hn

theorem exists_seated (hcell : w.pendings[pending]? = some cell) (waiter : Waiter) (own : Option Nat) :
    ∃ c, (w.seatedAt waiter pending own cell).2.pendings[pending]? = some c ∧ c.job = cell.job ∧
      c.stage = cell.stage := by
  refine ⟨{ cell with waiters := (cell.waiters.sit own waiter).2 }, ?_, rfl, rfl⟩
  rw [World.seatedAt]
  dsimp only
  rw [getElem?_noteStart, getElem?_modifyPending_self _ hcell]

/-- The asker sits down. -/
theorem Timely.seatedAt (h : w.Timely) (hcell : w.pendings[pending]? = some cell)
    (hwaiter : ∀ later, waiter = .pending later → w.job? later = some (.checking pending)) :
    (w.seatedAt waiter pending own cell).2.Timely := by
  have hsame := same_seatedAt waiter pending own cell w
  refine ⟨fun timer hmem => ?_, fun {deadline n} hmem => ?_, fun {source seat later} huntold => ?_⟩
  · rw [timers_seatedAt] at hmem
    rw [clock_seatedAt]
    exact h.ahead timer hmem
  · rw [timers_seatedAt] at hmem
    rw [seen_seatedAt, getElem?_noteStart]
    exact h.timed hmem
  · rw [hsame.job?]
    rcases Unseats.seatedAt hcell huntold with hold | ⟨rfl, hnew⟩
    · exact h.seated hold
    · exact hwaiter later hnew.symm

/-- A pending value starts to wait for a moment, or goes on to. -/
theorem Timely.wait (h : w.Timely) {delay : Nat} {keeps : List Value} {body : Action} {c : PendingCell}
    (hc : w.pendings[pending]? = some c) (hjob : c.job = .after delay keeps body)
    (hlater : w.clock < c.stage.deadline (w.clock + delay)) :
    ((w.startTimer delay pending c.stage).modifyPending pending fun cell =>
      { cell with stage := .waiting (c.stage.deadline (w.clock + delay)) }).Timely := by
  by_cases hwaiting : ∃ m, c.stage = .waiting m
  · obtain ⟨m, hm⟩ := hwaiting
    rw [hm, startTimer, Stage.deadline]
    refine h.changes (fun timer hmem => hmem) h.ahead (fun deadline n hmem cell hn => ?_)
      (Lasts.setStage pending _ w).job? (.setStage pending _ w)
    have hsame : (Stage.waiting m).seen = c.seen.stage := by
      rw [PendingCell.seen, hm]
    rw [seen_setStage c.seen (by rw [seen_getElem?, hc, Option.map_some]) hsame]
    exact hn
  · have hopen : ∀ m, c.stage ≠ .waiting m := fun m hm => hwaiting ⟨m, hm⟩
    have hnone : ∀ deadline, (⟨deadline, .pending pending⟩ : Timer) ∉ w.timers := fun deadline =>
      h.no_timer hc fun m hm => absurd hm (hopen m)
    have hdeadline : c.stage.deadline (w.clock + delay) = w.clock + delay := by
      cases hcase : c.stage with
      | waiting m => exact absurd hcase (hopen m)
      | _ => rfl
    have hstart : w.startTimer delay pending c.stage = w.setTimer delay (.pending pending) := by
      rw [startTimer.eq_def]
      split
      · exact absurd ‹_› (hopen _)
      · rfl
    rw [hdeadline, hstart]
    refine ⟨fun timer hmem => ?_, fun {deadline n} hmem => ?_, fun {source seat later} huntold => ?_⟩
    · rcases List.mem_append.mp hmem with hold | hnew
      · exact h.ahead timer hold
      · rw [List.mem_singleton.mp hnew]
        rw [hdeadline] at hlater
        exact hlater
    · rcases List.mem_append.mp hmem with hold | hnew
      · obtain ⟨cell, delay', keeps', body', hn, hafter, hstage⟩ := h.timed hold
        have hne : pending ≠ n := by
          rintro rfl
          exact hnone deadline hold
        exact ⟨cell, delay', keeps', body', (PassesBy.setStage hne _ _).cell hn, hafter, hstage⟩
      · cases List.mem_singleton.mp hnew
        refine ⟨{ c.seen with stage := .waiting (w.clock + delay) }, delay, keeps, body, ?_, hjob, rfl⟩
        have hset : (w.setTimer delay (.pending pending)).pendings[pending]? = some c := hc
        rw [seen_getElem?, getElem?_modifyPending_self _ hset]
        rfl
    · have hold := Unseats.setStage pending _ _ huntold
      exact (Lasts.setStage pending _ _).job? (h.seated hold)

/-- Asking keeps timers right. -/
theorem Timely.ask (h : w.Timely) (depth : Nat)
    (hwaiter : ∀ later, waiter = .pending later → w.job? later = some (.checking pending)) :
    (w.ask depth waiter pending own).2.Timely := by
  induction depth generalizing waiter pending own w with
  | zero => exact h
  | succ depth ih =>
    cases hcell : w.pendings[pending]? with
    | none =>
      rw [World.ask, hcell]
      exact h
    | some cell =>
      by_cases hdone : ∃ outcome, cell.stage = .done outcome
      · obtain ⟨outcome, houtcome⟩ := hdone
        rw [World.ask, hcell]
        simp only [houtcome]
        exact h
      · rw [ask_open hcell fun outcome houtcome => hdone ⟨outcome, houtcome⟩]
        have hseated : (w.seatedAt waiter pending own cell).2.Timely := h.seatedAt hcell hwaiter
        have hjob := (same_seatedAt waiter pending own cell w).job? pending
        rw [job?_of_getElem? hcell] at hjob
        obtain ⟨c, hc, hsame⟩ := exists_seated hcell waiter own
        have hclock := clock_seatedAt waiter pending own cell w
        generalize w.seatedAt waiter pending own cell = r at hseated hjob hc hclock
        obtain ⟨seat, u⟩ := r
        dsimp only at hseated hjob hc hclock ⊢
        cases hchecks : cell.job with
        | after delay keeps body =>
          dsimp only
          split
          · rename_i hpast
            refine hseated.conclude (fun deadline => hseated.no_timer hc fun m hm => .inr ?_) ..
            rw [← hsame.2, hm, Stage.deadline, ← hclock] at hpast
            exact hpast
          · rename_i hlater
            rw [← hsame.2, ← hclock] at hlater ⊢
            exact hseated.wait hc (hsame.1.trans hchecks) (Nat.lt_of_not_le hlater)
        | checking source =>
          have hsource : (u.ask depth (.pending pending) source (Stage.seat? cell.stage)).2.Timely :=
            ih hseated fun later heq => by cases heq; rw [hjob, hchecks]
          have hlasts := Lasts.ask depth (.pending pending) source (Stage.seat? cell.stage) u
          dsimp only
          generalize u.ask depth (.pending pending) source (Stage.seat? cell.stage) = r at hsource hlasts ⊢
          obtain ⟨answer, v⟩ := r
          have hnone : ∀ deadline, (⟨deadline, .pending pending⟩ : Timer) ∉ v.timers := by
            intro deadline hmem
            obtain ⟨seen, delay, keeps, body, hseen, hafter, -⟩ := hsource.timed hmem
            have hv := hlasts.job? hjob
            rw [← job?_seen, job?_of_getElem? hseen, hafter, hchecks] at hv
            cases hv
          cases answer with
          | ready outcome => exact hsource.conclude hnone ..
          | notYet seat => exact hsource.setStage hnone _

end World

end TaggedMarkup
