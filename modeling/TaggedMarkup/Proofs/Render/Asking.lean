import TaggedMarkup.Proofs.Host.OnTime
import TaggedMarkup.Proofs.Render.Visit

/-!
# Asking and waiting come to the outcome

A task that awaits a pending value asks, waits until it is told or a timer goes off, and asks again.
Whatever it sees between two questions, the outcome and the world in the end are those of the
reference (`World.outcome`), where waiting is one move of the clock.

An asked pending value **hangs** on a moment: it waits for it itself, or the pending value at the
end of its chain of sources does. Until that moment the reference does not depend on the clock.
-/

namespace TaggedMarkup.World

/-! ## A cell that host code does not see -/

/-- Changes of different cells commute. -/
theorem modifyPending_comm {n m : Nat} (hne : n ≠ m) (f g : PendingCell → PendingCell) (w : World) :
    (w.modifyPending n f).modifyPending m g = (w.modifyPending m g).modifyPending n f := by
  have hpendings : (w.pendings.modify n f).modify m g = (w.pendings.modify m g).modify n f := by
    refine Array.ext_getElem? fun k => ?_
    simp only [Array.getElem?_modify]
    by_cases hn : n = k
    · have hm : m ≠ k := fun hm => hne (hn.trans hm.symm)
      simp only [if_pos hn, if_neg hm]
    · simp only [if_neg hn]
  simp only [modifyPending, hpendings]

theorem modifyPending_modifyPending (n : Nat) (f g : PendingCell → PendingCell) (w : World) :
    (w.modifyPending n f).modifyPending n g = w.modifyPending n (g ∘ f) := by
  have hpendings : (w.pendings.modify n f).modify n g = w.pendings.modify n (g ∘ f) := by
    refine Array.ext_getElem? fun k => ?_
    simp only [Array.getElem?_modify]
    split
    · exact Option.map_map ..
    · rfl
  simp only [modifyPending, hpendings]

theorem newPending_modify {pending : Nat} {f : PendingCell → PendingCell} {w : World}
    (h : pending < w.pendings.size) (cell : PendingCell) :
    (w.modifyPending pending f).newPending cell =
      ((w.newPending cell).1, (w.newPending cell).2.modifyPending pending f) := by
  have hpush : (w.pendings.modify pending f).push cell =
      (w.pendings.push cell).modify pending f := by
    refine Array.ext_getElem? fun n => ?_
    simp only [Array.getElem?_push, Array.getElem?_modify, Array.size_modify]
    by_cases hn : n = w.pendings.size
    · have hne : pending ≠ n := by omega
      simp only [if_pos hn, if_neg hne]
    · simp only [if_neg hn]
  simp only [newPending, modifyPending, hpush, Array.size_modify]

theorem noteAll_modify (pending : Nat) (f : PendingCell → PendingCell) (reports : List Report)
    (w : World) :
    (w.modifyPending pending f).noteAll reports = (w.noteAll reports).modifyPending pending f := by
  unfold noteAll
  induction reports generalizing w with
  | nil => rfl
  | cons report rest ih => exact ih (w.note _)

theorem size_noteAll (reports : List Report) (w : World) :
    (w.noteAll reports).pendings.size = w.pendings.size := by
  unfold noteAll
  induction reports generalizing w with
  | nil => rfl
  | cons report rest ih => exact ih (w.note _)

/-- Host code does not look at a pending value that is there. -/
theorem run_modify (a : Action) {pending : Nat} (f : PendingCell → PendingCell) {w : World}
    (h : pending < w.pendings.size) :
    a.run (w.modifyPending pending f) = ((a.run w).1, (a.run w).2.modifyPending pending f) := by
  induction a generalizing w with
  | give value => rfl
  | fail error => rfl
  | named name next ih => exact ih _ h
  | element type props children raw next ih =>
    exact ih _ (w := (w.newElement type props children raw).2) h
  | component name label keeps body next _ ih =>
    exact ih _ (w := (w.newComponent name { label, keeps, body }).2) h
  | pending label delay keeps body next _ ih =>
    simp only [Action.run, newPending_modify h]
    refine ih _ ?_
    simp only [newPending, Array.size_push]
    omega
  | sequence label members next ih =>
    exact ih _ (w := (w.newSequence { label, members }).2) h
  | template statics values next ih =>
    simp only [Action.run, useTemplate]
    rw [show (w.modifyPending pending f).workshop = w.workshop from rfl,
      show (w.modifyPending pending f).bench = w.bench from rfl]
    rcases w.workshop.call 0 statics values w.bench with ⟨value, bench, reports, workshop⟩
    dsimp only
    have hsize : pending < (World.noteAll reports { w with bench, workshop }).pendings.size := by
      rw [size_noteAll]
      exact h
    rw [← ih _ hsize, ← noteAll_modify]
    rfl
  | checking source next ih =>
    simp only [Action.run, newPending_modify h]
    refine ih _ ?_
    simp only [newPending, Array.size_push]
    omega

theorem size_le_run (a : Action) (w : World) : w.pendings.size ≤ (a.run w).2.pendings.size := by
  refine a.run_stable (P := fun v => w.pendings.size ≤ v.pendings.size) ⟨?_, ?_, ?_, ?_, ?_⟩
    (Nat.le_refl _)
  · exact fun _ _ h => h
  · exact fun _ h => h
  · exact fun _ _ h => h
  · intro v label job h
    rw [newPending, Array.size_push]
    exact Nat.le_succ_of_le h
  · exact fun _ _ h => h

/-! ## The reference -/

@[simp] theorem noteStart_modify (pending later : Nat) (cell : PendingCell)
    (f : PendingCell → PendingCell) (w : World) :
    (w.modifyPending later f).noteStart pending cell =
      (w.noteStart pending cell).modifyPending later f := by
  unfold noteStart
  split <;> rfl

@[simp] theorem size_noteStart (pending : Nat) (cell : PendingCell) (w : World) :
    (w.noteStart pending cell).pendings.size = w.pendings.size := by
  unfold noteStart
  split <;> rfl

theorem finish_modify {pending later : Nat} (hne : pending ≠ later) {w : World}
    (h : later < w.pendings.size) (label : Option String) (body : Action)
    (f : PendingCell → PendingCell) :
    (w.modifyPending later f).finish pending label body =
      ((w.finish pending label body).1, (w.finish pending label body).2.modifyPending later f) := by
  have hnote : (w.modifyPending later f).note (.finished pending label) =
      (w.note (.finished pending label)).modifyPending later f := rfl
  simp only [finish, hnote, run_modify body f (w := w.note (.finished pending label)) h,
    modifyPending_comm hne.symm]

theorem size_le_finish (pending : Nat) (label : Option String) (body : Action) (w : World) :
    w.pendings.size ≤ (w.finish pending label body).2.pendings.size := by
  simp only [finish, modifyPending, Array.size_modify]
  exact size_le_run body (w.note (.finished pending label))

/-- Awaiting a pending value does not look at later ones. -/
theorem outcome_modify (depth : Nat) {pending later : Nat} (hlt : pending < later)
    (f : PendingCell → PendingCell) {w : World} (h : later < w.pendings.size) :
    (w.modifyPending later f).outcome depth pending =
        (w.outcome depth pending).map (fun r => (r.1, r.2.modifyPending later f)) ∧
      ∀ r ∈ w.outcome depth pending, w.pendings.size ≤ r.2.pendings.size := by
  induction depth generalizing pending w with
  | zero => exact ⟨rfl, by simp [outcome]⟩
  | succ depth ih =>
    have hcell : (w.modifyPending later f).pendings[pending]? = w.pendings[pending]? := by
      rw [modifyPending, Array.getElem?_modify, if_neg (by omega)]
    rw [outcome, outcome, hcell]
    cases hc : w.pendings[pending]? with
    | none => exact ⟨rfl, by simp⟩
    | some cell =>
      dsimp only
      split
      · exact ⟨rfl, by simp⟩
      · rw [noteStart_modify]
        split
        · rename_i delay keeps body hjob
          have hsize : later < ((w.noteStart pending cell).sleepUntil
              (cell.stage.deadline ((w.noteStart pending cell).clock + delay))).pendings.size := by
            rw [sleepUntil, size_noteStart]
            exact h
          refine ⟨congrArg some (finish_modify (Nat.ne_of_lt hlt) hsize ..), ?_⟩
          simp only [Option.mem_def, Option.some.injEq, forall_eq']
          refine Nat.le_trans (Nat.le_of_eq ?_) (size_le_finish ..)
          rw [sleepUntil, size_noteStart]
        · rename_i source hjob
          by_cases hsource : source < pending
          · rw [if_pos hsource, if_pos hsource]
            obtain ⟨hmodify, hsize⟩ := ih (w := w.noteStart pending cell) (Nat.lt_trans hsource hlt)
              (by rwa [size_noteStart])
            rw [hmodify]
            cases ho : (w.noteStart pending cell).outcome depth source with
            | none => exact ⟨rfl, by simp⟩
            | some r =>
              have hle := hsize r (by rw [ho]; rfl)
              rw [size_noteStart] at hle
              simp only [Option.map_some, finish_modify (Nat.ne_of_lt hlt) (w := r.2) (by omega)]
              refine ⟨trivial, ?_⟩
              simp only [Option.mem_def, Option.some.injEq, forall_eq']
              exact Nat.le_trans hle (size_le_finish ..)
          · rw [if_neg hsource, if_neg hsource]
            exact ⟨rfl, by simp⟩

/-! ## Hanging -/

/-- A pending value was asked, and the one at the end of its chain of sources waits for this moment. -/
inductive Hangs (w : World) (deadline : Nat) : Nat → Prop
  | clock {pending : Nat} {cell : PendingCell} {delay : Nat} {keeps : List Value} {body : Action} :
    w.pendings[pending]? = some cell → cell.job = .after delay keeps body →
      cell.stage = .waiting deadline → Hangs w deadline pending
  | source {pending source : Nat} {cell : PendingCell} :
    w.pendings[pending]? = some cell → cell.job = .checking source → cell.stage = .gone →
      source < pending → Hangs w deadline source → Hangs w deadline pending

variable {w : World} {deadline pending : Nat}

/-- Until the moment has come the clock does not matter. -/
theorem Hangs.outcome_sleepUntil (h : Hangs w deadline pending) (depth : Nat) {moment : Nat}
    (hmoment : moment ≤ deadline) :
    (w.sleepUntil moment).outcome depth pending = w.outcome depth pending := by
  induction h generalizing depth with
  | @clock pending cell delay keeps body hcell hjob hstage =>
    cases depth with
    | zero => rfl
    | succ depth =>
      have hcell' : (w.sleepUntil moment).pendings[pending]? = some cell := hcell
      rw [outcome, outcome, hcell, hcell']
      simp only [hjob, hstage, noteStart, Stage.deadline, sleepUntil_sleepUntil w hmoment]
  | @source pending source cell hcell hjob hstage hlt _ ih =>
    cases depth with
    | zero => rfl
    | succ depth =>
      have hcell' : (w.sleepUntil moment).pendings[pending]? = some cell := hcell
      rw [outcome, outcome, hcell, hcell']
      simp only [hjob, hstage, noteStart, if_pos hlt, ih depth]

theorem Hangs.sleepUntil (h : Hangs w deadline pending) (moment : Nat) :
    Hangs (w.sleepUntil moment) deadline pending := by
  induction h with
  | clock hcell hjob hstage => exact .clock hcell hjob hstage
  | source hcell hjob hstage hlt _ ih => exact .source hcell hjob hstage hlt ih

/-- What is waited for has a timer. -/
theorem Hangs.timer (h : w.seen.Hangs deadline pending) (hw : w.OnTime) (hclock : w.clock < deadline) :
    deadline ∈ w.timers.map (·.deadline) := by
  induction h with
  | clock hcell _ hstage =>
    rcases hw _ _ _ hcell hstage with hpast | htimer
    · omega
    · exact htimer
  | source _ _ _ _ _ ih => exact ih

/-- A change of a later cell does not matter. -/
theorem Hangs.modify (h : Hangs w deadline pending) {later : Nat} (hlt : pending < later)
    (f : PendingCell → PendingCell) : Hangs (w.modifyPending later f) deadline pending := by
  have hsame : ∀ {n : Nat}, n < later → (w.modifyPending later f).pendings[n]? = w.pendings[n]? := by
    intro n hn
    rw [modifyPending, Array.getElem?_modify, if_neg (by omega)]
  induction h with
  | clock hcell hjob hstage => exact .clock ((hsame hlt).trans hcell) hjob hstage
  | source hcell hjob hstage hsource _ ih =>
    exact .source ((hsame hlt).trans hcell) hjob hstage hsource (ih (Nat.lt_trans hsource hlt))

/-! ## Asking -/

/-- The asker has taken a seat, and the pending value is started. -/
def seatedAt (waiter : Waiter) (pending : Nat) (own : Option Nat) (cell : PendingCell) (w : World) :
    Nat × World :=
  let (seat, waiters) := cell.waiters.sit own waiter
  (seat, (w.modifyPending pending fun cell => { cell with waiters }).noteStart pending cell)

/-- The seat that the pending value has at its source. -/
def Stage.seat? : Stage → Option Nat
  | .seated seat => some seat
  | _ => none

/-- Set the timer of a pending value that was not waiting for the clock before. -/
def startTimer (delay pending : Nat) (stage : Stage) (w : World) : World :=
  match stage with
  | .waiting _ => w
  | _ => w.setTimer delay (.pending pending)

/-- What asking does if there is no outcome yet. -/
theorem ask_open {waiter : Waiter} {own : Option Nat} {cell : PendingCell} {depth : Nat}
    (hcell : w.pendings[pending]? = some cell) (hdone : ∀ o, cell.stage ≠ .done o) :
    w.ask (depth + 1) waiter pending own =
      match cell.job with
      | .after delay _ body =>
        let r := w.seatedAt waiter pending own cell
        let deadline := cell.stage.deadline (w.clock + delay)
        if deadline ≤ w.clock then
          let r := r.2.conclude pending cell.label body
          (.ready r.1, r.2)
        else
          (.notYet r.1, (r.2.startTimer delay pending cell.stage).modifyPending pending fun cell =>
            { cell with stage := .waiting deadline })
      | .checking source =>
        let r := w.seatedAt waiter pending own cell
        match r.2.ask depth (.pending pending) source (Stage.seat? cell.stage) with
        | (.ready outcome, w) =>
          let r := w.conclude pending cell.label (checkedBody outcome)
          (.ready r.1, r.2)
        | (.notYet seat, w) =>
          (.notYet r.1, w.modifyPending pending fun cell => { cell with stage := .seated seat }) := by
  rw [ask, hcell]
  dsimp only
  obtain ⟨label, job, stage, waiters⟩ := cell
  cases stage with
  | done o => exact absurd rfl (hdone o)
  | waiting deadline =>
    cases job with
    | checking source =>
      dsimp only [seatedAt, noteStart, Stage.seat?]
      generalize ask _ _ _ _ _ = r
      obtain ⟨_ | _, _⟩ := r <;> rfl
    | after delay keeps body => rfl
  | unstarted | seated | gone =>
    cases job with
    | checking source =>
      dsimp only [seatedAt, noteStart, Stage.seat?]
      generalize ask _ _ _ _ _ = r
      obtain ⟨_ | _, _⟩ := r <;> rfl
    | after delay keeps body =>
      have hnow : (w.clock + delay ≤ w.clock) = (delay = 0) := propext (by omega)
      simp only [Stage.deadline, hnow]
      rfl

/-- A property of worlds that survives whatever asking does. -/
structure AskStable (P : World → Prop) : Prop where
  started : ∀ {w : World} (pending : Nat) (label : Option String), P w →
    P (w.note (.started pending label))
  seated : ∀ {w : World} (pending : Nat) (waiters : Seats), P w →
    P (w.modifyPending pending fun cell => { cell with waiters })
  staged : ∀ {w : World} (pending : Nat) (stage : Stage), (∀ outcome, stage ≠ .done outcome) →
    P w → P (w.modifyPending pending fun cell => { cell with stage })
  timer : ∀ {w : World} (delay : Nat) (waiter : Waiter), P w → P (w.setTimer delay waiter)
  concluded : ∀ {w : World} (pending : Nat) (label : Option String) (body : Action), P w →
    P (w.conclude pending label body).2

namespace AskStable

variable {P : World → Prop} (hP : AskStable P)

include hP

theorem seatedAt (h : P w) (waiter : Waiter) (pending : Nat) (own : Option Nat)
    (cell : PendingCell) : P (w.seatedAt waiter pending own cell).2 := by
  rw [World.seatedAt]
  dsimp only
  rw [noteStart]
  split
  · exact hP.started _ _ (hP.seated _ _ h)
  · exact hP.seated _ _ h

theorem startTimer (h : P w) (delay pending : Nat) (stage : Stage) :
    P (w.startTimer delay pending stage) := by
  rw [World.startTimer.eq_def]
  split
  · exact h
  · exact hP.timer _ _ h

/-- Asking survives, whatever chain of pending values it goes through. -/
theorem ask (h : P w) (depth : Nat) (waiter : Waiter) (pending : Nat) (own : Option Nat) :
    P (w.ask depth waiter pending own).2 := by
  induction depth generalizing waiter pending own w with
  | zero => exact h
  | succ depth ih =>
    cases hcell : w.pendings[pending]? with
    | none =>
      rw [World.ask, hcell]
      exact h
    | some cell =>
      by_cases hdone : ∃ outcome, cell.stage = .done outcome
      · obtain ⟨outcome, houtcome⟩ := hdone
        rw [World.ask, hcell]
        simp only [houtcome]
        exact h
      · rw [ask_open hcell fun outcome houtcome => hdone ⟨outcome, houtcome⟩]
        have hseated := hP.seatedAt h waiter pending own cell
        cases cell.job with
        | after delay keeps body =>
          dsimp only
          split
          · exact hP.concluded _ _ _ hseated
          · exact hP.staged _ _ nofun (hP.startTimer hseated ..)
        | checking source =>
          have hsource := ih hseated (.pending pending) source (Stage.seat? cell.stage)
          dsimp only
          split
          · rename_i outcome v hask
            rw [hask] at hsource
            exact hP.concluded _ _ _ hsource
          · rename_i seat v hask
            rw [hask] at hsource
            exact hP.staged _ _ nofun hsource

end AskStable

theorem noteStart_seen (pending : Nat) (cell : PendingCell) (w : World) :
    (w.noteStart pending cell).seen = w.seen.noteStart pending cell.seen := by
  obtain ⟨label, job, stage, waiters⟩ := cell
  cases stage <;> rfl

theorem seen_seatedAt (waiter : Waiter) (pending : Nat) (own : Option Nat) (cell : PendingCell)
    (w : World) :
    (w.seatedAt waiter pending own cell).2.seen = w.seen.noteStart pending cell.seen := by
  unfold seatedAt
  dsimp only
  rw [noteStart_seen, seen_modifyPending_hidden]
  exact fun _ => rfl

theorem timers_seatedAt (waiter : Waiter) (pending : Nat) (own : Option Nat) (cell : PendingCell)
    (w : World) : (w.seatedAt waiter pending own cell).2.timers = w.timers := by
  unfold seatedAt noteStart
  dsimp only
  split <;> rfl

theorem clock_seatedAt (waiter : Waiter) (pending : Nat) (own : Option Nat) (cell : PendingCell)
    (w : World) : (w.seatedAt waiter pending own cell).2.clock = w.clock := by
  rw [← seen_clock, seen_seatedAt]
  unfold noteStart
  split <;> rfl

theorem modifyPending_eq_self {f : PendingCell → PendingCell} (h : w.pendings[pending]? = none) :
    w.modifyPending pending f = w := by
  have hpendings : w.pendings.modify pending f = w.pendings := by
    refine Array.ext_getElem? fun n => ?_
    rw [Array.getElem?_modify]
    split
    · rename_i hn
      rw [← hn, h]
      rfl
    · rfl
  simp only [modifyPending, hpendings]

theorem seen_settle (pending : Nat) (o : Outcome) (w : World) :
    (w.settle pending o).seen =
      w.seen.modifyPending pending fun cell => { cell with stage := .done o } := by
  unfold settle
  cases hcell : w.pendings[pending]? with
  | none =>
    rw [modifyPending_eq_self (w := w.seen)]
    rw [seen_getElem?, hcell]
    rfl
  | some cell =>
    dsimp only
    rw [seen_foldl _ fun w waiter => seen_wake w waiter]
    refine seen_modifyPending w (fun c => ?_) pending
    rfl

theorem timers_settle (pending : Nat) (o : Outcome) (w : World) :
    (w.settle pending o).timers = w.timers := by
  unfold settle
  split
  · rfl
  · exact timers_foldl _ (fun w waiter => timers_wake w waiter) _

/-- To conclude is to finish, as far as can be seen. -/
theorem finish_seen (pending : Nat) (label : Option String) (body : Action) (w : World) :
    w.seen.finish pending label body =
      ((w.conclude pending label body).1, (w.conclude pending label body).2.seen) := by
  unfold finish conclude
  rw [← seen_note, Action.run_seen]
  exact congrArg _ (seen_settle ..).symm

theorem OnTime.settle (h : w.OnTime) (pending : Nat) (o : Outcome) :
    (w.settle pending o).OnTime := by
  intro n cell deadline hcell hstage
  rw [seen_settle, modifyPending, Array.getElem?_modify] at hcell
  have hclock : (w.settle pending o).clock = w.clock := by
    rw [← seen_clock, seen_settle]
    rfl
  rw [timers_settle, hclock]
  split at hcell
  · -- a pending value that is done waits for nothing
    obtain ⟨c, -, rfl⟩ := Option.map_eq_some_iff.mp hcell
    cases hstage
  · exact h n cell deadline hcell hstage

theorem OnTime.conclude (h : w.OnTime) (pending : Nat) (label : Option String) (body : Action) :
    (w.conclude pending label body).2.OnTime :=
  ((h.kept (kept_note _ w)).run body).settle pending _

/-- A stage that is set before the end does not matter in the end. -/
theorem finish_modify_stage (label : Option String) (body : Action) (stage : Stage)
    (h : pending < w.pendings.size) :
    (w.modifyPending pending fun cell => { cell with stage }).finish pending label body =
      w.finish pending label body := by
  have hnote : (w.modifyPending pending fun cell => { cell with stage }).note
      (.finished pending label) =
        (w.note (.finished pending label)).modifyPending pending fun cell => { cell with stage } := rfl
  simp only [finish, hnote, run_modify body _ (w := w.note (.finished pending label)) h,
    modifyPending_modifyPending]
  rfl

theorem outcome_open {cell : PendingCell} (hcell : w.pendings[pending]? = some cell)
    (hdone : ∀ o, cell.stage ≠ .done o) (depth : Nat) :
    w.seen.outcome (depth + 1) pending =
      match cell.job with
      | .after delay _ body =>
        some (((w.seen.noteStart pending cell.seen).sleepUntil
          (cell.stage.deadline (w.clock + delay))).finish pending cell.label body)
      | .checking source =>
        if source < pending then
          match (w.seen.noteStart pending cell.seen).outcome depth source with
          | none => none
          | some (outcome, v) => some (v.finish pending cell.label (checkedBody outcome))
        else
          none := by
  have hclock : (w.seen.noteStart pending cell.seen).clock = w.clock := by
    unfold noteStart
    split <;> rfl
  rw [outcome, seen_getElem?, hcell]
  obtain ⟨label, job, stage, waiters⟩ := cell
  cases stage with
  | done o => exact absurd rfl (hdone o)
  | _ =>
    simp only [Option.map_some, hclock]
    rfl

theorem lt_size_of_getElem? {cell : PendingCell} (h : w.pendings[pending]? = some cell) :
    pending < w.pendings.size := (Array.getElem?_eq_some_iff.mp h).1

theorem getElem?_modifyPending_self {cell : PendingCell} (f : PendingCell → PendingCell)
    (h : w.pendings[pending]? = some cell) :
    (w.modifyPending pending f).pendings[pending]? = some (f cell) := by
  rw [modifyPending, Array.getElem?_modify, if_pos rfl, h, Option.map_some]

theorem getElem?_noteStart (n : Nat) (cell : PendingCell) :
    (w.noteStart pending cell).pendings[n]? = w.pendings[n]? := by
  unfold noteStart
  split <;> rfl

/-- A stage that is set is on time if it waits for nothing or has its timer. -/
theorem OnTime.setStage (h : w.OnTime) (pending : Nat) (stage : Stage)
    (hstage : ∀ deadline, stage.seen = .waiting deadline →
      deadline ≤ w.clock ∨ deadline ∈ w.timers.map (·.deadline)) :
    (w.modifyPending pending fun cell => { cell with stage }).OnTime := by
  intro n cell deadline hcell hwaiting
  rw [seen_modifyPending w (g := fun cell => { cell with stage := stage.seen }) (fun _ => rfl),
    modifyPending, Array.getElem?_modify] at hcell
  split at hcell
  · obtain ⟨c, -, rfl⟩ := Option.map_eq_some_iff.mp hcell
    exact hstage deadline hwaiting
  · exact h n cell deadline hcell hwaiting

/-- What the answer says fits the reference: either it is the outcome, in the right world, or the
pending value hangs on a moment to come, with the same outcome still ahead. -/
def ComesTo (depth pending : Nat) (w : World) (r : Outcome × World) : Answer × World → Prop
  | (.ready o, v) => (o, v.seen) = r ∧ v.OnTime
  | (.notYet _, v) => v.OnTime ∧ (∃ deadline, v.clock < deadline ∧ v.seen.Hangs deadline pending) ∧
    v.seen.outcome depth pending = some r ∧
    ∀ later > pending, v.seen.pendings[later]? = w.seen.pendings[later]?

theorem seen_startTimer (delay pending : Nat) (stage : Stage) (w : World) :
    (w.startTimer delay pending stage).seen = w.seen := by
  unfold startTimer
  split <;> rfl

/-- Afterwards there is a timer for what is waited for, if time has to pass at all. -/
theorem OnTime.startTimer (h : w.OnTime) (delay : Nat) {cell : PendingCell}
    (hcell : w.seen.pendings[pending]? = some cell.seen) :
    (w.startTimer delay pending cell.stage).OnTime ∧
      (cell.stage.deadline (w.clock + delay) ≤ w.clock ∨
        cell.stage.deadline (w.clock + delay) ∈
          (w.startTimer delay pending cell.stage).timers.map (·.deadline)) := by
  cases hstage : cell.stage with
  | waiting deadline =>
    refine ⟨h, h pending cell.seen deadline hcell ?_⟩
    rw [PendingCell.seen, hstage]
    rfl
  | _ => exact ⟨h.setTimer delay _, .inr (w.mem_setTimer delay _)⟩

section Asking

variable {cell : PendingCell} {r : Outcome × World} {depth : Nat}

theorem OnTime.seatedAt (h : w.OnTime) (waiter : Waiter) (pending : Nat) (own : Option Nat)
    (cell : PendingCell) : (w.seatedAt waiter pending own cell).2.OnTime := by
  have hnote : (w.noteStart pending cell).OnTime := by
    unfold noteStart
    split
    · exact h.kept (kept_note _ w)
    · exact h
  refine hnote.congr ?_ ?_
  · rw [seen_seatedAt, noteStart_seen]
  · rw [timers_seatedAt]
    unfold noteStart
    split <;> rfl

/-- Asking a pending value that waits for the clock. -/
theorem comesTo_after (h : w.OnTime) (hcell : w.pendings[pending]? = some cell)
    (hdone : ∀ o, cell.stage ≠ .done o) {delay : Nat} {keeps : List Value} {body : Action}
    (hjob : cell.job = .after delay keeps body)
    (hr : w.seen.outcome (depth + 1) pending = some r) (waiter : Waiter) (own : Option Nat) :
    ComesTo (depth + 1) pending w r (w.ask (depth + 1) waiter pending own) := by
  rw [outcome_open hcell hdone, hjob] at hr
  dsimp only at hr
  rw [Option.some.injEq] at hr
  rw [ask_open hcell hdone, hjob]
  dsimp only
  have hv := h.seatedAt waiter pending own cell
  have hseen := seen_seatedAt waiter pending own cell w
  have htimers := timers_seatedAt waiter pending own cell w
  have hclock := clock_seatedAt waiter pending own cell w
  generalize w.seatedAt waiter pending own cell = seated at hv hseen htimers hclock
  obtain ⟨seat, v⟩ := seated
  dsimp only at hv hseen htimers hclock
  generalize hd : cell.stage.deadline (w.clock + delay) = deadline at hr
  rw [← hseen] at hr
  split
  · -- the moment has come
    rename_i hle
    have hsleep : v.seen.sleepUntil deadline = v.seen := by
      rw [sleepUntil, seen_clock, hclock, Nat.max_eq_left hle, ← hclock]
      rfl
    rw [hsleep, finish_seen] at hr
    exact ⟨hr, hv.conclude pending cell.label body⟩
  · rename_i hle
    have hvcell : v.seen.pendings[pending]? = some cell.seen := by
      rw [hseen, getElem?_noteStart, seen_getElem?, hcell, Option.map_some]
    have hsize : pending < (v.seen.sleepUntil deadline).pendings.size := lt_size_of_getElem? hvcell
    obtain ⟨htime, htimer⟩ := hv.startTimer delay hvcell
    rw [hclock, hd] at htimer
    have hstage : ((v.startTimer delay pending cell.stage).modifyPending pending fun cell =>
        { cell with stage := .waiting deadline }).seen =
          v.seen.modifyPending pending fun cell => { cell with stage := .waiting deadline } := by
      rw [seen_modifyPending _ (g := fun cell => { cell with stage := .waiting deadline })
        fun _ => rfl, seen_startTimer]
    have hself := getElem?_modifyPending_self (fun cell => { cell with stage := .waiting deadline })
      hvcell
    have hnow : (v.startTimer delay pending cell.stage).clock = w.clock := by
      rw [← hclock, ← seen_clock, seen_startTimer]
      rfl
    refine ⟨htime.setStage pending _ ?_, ⟨deadline, ?_, ?_⟩, ?_, ?_⟩
    · rintro d ⟨⟩
      rw [hnow]
      exact htimer
    · exact hnow ▸ Nat.lt_of_not_le hle
    · rw [hstage]
      exact .clock hself hjob rfl
    · rw [hstage, outcome, hself, ← hr]
      have hfinish := finish_modify_stage cell.label body (.waiting deadline) hsize
      simp only [PendingCell.seen, hjob, noteStart, Stage.deadline]
      exact congrArg some hfinish
    · intro later hlater
      rw [hstage, modifyPending, Array.getElem?_modify, if_neg (Nat.ne_of_lt hlater), hseen,
        getElem?_noteStart]

/-- Asking a pending value that waits for another one. -/
theorem comesTo_checking (h : w.OnTime) (hcell : w.pendings[pending]? = some cell)
    (hdone : ∀ o, cell.stage ≠ .done o) {source : Nat} (hjob : cell.job = .checking source)
    (hr : w.seen.outcome (depth + 1) pending = some r) (waiter : Waiter) (own : Option Nat)
    (ih : ∀ {v : World} {r : Outcome × World} (own : Option Nat), v.OnTime →
      v.seen.outcome depth source = some r →
      ComesTo depth source v r (v.ask depth (.pending pending) source own)) :
    ComesTo (depth + 1) pending w r (w.ask (depth + 1) waiter pending own) := by
  rw [outcome_open hcell hdone, hjob] at hr
  dsimp only at hr
  rw [ask_open hcell hdone, hjob]
  dsimp only
  have hv := h.seatedAt waiter pending own cell
  have hseen := seen_seatedAt waiter pending own cell w
  generalize w.seatedAt waiter pending own cell = seated at hv hseen
  obtain ⟨seat, v⟩ := seated
  dsimp only at hv hseen
  rw [← hseen] at hr
  split at hr
  · rename_i hlt
    split at hr
    · cases hr
    · rename_i o u ho
      rw [Option.some.injEq] at hr
      have hsource := ih (Stage.seat? cell.stage) hv ho
      generalize v.ask depth (.pending pending) source (Stage.seat? cell.stage) = answer at hsource
      obtain ⟨answer, t⟩ := answer
      cases answer with
      | ready o' =>
        obtain ⟨hsame, ht⟩ := hsource
        cases hsame
        rw [finish_seen] at hr
        exact ⟨hr, ht.conclude pending cell.label _⟩
      | notYet seat' =>
        obtain ⟨ht, ⟨deadline, hdeadline, hhangs⟩, hahead, hframe⟩ := hsource
        have htcell : t.seen.pendings[pending]? = some cell.seen := by
          rw [hframe pending hlt, hseen, getElem?_noteStart, seen_getElem?, hcell, Option.map_some]
        have hsize : pending < t.seen.pendings.size := lt_size_of_getElem? htcell
        have hstage : (t.modifyPending pending fun cell => { cell with stage := .seated seat' }).seen =
            t.seen.modifyPending pending fun cell => { cell with stage := .gone } := by
          refine seen_modifyPending t (fun c => ?_) pending
          rfl
        have hself := getElem?_modifyPending_self (fun cell => { cell with stage := .gone }) htcell
        obtain ⟨houtcome, hgrown⟩ := outcome_modify depth hlt
          (fun cell => { cell with stage := .gone }) hsize
        refine ⟨ht.setStage pending _ (fun _ h => by cases h), ⟨deadline, hdeadline, ?_⟩, ?_, ?_⟩
        · rw [hstage]
          exact .source hself hjob rfl hlt (hhangs.modify hlt _)
        · have hu : pending < u.pendings.size := Nat.lt_of_lt_of_le hsize (hgrown (o, u) hahead)
          have hfinish := finish_modify_stage cell.label (checkedBody o) .gone hu
          rw [hstage, outcome, hself, ← hr]
          simp only [PendingCell.seen, hjob, noteStart, if_pos hlt, houtcome, hahead,
            Option.map_some]
          exact congrArg some hfinish
        · intro later hlater
          rw [hstage, modifyPending, Array.getElem?_modify, if_neg (Nat.ne_of_lt hlater),
            hframe later (Nat.lt_trans hlt hlater), hseen, getElem?_noteStart]
  · cases hr

end Asking

/-- Whoever asks gets the outcome of the reference, or finds it still ahead. -/
theorem ask_comes_to {depth : Nat} {r : Outcome × World} (h : w.OnTime)
    (hr : w.seen.outcome depth pending = some r) (waiter : Waiter) (own : Option Nat) :
    ComesTo depth pending w r (w.ask depth waiter pending own) := by
  induction depth generalizing pending w r waiter own with
  | zero => cases hr
  | succ depth ih =>
    cases hc : w.pendings[pending]? with
    | none =>
      rw [outcome, seen_getElem?, hc] at hr
      cases hr
      rw [ask, hc]
      exact ⟨rfl, h⟩
    | some cell =>
      by_cases hdone : ∃ o, cell.stage = .done o
      · obtain ⟨o, ho⟩ := hdone
        rw [outcome, seen_getElem?, hc] at hr
        simp only [Option.map_some, PendingCell.seen, ho, Stage.seen, Option.some.injEq] at hr
        rw [ask, hc]
        simp only [ho]
        exact ⟨hr, h⟩
      · have hopen : ∀ o, cell.stage ≠ .done o := fun o ho => hdone ⟨o, ho⟩
        cases hjob : cell.job with
        | after delay keeps body => exact comesTo_after h hc hopen hjob hr waiter own
        | checking source =>
          exact comesTo_checking h hc hopen hjob hr waiter own fun own hv ho => ih hv ho _ own

/-! ## Asking again -/

/-- Nothing is seen of what happened, nobody was told, and no timer was set. -/
structure Unmoved (w v : World) : Prop where
  seen : v.seen = w.seen
  timers : v.timers = w.timers
  tasks : v.tasks = w.tasks

theorem Unmoved.trans {u v : World} (h : Unmoved w u) (h' : Unmoved u v) : Unmoved w v :=
  ⟨h'.seen.trans h.seen, h'.timers.trans h.timers, h'.tasks.trans h.tasks⟩

/-- A pending value that was started takes one more seat without more ado. -/
theorem unmoved_seatedAt {cell : PendingCell} (hstarted : cell.stage ≠ .unstarted) (waiter : Waiter)
    (own : Option Nat) : Unmoved w (w.seatedAt waiter pending own cell).2 := by
  have hsame : ∀ {c : PendingCell} {v : World}, c.stage ≠ .unstarted → v.noteStart pending c = v := by
    intro c v hc
    unfold noteStart
    split
    · rename_i h
      exact absurd h hc
    · rfl
  unfold seatedAt
  dsimp only
  rw [hsame hstarted]
  refine ⟨seen_modifyPending_hidden w (fun c => ?_) pending, rfl, rfl⟩
  rfl

/-- A stage that is what it was does not show. -/
theorem seen_setStage (cell : PendingCell) {stage : Stage}
    (hcell : w.seen.pendings[pending]? = some cell) (hstage : stage.seen = cell.stage) :
    (w.modifyPending pending fun cell => { cell with stage }).seen = w.seen := by
  rw [seen_modifyPending w (g := fun cell => { cell with stage := stage.seen }) fun _ => rfl]
  have hpendings : (w.seen.pendings.modify pending fun cell => { cell with stage := stage.seen }) =
      w.seen.pendings := by
    refine Array.ext_getElem? fun n => ?_
    rw [Array.getElem?_modify]
    split
    · rename_i hn
      rw [← hn, hcell, Option.map_some, hstage]
    · rfl
  simp only [modifyPending, hpendings]

/-- A pending value that hangs has its outcome ready once the moment has come, and before that it is
as if nobody had asked. -/
theorem Hangs.ask {r : World} (h : r.Hangs deadline pending) (hseen : w.seen = r) {depth : Nat}
    (hdepth : pending < depth) (waiter : Waiter) (own : Option Nat) :
    if deadline ≤ w.clock then ∃ o v, w.ask depth waiter pending own = (.ready o, v)
    else ∃ seat v, w.ask depth waiter pending own = (.notYet seat, v) ∧ Unmoved w v := by
  induction h generalizing depth w waiter own with
  | @clock pending cell delay keeps body hcell hjob hstage =>
    subst hseen
    rw [seen_getElem?, Option.map_eq_some_iff] at hcell
    obtain ⟨c, hc, rfl⟩ := hcell
    have hwaiting : c.stage = .waiting deadline := by
      cases hs : c.stage with
      | waiting d => simpa [PendingCell.seen, hs, Stage.seen] using hstage
      | _ => simp [PendingCell.seen, hs, Stage.seen] at hstage
    have hjob' : c.job = .after delay keeps body := hjob
    obtain ⟨depth, rfl⟩ := Nat.exists_eq_add_one_of_ne_zero (Nat.ne_of_gt (Nat.zero_lt_of_lt hdepth))
    have hmoment : c.stage.deadline (w.clock + delay) = deadline := by rw [hwaiting, Stage.deadline]
    rw [ask_open hc (by simp [hwaiting]), hjob']
    dsimp only
    rw [hmoment]
    by_cases hle : deadline ≤ w.clock
    · rw [if_pos hle, if_pos hle]
      exact ⟨_, _, rfl⟩
    · rw [if_neg hle, if_neg hle]
      have hstarted : c.stage ≠ .unstarted := by simp [hwaiting]
      have hseated : Unmoved w (w.seatedAt waiter pending own c).2 :=
        unmoved_seatedAt hstarted waiter own
      rw [hwaiting]
      refine ⟨_, _, rfl, hseated.trans ⟨?_, rfl, rfl⟩⟩
      refine seen_setStage c.seen ?_ hstage.symm
      rw [startTimer, hseated.seen, seen_getElem?, hc, Option.map_some]
  | @source pending source cell hcell hjob hstage hlt _ ih =>
    subst hseen
    rw [seen_getElem?, Option.map_eq_some_iff] at hcell
    obtain ⟨c, hc, rfl⟩ := hcell
    have hjob' : c.job = .checking source := hjob
    have hstarted : c.stage ≠ .unstarted := by
      intro hs
      simp [PendingCell.seen, hs, Stage.seen] at hstage
    have hopen : ∀ o, c.stage ≠ .done o := by
      intro o ho
      simp [PendingCell.seen, ho, Stage.seen] at hstage
    have hseated : Unmoved w (w.seatedAt waiter pending own c).2 :=
      unmoved_seatedAt hstarted waiter own
    have hnow : (w.seatedAt waiter pending own c).2.clock = w.clock := by
      rw [← seen_clock, hseated.seen]
      rfl
    obtain ⟨depth, rfl⟩ := Nat.exists_eq_add_one_of_ne_zero (Nat.ne_of_gt (Nat.zero_lt_of_lt hdepth))
    have hbelow : source < depth := by omega
    have hsource := ih hseated.seen hbelow (.pending pending)
      (Stage.seat? c.stage)
    rw [hnow] at hsource
    rw [ask_open hc hopen, hjob']
    dsimp only
    by_cases hle : deadline ≤ w.clock
    · rw [if_pos hle] at hsource ⊢
      obtain ⟨o, v, hask⟩ := hsource
      rw [hask]
      exact ⟨_, _, rfl⟩
    · rw [if_neg hle] at hsource ⊢
      obtain ⟨seat, v, hask, hv⟩ := hsource
      rw [hask]
      refine ⟨_, _, rfl, hseated.trans (hv.trans ⟨?_, rfl, rfl⟩)⟩
      refine seen_setStage c.seen ?_ hstage.symm
      rw [hv.seen, hseated.seen, seen_getElem?, hc, Option.map_some]

end TaggedMarkup.World
