import TaggedMarkup.Proofs.Host.Telling
import TaggedMarkup.Proofs.Render.Calm
import TaggedMarkup.Proofs.Render.Checks

/-!
# Who sits where

A task that waits at a pending value holds a **seat** there, and so does a pending value that waits for
another one. The seat stays its own when it is told, until it gives it up. The books of a world are
**balanced** if no seat is held twice or given away while it is held, and if whoever still has to be told is
going to be: some timer tells the pending value where it sits, or another pending value at which that one
sits in turn.

So as long as anybody has to be told, there is a timer (`Balanced.timers_ne_nil`).
-/

namespace TaggedMarkup

namespace Seats

/-- Somebody takes a seat: its own, or one that nobody has. -/
structure Takes (s : Seats) (own : Option Nat) (waiter : Waiter) (seat : Nat) (s' : Seats) : Prop where
  taken : s'.seats[seat]? = some (some waiter)
  others : ∀ n, n ≠ seat → s'.seats[n]? = s.seats[n]?
  vacant : s'.vacant.Sublist s.vacant
  held : seat ∉ s'.vacant
  free : own = some seat ∨ seat ∈ s.vacant ∨ s.seats[seat]? = none

theorem takes_sit {s : Seats} {own : Option Nat} (waiter : Waiter) (hnodup : s.vacant.Nodup)
    (hvacant : ∀ n ∈ s.vacant, s.seats[n]? = some none)
    (hown : ∀ n, own = some n → (∃ x, s.seats[n]? = some x) ∧ n ∉ s.vacant) :
    s.Takes own waiter (s.sit own waiter).1 (s.sit own waiter).2 := by
  have hset : ∀ {n m : Nat} {x : Option Waiter}, s.seats[n]? = some x →
      (s.seats.set n (some waiter))[n]? = some (some waiter) ∧
        (m ≠ n → (s.seats.set n (some waiter))[m]? = s.seats[m]?) := by
    intro n m x hn
    have hlt := (List.getElem?_eq_some_iff.mp hn).1
    refine ⟨by rw [List.getElem?_set_self hlt], fun hne => ?_⟩
    rw [List.getElem?_set_ne (Ne.symm hne)]
  cases own with
  | some n =>
    obtain ⟨⟨x, hx⟩, hheld⟩ := hown n rfl
    exact ⟨(hset (m := n) hx).1, fun m hm => (hset hx).2 hm, .refl _, hheld, .inl rfl⟩
  | none =>
    cases hs : s.vacant with
    | nil =>
      have hsit : s.sit none waiter =
          (s.seats.length, { s with seats := s.seats ++ [some waiter] }) := by
        simp only [sit, hs]
      rw [hsit]
      refine ⟨?_, fun m hm => ?_, .refl _, by simp [hs], .inr (.inr ?_)⟩
      · exact List.getElem?_concat_length
      · rcases Nat.lt_or_gt_of_ne hm with hlt | hgt
        · exact List.getElem?_append_left hlt
        · have hlength : (s.seats ++ [some waiter]).length ≤ m := by
            rw [List.length_append, List.length_singleton]
            exact hgt
          rw [List.getElem?_eq_none (Nat.le_of_lt hgt)]
          exact List.getElem?_eq_none hlength
      · exact List.getElem?_eq_none (Nat.le_refl _)
    | cons n rest =>
      have hsit : s.sit none waiter = (n, { seats := s.seats.set n (some waiter), vacant := rest }) := by
        simp only [sit, hs]
      have hn := hvacant n (hs ▸ List.mem_cons_self)
      rw [hs] at hnodup
      rw [hsit]
      exact ⟨(hset (m := n) hn).1, fun m hm => (hset hn).2 hm, hs ▸ List.sublist_cons_self _ _,
        (List.nodup_cons.mp hnodup).1, .inr (.inl (hs ▸ List.mem_cons_self))⟩

end Seats

/-- The pending value was asked, and will come to its outcome or has come to it. -/
def Stage.isUnderWay (job : Job) (stage : Stage) : Bool :=
  match job, stage with
  | _, done _ | .after .., waiting _ | .checking _, seated _ => true
  | _, _ => false

/-- The seats that tasks hold. -/
abbrev Seating := Nat → Option (Nat × Nat)

namespace World

/-- What a pending value does and how far it has come. -/
def stateAt (pending : Nat) (w : World) : Option (Job × Stage) :=
  w.pendings[pending]?.map fun cell => (cell.job, cell.stage)

/-- The waiter holds this seat at a pending value. -/
def Holds (w : World) (σ : Seating) : Waiter → Nat → Nat → Prop
  | .task task, pending, seat => σ task = some (pending, seat)
  | .pending later, pending, seat => w.stateAt later = some (.checking pending, .seated seat)

/-- Somebody is going to tell the pending value. -/
def Expects (w : World) (pending : Nat) : Prop :=
  (∃ deadline, ⟨deadline, .pending pending⟩ ∈ w.timers) ∨
    ∃ source seat, w.Untold source seat (.pending pending)

/-- The books are balanced, while the tasks hold these seats, but for the pending values in `E`, which
may still have to see that they are told. -/
structure Balanced (w : World) (σ : Seating) (E : Nat → Prop) : Prop where
  rooted : w.Rooted
  forward : w.Forward
  recent : ∀ (n : Nat) (frame : WindowCell), w.windows[n]? = some frame →
    frame.recent.Nodup ∧ (∀ task ∈ frame.recent, task < w.tasks.size) ∧
      ∀ task ∈ frame.queue, task < w.tasks.size
  onTime : ∀ (n : Nat) (job : Job) (deadline : Nat), w.stateAt n = some (job, .waiting deadline) →
    deadline ≤ w.clock ∨ ⟨deadline, .pending n⟩ ∈ w.timers
  underWay : ∀ waiter n seat, w.Holds σ waiter n seat →
    ∃ job stage, w.stateAt n = some (job, stage) ∧ Stage.isUnderWay job stage = true
  vacant : ∀ n, (w.seatsAt n).vacant.Nodup ∧
    ∀ seat ∈ (w.seatsAt n).vacant, (w.seatsAt n).seats[seat]? = some none
  sits : ∀ waiter n seat, w.Holds σ waiter n seat → w.peek n = none →
    (∃ x, (w.seatsAt n).seats[seat]? = some x) ∧ seat ∉ (w.seatsAt n).vacant
  alone : ∀ waiter other n seat, w.Holds σ waiter n seat → w.Holds σ other n seat → waiter = other
  own : ∀ waiter other n seat, w.Holds σ waiter n seat → w.Untold n seat other → other = waiter
  expects : ∀ n, ¬E n → w.Told (.pending n) ∨ w.Expects n

variable {w v u : World} {σ : Seating} {E : Nat → Prop}

theorem stateAt_of_getElem? {pending : Nat} {cell : PendingCell} (h : w.pendings[pending]? = some cell) :
    w.stateAt pending = some (cell.job, cell.stage) := by
  rw [stateAt, h, Option.map_some]

theorem seatsAt_of_getElem? {pending : Nat} {cell : PendingCell} (h : w.pendings[pending]? = some cell) :
    w.seatsAt pending = cell.waiters := by
  rw [seatsAt, h]

theorem peek_of_stateAt {pending : Nat} {job : Job} {stage : Stage}
    (h : w.stateAt pending = some (job, stage)) : w.peek pending = stage.outcome? := by
  obtain ⟨cell, hcell, hstate⟩ := Option.map_eq_some_iff.mp h
  cases hstate
  exact peek_of_getElem? hcell

/-- Outcomes are part of the state. -/
theorem peek_congr {n : Nat} (h : v.stateAt n = w.stateAt n) : v.peek n = w.peek n := by
  cases hw : w.stateAt n with
  | some state =>
    obtain ⟨job, stage⟩ := state
    rw [peek_of_stateAt (h.trans hw), peek_of_stateAt hw]
  | none =>
    rw [hw] at h
    rw [peek, peek, Option.map_eq_none_iff.mp h, Option.map_eq_none_iff.mp hw]

theorem holds_congr (h : ∀ n, v.stateAt n = w.stateAt n) {waiter : Waiter} {n seat : Nat} :
    v.Holds σ waiter n seat ↔ w.Holds σ waiter n seat := by
  cases waiter with
  | task task => exact Iff.rfl
  | pending later => rw [Holds, Holds, h]

theorem untold_congr {n : Nat} (h : v.seatsAt n = w.seatsAt n) {seat : Nat} {waiter : Waiter} :
    v.Untold n seat waiter ↔ w.Untold n seat waiter := by
  rw [Untold, Untold, h]

namespace Balanced

theorem mono (h : w.Balanced σ E) {E' : Nat → Prop} (hE : ∀ n, E n → E' n) : w.Balanced σ E' :=
  { h with expects := fun n hn => h.expects n fun hE' => hn (hE n hE') }

/-- As long as somebody has to be told, there is a timer. -/
theorem timers_ne_nil (h : w.Balanced σ fun _ => False) {n seat : Nat} {waiter : Waiter}
    (huntold : w.Untold n seat waiter) : w.timers ≠ [] := by
  induction n using Nat.strong_induction_on generalizing seat waiter with
  | _ n ih =>
    rcases h.expects n id with htold | ⟨deadline, htimer⟩ | ⟨source, seat', hsource⟩
    · exact absurd huntold (htold seat waiter)
    · exact List.ne_nil_of_mem htimer
    · exact ih source (h.forward source seat' n hsource) hsource

end Balanced

/-! ## Telling -/

theorem Tells.stateAt (h : Tells w v) (n : Nat) : v.stateAt n = w.stateAt n := by
  unfold World.stateAt
  cases hw : w.pendings[n]? with
  | none => rw [(h.pending n).eq_none hw]
  | some c =>
    obtain ⟨c', hc', heased⟩ := (h.pending n).exists_some hw
    rw [hc', Option.map_some, Option.map_some, heased.job, heased.stage]

theorem Tells.vacant (h : Tells w v) (n : Nat) : (v.seatsAt n).vacant = (w.seatsAt n).vacant := by
  cases hw : w.pendings[n]? with
  | none => rw [seatsAt, seatsAt, (h.pending n).eq_none hw, hw]
  | some c =>
    obtain ⟨c', hc', heased⟩ := (h.pending n).exists_some hw
    rw [seatsAt_of_getElem? hw, seatsAt_of_getElem? hc', heased.vacant]

theorem Tells.length (h : Tells w v) (n : Nat) :
    (v.seatsAt n).seats.length = (w.seatsAt n).seats.length := by
  cases hw : w.pendings[n]? with
  | none => rw [seatsAt, seatsAt, (h.pending n).eq_none hw, hw]
  | some c =>
    obtain ⟨c', hc', heased⟩ := (h.pending n).exists_some hw
    rw [seatsAt_of_getElem? hw, seatsAt_of_getElem? hc', heased.length]

theorem Tells.expects (h : Tells w v) {n : Nat} (hn : w.Expects n) : v.Told (.pending n) ∨ v.Expects n := by
  rcases hn with htimer | ⟨source, seat, huntold⟩
  · exact .inr (.inl (h.timers ▸ htimer))
  · rcases h.untold source seat _ huntold with hstill | htold
    · exact .inr (.inr ⟨source, seat, hstill⟩)
    · exact .inl htold

theorem Balanced.tells (h : w.Balanced σ E) (htells : Tells w v) (hcalm : Calm w v) : v.Balanced σ E where
  rooted := htells.rooted h.rooted
  forward := htells.forward h.forward
  recent n frame hframe := by
    obtain ⟨frame', hframe', hjoined⟩ := (htells.window n).some_exists hframe
    obtain ⟨hnodup, hrecent, hqueue⟩ := h.recent n frame' hframe'
    rw [hjoined.recent]
    refine ⟨hnodup, fun task htask => htells.size_tasks ▸ hrecent task htask, ?_⟩
    have hwaits : w.Waits n [] := ⟨⟨frame', hframe', by simp, hqueue⟩, nofun⟩
    obtain ⟨frame'', hframe'', -, hqueue'⟩ := (hcalm.waits hwaits).queue
    cases hframe.symm.trans hframe''
    exact hqueue'
  onTime n job deadline hstate := by
    rw [htells.stateAt] at hstate
    rw [htells.timers, clock_of_seen htells.seen]
    exact h.onTime n job deadline hstate
  underWay waiter n seat hholds := by
    rw [htells.stateAt]
    exact h.underWay waiter n seat ((holds_congr htells.stateAt).mp hholds)
  vacant n := by
    refine ⟨htells.vacant n ▸ (h.vacant n).1, fun seat hseat => ?_⟩
    rw [htells.vacant] at hseat
    have hnone := (h.vacant n).2 seat hseat
    have hlt := (List.getElem?_eq_some_iff.mp hnone).1
    rw [← htells.length] at hlt
    have hsome := List.getElem?_eq_getElem hlt
    cases hx : (v.seatsAt n).seats[seat] with
    | none => rw [hsome, hx]
    | some waiter =>
      have huntold : w.Untold n seat waiter := htells.of_untold (hsome.trans (congrArg some hx))
      cases hnone.symm.trans huntold
  sits waiter n seat hholds hpeek := by
    have hw := h.sits waiter n seat ((holds_congr htells.stateAt).mp hholds)
      ((peek_congr (htells.stateAt n)).symm.trans hpeek)
    obtain ⟨⟨x, hx⟩, hvacant⟩ := hw
    have hlt := (List.getElem?_eq_some_iff.mp hx).1
    rw [← htells.length] at hlt
    exact ⟨⟨_, List.getElem?_eq_getElem hlt⟩, by rwa [htells.vacant]⟩
  alone waiter other n seat hholds hother := h.alone waiter other n seat
    ((holds_congr htells.stateAt).mp hholds) ((holds_congr htells.stateAt).mp hother)
  own waiter other n seat hholds huntold := h.own waiter other n seat
    ((holds_congr htells.stateAt).mp hholds) (htells.of_untold huntold)
  expects n hn := (h.expects n hn).elim (fun htold => .inl (htells.told htold)) htells.expects

/-! ## The world grows -/

/-- There is more, and what there was is as it was. -/
structure Extends (w v : World) : Prop where
  clock : v.clock = w.clock
  timers : ∀ timer ∈ w.timers, timer ∈ v.timers
  tasks : v.tasks = w.tasks
  pending : ∀ (n : Nat) (cell : PendingCell), w.pendings[n]? = some cell → v.pendings[n]? = some cell
  fresh : ∀ (n : Nat) (cell : PendingCell), v.pendings[n]? = some cell →
    w.pendings[n]? = some cell ∨ w.pendings[n]? = none ∧ cell.stage = .unstarted ∧ cell.waiters = {}
  window : ∀ (n : Nat) (frame : WindowCell), w.windows[n]? = some frame → v.windows[n]? = some frame
  opened : ∀ (n : Nat) (frame : WindowCell), v.windows[n]? = some frame →
    w.windows[n]? = some frame ∨ frame.recent = [] ∧ frame.queue = []

namespace Extends

theorem refl (w : World) : Extends w w :=
  ⟨rfl, fun _ h => h, rfl, fun _ _ h => h, fun _ _ h => .inl h, fun _ _ h => h, fun _ _ h => .inl h⟩

theorem trans (h : Extends w v) (h' : Extends v u) : Extends w u where
  clock := h'.clock.trans h.clock
  timers timer htimer := h'.timers timer (h.timers timer htimer)
  tasks := h'.tasks.trans h.tasks
  pending n cell hcell := h'.pending n cell (h.pending n cell hcell)
  fresh n cell hcell := by
    rcases h'.fresh n cell hcell with hold | ⟨hnone, hfresh⟩
    · exact h.fresh n cell hold
    · refine .inr ⟨?_, hfresh⟩
      cases hw : w.pendings[n]? with
      | none => rfl
      | some c =>
        rw [h.pending n c hw] at hnone
        cases hnone
  window n frame hframe := h'.window n frame (h.window n frame hframe)
  opened n frame hframe := (h'.opened n frame hframe).elim (h.opened n frame) .inr

/-- What concerns neither pending values nor tasks nor timers. -/
theorem of_eq (hclock : v.clock = w.clock) (htimers : v.timers = w.timers) (htasks : v.tasks = w.tasks)
    (hpendings : v.pendings = w.pendings) (hwindows : v.windows = w.windows) : Extends w v :=
  ⟨hclock, fun _ h => htimers ▸ h, htasks, fun _ _ h => hpendings ▸ h,
    fun _ _ h => .inl (hpendings ▸ h), fun _ _ h => hwindows ▸ h, fun _ _ h => .inl (hwindows ▸ h)⟩

theorem note (event : Event) (w : World) : Extends w (w.note event) := .of_eq rfl rfl rfl rfl rfl

theorem setTimer (delay : Nat) (waiter : Waiter) (w : World) : Extends w (w.setTimer delay waiter) :=
  { refl w with timers := fun _ h => List.mem_append_left _ h }

theorem newPending (label : Option String) (job : Job) (w : World) :
    Extends w (w.newPending { label, job }).2 :=
  { refl w with
    pending := fun n cell hcell => by
      have hlt := (Array.getElem?_eq_some_iff.mp hcell).1
      rw [World.newPending, Array.getElem?_push, if_neg (Nat.ne_of_lt hlt)]
      exact hcell
    fresh := fun n cell hcell => by
      rw [World.newPending, Array.getElem?_push] at hcell
      split at hcell
      · rename_i hn
        cases hcell
        exact .inr ⟨Array.getElem?_eq_none (Nat.le_of_eq hn.symm), rfl, rfl⟩
      · exact .inl hcell }

theorem newWindow (owner : Nat) (w : World) : Extends w (w.newWindow owner).2 :=
  { refl w with
    window := fun n frame hframe => by
      have hlt := (Array.getElem?_eq_some_iff.mp hframe).1
      rw [World.newWindow, Array.getElem?_push, if_neg (Nat.ne_of_lt hlt)]
      exact hframe
    opened := fun n frame hframe => by
      rw [World.newWindow, Array.getElem?_push] at hframe
      split at hframe
      · cases hframe
        exact .inr ⟨rfl, rfl⟩
      · exact .inl hframe }

theorem run (a : Action) (w : World) : Extends w (a.run w).2 := by
  refine a.run_stable (P := Extends w) ⟨?_, ?_, ?_, ?_, ?_⟩ (.refl w)
  · exact fun _ _ h => h.trans (.of_eq rfl rfl rfl rfl rfl)
  · exact fun _ h => h.trans (.note _ _)
  · exact fun _ _ h => h.trans (.of_eq rfl rfl rfl rfl rfl)
  · exact fun label job h => h.trans (.newPending label job _)
  · exact fun _ _ h => h.trans (.of_eq rfl rfl rfl rfl rfl)

theorem callComponent (component : Component) (props : Props) (children : List Value) (w : World) :
    Extends w (w.callComponent component props children).2 := by
  unfold World.callComponent
  split
  · exact (note _ w).trans (run _ _)
  · exact .refl w

theorem seatsAt (h : Extends w v) {n : Nat} {cell : PendingCell} (hcell : w.pendings[n]? = some cell) :
    v.seatsAt n = w.seatsAt n := by
  rw [seatsAt_of_getElem? hcell, seatsAt_of_getElem? (h.pending n cell hcell)]

/-- A pending value that is new has no seats taken yet. -/
theorem seatsAt_eq (h : Extends w v) (n : Nat) : v.seatsAt n = w.seatsAt n := by
  cases hv : v.pendings[n]? with
  | none =>
    have hw : w.pendings[n]? = none := by
      cases hw : w.pendings[n]? with
      | none => rfl
      | some c =>
        rw [h.pending n c hw] at hv
        cases hv
    rw [World.seatsAt, World.seatsAt, hv, hw]
  | some c =>
    rcases h.fresh n c hv with hw | ⟨hw, -, hwaiters⟩
    · exact h.seatsAt hw
    · rw [seatsAt_of_getElem? hv, World.seatsAt, hw, hwaiters]

theorem untold (h : Extends w v) {n seat : Nat} {waiter : Waiter} :
    v.Untold n seat waiter ↔ w.Untold n seat waiter := untold_congr (h.seatsAt_eq n)

theorem stateAt (h : Extends w v) {n : Nat} {state : Job × Stage} (hstate : w.stateAt n = some state) :
    v.stateAt n = some state := by
  obtain ⟨c, hc, rfl⟩ := Option.map_eq_some_iff.mp hstate
  exact stateAt_of_getElem? (h.pending n c hc)

/-- What is under way was there before. -/
theorem of_stateAt (h : Extends w v) {n : Nat} {job : Job} {stage : Stage}
    (hstate : v.stateAt n = some (job, stage)) (hstage : stage ≠ .unstarted) :
    w.stateAt n = some (job, stage) := by
  obtain ⟨c, hc, hstate⟩ := Option.map_eq_some_iff.mp hstate
  cases hstate
  rcases h.fresh n c hc with hw | ⟨-, hfresh, -⟩
  · exact stateAt_of_getElem? hw
  · exact absurd hfresh hstage

theorem holds (h : Extends w v) {waiter : Waiter} {n seat : Nat} (hholds : v.Holds σ waiter n seat) :
    w.Holds σ waiter n seat := by
  cases waiter with
  | task task => exact hholds
  | pending later => exact h.of_stateAt hholds nofun

end Extends

theorem Balanced.extends (h : w.Balanced σ E) (hv : Extends w v) : v.Balanced σ E where
  rooted task cell window hcell hwindow := by
    rw [hv.tasks] at hcell
    obtain ⟨frame, hframe, hlt⟩ := h.rooted task cell window hcell hwindow
    exact ⟨frame, hv.window window frame hframe, hlt⟩
  forward n seat later huntold := h.forward n seat later (hv.untold.mp huntold)
  recent n frame hframe := by
    rw [hv.tasks]
    rcases hv.opened n frame hframe with hold | ⟨hrecent, hqueue⟩
    · exact h.recent n frame hold
    · rw [hrecent, hqueue]
      exact ⟨List.nodup_nil, nofun, nofun⟩
  onTime n job deadline hstate := by
    rw [hv.clock]
    exact (h.onTime n job deadline (hv.of_stateAt hstate nofun)).imp id (hv.timers _)
  underWay waiter n seat hholds := by
    obtain ⟨job, stage, hstate, hlive⟩ := h.underWay waiter n seat (hv.holds hholds)
    exact ⟨job, stage, hv.stateAt hstate, hlive⟩
  vacant n := by
    rw [hv.seatsAt_eq]
    exact h.vacant n
  sits waiter n seat hholds hpeek := by
    rw [hv.seatsAt_eq]
    obtain ⟨job, stage, hstate, -⟩ := h.underWay waiter n seat (hv.holds hholds)
    refine h.sits waiter n seat (hv.holds hholds) ?_
    rw [peek_of_stateAt hstate, ← peek_of_stateAt (hv.stateAt hstate)]
    exact hpeek
  alone waiter other n seat hholds hother :=
    h.alone waiter other n seat (hv.holds hholds) (hv.holds hother)
  own waiter other n seat hholds huntold :=
    h.own waiter other n seat (hv.holds hholds) (hv.untold.mp huntold)
  expects n hn := by
    refine (h.expects n hn).imp (fun htold seat waiter huntold => ?_) fun hexpects => ?_
    · exact htold seat waiter (hv.untold.mp huntold)
    · rcases hexpects with ⟨deadline, htimer⟩ | ⟨source, seat, huntold⟩
      · exact .inl ⟨deadline, hv.timers _ htimer⟩
      · exact .inr ⟨source, seat, hv.untold.mpr huntold⟩

end World

end TaggedMarkup
