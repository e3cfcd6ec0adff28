import TaggedMarkup.Proofs.Host.Respecting

/-!
# Whoever asks is told

Asking a pending value for its outcome either gets the outcome, or leaves the asker in a seat where it is
going to be told (`World.Balanced.await`). Nobody else loses anything by it, and asking again while nothing
has come of it leaves everything as it was but the seat.
-/

namespace TaggedMarkup.World

variable {w v u x : World} {σ : Seating} {E : Nat → Prop} {pending : Nat}

/-! ## Sitting down -/

/-- The waiter has a seat where it is still to be told, and nobody else has it. -/
structure Sits (w : World) (σ : Seating) (waiter : Waiter) (pending seat : Nat) : Prop where
  untold : w.Untold pending seat waiter
  held : seat ∉ (w.seatsAt pending).vacant
  alone : ∀ other, w.Holds σ other pending seat → other = waiter

/-- From one world to the other one, the seats at one pending value changed, and what is written down. -/
structure Reseats (w v : World) (pending : Nat) (seats : Seats) : Prop where
  clock : v.clock = w.clock
  timers : v.timers = w.timers
  tasks : v.tasks = w.tasks
  windows : v.windows = w.windows
  stateAt : ∀ n, v.stateAt n = w.stateAt n
  self : v.seatsAt pending = seats
  others : ∀ n, n ≠ pending → v.seatsAt n = w.seatsAt n

namespace Reseats

variable {seats : Seats} {own : Option Nat} {waiter : Waiter} {seat : Nat}

/-- Nobody else has been in the seat. -/
theorem untold (h : Reseats w v pending seats) (htakes : (w.seatsAt pending).Takes own waiter seat seats)
    (hfree : ∀ other, w.Untold pending seat other → other = waiter) {n s : Nat} {other : Waiter}
    (huntold : w.Untold n s other) : v.Untold n s other := by
  by_cases hn : n = pending
  · subst hn
    rw [Untold, h.self]
    by_cases hs : s = seat
    · subst hs
      rw [hfree other huntold]
      exact htakes.taken
    · rw [htakes.others s hs]
      exact huntold
  · exact (untold_congr (h.others n hn)).mpr huntold

theorem of_untold (h : Reseats w v pending seats)
    (htakes : (w.seatsAt pending).Takes own waiter seat seats) {n s : Nat} {other : Waiter}
    (huntold : v.Untold n s other) : w.Untold n s other ∨ n = pending ∧ s = seat ∧ other = waiter := by
  by_cases hn : n = pending
  · subst hn
    rw [Untold, h.self] at huntold
    by_cases hs : s = seat
    · subst hs
      rw [htakes.taken] at huntold
      cases huntold
      exact .inr ⟨rfl, rfl, rfl⟩
    · rw [htakes.others s hs] at huntold
      exact .inl huntold
  · exact .inl ((untold_congr (h.others n hn)).mp huntold)

end Reseats

theorem Balanced.takes {own : Option Nat} {waiter : Waiter} (h : w.Balanced σ E)
    (hopen : w.peek pending = none) (hown : ∀ seat, own = some seat → w.Holds σ waiter pending seat) :
    (w.seatsAt pending).Takes own waiter ((w.seatsAt pending).sit own waiter).1
      ((w.seatsAt pending).sit own waiter).2 :=
  Seats.takes_sit waiter (h.vacant pending).1 (h.vacant pending).2 fun seat hseat =>
    h.sits waiter pending seat (hown seat hseat) hopen

/-- Nobody else has, or had, the seat that is taken. -/
theorem Balanced.free {own : Option Nat} {waiter : Waiter} {seat : Nat} {seats : Seats}
    (h : w.Balanced σ E) (hopen : w.peek pending = none)
    (hown : ∀ seat, own = some seat → w.Holds σ waiter pending seat)
    (htakes : (w.seatsAt pending).Takes own waiter seat seats) :
    (∀ other, w.Untold pending seat other → other = waiter) ∧
      ∀ other, w.Holds σ other pending seat → other = waiter := by
  rcases htakes.free with hsame | hvacant | hnone
  · exact ⟨fun other huntold => h.own waiter other pending seat (hown seat hsame) huntold,
      fun other hholds => h.alone other waiter pending seat hholds (hown seat hsame)⟩
  · refine ⟨fun other huntold => ?_, fun other hholds => ?_⟩
    · cases ((h.vacant pending).2 seat hvacant).symm.trans huntold
    · exact absurd hvacant (h.sits other pending seat hholds hopen).2
  · refine ⟨fun other huntold => ?_, fun other hholds => ?_⟩
    · cases hnone.symm.trans huntold
    · obtain ⟨x, hx⟩ := (h.sits other pending seat hholds hopen).1
      cases hnone.symm.trans hx

theorem Balanced.reseats {own : Option Nat} {waiter : Waiter} {seat : Nat} {seats : Seats}
    (h : w.Balanced σ E) (hopen : w.peek pending = none)
    (hown : ∀ seat, own = some seat → w.Holds σ waiter pending seat)
    (hlater : ∀ later, waiter = .pending later → pending < later)
    (htakes : (w.seatsAt pending).Takes own waiter seat seats) (hv : Reseats w v pending seats) :
    v.Balanced σ (fun n => n = pending ∨ E n) ∧ v.Sits σ waiter pending seat := by
  obtain ⟨hfree, halone⟩ := h.free hopen hown htakes
  have hholds : ∀ {other : Waiter} {n s : Nat}, v.Holds σ other n s → w.Holds σ other n s :=
    fun hother => (holds_congr hv.stateAt).mp hother
  refine ⟨⟨?_, ?_, ?_, ?_, ?_, ?_, ?_, ?_, ?_, ?_⟩, ⟨?_, ?_, ?_⟩⟩
  · intro task cell window hcell hwindow
    rw [hv.tasks] at hcell
    rw [hv.windows]
    exact h.rooted task cell window hcell hwindow
  · intro n s later huntold
    rcases hv.of_untold htakes huntold with hold | ⟨rfl, -, hnew⟩
    · exact h.forward n s later hold
    · exact hlater later hnew.symm
  · rw [hv.windows, hv.tasks]
    exact h.recent
  · intro n job deadline hstate
    rw [hv.stateAt] at hstate
    rw [hv.clock, hv.timers]
    exact h.onTime n job deadline hstate
  · intro other n s hother
    rw [hv.stateAt]
    exact h.underWay other n s (hholds hother)
  · intro n
    by_cases hn : n = pending
    · subst hn
      rw [hv.self]
      refine ⟨(h.vacant n).1.sublist htakes.vacant, fun s hs => ?_⟩
      have hne : s ≠ seat := fun heq => htakes.held (heq ▸ hs)
      rw [htakes.others s hne]
      exact (h.vacant n).2 s (htakes.vacant.subset hs)
    · rw [hv.others n hn]
      exact h.vacant n
  · intro other n s hother hpeek
    rw [peek_congr (hv.stateAt n)] at hpeek
    obtain ⟨⟨x, hx⟩, hheld⟩ := h.sits other n s (hholds hother) hpeek
    by_cases hn : n = pending
    · subst hn
      rw [hv.self]
      refine ⟨?_, fun hs => hheld (htakes.vacant.subset hs)⟩
      by_cases hs : s = seat
      · exact ⟨_, hs ▸ htakes.taken⟩
      · exact ⟨x, (htakes.others s hs).trans hx⟩
    · rw [hv.others n hn]
      exact ⟨⟨x, hx⟩, hheld⟩
  · exact fun one other n s hone hother => h.alone one other n s (hholds hone) (hholds hother)
  · intro holder other n s hholder huntold
    rcases hv.of_untold htakes huntold with hold | ⟨rfl, rfl, rfl⟩
    · exact h.own holder other n s (hholds hholder) hold
    · exact (halone holder (hholds hholder)).symm
  · intro n hn
    rw [not_or] at hn
    refine (h.expects n hn.2).imp (fun htold s other huntold => ?_) fun hexpects => ?_
    · rcases hv.of_untold htakes huntold with hold | ⟨heq, -⟩
      · exact htold s other hold
      · exact hn.1 heq
    · rcases hexpects with ⟨deadline, htimer⟩ | ⟨source, s, huntold⟩
      · exact .inl ⟨deadline, hv.timers ▸ htimer⟩
      · exact .inr ⟨source, s, hv.untold htakes hfree huntold⟩
  · rw [Untold, hv.self]
    exact htakes.taken
  · rw [hv.self]
    exact htakes.held
  · exact fun other hother => halone other (hholds hother)

theorem Reseats.respects {own : Option Nat} {waiter : Waiter} {seat : Nat} {seats : Seats} {X : Nat → Prop}
    (hv : Reseats w v pending seats) (htakes : (w.seatsAt pending).Takes own waiter seat seats)
    (hfree : ∀ other, w.Untold pending seat other → other = waiter) (hroot : w.Rooted) :
    Respects X w v :=
  .of_eq hv.tasks (fun _ _ h => hv.windows ▸ h) (fun _ _ _ h => hv.untold htakes hfree h)
    (fun _ h => hv.timers ▸ h) hv.clock hroot

theorem reseats_seatedAt {cell : PendingCell} (hcell : w.pendings[pending]? = some cell)
    (waiter : Waiter) (own : Option Nat) :
    Reseats w (w.seatedAt waiter pending own cell).2 pending ((w.seatsAt pending).sit own waiter).2 := by
  have hpendings : ∀ n : Nat, (w.seatedAt waiter pending own cell).2.pendings[n]? =
      if pending = n then w.pendings[n]?.map fun c => { c with waiters := (cell.waiters.sit own waiter).2 }
      else w.pendings[n]? := by
    intro n
    rw [seatedAt, getElem?_noteStart]
    exact getElem?_modifyPending ..
  have hstate : ∀ n, (w.seatedAt waiter pending own cell).2.stateAt n = w.stateAt n := by
    intro n
    rw [stateAt, hpendings, stateAt]
    split
    · cases w.pendings[n]? <;> rfl
    · rfl
  refine ⟨clock_seatedAt .., timers_seatedAt .., ?_, ?_, hstate, ?_, fun n hn => ?_⟩
  · rw [seatedAt]
    unfold noteStart
    dsimp only
    split <;> rfl
  · rw [seatedAt]
    unfold noteStart
    dsimp only
    split <;> rfl
  · rw [seatsAt, hpendings, if_pos rfl, hcell, seatsAt_of_getElem? hcell]
    rfl
  · rw [seatsAt, hpendings, if_neg (Ne.symm hn), seatsAt]

theorem seat_seatedAt {cell : PendingCell} (hcell : w.pendings[pending]? = some cell)
    (waiter : Waiter) (own : Option Nat) :
    (w.seatedAt waiter pending own cell).1 = ((w.seatsAt pending).sit own waiter).1 := by
  rw [seatsAt_of_getElem? hcell]
  rfl

/-! ## Starting to wait -/

/-- From one world to the other one, a pending value came to another stage. -/
structure Restages (w v : World) (pending : Nat) (job : Job) (stage : Stage) : Prop where
  clock : v.clock = w.clock
  timers : v.timers = w.timers
  tasks : v.tasks = w.tasks
  windows : v.windows = w.windows
  self : v.stateAt pending = some (job, stage)
  others : ∀ n, n ≠ pending → v.stateAt n = w.stateAt n
  seatsAt : ∀ n, v.seatsAt n = w.seatsAt n

theorem restages_setStage {cell : PendingCell} (hcell : w.pendings[pending]? = some cell)
    (stage : Stage) :
    Restages w (w.modifyPending pending fun cell => { cell with stage }) pending cell.job stage := by
  have hpendings := getElem?_modifyPending pending (fun cell => { cell with stage }) w
  refine ⟨rfl, rfl, rfl, rfl, ?_, fun n hn => ?_, fun n => ?_⟩
  · rw [stateAt, hpendings, if_pos rfl, hcell]
    rfl
  · rw [stateAt, hpendings, if_neg (Ne.symm hn), stateAt]
  · rw [World.seatsAt, hpendings, World.seatsAt]
    by_cases hn : pending = n
    · rw [if_pos hn]
      cases w.pendings[n]? <;> rfl
    · rw [if_neg hn]

theorem Restages.respects {job : Job} {stage : Stage} {X : Nat → Prop} (hv : Restages w v pending job stage)
    (hroot : w.Rooted) : Respects X w v :=
  .of_eq hv.tasks (fun _ _ h => hv.windows ▸ h) (fun n _ _ h => (untold_congr (hv.seatsAt n)).mpr h)
    (fun _ h => hv.timers ▸ h) hv.clock hroot

/-- A pending value that starts to wait sees to it that it is told: its timer is set, or it sits at the
one that it waits for. -/
theorem Balanced.restages {job : Job} {stage : Stage} (h : w.Balanced σ fun n => n = pending ∨ E n)
    (hopen : w.peek pending = none) (hv : Restages w v pending job stage)
    (hlive : Stage.isUnderWay job stage = true) (hdone : stage.outcome? = none)
    (htime : ∀ deadline, stage = .waiting deadline → ⟨deadline, .pending pending⟩ ∈ w.timers)
    (hseat : ∀ source seat, job = .checking source → stage = .seated seat →
      w.Sits σ (.pending pending) source seat ∧ source ≠ pending ∧
        ∃ job stage, w.stateAt source = some (job, stage) ∧ Stage.isUnderWay job stage = true)
    (hexpects : w.Expects pending) : v.Balanced σ E := by
  have huntold : ∀ {n s : Nat} {other : Waiter}, v.Untold n s other ↔ w.Untold n s other :=
    fun {n _ _} => untold_congr (hv.seatsAt n)
  -- who holds a seat held it before, or is the pending value itself, in its new seat
  have hholds : ∀ {other : Waiter} {n s : Nat}, v.Holds σ other n s →
      w.Holds σ other n s ∨ other = .pending pending ∧ job = .checking n ∧ stage = .seated s := by
    intro other n s hother
    cases other with
    | task task => exact .inl hother
    | pending later =>
      by_cases hlater : later = pending
      · subst hlater
        have hself := hv.self.symm.trans hother
        rw [Option.some.injEq, Prod.mk.injEq] at hself
        exact .inr ⟨rfl, hself⟩
      · refine .inl ?_
        rw [Holds, ← hv.others later hlater]
        exact hother
  have hpeek : ∀ n, v.peek n = w.peek n := by
    intro n
    by_cases hn : n = pending
    · rw [hn, peek_of_stateAt hv.self, hdone, hopen]
    · exact peek_congr (hv.others n hn)
  have hstate : ∀ n, (∃ job stage, w.stateAt n = some (job, stage) ∧ Stage.isUnderWay job stage = true) →
      ∃ job stage, v.stateAt n = some (job, stage) ∧ Stage.isUnderWay job stage = true := by
    intro n hn
    by_cases heq : n = pending
    · exact ⟨job, stage, heq ▸ hv.self, hlive⟩
    · rwa [hv.others n heq]
  refine ⟨?_, ?_, ?_, ?_, ?_, ?_, ?_, ?_, ?_, ?_⟩
  · intro task cell window hcell hwindow
    rw [hv.tasks] at hcell
    rw [hv.windows]
    exact h.rooted task cell window hcell hwindow
  · exact fun n s later hlater => h.forward n s later (huntold.mp hlater)
  · rw [hv.windows, hv.tasks]
    exact h.recent
  · intro n job' deadline hwaiting
    rw [hv.clock, hv.timers]
    by_cases hn : n = pending
    · subst hn
      have hself := hv.self.symm.trans hwaiting
      rw [Option.some.injEq, Prod.mk.injEq] at hself
      exact .inr (htime deadline hself.2)
    · exact h.onTime n job' deadline ((hv.others n hn).symm.trans hwaiting)
  · intro other n s hother
    refine hstate n ?_
    rcases hholds hother with hold | ⟨-, hjob, hstage⟩
    · exact h.underWay other n s hold
    · exact (hseat n s hjob hstage).2.2
  · intro n
    rw [hv.seatsAt]
    exact h.vacant n
  · intro other n s hother hopen'
    rw [hv.seatsAt]
    rcases hholds hother with hold | ⟨-, hjob, hstage⟩
    · exact h.sits other n s hold ((hpeek n).symm.trans hopen')
    · have hsits := (hseat n s hjob hstage).1
      exact ⟨⟨_, hsits.untold⟩, hsits.held⟩
  · intro one other n s hone hother
    rcases hholds hone with hone | ⟨rfl, hjob, hstage⟩
    · rcases hholds hother with hother | ⟨rfl, hjob, hstage⟩
      · exact h.alone one other n s hone hother
      · exact (hseat n s hjob hstage).1.alone one hone
    · rcases hholds hother with hother | ⟨rfl, -, -⟩
      · exact ((hseat n s hjob hstage).1.alone other hother).symm
      · rfl
  · intro holder other n s hholder hother
    rcases hholds hholder with hold | ⟨rfl, hjob, hstage⟩
    · exact h.own holder other n s hold (huntold.mp hother)
    · have hself := (hseat n s hjob hstage).1.untold.symm.trans (huntold.mp hother)
      rw [Option.some.injEq, Option.some.injEq] at hself
      exact hself.symm
  · intro n hn
    have hexpects' : w.Told (.pending n) ∨ w.Expects n := by
      by_cases heq : n = pending
      · exact .inr (heq ▸ hexpects)
      · exact h.expects n fun hE => hE.elim heq hn
    refine hexpects'.imp (fun htold s other hother => htold s other (huntold.mp hother)) fun hexp => ?_
    rcases hexp with ⟨deadline, htimer⟩ | ⟨source, s, hsource⟩
    · exact .inl ⟨deadline, hv.timers ▸ htimer⟩
    · exact .inr ⟨source, s, huntold.mpr hsource⟩

/-! ## Coming to an outcome -/

theorem Balanced.except (h : w.Balanced σ E) {E' : Nat → Prop}
    (hE : ∀ n, E n → ¬E' n → w.Told (.pending n) ∨ w.Expects n) : w.Balanced σ E' :=
  { h with
    expects := fun n hn => by
      by_cases hold : E n
      · exact hE n hold hn
      · exact h.expects n hold }

/-- When the outcome is there, nobody is left in the seats. -/
theorem balanced_done {cell : PendingCell} (h : w.Balanced σ fun n => n = pending ∨ E n)
    (hcell : w.pendings[pending]? = some cell) (outcome : Outcome) :
    (w.modifyPending pending fun cell => { cell with stage := .done outcome, waiters := {} }).Balanced σ
      fun n => E n ∨ ∃ seat, w.Untold pending seat (.pending n) := by
  have hpendings := getElem?_modifyPending pending
    (fun cell => { cell with stage := .done outcome, waiters := {} }) w
  generalize hu : w.modifyPending pending
    (fun cell => { cell with stage := .done outcome, waiters := {} }) = u at hpendings
  have htasks : u.tasks = w.tasks := hu ▸ rfl
  have hwindows : u.windows = w.windows := hu ▸ rfl
  have htimers : u.timers = w.timers := hu ▸ rfl
  have hclock : u.clock = w.clock := hu ▸ rfl
  have hself : u.stateAt pending = some (cell.job, .done outcome) := by
    rw [stateAt, hpendings, if_pos rfl, hcell]
    rfl
  have hstate : ∀ n, n ≠ pending → u.stateAt n = w.stateAt n := by
    intro n hn
    rw [stateAt, hpendings, if_neg (Ne.symm hn), stateAt]
  have hempty : u.seatsAt pending = {} := by
    rw [seatsAt, hpendings, if_pos rfl, hcell]
    rfl
  have hseats : ∀ n, n ≠ pending → u.seatsAt n = w.seatsAt n := by
    intro n hn
    rw [seatsAt, hpendings, if_neg (Ne.symm hn), seatsAt]
  have hnone : ∀ {s : Nat} {other : Waiter}, ¬u.Untold pending s other := by
    intro s other huntold
    rw [Untold, hempty] at huntold
    cases huntold
  have huntold : ∀ {n s : Nat} {other : Waiter}, u.Untold n s other → w.Untold n s other := by
    intro n s other huntold
    by_cases hn : n = pending
    · subst hn
      exact absurd huntold hnone
    · exact (untold_congr (hseats n hn)).mp huntold
  have hholds : ∀ {other : Waiter} {n s : Nat}, u.Holds σ other n s → w.Holds σ other n s := by
    intro other n s hother
    cases other with
    | task task => exact hother
    | pending later =>
      by_cases hlater : later = pending
      · subst hlater
        cases congrArg (Option.map Prod.snd) (hself.symm.trans hother)
      · rw [Holds, ← hstate later hlater]
        exact hother
  refine ⟨?_, fun n s later hlater => h.forward n s later (huntold hlater), ?_, ?_, ?_, ?_, ?_,
    fun one other n s hone hother => h.alone one other n s (hholds hone) (hholds hother),
    fun holder other n s hholder hother => h.own holder other n s (hholds hholder) (huntold hother), ?_⟩
  · intro task cell window hcell hwindow
    rw [htasks] at hcell
    rw [hwindows]
    exact h.rooted task cell window hcell hwindow
  · rw [hwindows, htasks]
    exact h.recent
  · intro n job deadline hwaiting
    rw [hclock, htimers]
    by_cases hn : n = pending
    · subst hn
      cases congrArg (Option.map Prod.snd) (hself.symm.trans hwaiting)
    · exact h.onTime n job deadline ((hstate n hn).symm.trans hwaiting)
  · intro other n s hother
    by_cases hn : n = pending
    · subst hn
      exact ⟨cell.job, .done outcome, hself, rfl⟩
    · rw [hstate n hn]
      exact h.underWay other n s (hholds hother)
  · intro n
    by_cases hn : n = pending
    · subst hn
      rw [hempty]
      exact ⟨List.nodup_nil, fun _ hvacant => by cases hvacant⟩
    · rw [hseats n hn]
      exact h.vacant n
  · intro other n s hother hopen
    by_cases hn : n = pending
    · subst hn
      rw [peek_of_stateAt hself] at hopen
      cases hopen
    · rw [hseats n hn]
      exact h.sits other n s (hholds hother) ((peek_congr (hstate n hn)).symm.trans hopen)
  · intro n hn
    rw [not_or, not_exists] at hn
    by_cases heq : n = pending
    · subst heq
      exact .inl fun _ _ => hnone
    · refine (h.expects n fun hE => hE.elim heq hn.1).imp
        (fun htold s other hother => htold s other (huntold hother)) fun hexpects => ?_
      rcases hexpects with ⟨deadline, htimer⟩ | ⟨source, s, hsource⟩
      · exact .inl ⟨deadline, htimers ▸ htimer⟩
      · have hne : source ≠ pending := fun heq => hn.2 s (heq ▸ hsource)
        exact .inr ⟨source, s, (untold_congr (hseats source hne)).mpr hsource⟩

theorem Balanced.settle {cell : PendingCell} (h : w.Balanced σ fun n => n = pending ∨ E n)
    (hcell : w.pendings[pending]? = some cell) (outcome : Outcome) :
    (w.settle pending outcome).Balanced σ E ∧ Respects (fun _ => False) w (w.settle pending outcome) := by
  have hdone := balanced_done h hcell outcome
  have hseats : ∀ n, n ≠ pending → (w.modifyPending pending fun cell =>
      { cell with stage := .done outcome, waiters := {} }).seatsAt n = w.seatsAt n := by
    intro n hn
    rw [seatsAt, getElem?_modifyPending, if_neg (Ne.symm hn), seatsAt]
  have hsettle : w.settle pending outcome = cell.waiters.call.1.foldl (fun w waiter => w.wake waiter)
      (w.modifyPending pending fun cell => { cell with stage := .done outcome, waiters := {} }) := by
    rw [World.settle, hcell]
  rw [hsettle]
  obtain ⟨htells, htold⟩ := tells_foldl (f := fun w waiter => w.wake waiter)
    (P := fun v => v.Rooted ∧ v.Forward) cell.waiters.call.1 ⟨hdone.rooted, hdone.forward⟩
    (fun htells hP => ⟨htells.rooted hP.1, htells.forward hP.2⟩)
    fun waiter _ hP => tells_wake hP.1 hP.2 waiter
  have hcalm := calm_foldl (fun w waiter => calm_wake waiter w) cell.waiters.call.1
    (w.modifyPending pending fun cell => { cell with stage := .done outcome, waiters := {} })
  generalize cell.waiters.call.1.foldl (fun w waiter => w.wake waiter)
    (w.modifyPending pending fun cell => { cell with stage := .done outcome, waiters := {} }) = v
    at htells htold hcalm
  -- whoever was in a seat has been told
  have hseated : ∀ {seat : Nat} {waiter : Waiter}, w.Untold pending seat waiter → v.Told waiter := by
    intro seat waiter huntold
    obtain ⟨c, hc, hseat⟩ := untold_iff.mp huntold
    rw [hcell, Option.some.injEq] at hc
    subst hc
    exact htold waiter (List.mem_filterMap.mpr ⟨_, List.mem_of_getElem? hseat, rfl⟩)
  refine ⟨(hdone.tells htells hcalm).except fun n hn hE => ?_, ?_⟩
  · rcases hn with hn | ⟨seat, huntold⟩
    · exact absurd hn hE
    · exact .inl (hseated huntold)
  · have hrespects : Respects (fun _ => False) _ v := .of_tells htells
    exact { task := hrespects.task
            window := hrespects.window
            lined := hrespects.lined
            timer := hrespects.timer
            clock := hrespects.clock
            owned := hrespects.owned
            untold := fun n seat task _ _ huntold => by
              by_cases hn : n = pending
              · subst hn
                exact .inr (hseated huntold)
              · exact htells.untold n seat _ ((untold_congr (hseats n hn)).mpr huntold) }

theorem Respects.trans_all (h : Respects (fun _ => False) w v) (h' : Respects (fun _ => False) v u)
    (hroot : w.Rooted) : Respects (fun _ => False) w u := h.trans h' hroot (fun _ _ h => h) fun _ _ _ h => h

theorem Balanced.conclude {cell : PendingCell} (h : w.Balanced σ fun n => n = pending ∨ E n)
    (hcell : w.pendings[pending]? = some cell) (label : Option String) (body : Action) :
    (w.conclude pending label body).2.Balanced σ E ∧
      Respects (fun _ => False) w (w.conclude pending label body).2 ∧
        (w.conclude pending label body).2.peek pending = some (w.conclude pending label body).1 := by
  have hrun : Extends w (body.run (w.note (.finished pending label))).2 :=
    (Extends.note _ w).trans (.run body _)
  have hcell' := hrun.pending pending cell hcell
  obtain ⟨hbalanced, hrespects⟩ := (h.extends hrun).settle hcell'
    (body.run (w.note (.finished pending label))).1
  refine ⟨hbalanced, (Respects.of_extends hrun h.rooted).trans_all hrespects h.rooted, ?_⟩
  exact (peek_settle (lt_size_of_getElem? hcell') _ pending).trans (if_pos rfl)

/-! ## Asking -/

/-- The pending value was asked, and will come to its outcome or has come to it. -/
def IsUnderWay (w : World) (pending : Nat) : Prop :=
  ∃ job stage, w.stateAt pending = some (job, stage) ∧ Stage.isUnderWay job stage = true

/-- The asker has to wait, and nothing was done but to take its seat, for those that come before as
well. -/
structure Parks (w v : World) (σ : Seating) (waiter : Waiter) (pending seat : Nat) : Prop where
  sits : v.Sits σ waiter pending seat
  isOpen : v.peek pending = none
  underWay : v.IsUnderWay pending
  tasks : v.tasks = w.tasks
  windows : v.windows = w.windows
  /-- asking again sets no timer -/
  timers : w.IsUnderWay pending → v.timers = w.timers
  state : ∀ n, pending < n → v.stateAt n = w.stateAt n
  seats : ∀ n, pending < n → v.seatsAt n = w.seatsAt n
  holds : ∀ other n s, pending < n → v.Holds σ other n s → w.Holds σ other n s

/-- What comes of asking. -/
inductive Attends (w : World) (σ : Seating) (E : Nat → Prop) (waiter : Waiter) (pending : Nat) :
    Answer × World → Prop
  | ready {v : World} {outcome : Outcome} : v.Balanced σ E → Respects (fun _ => False) w v →
    v.peek pending = some outcome → Attends w σ E waiter pending (.ready outcome, v)
  | notYet {v : World} {seat : Nat} : v.Balanced σ E → Respects (fun _ => False) w v →
    Parks w v σ waiter pending seat → Attends w σ E waiter pending (.notYet seat, v)

theorem job?_congr {n : Nat} (h : v.stateAt n = w.stateAt n) : v.job? n = w.job? n := by
  have hmap := congrArg (Option.map Prod.fst) h
  rwa [stateAt, stateAt, Option.map_map, Option.map_map] at hmap

section Asking

variable {depth seat : Nat} {cell : PendingCell} {waiter : Waiter} {own : Option Nat}

/-- A pending value that waits for the clock: it sits down, and has its timer. -/
theorem Balanced.parks_after (h : w.Balanced σ E) (hcell : w.pendings[pending]? = some cell)
    (hopen : ∀ o, cell.stage ≠ .done o) {delay : Nat} {keeps : List Value} {body : Action}
    (hjob : cell.job = .after delay keeps body) (hu : u.Balanced σ fun n => n = pending ∨ E n)
    (hsits : u.Sits σ waiter pending seat) (hseats : Reseats w u pending seats)
    (hrespects : Respects (fun _ => False) w u)
    (hdeadline : ¬cell.stage.deadline (w.clock + delay) ≤ w.clock) :
    Attends w σ E waiter pending (.notYet seat,
      (u.startTimer delay pending cell.stage).modifyPending pending fun c =>
        { c with stage := .waiting (cell.stage.deadline (w.clock + delay)) }) := by
  have hstart : Extends u (u.startTimer delay pending cell.stage) := by
    unfold startTimer
    split
    · exact .refl u
    · exact .setTimer _ _ u
  have htimer : ⟨cell.stage.deadline (w.clock + delay), .pending pending⟩ ∈
      (u.startTimer delay pending cell.stage).timers := by
    cases hstage : cell.stage with
    | waiting deadline =>
      rw [hstage] at hdeadline
      have hstate := stateAt_of_getElem? hcell
      rw [hstage] at hstate
      rcases h.onTime pending _ deadline hstate with hpast | htimer
      · exact absurd hpast hdeadline
      · exact hseats.timers ▸ htimer
    | done o => exact absurd hstage (hopen o)
    | _ =>
      refine List.mem_append_right _ (List.mem_singleton.mpr ?_)
      rw [hseats.clock]
      rfl
  have hpendings : (u.startTimer delay pending cell.stage).pendings = u.pendings := by
    unfold startTimer
    split <;> rfl
  have hwindows : (u.startTimer delay pending cell.stage).windows = u.windows := by
    unfold startTimer
    split <;> rfl
  generalize hx : u.startTimer delay pending cell.stage = x at hstart htimer hpendings hwindows
  have hstateAt : ∀ n, x.stateAt n = w.stateAt n := by
    intro n
    rw [← hseats.stateAt, stateAt, hpendings, stateAt]
  have hseatsAt : ∀ n, x.seatsAt n = u.seatsAt n := by
    intro n
    rw [seatsAt, hpendings, seatsAt]
  obtain ⟨c, hc, hcjob, -⟩ : ∃ c, x.pendings[pending]? = some c ∧ c.job = cell.job ∧
      c.stage = cell.stage := by
    have hstate := (hstateAt pending).trans (stateAt_of_getElem? hcell)
    obtain ⟨c, hc, hstate⟩ := Option.map_eq_some_iff.mp hstate
    rw [Prod.mk.injEq] at hstate
    exact ⟨c, hc, hstate⟩
  have hxpeek : x.peek pending = none := by
    rw [peek_congr (hstateAt pending), peek_of_getElem? hcell]
    cases hstage : cell.stage with
    | done o => exact absurd hstage (hopen o)
    | _ => rfl
  have hv := restages_setStage hc (.waiting (cell.stage.deadline (w.clock + delay)))
  generalize x.modifyPending pending
    (fun c => { c with stage := .waiting (cell.stage.deadline (w.clock + delay)) }) = v at hv
  rw [hcjob, hjob] at hv
  have hxbalanced := hu.extends hstart
  have hvpeek : v.peek pending = none := peek_of_stateAt hv.self
  refine .notYet (hxbalanced.restages hxpeek hv rfl rfl ?_ (fun _ _ hjob => by cases hjob)
    (.inl ⟨_, htimer⟩)) ?_ ?_
  · intro deadline hsame
    cases hsame
    exact htimer
  · exact (hrespects.trans_all (.of_extends hstart hu.rooted) h.rooted).trans_all
      (hv.respects hxbalanced.rooted) h.rooted
  · have hother : ∀ {other : Waiter} {n s : Nat}, v.Holds σ other n s → w.Holds σ other n s := by
      intro other n s hother
      cases other with
      | task task => exact hother
      | pending later =>
        by_cases hlater : later = pending
        · subst hlater
          cases congrArg (Option.map Prod.snd) (hv.self.symm.trans hother)
        · rw [Holds, ← hstateAt, ← hv.others later hlater]
          exact hother
    refine ⟨⟨?_, ?_, fun other hholds => ?_⟩, hvpeek, ⟨_, _, hv.self, rfl⟩, ?_, ?_, fun hway => ?_,
      fun n hn => (hv.others n (Nat.ne_of_gt hn)).trans (hstateAt n), fun n hn => ?_,
      fun other n s _ => hother⟩
    · rw [Untold, hv.seatsAt, hseatsAt]
      exact hsits.untold
    · rw [hv.seatsAt, hseatsAt]
      exact hsits.held
    · refine hsits.alone other ((holds_congr hseats.stateAt).mpr (hother hholds))
    · rw [hv.tasks, hstart.tasks, hseats.tasks]
    · rw [hv.windows, hwindows, hseats.windows]
    · -- what is under way waits for the clock already
      obtain ⟨job, stage, hstate, hlive⟩ := hway
      rw [stateAt_of_getElem? hcell, Option.some.injEq, Prod.mk.injEq] at hstate
      obtain ⟨rfl, rfl⟩ := hstate
      rw [hjob] at hlive
      rw [hv.timers, ← hx, ← hseats.timers]
      cases hstage : cell.stage with
      | waiting deadline => rfl
      | done o => exact absurd hstage (hopen o)
      | _ =>
        rw [hstage] at hlive
        cases hlive
    · rw [hv.seatsAt, hseatsAt, hseats.others n (Nat.ne_of_gt hn)]

/-- A pending value that waits for another one: it sits there. -/
theorem Balanced.parks_checking (h : w.Balanced σ E) (hcell : w.pendings[pending]? = some cell)
    (hopen : ∀ o, cell.stage ≠ .done o) {source seat' : Nat}
    (hjob : cell.job = .checking source) (hlt : source < pending)
    (hsits : u.Sits σ waiter pending seat) (hseats : Reseats w u pending seats)
    (hrespects : Respects (fun _ => False) w u) (hx : x.Balanced σ fun n => n = pending ∨ E n)
    (hxrespects : Respects (fun _ => False) u x) (hparks : Parks u x σ (.pending pending) source seat') :
    Attends w σ E waiter pending (.notYet seat,
      x.modifyPending pending fun c => { c with stage := .seated seat' }) := by
  have hxstate : x.stateAt pending = some (cell.job, cell.stage) := by
    rw [hparks.state pending hlt, hseats.stateAt, stateAt_of_getElem? hcell]
  obtain ⟨c, hc, hstate⟩ := Option.map_eq_some_iff.mp hxstate
  rw [Prod.mk.injEq] at hstate
  have hxpeek : x.peek pending = none := by
    rw [peek_of_stateAt hxstate]
    cases hstage : cell.stage with
    | done o => exact absurd hstage (hopen o)
    | _ => rfl
  have hv := restages_setStage hc (.seated seat')
  generalize x.modifyPending pending (fun c => { c with stage := .seated seat' }) = v at hv
  rw [hstate.1, hjob] at hv
  refine .notYet (hx.restages hxpeek hv rfl rfl nofun (fun s t hs ht => ?_)
    (.inr ⟨source, seat', hparks.sits.untold⟩)) ?_ ?_
  · cases hs
    cases ht
    exact ⟨hparks.sits, Nat.ne_of_lt hlt, hparks.underWay⟩
  · exact (hrespects.trans_all hxrespects h.rooted).trans_all (hv.respects hx.rooted) h.rooted
  · have hother : ∀ {other : Waiter} {n s : Nat}, source < n → n ≠ source → v.Holds σ other n s →
        w.Holds σ other n s := by
      intro other n s hn hne hother
      cases other with
      | task task => exact hother
      | pending later =>
        by_cases hlater : later = pending
        · subst hlater
          have hself := congrArg (Option.map Prod.fst) (hv.self.symm.trans hother)
          rw [Option.map_some, Option.map_some, Option.some.injEq, Job.checking.injEq] at hself
          exact absurd hself.symm hne
        · refine (holds_congr hseats.stateAt).mp (hparks.holds _ n s hn ?_)
          rw [Holds, ← hv.others later hlater]
          exact hother
    have hseatsAt : ∀ n, source < n → v.seatsAt n = u.seatsAt n := by
      intro n hn
      rw [hv.seatsAt, hparks.seats n hn]
    refine ⟨⟨?_, ?_, fun other hholds => ?_⟩, peek_of_stateAt hv.self, ⟨_, _, hv.self, rfl⟩, ?_, ?_,
      fun hway => ?_, fun n hn => ?_, fun n hn => ?_, fun other n s hn => ?_⟩
    · rw [Untold, hseatsAt pending hlt]
      exact hsits.untold
    · rw [hseatsAt pending hlt]
      exact hsits.held
    · exact hsits.alone other
        ((holds_congr hseats.stateAt).mpr (hother hlt (Nat.ne_of_gt hlt) hholds))
    · rw [hv.tasks, hparks.tasks, hseats.tasks]
    · rw [hv.windows, hparks.windows, hseats.windows]
    · -- what is under way sits at its source, which is under way itself
      obtain ⟨job, stage, hway, hlive⟩ := hway
      rw [stateAt_of_getElem? hcell, Option.some.injEq, Prod.mk.injEq] at hway
      obtain ⟨rfl, rfl⟩ := hway
      rw [hjob] at hlive
      obtain ⟨s, hs⟩ : ∃ s, cell.stage = .seated s := by
        cases hstage : cell.stage with
        | seated s => exact ⟨s, rfl⟩
        | done o => exact absurd hstage (hopen o)
        | _ =>
          rw [hstage] at hlive
          cases hlive
      have hholds : w.Holds σ (.pending pending) source s := by
        rw [Holds, stateAt_of_getElem? hcell, hjob, hs]
      have hsource : u.IsUnderWay source := by
        obtain ⟨job, stage, hstate, hlive⟩ := h.underWay _ source s hholds
        exact ⟨job, stage, (hseats.stateAt source).trans hstate, hlive⟩
      rw [hv.timers, hparks.timers hsource, hseats.timers]
    · rw [hv.others n (Nat.ne_of_gt hn), hparks.state n (Nat.lt_trans hlt hn), hseats.stateAt]
    · rw [hseatsAt n (Nat.lt_trans hlt hn), hseats.others n (Nat.ne_of_gt hn)]
    · exact hother (Nat.lt_trans hlt hn) (Nat.ne_of_gt (Nat.lt_trans hlt hn))

end Asking

/-- Whoever asks gets the outcome, or is going to be told. -/
theorem Balanced.ask {depth : Nat} {waiter : Waiter} {own : Option Nat} (h : w.Balanced σ E)
    (horder : w.InOrder) (hdepth : pending < depth) (hsize : pending < w.pendings.size)
    (hE : ∀ n, E n → pending < n) (hlater : ∀ later, waiter = .pending later → pending < later)
    (hown : ∀ seat, own = some seat → w.Holds σ waiter pending seat) :
    Attends w σ E waiter pending (w.ask depth waiter pending own) := by
  induction depth generalizing w waiter pending own E with
  | zero => cases hdepth
  | succ depth ih =>
    have hcell : w.pendings[pending]? = some w.pendings[pending] := Array.getElem?_eq_getElem hsize
    generalize w.pendings[pending] = cell at hcell
    by_cases hdone : ∃ o, cell.stage = .done o
    · obtain ⟨o, ho⟩ := hdone
      have hask : w.ask (depth + 1) waiter pending own = (.ready o, w) := by
        rw [World.ask, hcell]
        simp only [ho]
      rw [hask]
      exact .ready h (.refl w) (by rw [peek_of_getElem? hcell, ho]; rfl)
    · have hopen : ∀ o, cell.stage ≠ .done o := fun o ho => hdone ⟨o, ho⟩
      have hpeek : w.peek pending = none := by
        rw [peek_of_getElem? hcell]
        cases hstage : cell.stage with
        | done o => exact absurd hstage (hopen o)
        | _ => rfl
      have htakes := h.takes hpeek hown
      have hseats := reseats_seatedAt hcell waiter own
      obtain ⟨hu, hsits⟩ := h.reseats hpeek hown hlater htakes hseats
      have hrespects : Respects (fun _ => False) w _ :=
        hseats.respects htakes (h.free hpeek hown htakes).1 h.rooted
      have hseat := seat_seatedAt hcell waiter own
      rw [ask_open hcell hopen]
      rw [← hseat] at hsits
      generalize w.seatedAt waiter pending own cell = r at hseats hu hsits hrespects
      obtain ⟨seat, u⟩ := r
      dsimp only at hseats hu hsits hrespects
      have hucell : ∃ c, u.pendings[pending]? = some c := by
        obtain ⟨c, hc, -⟩ := Option.map_eq_some_iff.mp
          ((hseats.stateAt pending).trans (stateAt_of_getElem? hcell))
        exact ⟨c, hc⟩
      obtain ⟨c, hc⟩ := hucell
      cases hjob : cell.job with
      | after delay keeps body =>
        dsimp only
        split
        · obtain ⟨hbalanced, hmore, hpeek⟩ := hu.conclude hc cell.label body
          exact .ready hbalanced (hrespects.trans_all hmore h.rooted) hpeek
        · rename_i hdeadline
          exact h.parks_after hcell hopen hjob hu hsits hseats hrespects hdeadline
      | checking source =>
        dsimp only
        have hlt : source < pending := horder (by rw [job?_of_getElem? hcell, hjob])
        have horder' : u.InOrder := fun n s hn => horder ((job?_congr (hseats.stateAt n)).symm.trans hn)
        have hsource : Attends u σ _ (.pending pending) source
            (u.ask depth (.pending pending) source (Stage.seat? cell.stage)) :=
          ih hu horder' (by omega) (Nat.lt_trans hlt (lt_size_of_getElem? hc)) (fun n hn => ?_)
            (fun later heq => ?_) fun seat' hseat' => ?_
        · have hlasts := Lasts.ask depth (.pending pending) source (Stage.seat? cell.stage) u
          generalize u.ask depth (.pending pending) source (Stage.seat? cell.stage) = r at hsource hlasts
          cases hsource with
          | @ready x outcome hx hmore hxpeek =>
            obtain ⟨c', hc'⟩ : ∃ c', x.pendings[pending]? = some c' := by
              obtain ⟨c', hc', -⟩ := Option.map_eq_some_iff.mp (hlasts.job? (job?_of_getElem? hc))
              exact ⟨c', hc'⟩
            obtain ⟨hbalanced, hlast, hpeek⟩ := hx.conclude hc' cell.label (checkedBody outcome)
            exact .ready hbalanced ((hrespects.trans_all hmore h.rooted).trans_all hlast h.rooted) hpeek
          | notYet hx hmore hparks =>
            exact h.parks_checking hcell hopen hjob hlt hsits hseats hrespects hx hmore hparks
        · rcases hn with rfl | hn
          · exact hlt
          · exact Nat.lt_trans hlt (hE n hn)
        · cases heq
          exact hlt
        · have hstage : cell.stage = .seated seat' := by
            cases hs : cell.stage with
            | seated s =>
              rw [hs] at hseat'
              cases hseat'
              rfl
            | _ =>
              rw [hs] at hseat'
              cases hseat'
          rw [Holds, hseats.stateAt, stateAt_of_getElem? hcell, hjob, hstage]

/-! ## Time passes -/

theorem Balanced.isOnTime (h : w.Balanced σ E) : w.OnTime := by
  intro n cell deadline hcell hstage
  rw [seen_getElem?, Option.map_eq_some_iff] at hcell
  obtain ⟨c, hc, rfl⟩ := hcell
  have hwaiting : c.stage = .waiting deadline := by
    cases hs : c.stage with
    | waiting d => simpa [PendingCell.seen, hs, Stage.seen] using hstage
    | _ => simp [PendingCell.seen, hs, Stage.seen] at hstage
  have hstate := stateAt_of_getElem? hc
  rw [hwaiting] at hstate
  exact (h.onTime n _ deadline hstate).imp id fun htimer => List.mem_map.mpr ⟨_, htimer, rfl⟩

/-- When the clock jumps to the earliest deadline, whoever has a timer for it is told. -/
theorem Balanced.advance (h : w.Balanced σ fun _ => False) (htimers : w.timers ≠ []) :
    ∃ v, w.advance? = some v ∧ (v.Balanced σ fun _ => False) ∧ Respects (fun _ => False) w v ∧
      v.timers.length < w.timers.length := by
  obtain ⟨timer, htimer⟩ := List.exists_mem_of_ne_nil _ htimers
  obtain ⟨v, -, hadvance, -, -, hlength, -⟩ :=
    advance?_eq_some h.isOnTime (List.mem_map.mpr ⟨timer, htimer, rfl⟩)
  obtain ⟨deadline, -, hv⟩ := Option.map_eq_some_iff.mp hadvance
  refine ⟨v, hadvance, ?_⟩
  let u : World := { w with
    clock := max w.clock deadline
    timers := w.timers.filter (deadline < ·.deadline) }
  let due := w.timers.filter (·.deadline ≤ deadline)
  have hfold : v = (due.map Timer.waiter).foldl (fun w waiter => w.wake waiter) u := by
    rw [List.foldl_map]
    exact hv.symm
  have hleft : ∀ timer ∈ w.timers, timer ∈ due ∨ timer ∈ u.timers ∧ deadline < timer.deadline := by
    intro timer htimer
    by_cases hpast : timer.deadline ≤ deadline
    · exact .inl (List.mem_filter.mpr ⟨htimer, decide_eq_true hpast⟩)
    · have hlater := Nat.lt_of_not_le hpast
      exact .inr ⟨List.mem_filter.mpr ⟨htimer, decide_eq_true hlater⟩, hlater⟩
  have hu : u.Balanced σ fun n => ∃ d, ⟨d, .pending n⟩ ∈ due :=
    { h with
      onTime := fun n job d hstate => by
        rcases h.onTime n job d hstate with hpast | htimer
        · exact .inl (Nat.le_trans hpast (Nat.le_max_left ..))
        · rcases hleft _ htimer with hdue | ⟨hstill, -⟩
          · have hle := of_decide_eq_true (List.mem_filter.mp hdue).2
            exact .inl (Nat.le_trans hle (Nat.le_max_right ..))
          · exact .inr hstill
      expects := fun n hn => by
        refine (h.expects n id).imp id fun hexpects => ?_
        rcases hexpects with ⟨d, htimer⟩ | hsource
        · rcases hleft _ htimer with hdue | ⟨hstill, -⟩
          · exact absurd ⟨d, hdue⟩ hn
          · exact .inl ⟨d, hstill⟩
        · exact .inr hsource }
  obtain ⟨htells, htold⟩ := tells_foldl (w := u) (f := fun w waiter => w.wake waiter)
    (P := fun v => v.Rooted ∧ v.Forward) (due.map Timer.waiter) ⟨h.rooted, h.forward⟩
    (fun htells hP => ⟨htells.rooted hP.1, htells.forward hP.2⟩)
    fun waiter _ hP => tells_wake hP.1 hP.2 waiter
  have hcalm := calm_foldl (fun w waiter => calm_wake waiter w) (due.map Timer.waiter) u
  rw [← hfold] at htells htold hcalm
  have hdue : ∀ {timer : Timer}, timer ∈ due → v.Told timer.waiter := fun htimer =>
    htold _ (List.mem_map.mpr ⟨_, htimer, rfl⟩)
  refine ⟨(hu.tells htells hcalm).except fun n hn _ => ?_, ?_, hlength⟩
  · obtain ⟨d, hd⟩ := hn
    exact .inl (hdue hd)
  · have hrespects : Respects (fun _ => False) u v := .of_tells htells
    have hclock : v.clock = max w.clock deadline := clock_of_seen htells.seen
    exact { task := hrespects.task
            window := hrespects.window
            lined := hrespects.lined
            untold := hrespects.untold
            owned := hrespects.owned
            clock := hclock ▸ Nat.le_max_left ..
            timer := fun d n _ _ htimer => by
              rcases hleft _ htimer with hd | ⟨hstill, -⟩
              · have hle := of_decide_eq_true (List.mem_filter.mp hd).2
                refine .inr ⟨?_, hdue hd⟩
                rw [hclock]
                exact Nat.le_trans hle (Nat.le_max_right ..)
              · exact .inl (htells.timers ▸ hstill) }

end TaggedMarkup.World
