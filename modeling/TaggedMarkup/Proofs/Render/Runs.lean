import TaggedMarkup.Proofs.Render.Taking

/-!
# Runs that get through

A render that was drained without an error has worked off its stack (`RenderStream.runs_of_drain`). Such a
run is taken apart from the front: a piece that is done in a step gives way to others, a pending value is
asked until its outcome is there, and the next member of a sequence is drawn when it is ready.

Here waiting is told from the side of what has happened; that a render gets as far as that is told by `Gives`.
-/

namespace TaggedMarkup

/-! ## Runs -/

/-- From the middle of a turn on, the render gets through in so many steps, with these texts and to this
world. Where a list is rendered ahead, the run is not followed, and anything may come. -/
inductive Runs (ahead task : Nat) : Nat → List Work → World → List String → World → Prop
  | ended {w : World} : Runs ahead task 0 [] w [] w
  | ahead {lineup : Lineup} {rest : List Work} {w v : World} {texts : List String} :
    Runs ahead task 0 (.ahead lineup :: rest) w texts v
  | fragment {n : Nat} {text : String} {rest : List Work} {w v : World} {texts : List String} :
    Runs ahead task n rest (w.beginTurn task) texts v →
      Runs ahead task (n + 1) (.emit text :: rest) w (text :: texts) v
  | step {n : Nat} {work : Work} {works rest : List Work} {w u v : World} {texts : List String} :
    work.isStepped = true → work.step ahead task w = (.next works, u) →
      Runs ahead task n (works ++ rest) (u.tidied (Work.heldByAll (works ++ rest))) texts v →
        Runs ahead task (n + 1) (work :: rest) w texts v
  /-- the task was told to go on during the turn, or else the clock moves on -/
  | wait {n : Nat} {work waiting : Work} {rest : List Work} {w u t v : World} {texts : List String} :
    work.isStepped = true → work.step ahead task w = (.wait waiting, u) →
      (if u.isWoken task then t = u else u.advance? = some t) →
        Runs ahead task n (waiting :: rest) (t.beginTurn task) texts v →
          Runs ahead task (n + 1) (work :: rest) w texts v

namespace Runs

variable {ahead task n : Nat} {work waiting : Work} {works rest : List Work} {w u v : World}
  {texts : List String}

theorem stepped (h : Runs ahead task n (work :: rest) w texts v) (hstepped : work.isStepped = true)
    (hstep : work.step ahead task w = (.next works, u)) :
    ∃ m < n, Runs ahead task m (works ++ rest) (u.tidied (Work.heldByAll (works ++ rest))) texts v := by
  cases h with
  | ahead | fragment => cases hstepped
  | step _ hstep' hrest =>
    rw [hstep] at hstep'
    cases hstep'
    exact ⟨_, Nat.lt_succ_self _, hrest⟩
  | wait _ hstep' =>
    rw [hstep] at hstep'
    cases hstep'

/-- The next turn comes not later than the deadline of any timer there is. -/
theorem waited (h : Runs ahead task n (work :: rest) w texts v) (hstepped : work.isStepped = true)
    (hstep : work.step ahead task w = (.wait waiting, u)) (hu : u.OnTime) {deadline : Nat}
    (hdeadline : deadline ∈ u.timers.map (·.deadline)) :
    ∃ m < n, ∃ t moment, Runs ahead task m (waiting :: rest) t texts v ∧ t.OnTime ∧
      u.TimersKept t ∧ moment ≤ deadline ∧ t.seen = u.seen.sleepUntil moment := by
  cases h with
  | ahead | fragment => cases hstepped
  | step _ hstep' =>
    rw [hstep] at hstep'
    cases hstep'
  | @wait n _ _ _ _ _ t _ _ _ hstep' hturn hrest =>
    rw [hstep] at hstep'
    cases hstep'
    split at hturn
    · subst hturn
      refine ⟨n, Nat.lt_succ_self n, _, 0, hrest, hu.congr rfl rfl, fun d hd => .inr hd,
        Nat.zero_le _, ?_⟩
      rw [World.sleepUntil, Nat.max_eq_left (Nat.zero_le _)]
      rfl
    · obtain ⟨t', earliest, hadvance, hseen, hle, -, ht, hkept⟩ :=
        World.advance?_eq_some hu hdeadline
      rw [hadvance, Option.some.injEq] at hturn
      subst hturn
      exact ⟨n, Nat.lt_succ_self n, _, earliest, hrest, ht.congr rfl rfl, hkept, hle, hseen⟩

/-- A pending value is asked until its outcome is there, in the world of the reference. -/
theorem awaited {cell : Nat} {seat : Option Nat} {resumption : Resumption} {o : Outcome} {r : World}
    (h : Runs ahead task n (.await cell seat resumption :: rest) w texts v) (hw : w.OnTime)
    (ho : w.seen.outcome (cell + 1) cell = some (o, r)) :
    ∃ m < n, ∃ u, Runs ahead task m (Render.resume resumption o ++ rest) u texts v ∧ u.OnTime ∧
      u.seen = r := by
  induction n using Nat.strongRecOn generalizing w seat with
  | ind n ih =>
    have hcomes := World.ask_comes_to hw ho (.task task) seat
    cases hask : w.ask (cell + 1) (.task task) cell seat with
    | mk answer u =>
      rw [hask] at hcomes
      cases answer with
      | ready o' =>
        obtain ⟨hsame, hu⟩ := hcomes
        cases hsame
        have hstep : (Work.await cell seat resumption).step ahead task w =
            (.next (Render.resume resumption o), u) := by
          rw [Work.step, World.await, hask]
        obtain ⟨m, hlt, hrest⟩ := h.stepped rfl hstep
        exact ⟨m, hlt, _, hrest, hu.tidied _, World.seen_tidied ..⟩
      | notYet seat' =>
        obtain ⟨hu, ⟨deadline, hclock, hhangs⟩, hahead, -⟩ := hcomes
        have hstep : (Work.await cell seat resumption).step ahead task w =
            (.wait (.await cell (some seat') resumption), u) := by
          rw [Work.step, World.await, hask]
        obtain ⟨m, hlt, t, moment, hrest, ht, -, hmoment, hseen⟩ :=
          h.waited rfl hstep hu (hhangs.timer hu hclock)
        obtain ⟨m', hlt', hend⟩ := ih m hlt hrest ht (by
          rw [hseen, hhangs.outcome_sleepUntil _ hmoment]
          exact hahead)
        exact ⟨m', Nat.lt_trans hlt' hlt, hend⟩

variable {sequence index delay : Nat} {label : Option String} {value : Value}
  {members : List (Nat × Value)}

/-- A member that is not ready yet is drawn as soon as it is. -/
theorem drawnAt {deadline : Nat} (h : Runs ahead task n (.draw ⟨some (sequence, label), index,
      (delay, value) :: members, some deadline⟩ :: rest) w texts v) (hw : w.OnTime)
    (htimer : deadline ≤ w.clock ∨ deadline ∈ w.timers.map (·.deadline)) :
    ∃ m < n, ∃ u, Runs ahead task m (.item value :: .draw ⟨some (sequence, label), index + 1, members,
        none⟩ :: rest) u texts v ∧ u.OnTime ∧
      u.seen = (w.seen.sleepUntil deadline).note (.drawn sequence label index) := by
  induction n using Nat.strongRecOn generalizing w with
  | ind n ih =>
    by_cases hle : deadline ≤ w.clock
    · have hnow : w.seen.sleepUntil deadline = w.seen := by
        rw [World.sleepUntil, World.seen_clock, Nat.max_eq_left hle]
        rfl
      have hstep : (Work.draw ⟨some (sequence, label), index, (delay, value) :: members,
          some deadline⟩).step ahead task w =
            (.next [.item value, .draw ⟨some (sequence, label), index + 1, members, none⟩],
              w.note (.drawn sequence label index)) := by
        simp only [Work.step, Feed.draw, if_pos hle]
        rfl
      have hnoted : (w.note (.drawn sequence label index)).OnTime := hw.kept (World.kept_note _ w)
      obtain ⟨m, hlt, hrest⟩ := h.stepped rfl hstep
      refine ⟨m, hlt, _, hrest, hnoted.tidied _, ?_⟩
      rw [World.seen_tidied, World.seen_note, hnow]
    · have hstep : (Work.draw ⟨some (sequence, label), index, (delay, value) :: members,
          some deadline⟩).step ahead task w =
            (.wait (.draw ⟨some (sequence, label), index, (delay, value) :: members,
              some deadline⟩), w) := by
        simp only [Work.step, Feed.draw, if_neg hle]
      obtain ⟨m, hlt, t, moment, hrest, ht, hkept, hmoment, hseen⟩ :=
        h.waited rfl hstep hw (htimer.resolve_left hle)
      obtain ⟨m', hlt', u, hend, hu, hdrawn⟩ := ih m hlt hrest ht
        (htimer.elim (fun hpast => absurd hpast hle) (hkept deadline))
      refine ⟨m', Nat.lt_trans hlt' hlt, u, hend, hu, ?_⟩
      rw [hdrawn, hseen, World.sleepUntil_sleepUntil _ hmoment]

/-- The next member is drawn when it is ready, which may be at once. -/
theorem drawn (h : Runs ahead task n (.draw ⟨some (sequence, label), index, (delay, value) :: members,
      none⟩ :: rest) w texts v) (hw : w.OnTime) :
    ∃ m < n, ∃ u, Runs ahead task m (.item value :: .draw ⟨some (sequence, label), index + 1, members,
        none⟩ :: rest) u texts v ∧ u.OnTime ∧
      u.seen = (w.seen.sleepUntil (w.clock + delay)).note (.drawn sequence label index) := by
  by_cases hready : delay = 0
  · have hstep : (Work.draw ⟨some (sequence, label), index, (delay, value) :: members,
        none⟩).step ahead task w =
          (.next [.item value, .draw ⟨some (sequence, label), index + 1, members, none⟩],
            w.note (.drawn sequence label index)) := by
      simp only [Work.step, Feed.draw, if_pos hready]
      rfl
    have hnoted : (w.note (.drawn sequence label index)).OnTime := hw.kept (World.kept_note _ w)
    obtain ⟨m, hlt, hrest⟩ := h.stepped rfl hstep
    refine ⟨m, hlt, _, hrest, hnoted.tidied _, ?_⟩
    rw [World.seen_tidied, World.seen_note, hready, World.sleepUntil, World.seen_clock,
      Nat.add_zero, Nat.max_self]
    rfl
  · have hstep : (Work.draw ⟨some (sequence, label), index, (delay, value) :: members,
        none⟩).step ahead task w =
          (.wait (.draw ⟨some (sequence, label), index, (delay, value) :: members,
            some (w.clock + delay)⟩), w.setTimer delay (.task task)) := by
      simp only [Work.step, Feed.draw, if_neg hready]
    have htimer := w.mem_setTimer delay (.task task)
    obtain ⟨m, hlt, t, moment, hrest, ht, hkept, hmoment, hseen⟩ :=
      h.waited rfl hstep (hw.setTimer delay _) htimer
    obtain ⟨m', hlt', u, hend, hu, hdrawn⟩ := hrest.drawnAt ht (hkept _ htimer)
    refine ⟨m', Nat.lt_trans hlt' hlt, u, hend, hu, ?_⟩
    rw [hdrawn, hseen, World.sleepUntil_sleepUntil _ hmoment, World.seen_setTimer]

end Runs

/-! ## From a stream that was drained -/

/-- How the run goes on after the turn. -/
def Continues (ahead task : Nat) (texts : List String) (v : World) : Turn × List Work × World → Prop
  | (.fragment text, stack, u) => ∃ n more, texts = text :: more ∧
    Runs ahead task n stack (u.beginTurn task) more v
  | (.ended, _, u) => texts = [] ∧ v = u
  | (.blocked, stack, u) => ∃ n t, (if u.isWoken task then t = u else u.advance? = some t) ∧
    Runs ahead task n stack (t.beginTurn task) texts v
  | (.failed _, _, _) => False

theorem runs_of_turn {ahead task fuel : Nat} {works : List Work} {w v : World} {texts : List String}
    {answer : Turn × List Work × World} (h : Render.turn ahead fuel [] task works w = some answer)
    (hrest : Continues ahead task texts v answer) : ∃ n, Runs ahead task n works w texts v := by
  induction fuel generalizing works w with
  | zero =>
    rw [Render.turn] at h
    cases h
  | succ fuel ih =>
    cases works with
    | nil =>
      rw [Render.turn, Option.some.injEq] at h
      subst h
      obtain ⟨rfl, rfl⟩ := hrest
      exact ⟨0, .ended⟩
    | cons work rest =>
      by_cases hstepped : work.isStepped = true
      · rcases hstep : work.step ahead task w with ⟨progress, u⟩
        cases progress with
        | next more =>
          rw [Render.turn_step hstepped hstep, List.flatMap_nil, List.append_nil] at h
          obtain ⟨n, hrun⟩ := ih h
          exact ⟨n + 1, .step hstepped hstep hrun⟩
        | wait waiting =>
          rw [Render.turn_wait hstepped hstep, Option.some.injEq] at h
          subst h
          obtain ⟨n, t, hturn, hrun⟩ := hrest
          exact ⟨n + 1, .wait hstepped hstep hturn hrun⟩
      · cases work with
        | emit text =>
          rw [Render.turn, Option.some.injEq] at h
          subst h
          obtain ⟨n, more, rfl, hrun⟩ := hrest
          exact ⟨n + 1, .fragment hrun⟩
        | fail error =>
          rw [Render.turn, Option.some.injEq] at h
          subst h
          cases hrest
        | ahead lineup => exact ⟨0, .ahead⟩
        | _ => exact absurd rfl hstepped

namespace RenderStream

variable {fuel : Nat} {s t : RenderStream} {w u v : World} {texts : List String}

/-- The run from the next turn of the stream on. -/
def GetsThrough (s : RenderStream) (w : World) (texts : List String) (v : World) : Prop :=
  ∃ n, Runs s.config.concurrency s.task n s.stack (w.beginTurn s.task) texts v

/-- How the run goes on after something came out. -/
def GoesOn (t : RenderStream) (u : World) (texts : List String) (v : World) : Delivery → Prop
  | .fragment text => ∃ more, texts = text :: more ∧ t.GetsThrough u more v
  | .ended => texts = [] ∧ v = u
  | .failed _ => False

theorem getsThrough_of_await {out : Delivery} (h : s.await fuel w = some (out, t, u))
    (hrest : GoesOn t u texts v out) : s.GetsThrough w texts v := by
  induction fuel generalizing s w with
  | zero => cases h
  | succ fuel ih =>
    rw [await] at h
    split at h
    · cases h
    · rename_i hturn
      cases h
      obtain ⟨more, rfl, n, hrun⟩ := hrest
      exact runs_of_turn hturn ⟨n, more, rfl, hrun⟩
    · cases h
      cases hrest
    · rename_i hturn
      cases h
      exact runs_of_turn hturn hrest
    · rename_i stack u' hturn
      split at h
      · rename_i hwoken
        obtain ⟨n, hrun⟩ := ih h
        exact runs_of_turn hturn ⟨n, u', by rw [if_pos hwoken], hrun⟩
      · rename_i hwoken
        split at h
        · cases h
        · rename_i u'' hadvance
          obtain ⟨n, hrun⟩ := ih h
          exact runs_of_turn hturn ⟨n, u'', by rwa [if_neg hwoken], hrun⟩

/-- A stream that was drained without an error has got through. -/
theorem runs_of_drain {rounds : Nat} {before : List String} (hopen : s.IsOpen)
    (h : drain.go fuel rounds before s w = some (texts, none, v)) :
    ∃ more u, texts = before.reverse ++ more ∧ v.seen = u.seen ∧ s.GetsThrough w more u := by
  induction rounds generalizing before s w with
  | zero => cases h
  | succ rounds ih =>
    rw [drain.go] at h
    split at h
    · cases h
    · rename_i t u hpull
      cases h
      cases pulled hpull with
      | closed hclosed =>
        rw [hopen.closed] at hclosed
        cases hclosed
      | late _ hfailed =>
        rw [hopen.failed] at hfailed
        cases hfailed
      | ended _ hawait =>
        exact ⟨[], u, (List.append_nil _).symm, seen_drop _ u, getsThrough_of_await hawait ⟨rfl, rfl⟩⟩
    · cases h
    · rename_i text t u hpull
      cases pulled hpull with
      | @fragment _ stack _ _ _ hawait =>
        obtain ⟨more, r, htexts, hseen, hrun⟩ := ih (s := { s with stack })
          ⟨hopen.failed, hopen.closed, hopen.finished⟩ h
        refine ⟨text :: more, r, ?_, hseen, getsThrough_of_await hawait ⟨more, rfl, hrun⟩⟩
        rw [htexts, List.reverse_cons, List.append_assoc]
        rfl

end RenderStream

end TaggedMarkup
