import TaggedMarkup.Proofs.Render.Lazy

/-!
# What a stream delivers

The fragments of a render are taken one by one. What comes out, and what has happened by then, is what
the reference traversal says: the k-th fragment comes with the log that the traversal has at its k-th
fragment, and then the same error or the end. Opening a stream and dropping it do nothing that is
seen.

It does not matter past which of the two guards of a stream one takes.
-/

namespace TaggedMarkup

open RenderStream

namespace RenderStream

/-- How a stream goes on after a turn. -/
def proceed (rounds : Nat) (s : RenderStream) :
    Option (Turn × List Work × World) → Option (Delivery × RenderStream × World)
  | none => none
  | some (.fragment text, stack, w) => some (.fragment text, { s with stack }, w)
  | some (.failed error, stack, w) => some (.failed error, { s with stack }, w)
  | some (.ended, stack, w) => some (.ended, { s with stack }, w)
  | some (.blocked, stack, w) =>
    if w.isWoken s.task then await rounds { s with stack } w
    else match w.advance? with
      | none => none
      | some w => await rounds { s with stack } w

theorem await_succ (rounds : Nat) (s : RenderStream) (w : World) :
    s.await (rounds + 1) w = s.proceed rounds
      (Render.turn s.config.concurrency rounds [] s.task s.stack (w.beginTurn s.task)) := by
  rw [await]
  exact (proceed.eq_def ..).symm

end RenderStream

/-- How a render ends. -/
def Delivery.ofFailure : Option Error → Delivery
  | some error => .failed error
  | none => .ended

/-- What comes out first. -/
def firstOut : List Fragment → Option Error → Delivery
  | [], failure => .ofFailure failure
  | fragment :: _, _ => .fragment fragment.text

/-- After the first thing has come out, the log is right and the others are still to come. -/
def Left (ahead task : Nat) (out : List Fragment) (failure : Option Error)
    (log : List (Nat × Event)) (stack : List Work) (w : World) : Prop :=
  match out with
  | [] => w.log = log
  | fragment :: more =>
    w.log = fragment.log ∧ Gives ahead task stack (w.beginTurn task) more failure log

/-- With enough fuel, a stream delivers what `Gives` tells. -/
theorem Gives.delivers {ahead task : Nat} {works : List Work} {w : World} {out : List Fragment}
    {failure : Option Error} {log : List (Nat × Event)}
    (h : Gives ahead task works w out failure log) :
    ∃ enough stack v, Left ahead task out failure log stack v ∧
      ∀ fuel ≥ enough, ∀ rounds ≥ enough, ∀ s : RenderStream, s.task = task →
        s.config.concurrency = ahead →
          s.proceed rounds (Render.turn ahead fuel [] task works w) =
            some (firstOut out failure, { s with stack }, v) := by
  induction h with
  | @ended w =>
    refine ⟨1, [], w, rfl, fun fuel hfuel rounds _ s _ _ => ?_⟩
    obtain ⟨fuel, rfl⟩ := Nat.exists_eq_add_one_of_ne_zero (Nat.ne_of_gt hfuel)
    rw [Render.turn]
    rfl
  | @failed error rest w =>
    refine ⟨1, rest, w, rfl, fun fuel hfuel rounds _ s _ _ => ?_⟩
    obtain ⟨fuel, rfl⟩ := Nat.exists_eq_add_one_of_ne_zero (Nat.ne_of_gt hfuel)
    rw [Render.turn]
    rfl
  | @fragment text rest w out failure log hrest _ =>
    refine ⟨1, rest, w, ⟨rfl, hrest⟩, fun fuel hfuel rounds _ s _ _ => ?_⟩
    obtain ⟨fuel, rfl⟩ := Nat.exists_eq_add_one_of_ne_zero (Nat.ne_of_gt hfuel)
    rw [Render.turn]
    rfl
  | step hstepped hstep _ ih =>
    obtain ⟨enough, stack, v, hleft, ih⟩ := ih
    refine ⟨enough + 1, stack, v, hleft, fun fuel hfuel rounds hrounds s htask hahead => ?_⟩
    obtain ⟨fuel, rfl⟩ := Nat.exists_eq_add_one_of_ne_zero (Nat.ne_of_gt (Nat.zero_lt_of_lt hfuel))
    rw [Render.turn_step hstepped hstep, List.flatMap_nil, List.append_nil]
    exact ih fuel (by omega) rounds (by omega) s htask hahead
  | again hstepped hstep hwoken _ ih =>
    obtain ⟨enough, stack, v, hleft, ih⟩ := ih
    refine ⟨enough + 1, stack, v, hleft, fun fuel hfuel rounds hrounds s htask hahead => ?_⟩
    obtain ⟨fuel, rfl⟩ := Nat.exists_eq_add_one_of_ne_zero (Nat.ne_of_gt (Nat.zero_lt_of_lt hfuel))
    obtain ⟨rounds, rfl⟩ :=
      Nat.exists_eq_add_one_of_ne_zero (Nat.ne_of_gt (Nat.zero_lt_of_lt hrounds))
    subst htask hahead
    rw [Render.turn_wait hstepped hstep, proceed, if_pos hwoken, await_succ]
    exact ih rounds (by omega) rounds (by omega) _ rfl rfl
  | later hstepped hstep hwoken hadvance _ ih =>
    obtain ⟨enough, stack, v, hleft, ih⟩ := ih
    refine ⟨enough + 1, stack, v, hleft, fun fuel hfuel rounds hrounds s htask hahead => ?_⟩
    obtain ⟨fuel, rfl⟩ := Nat.exists_eq_add_one_of_ne_zero (Nat.ne_of_gt (Nat.zero_lt_of_lt hfuel))
    obtain ⟨rounds, rfl⟩ :=
      Nat.exists_eq_add_one_of_ne_zero (Nat.ne_of_gt (Nat.zero_lt_of_lt hrounds))
    subst htask hahead
    rw [Render.turn_wait hstepped hstep, proceed, if_neg (by rw [hwoken]; decide), hadvance]
    dsimp only
    rw [await_succ]
    exact ih rounds (by omega) rounds (by omega) _ rfl rfl

/-! ## Taking one thing after the other -/

namespace RenderStream

/-- Take so many things out of a stream, each with the log right after it. -/
def takes (poll : RenderStream → World → Option (Delivery × RenderStream × World)) :
    Nat → RenderStream → World →
      Option (List (Delivery × List (Nat × Event)) × RenderStream × World)
  | 0, s, w => some ([], s, w)
  | count + 1, s, w =>
    match poll s w with
    | none => none
    | some (out, s, w) =>
      match takes poll count s w with
      | none => none
      | some (outs, s, v) => some ((out, w.log) :: outs, s, v)

/-- Nothing has come out of the stream but fragments. -/
structure IsOpen (s : RenderStream) : Prop where
  failed : s.failed = false
  closed : s.closed = false
  finished : s.finished = false

variable {s : RenderStream} {w v : World} {fuel : Nat} {stack : List Work}

/-- A fragment passes both guards. -/
theorem poll_fragment (hopen : s.IsOpen) {text : String}
    (h : s.await fuel w = some (.fragment text, { s with stack }, v)) :
    ∀ poll ∈ [RenderStream.pull fuel, RenderStream.next fuel],
      poll s w = some (.fragment text, { s with stack }, v) := by
  obtain ⟨task, stack', config, failed, closed, finished⟩ := s
  obtain ⟨rfl, rfl, rfl⟩ := hopen
  intro poll hpoll
  rw [List.mem_cons, List.mem_singleton] at hpoll
  rcases hpoll with rfl | rfl
  · simp only [pull, h, Bool.false_eq_true, if_false]
  · simp only [RenderStream.next, pull, h, Bool.false_eq_true, if_false]

/-- So does the first error, or the end. -/
theorem poll_last (hopen : s.IsOpen) {failure : Option Error}
    (h : s.await fuel w = some (.ofFailure failure, { s with stack }, v)) :
    ∀ poll ∈ [RenderStream.pull fuel, RenderStream.next fuel],
      ∃ t, poll s w = some (.ofFailure failure, t, v) := by
  obtain ⟨task, stack', config, failed, closed, finished⟩ := s
  obtain ⟨rfl, rfl, rfl⟩ := hopen
  intro poll hpoll
  rw [List.mem_cons, List.mem_singleton] at hpoll
  cases failure with
  | none =>
    rw [Delivery.ofFailure] at h
    rcases hpoll with rfl | rfl
    · exact ⟨_, by simp only [pull, h, Bool.false_eq_true, if_false]; rfl⟩
    · exact ⟨_, by simp only [RenderStream.next, pull, h, Bool.false_eq_true, if_false]; rfl⟩
  | some error =>
    rw [Delivery.ofFailure] at h
    rcases hpoll with rfl | rfl
    · exact ⟨_, by simp only [pull, h, Bool.false_eq_true, if_false]; rfl⟩
    · exact ⟨_, by simp only [RenderStream.next, pull, h, Bool.false_eq_true, if_false]; rfl⟩

end RenderStream

/-- The things that come out of a render, each with the log right after it. -/
def deliveries (out : List Fragment) (failure : Option Error) (log : List (Nat × Event)) :
    List (Delivery × List (Nat × Event)) :=
  out.map (fun fragment => (.fragment fragment.text, fragment.log)) ++ [(.ofFailure failure, log)]

/-- A stream can be taken up to its error or its end, and gives what `Gives` tells. -/
theorem Gives.takes {s : RenderStream} {w : World} {out : List Fragment} {failure : Option Error}
    {log : List (Nat × Event)} (hopen : s.IsOpen)
    (h : Gives s.config.concurrency s.task s.stack (w.beginTurn s.task) out failure log) :
    ∃ enough, ∀ fuel ≥ enough, ∀ poll ∈ [RenderStream.pull fuel, RenderStream.next fuel],
      ∀ count ≤ out.length + 1, ∃ t v,
        s.takes poll count w = some ((deliveries out failure log).take count, t, v) := by
  induction out generalizing s w with
  | nil =>
    obtain ⟨enough, stack, v, hleft, hdelivers⟩ := h.delivers
    refine ⟨enough + 1, fun fuel hfuel poll hpoll count hcount => ?_⟩
    obtain ⟨fuel, rfl⟩ := Nat.exists_eq_add_one_of_ne_zero (Nat.ne_of_gt (Nat.zero_lt_of_lt hfuel))
    have hawait := hdelivers fuel (by omega) fuel (by omega) s rfl rfl
    rw [← await_succ] at hawait
    obtain ⟨t, ht⟩ := poll_last hopen hawait poll hpoll
    cases count with
    | zero => exact ⟨s, w, rfl⟩
    | succ count =>
      have hzero : count = 0 := Nat.le_zero.mp (Nat.le_of_succ_le_succ hcount)
      subst hzero
      refine ⟨t, v, ?_⟩
      simp only [RenderStream.takes, ht]
      rw [show v.log = log from hleft]
      rfl
  | cons first more ih =>
    obtain ⟨enough, stack, v, ⟨hlog, hmore⟩, hdelivers⟩ := h.delivers
    obtain ⟨enough', hrest⟩ := ih (s := { s with stack }) (w := v)
      ⟨hopen.failed, hopen.closed, hopen.finished⟩ hmore
    refine ⟨max (enough + 1) enough', fun fuel hfuel poll hpoll count hcount => ?_⟩
    obtain ⟨fuel, rfl⟩ := Nat.exists_eq_add_one_of_ne_zero (n := fuel) (by omega)
    have hawait := hdelivers fuel (by omega) fuel (by omega) s rfl rfl
    rw [← await_succ] at hawait
    have hpolled := poll_fragment hopen hawait poll hpoll
    cases count with
    | zero => exact ⟨s, w, rfl⟩
    | succ count =>
      obtain ⟨t, u, ht⟩ := hrest (fuel + 1) (by omega) poll hpoll count
        (Nat.le_of_succ_le_succ hcount)
      refine ⟨t, u, ?_⟩
      simp only [RenderStream.takes, hpolled, ht, hlog]
      rfl

/-! ## The whole -/

namespace RenderStream

/-- Giving a stream up does nothing that is seen. -/
theorem seen_drop (s : RenderStream) (w : World) : (s.drop w).seen = w.seen := by
  rw [drop, World.seen_modifyTask, World.seen_abandon]

/-- A stream that was opened in a world follows a visit: opening it did nothing that is seen; whatever
number of things is taken, past both guards or past the inner one only, they are those of the visit,
with the log as it is there; and giving the stream up then does nothing that is seen. -/
def Follows (w : World) (opened : RenderStream × World) (out : List Fragment)
    (result : Except Error Unit) (r : World) : Prop :=
  opened.2.seen = w.seen ∧
    ∃ enough, ∀ fuel ≥ enough, ∀ poll ∈ [RenderStream.pull fuel, RenderStream.next fuel],
      ∀ count ≤ out.length + 1, ∃ s v,
        opened.1.takes poll count opened.2 =
            some ((deliveries out (failure? result) r.log).take count, s, v) ∧
          (s.drop v).seen = v.seen
where
  failure? : Except Error Unit → Option Error
    | .error error => some error
    | .ok () => none

/-- A stream follows the visit that its stack plays. -/
theorem follows_start {config : RenderConfig} {works : List Work} {visit : Visit Unit}
    (hplays : ∀ task, Plays config.concurrency task works visit) {w : World} (hw : w.OnTime)
    {out : List Fragment} {result : Except Error Unit} {r : World}
    (hvisit : visit w.seen = some (out, result, r)) :
    Follows w (start config works w) out result r := by
  have hgives : Gives config.concurrency w.tasks.size works
      ((start config works w).2.beginTurn w.tasks.size) out (Follows.failure? result) r.log := by
    have hplays := hplays w.tasks.size
    rw [← List.append_nil works]
    cases result with
    | error error => exact hplays.failed (hw.congr rfl rfl) hvisit
    | ok u =>
      rw [← List.append_nil out]
      refine hplays.through (hw.congr rfl rfl) hvisit fun v hv hseen => ?_
      rw [← hseen]
      exact .ended
  obtain ⟨enough, htakes⟩ := Gives.takes (s := (start config works w).1) ⟨rfl, rfl, rfl⟩ hgives
  refine ⟨rfl, enough, fun fuel hfuel poll hpoll count hcount => ?_⟩
  obtain ⟨s, v, hs⟩ := htakes fuel hfuel poll hpoll count hcount
  exact ⟨s, v, hs, seen_drop s v⟩

/-- **Rendering is lazy.** Without rendering ahead, the stream of a root and the stream of an item
follow the reference traversal. -/
theorem follows_visit (config : RenderConfig) (hconfig : config.concurrency ≤ 1) (value : Value)
    (w : World) (hw : w.OnTime) (fuel : Nat) (out : List Fragment) (result : Except Error Unit)
    (r : World) :
    (Visit.root fuel value w.seen = some (out, result, r) →
        Follows w (ofRoot config value w) out result r) ∧
      (Visit.item fuel value w.seen = some (out, result, r) →
        Follows w (ofItem config value w) out result r) :=
  ⟨follows_start (fun _ => Plays.root hconfig fuel value) hw,
    follows_start (fun _ => Plays.item hconfig fuel value) hw⟩

/-- A world with one pending value, which takes three ticks. -/
def late : World := ((Action.pending (some "p") 3 [] (.give (.str "b")) .give).run {}).2

/-- The second fragment comes when the pending value has been started and is through. -/
theorem follows_visit_late :
    ∃ r : World, Visit.root 4 (.list [.str "a", .pending 0]) late.seen =
        some ([⟨"a", []⟩, ⟨"b", [(3, .finished 0 (some "p")), (0, .started 0 (some "p"))]⟩],
          .ok (), r) ∧
      Follows late (ofRoot {} (.list [.str "a", .pending 0]) late)
        [⟨"a", []⟩, ⟨"b", [(3, .finished 0 (some "p")), (0, .started 0 (some "p"))]⟩] (.ok ()) r := by
  have hseen : late.seen = late := by
    have hrun := (Action.pending (some "p") 3 [] (.give (.str "b")) .give).run_seen {}
    rw [World.seen_empty] at hrun
    exact (congrArg Prod.snd hrun).symm
  have hvisit : ∃ r : World, Visit.root 4 (.list [.str "a", .pending 0]) late.seen =
      some ([⟨"a", []⟩, ⟨"b", [(3, .finished 0 (some "p")), (0, .started 0 (some "p"))]⟩],
        .ok (), r) := by
    rw [hseen]
    exact ⟨_, rfl⟩
  obtain ⟨r, hvisit⟩ := hvisit
  exact ⟨r, hvisit, (follows_visit {} (by decide) _ late (World.onTime_empty.run _) 4 _ _ r).1 hvisit⟩

end RenderStream

end TaggedMarkup
