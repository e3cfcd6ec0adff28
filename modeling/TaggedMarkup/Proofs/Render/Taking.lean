import Mathlib.Data.List.Permutation
import TaggedMarkup.Proofs.Render.Delivery
import TaggedMarkup.Proofs.Render.Fuel

/-!
# Taking a render

A stream can be **taken** fragment by fragment or chunk by chunk, with chunks of any size, in any
mixture; at last all the rest can be taken, which uses the stream up.

Once an error has come out, a stream is **broken**: whatever is taken from then on, it reports that
there is nothing more. Taking single fragments or chunks then does nothing at all. Taking the rest at
once goes past the outer guard, so it looks for one more fragment, in vain, and that look does what is
needed to find it (`performAll_broken`).
-/

namespace TaggedMarkup

/-- One way of taking something out of a stream. -/
inductive Taking where
  | next
  | chunk
  /-- choose how many fragments make a chunk -/
  | buffer (fragments : Nat)

/-- What was taken. -/
inductive Taken where
  | one (out : Delivery)
  /-- a chunk, and how many fragments made one -/
  | chunk (limit : Nat) (result : Except Error (Option (List String)))
  | buffer (fragments : Nat)

/-- One way of taking all the rest. -/
inductive Finale where
  | collect
  | text
  /-- chunk by chunk; the callback is told the number of the chunk -/
  | each (callback : Nat → List String → Option Error)

/-- What was taken of the rest. -/
inductive Remainder where
  | collected (result : Except Error (List String))
  | text (result : Except Error String)
  /-- the chunks that were handed over -/
  | handed (chunks : List (List String)) (failure : Option Error)

namespace Taken

/-- An error was reported. -/
def IsError : Taken → Prop
  | one (.failed _) | chunk _ (.error _) => True
  | _ => False

/-- It was reported that there is nothing more. -/
def IsExhausted : Taken → Prop
  | one out => out = .ended
  | chunk _ result => result = .ok none
  | buffer _ => True

end Taken

namespace RenderStream

/-- Take something out of a stream. -/
def perform (fuel : Nat) (taking : Taking) (s : RenderStream) (w : World) :
    Option (Taken × RenderStream × World) :=
  match taking with
  | .next => (s.next fuel w).map fun (out, s, w) => (.one out, s, w)
  | .chunk => (s.nextChunk fuel w).map fun (result, t, w) => (.chunk s.config.buffer result, t, w)
  | .buffer fragments =>
    let s := s.withBuffer fragments
    some (.buffer s.config.buffer, s, w)

/-- Take one thing after the other. -/
def performAll (fuel : Nat) :
    List Taking → RenderStream → World → Option (List Taken × RenderStream × World)
  | [], s, w => some ([], s, w)
  | taking :: rest, s, w =>
    match s.perform fuel taking w with
    | none => none
    | some (taken, s, w) => (performAll fuel rest s w).map fun (more, s, w) => (taken :: more, s, w)

/-- Take all the rest. -/
def finish (fuel : Nat) (finale : Finale) (s : RenderStream) (w : World) :
    Option (Remainder × World) :=
  match finale with
  | .collect => (s.drain fuel w).map fun
    | (_, some error, w) => (.collected (.error error), w)
    | (texts, none, w) => (.collected (.ok texts), w)
  | .text => (s.drain fuel w).map fun
    | (_, some error, w) => (.text (.error error), w)
    | (texts, none, w) => (.text (.ok (String.join texts)), w)
  | .each callback => (s.forEachChunk fuel callback w).map fun
    | (chunks, failure, w) => (.handed chunks failure, w)

variable {fuel : Nat} {s t : RenderStream} {w v : World}

/-! ## What a look changes in a stream -/

/-- Looking for what comes next only changes what is left to do. -/
theorem await_eq_stack {out : Delivery} (h : s.await fuel w = some (out, t, v)) :
    ∃ stack, t = { s with stack } := by
  induction fuel generalizing s w with
  | zero => cases h
  | succ fuel ih =>
    rw [await] at h
    split at h
    · cases h
    · cases h
      exact ⟨_, rfl⟩
    · cases h
      exact ⟨_, rfl⟩
    · cases h
      exact ⟨_, rfl⟩
    · rename_i stack u _
      split at h
      · obtain ⟨last, rfl⟩ := ih h
        exact ⟨last, rfl⟩
      · split at h
        · cases h
        · obtain ⟨last, rfl⟩ := ih h
          exact ⟨last, rfl⟩

/-- What comes out past the inner guard. -/
inductive Pulled (fuel : Nat) (s : RenderStream) (w : World) : Delivery → RenderStream → World → Prop
  | closed (hclosed : s.closed = true) : Pulled fuel s w .ended s w
  | ended {stack : List Work} {v : World} (hclosed : s.closed = false)
    (hawait : s.await fuel w = some (.ended, { s with stack }, v)) :
      Pulled fuel s w .ended { s with stack } v
  /-- after an error whatever is found is thrown away -/
  | late {found : Delivery} {stack : List Work} {v : World} (hclosed : s.closed = false)
    (hfailed : s.failed = true) (hawait : s.await fuel w = some (found, { s with stack }, v)) :
      Pulled fuel s w .ended { s with stack, closed := true } v
  | fragment {text : String} {stack : List Work} {v : World} (hclosed : s.closed = false)
    (hfailed : s.failed = false)
    (hawait : s.await fuel w = some (.fragment text, { s with stack }, v)) :
      Pulled fuel s w (.fragment text) { s with stack } v
  | failed {error : Error} {stack : List Work} {v : World} (hclosed : s.closed = false)
    (hfailed : s.failed = false)
    (hawait : s.await fuel w = some (.failed error, { s with stack }, v)) :
      Pulled fuel s w (.failed error) { s with stack, failed := true } v

theorem pulled {out : Delivery} (h : s.pull fuel w = some (out, t, v)) : Pulled fuel s w out t v := by
  rw [pull] at h
  by_cases hclosed : s.closed = true
  · rw [if_pos hclosed] at h
    cases h
    exact .closed hclosed
  rw [if_neg hclosed] at h
  rw [Bool.not_eq_true] at hclosed
  cases hawait : s.await fuel w with
  | none => simp [hawait] at h
  | some answer =>
    obtain ⟨found, t', u⟩ := answer
    obtain ⟨stack, rfl⟩ := await_eq_stack hawait
    rw [hawait] at h
    -- the end is handed on in any case; after an error, anything else counts as the end
    by_cases hfailed : s.failed = true
    · cases found with
      | ended =>
        cases h
        exact .ended hclosed hawait
      | fragment text | failed error =>
        dsimp only at h
        rw [if_pos hfailed] at h
        cases h
        exact .late hclosed hfailed hawait
    · have hfalse : s.failed = false := Bool.not_eq_true _ ▸ hfailed
      cases found with
      | ended =>
        cases h
        exact .ended hclosed hawait
      | fragment text =>
        dsimp only at h
        rw [if_neg hfailed] at h
        cases h
        exact .fragment hclosed hfalse hawait
      | failed error =>
        dsimp only at h
        rw [if_neg hfailed] at h
        cases h
        exact .failed hclosed hfalse hawait

/-- What comes out past both guards. -/
inductive Nexted (fuel : Nat) (s : RenderStream) (w : World) : Delivery → RenderStream → World → Prop
  | finished (hfinished : s.finished = true) : Nexted fuel s w .ended s w
  | fragment {text : String} {t : RenderStream} {v : World} (hfinished : s.finished = false)
    (hpulled : Pulled fuel s w (.fragment text) t v) : Nexted fuel s w (.fragment text) t v
  | last {out : Delivery} {t : RenderStream} {v : World} (hfinished : s.finished = false)
    (hpulled : Pulled fuel s w out t v) (hout : ∀ text, out ≠ .fragment text) :
      Nexted fuel s w out { t with finished := true } v

theorem nexted {out : Delivery} (h : s.next fuel w = some (out, t, v)) : Nexted fuel s w out t v := by
  rw [RenderStream.next] at h
  by_cases hfinished : s.finished = true
  · rw [if_pos hfinished] at h
    cases h
    exact .finished hfinished
  rw [if_neg hfinished] at h
  rw [Bool.not_eq_true] at hfinished
  cases hpull : s.pull fuel w with
  | none => simp [hpull] at h
  | some answer =>
    obtain ⟨out', t', u⟩ := answer
    rw [hpull] at h
    cases out' with
    | fragment text =>
      cases h
      exact .fragment hfinished (pulled hpull)
    | failed error | ended =>
      cases h
      exact .last hfinished (pulled hpull) fun _ => Delivery.noConfusion

/-! ## After an error -/

/-- An error has come out, and nothing after it. -/
structure IsBroken (s : RenderStream) : Prop where
  failed : s.failed = true
  finished : s.finished = true
  closed : s.closed = false

/-- An error breaks a stream. -/
theorem isBroken_of_next {error : Error} (h : s.next fuel w = some (.failed error, t, v)) :
    t.IsBroken := by
  cases nexted h with
  | last _ hpulled _ =>
    cases hpulled with
    | failed hclosed _ _ => exact ⟨rfl, rfl, hclosed⟩

theorem isBroken_of_gather {error : Error} {size : Nat}
    (h : gather fuel size s w = some (.error error, t, v)) : t.IsBroken := by
  induction size generalizing s w with
  | zero => cases h
  | succ size ih =>
    rw [gather] at h
    cases hnext : s.next fuel w with
    | none => simp [hnext] at h
    | some answer =>
      obtain ⟨out, t', u⟩ := answer
      rw [hnext] at h
      cases out with
      | ended => cases h
      | failed error' =>
        cases h
        exact isBroken_of_next hnext
      | fragment text =>
        -- a fragment does not fail, so the error is among those after it
        cases hmore : gather fuel size t' u with
        | none => simp [hmore] at h
        | some more =>
          obtain ⟨result, t'', u'⟩ := more
          cases result with
          | ok texts => simp [hmore] at h
          | error error' =>
            simp only [hmore] at h
            cases h
            exact ih hmore

theorem IsBroken.withBuffer (h : s.IsBroken) (fragments : Nat) : (s.withBuffer fragments).IsBroken :=
  ⟨h.failed, h.finished, h.closed⟩

/-- Whatever reports an error breaks the stream. -/
theorem isBroken_of_perform {taking : Taking} {taken : Taken}
    (h : s.perform fuel taking w = some (taken, t, v)) (herror : taken.IsError) : t.IsBroken := by
  cases taking with
  | next =>
    obtain ⟨⟨out, t', u⟩, hnext, heq⟩ := Option.map_eq_some_iff.mp h
    cases heq
    cases out with
    | failed error => exact isBroken_of_next hnext
    | fragment text | ended => cases herror
  | chunk =>
    obtain ⟨⟨result, t', u⟩, hchunk, heq⟩ := Option.map_eq_some_iff.mp h
    cases heq
    cases result with
    | ok texts => cases herror
    | error error =>
      rw [nextChunk] at hchunk
      split at hchunk
      · cases hchunk
      · split at hchunk
        · cases hchunk
        · rename_i hgather
          cases hchunk
          exact isBroken_of_gather hgather
        · cases hchunk
  | buffer fragments =>
    cases h
    cases herror

/-- The stream has come as far as the other one, and wants the same. -/
structure SameRest (t s : RenderStream) : Prop where
  stack : t.stack = s.stack
  task : t.task = s.task
  concurrency : t.config.concurrency = s.config.concurrency

/-- A broken stream has nothing more to give, and does nothing. -/
theorem IsBroken.perform (h : s.IsBroken) (fuel : Nat) (taking : Taking) (w : World) :
    ∃ taken t, s.perform fuel taking w = some (taken, t, w) ∧ taken.IsExhausted ∧ t.IsBroken ∧
      t.SameRest s := by
  cases taking with
  | next =>
    refine ⟨.one .ended, s, ?_, rfl, h, rfl, rfl, rfl⟩
    rw [RenderStream.perform, RenderStream.next, if_pos h.finished]
    rfl
  | chunk =>
    refine ⟨.chunk s.config.buffer (.ok none), s, ?_, rfl, h, rfl, rfl, rfl⟩
    rw [RenderStream.perform, nextChunk, if_pos h.finished]
    rfl
  | buffer fragments => exact ⟨_, _, rfl, trivial, h.withBuffer fragments, rfl, rfl, rfl⟩

theorem IsBroken.performAll (h : s.IsBroken) (fuel : Nat) (takings : List Taking) (w : World) :
    ∃ taken t, s.performAll fuel takings w = some (taken, t, w) ∧ taken.length = takings.length ∧
      (∀ one ∈ taken, one.IsExhausted) ∧ t.IsBroken ∧ t.SameRest s := by
  induction takings generalizing s with
  | nil => exact ⟨[], s, rfl, rfl, nofun, h, rfl, rfl, rfl⟩
  | cons taking rest ih =>
    obtain ⟨one, t, hone, hexhausted, ht, hsame⟩ := h.perform fuel taking w
    obtain ⟨more, u, hmore, hlength, hall, hu, hrest⟩ := ih ht
    refine ⟨one :: more, u, ?_, congrArg (· + 1) hlength, ?_, hu, hrest.stack.trans hsame.stack,
      hrest.task.trans hsame.task, hrest.concurrency.trans hsame.concurrency⟩
    · rw [RenderStream.performAll, hone]
      dsimp only
      rw [hmore]
      rfl
    · rintro one' (_ | ⟨_, hmem⟩)
      · exact hexhausted
      · exact hall one' hmem

/-- After an error among what was taken, the stream is broken. -/
theorem isBroken_of_performAll {takings : List Taking} {taken : List Taken}
    (h : s.performAll fuel takings w = some (taken, t, v)) (herror : ∃ one ∈ taken, one.IsError) :
    t.IsBroken := by
  induction takings generalizing s w taken with
  | nil =>
    cases h
    obtain ⟨one, hmem, -⟩ := herror
    cases hmem
  | cons taking rest ih =>
    rw [RenderStream.performAll] at h
    cases hone : s.perform fuel taking w with
    | none => simp [hone] at h
    | some answer =>
      obtain ⟨one, s', w'⟩ := answer
      rw [hone] at h
      obtain ⟨⟨more, t', v'⟩, hmore, heq⟩ := Option.map_eq_some_iff.mp h
      cases heq
      obtain ⟨one', hmem, herror'⟩ := herror
      rcases List.mem_cons.mp hmem with rfl | hmem
      · -- the error has just come out, and the stream stays broken
        obtain ⟨_, u, hrest, -, -, hu, -⟩ :=
          (isBroken_of_perform hone herror').performAll fuel rest w'
        rw [hmore] at hrest
        cases hrest
        exact hu
      · exact ih hmore ⟨one', hmem, herror'⟩

/-- Handing the rest over chunk by chunk, a broken stream hands nothing over and does nothing. -/
theorem IsBroken.each (h : s.IsBroken) (fuel : Nat)
    (callback : Nat → List String → Option Error) (w : World) :
    s.finish (fuel + 1) (.each callback) w = some (.handed [] none, s.drop w) := by
  rw [finish, forEachChunk, forEachChunk.go, nextChunk, if_pos h.finished]
  rfl

/-- Draining a broken stream looks for one more fragment and throws away what it finds. -/
theorem IsBroken.drain (h : s.IsBroken) {found : Delivery}
    (hawait : s.await fuel w = some (found, t, v)) :
    ∃ u, s.drain fuel w = some ([], none, u) ∧ u.seen = v.seen := by
  cases fuel with
  | zero => cases hawait
  | succ fuel =>
    rw [RenderStream.drain, drain.go, pull, h.closed, hawait]
    obtain ⟨stack, rfl⟩ := await_eq_stack hawait
    cases found with
    | ended => exact ⟨_, rfl, seen_drop _ _⟩
    | fragment text | failed error =>
      simp only [Bool.false_eq_true, if_false, h.failed, if_true]
      exact ⟨_, rfl, seen_drop _ _⟩

/-- Where nothing is left to do, there is nothing to find, and nothing happens. -/
theorem await_of_stack_eq_nil (h : s.stack = []) (fuel : Nat) (w : World) :
    s.await (fuel + 2) w = some (.ended, s, w.beginTurn s.task) := by
  obtain ⟨task, stack, config, failed, closed, finished⟩ := s
  cases h
  rw [await, Render.turn]

/-- **An error ends what a stream reports.** After an error everything that is taken reports that there
is nothing more, and the rest is empty. Single fragments, chunks and handing the rest over chunk by
chunk do nothing that is seen. Collecting the rest, as a list or as a text, does what looking for one
more fragment does: nothing that is seen if nothing was left to do. -/
theorem performAll_broken {takings : List Taking} {taken : List Taken}
    (h : s.performAll fuel takings w = some (taken, t, v)) (herror : ∃ one ∈ taken, one.IsError)
    (more : Nat) (later : List Taking) :
    ∃ reports u, t.performAll more later v = some (reports, u, v) ∧
      reports.length = later.length ∧ (∀ report ∈ reports, report.IsExhausted) ∧
      (∀ callback, ∃ x, u.finish (more + 1) (.each callback) v = some (.handed [] none, x) ∧
        x.seen = v.seen) ∧
      (∀ found s' v', u.await more v = some (found, s', v') →
        ∃ x, u.finish more .collect v = some (.collected (.ok []), x) ∧
          u.finish more .text v = some (.text (.ok ""), x) ∧ x.seen = v'.seen) ∧
      (t.stack = [] → ∃ x, u.finish (more + 2) .collect v = some (.collected (.ok []), x) ∧
        u.finish (more + 2) .text v = some (.text (.ok ""), x) ∧ x.seen = v.seen) := by
  have hbroken := isBroken_of_performAll h herror
  obtain ⟨reports, u, hreports, hlength, hexhausted, hu, hsame⟩ := hbroken.performAll more later v
  have hdrained : ∀ {fuel found s' v'}, u.await fuel v = some (found, s', v') →
      ∃ x, u.finish fuel .collect v = some (.collected (.ok []), x) ∧
        u.finish fuel .text v = some (.text (.ok ""), x) ∧ x.seen = v'.seen := by
    intro fuel found s' v' hawait
    obtain ⟨x, hdrain, hseen⟩ := hu.drain hawait
    refine ⟨x, ?_, ?_, hseen⟩
    · rw [finish, hdrain]
      rfl
    · rw [finish, hdrain]
      rfl
  refine ⟨reports, u, hreports, hlength, hexhausted, fun callback => ?_, fun _ _ _ => hdrained,
    fun hempty => ?_⟩
  · exact ⟨_, hu.each more callback v, seen_drop u v⟩
  · obtain ⟨x, hcollect, htext, hseen⟩ :=
      hdrained (await_of_stack_eq_nil (hsame.stack.trans hempty) more v)
    exact ⟨x, hcollect, htext, hseen.trans (World.seen_beginTurn ..)⟩

/-- A world with one component, which is shown when it is called. -/
def loud : World :=
  ((Action.component "c" (some "c") [] (fun _ _ => .give (.str "x")) .give).run {}).2

/-- The root is a boolean, which is an error, and an element of the component after it. -/
def faulty : RenderStream × World :=
  ofRoot {} (.list [.bool true, .element ⟨0, .component ⟨0, "c"⟩, [], [], false⟩]) loud

/-- The error of the boolean. -/
def fault : Error := .invalidRoot "Expected a string or an object, got: boolean"

/-- `performAll_broken` after the error of the boolean: fragments and chunks come to nothing. -/
theorem performAll_broken_faulty :
    ∃ t v, faulty.1.performAll 9 [.next] faulty.2 = some ([.one (.failed fault)], t, v) ∧
      ∃ reports u, t.performAll 9 [.next, .buffer 2, .chunk] v = some (reports, u, v) ∧
        reports.length = 3 ∧ (∀ report ∈ reports, report.IsExhausted) := by
  obtain ⟨t, v, h⟩ : ∃ t v, faulty.1.performAll 9 [.next] faulty.2 =
    some ([.one (.failed fault)], t, v) := ⟨_, _, by cbv⟩
  obtain ⟨reports, u, hreports, hlength, hexhausted, -⟩ :=
    performAll_broken h ⟨_, List.mem_singleton_self _, trivial⟩ 9 [.next, .buffer 2, .chunk]
  exact ⟨t, v, h, reports, u, hreports, hlength, hexhausted⟩

/-- Collecting the rest after the error calls the component, which single fragments do not. -/
theorem finish_faulty_calls :
    ∃ t v u, faulty.1.performAll 9 [.next] faulty.2 = some ([.one (.failed fault)], t, v) ∧
      v.log = [] ∧ t.finish 9 .collect v = some (.collected (.ok []), u) ∧
      u.log = [(0, .called 0 (some "c"))] :=
  ⟨_, _, _, by cbv, by cbv, by cbv, by cbv⟩

end RenderStream

end TaggedMarkup
