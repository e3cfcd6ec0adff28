import Mathlib
import TaggedMarkup.Proofs.Render.Ahead
import TaggedMarkup.Proofs.Render.Wholeness

/-!
# Renders keep within their windows

Whatever is taken of a render, at every moment of it and in each of its windows, members have come in, begun
and left in their order, and no more than `concurrency` of them are inside (`withinWindows`).

This holds up to the first error and for everything that is taken fragment by fragment or chunk by chunk
after it. Taking all the rest at once after an error looks for one more fragment: then a member comes in for
which there was no room while those before it had not left (`finish_crowded`).
-/

namespace TaggedMarkup

open World

section

variable {mark : Nat} {is : Option Nat} {w v : World} {ls : List Lineup} {stack : List Work}

theorem Settled.spared (h : Settled mark is w ls) (hspares : Spares mark [] w v) : Settled mark is v ls :=
  ⟨fun l hl => (h.steady l hl).spared hspares List.not_mem_nil, h.nodup⟩

/-- A stack stays ready while nothing happens to its windows. -/
theorem Work.Ready.spared (h : Work.Ready mark w stack) (hspares : Spares mark [] w v) :
    Work.Ready mark v stack := by
  cases h with
  | resting hquiet hsettled => exact .resting hquiet (hsettled.spared hspares)
  | @leaving texts l rest hquiet hsettled =>
    have hlt := (hsettled.steady l List.mem_cons_self).lt_size
    have hcount : count .left l.window (w.since mark) = count .left l.window (v.since mark) :=
      congrArg List.length (hspares.passed List.not_mem_nil hlt _).symm
    rw [hcount]
    exact .leaving texts hquiet (hsettled.spared hspares)

end

namespace RenderStream

variable {ahead mark fuel : Nat} {s t : RenderStream} {w v : World}

/-- No error has come out of the stream, and what is left to do is ready for a turn. -/
structure IsSteady (mark : Nat) (s : RenderStream) (w : World) : Prop where
  ready : Work.Ready mark w s.stack
  task : w.IsTaskOf none s.task
  failed : s.failed = false

/-- The log is orderly, and so it will be unless one looks for more after an error. -/
structure IsOrderly (ahead mark : Nat) (s : RenderStream) (w : World) : Prop where
  orderly : w.Orderly ahead mark
  concurrency : s.config.concurrency = ahead
  rest : s.IsBroken ∨ s.IsSteady mark w

/-- Looking for what comes next. -/
theorem IsSteady.await (h : s.IsSteady mark w) (hw : w.Orderly s.config.concurrency mark)
    {out : Delivery} (hawait : s.await fuel w = some (out, t, v)) :
    v.Orderly s.config.concurrency mark ∧
      ((∀ error, out ≠ .failed error) → t.IsSteady mark v) := by
  induction fuel generalizing s w with
  | zero => cases hawait
  | succ fuel ih =>
    have hbegin : Spares mark [] w (w.beginTurn s.task) := spares_beginTurn none h.task
    have hturned : ∀ {out stack u}, Render.turn s.config.concurrency fuel [] s.task s.stack
        (w.beginTurn s.task) = some (out, stack, u) →
        u.Orderly s.config.concurrency mark ∧ u.IsTaskOf none s.task ∧
          out.LeavesBehind mark (Work.lineupsOfAll s.stack) (w.beginTurn s.task).windows.size stack u := by
      intro out stack u hturn
      obtain ⟨hmoved, hleaves⟩ := (Render.Admits.all s.config.concurrency fuel mark).turn
        (hw.beginTurn s.task) (h.ready.spared hbegin) hturn
      exact ⟨hmoved.orderly, hmoved.spares.tasks (hbegin.tasks h.task), hleaves⟩
    rw [RenderStream.await] at hawait
    split at hawait
    · cases hawait
    · rename_i hturn
      cases hawait
      obtain ⟨horderly, htask, hready, -⟩ := hturned hturn
      exact ⟨horderly, fun _ => ⟨hready, htask, h.failed⟩⟩
    · rename_i error _ _ hturn
      cases hawait
      exact ⟨(hturned hturn).1, fun hsound => absurd rfl (hsound error)⟩
    · rename_i hturn
      cases hawait
      obtain ⟨horderly, htask, -⟩ := hturned hturn
      cases Render.stack_eq_nil_of_turn hturn
      exact ⟨horderly, fun _ => ⟨.resting (List.forall_mem_nil _) (settled_nil ..), htask, h.failed⟩⟩
    · rename_i stack u hturn
      obtain ⟨horderly, htask, hquiet, hsettled, -⟩ := hturned hturn
      split at hawait
      · exact ih (s := { s with stack }) ⟨.resting hquiet hsettled, htask, h.failed⟩ horderly hawait
      · split at hawait
        · cases hawait
        · rename_i hadvance
          have hcalm := calm_advance hadvance
          exact ih (s := { s with stack }) ⟨.resting hquiet (hsettled.spared (hcalm.spares horderly [])),
            hcalm.tasks htask, h.failed⟩ (hcalm.orderly horderly) hawait

/-- What comes next, past the inner guard. -/
theorem IsSteady.pull (h : s.IsSteady mark w) (hw : w.Orderly s.config.concurrency mark)
    {out : Delivery} (hpull : s.pull fuel w = some (out, t, v)) :
    v.Orderly s.config.concurrency mark ∧ ((∀ error, out ≠ .failed error) → t.IsSteady mark v) := by
  cases pulled hpull with
  | closed => exact ⟨hw, fun _ => h⟩
  | ended _ hawait => exact h.await hw hawait
  | late _ hfailed _ => exact absurd hfailed (by simp [h.failed])
  | fragment _ _ hawait => exact h.await hw hawait
  | failed _ _ hawait => exact ⟨(h.await hw hawait).1, fun hsound => absurd rfl (hsound _)⟩

/-- What comes next, past both guards. -/
theorem IsOrderly.next (h : s.IsOrderly ahead mark w) {out : Delivery}
    (hnext : s.next fuel w = some (out, t, v)) : t.IsOrderly ahead mark v := by
  obtain ⟨hw, rfl, hrest⟩ := h
  cases nexted hnext with
  | finished => exact ⟨hw, rfl, hrest⟩
  | @fragment text _ _ hfinished hpulled =>
    have hsteady := hrest.resolve_left fun hbroken => absurd hbroken.finished (by simp [hfinished])
    cases hpulled with
    | fragment _ _ hawait =>
      obtain ⟨hv, ht⟩ := hsteady.await hw hawait
      exact ⟨hv, rfl, .inr (ht nofun)⟩
  | last hfinished hpulled hout =>
    have hsteady := hrest.resolve_left fun hbroken => absurd hbroken.finished (by simp [hfinished])
    cases hpulled with
    | closed => exact ⟨hw, rfl, .inr ⟨hsteady.ready, hsteady.task, hsteady.failed⟩⟩
    | ended _ hawait =>
      obtain ⟨hv, ht⟩ := hsteady.await hw hawait
      have ht := ht nofun
      exact ⟨hv, rfl, .inr ⟨ht.ready, ht.task, ht.failed⟩⟩
    | late _ hfailed _ => exact absurd hfailed (by simp [hsteady.failed])
    | fragment => exact absurd rfl (hout _)
    | failed hclosed _ hawait => exact ⟨(hsteady.await hw hawait).1, rfl, .inl ⟨rfl, rfl, hclosed⟩⟩

theorem IsOrderly.takeUpTo {size : Nat} {texts : List String} {failure : Option Error}
    (h : s.IsOrderly ahead mark w) (htake : s.takeUpTo fuel size w = some (texts, failure, t, v)) :
    t.IsOrderly ahead mark v := by
  induction size generalizing s w texts with
  | zero =>
    cases htake
    exact h
  | succ size ih =>
    cases takesUpTo htake with
    | ended hnext | failed hnext => exact h.next hnext
    | fragment hnext hrest => exact ih (h.next hnext) hrest

theorem IsOrderly.nextChunk {result : Except Error (Option (List String))}
    (h : s.IsOrderly ahead mark w) (hchunk : s.nextChunk fuel w = some (result, t, v)) :
    t.IsOrderly ahead mark v := by
  rw [nextChunk_eq, Option.map_eq_some_iff] at hchunk
  obtain ⟨⟨texts, failure, t', v'⟩, htake, heq⟩ := hchunk
  cases heq
  exact h.takeUpTo htake

theorem IsOrderly.withBuffer (h : s.IsOrderly ahead mark w) (fragments : Nat) :
    (s.withBuffer fragments).IsOrderly ahead mark w where
  orderly := h.orderly
  concurrency := h.concurrency
  rest := h.rest.imp (·.withBuffer fragments) fun h => ⟨h.ready, h.task, h.failed⟩

theorem IsOrderly.performAll {takings : List Taking} {taken : List Taken}
    (h : s.IsOrderly ahead mark w) (hall : s.performAll fuel takings w = some (taken, t, v)) :
    t.IsOrderly ahead mark v := by
  induction takings generalizing s w taken with
  | nil =>
    cases hall
    exact h
  | cons taking rest ih =>
    rw [RenderStream.performAll] at hall
    cases hone : s.perform fuel taking w with
    | none => simp [hone] at hall
    | some answer =>
      obtain ⟨one, s', w'⟩ := answer
      rw [hone] at hall
      obtain ⟨⟨more, t', v'⟩, hmore, heq⟩ := Option.map_eq_some_iff.mp hall
      cases heq
      refine ih ?_ hmore
      cases taking with
      | next =>
        obtain ⟨⟨out, _, _⟩, hnext, heq⟩ := Option.map_eq_some_iff.mp hone
        cases heq
        exact h.next hnext
      | chunk =>
        obtain ⟨⟨result, _, _⟩, hchunk, heq⟩ := Option.map_eq_some_iff.mp hone
        cases heq
        exact h.nextChunk hchunk
      | buffer fragments =>
        cases hone
        exact h.withBuffer fragments

/-! ## All the rest -/

theorem calm_drop (s : RenderStream) (w : World) : Calm w (s.drop w) := by
  refine (calm_abandon [] s.stack w).trans (calm_modifyTask s.task _ (fun cell => ?_) fun cell h => ?_)
  · rfl
  · exact h

/-- Taking everything ends with the error, if there is one. -/
theorem IsSteady.drain_go {rounds : Nat} {before texts : List String} {failure : Option Error}
    (h : s.IsSteady mark w) (hw : w.Orderly s.config.concurrency mark)
    (hdrain : drain.go fuel rounds before s w = some (texts, failure, v)) :
    v.Orderly s.config.concurrency mark := by
  induction rounds generalizing s w before with
  | zero => cases hdrain
  | succ rounds ih =>
    rw [drain.go] at hdrain
    cases hpull : s.pull fuel w with
    | none => simp [hpull] at hdrain
    | some answer =>
      obtain ⟨out, t, u⟩ := answer
      obtain ⟨hu, ht⟩ := h.pull hw hpull
      rw [hpull] at hdrain
      cases out with
      | ended | failed error =>
        cases hdrain
        exact (calm_drop t u).orderly hu
      | fragment text =>
        have hsame : t.config = s.config := by
          cases pulled hpull with
          | fragment => rfl
        rw [← hsame] at hu ⊢
        exact ih (ht fun _ h => by cases h) hu hdrain

/-- Handing over chunk by chunk stops at an error, also at an earlier one. -/
theorem IsOrderly.each_go {rounds : Nat} {callback : Nat → List String → Option Error}
    {before chunks : List (List String)} {failure : Option Error} (h : s.IsOrderly ahead mark w)
    (heach : forEachChunk.go fuel callback rounds before s w = some (chunks, failure, v)) :
    v.Orderly ahead mark := by
  induction rounds generalizing s w before with
  | zero => cases heach
  | succ rounds ih =>
    rw [forEachChunk.go] at heach
    cases hchunk : s.nextChunk fuel w with
    | none => simp [hchunk] at heach
    | some answer =>
      obtain ⟨result, t, u⟩ := answer
      have ht := h.nextChunk hchunk
      rw [hchunk] at heach
      rcases result with error | _ | chunk
      · cases heach
        exact (calm_drop t u).orderly ht.orderly
      · cases heach
        exact (calm_drop t u).orderly ht.orderly
      · dsimp only at heach
        split at heach
        · cases heach
          exact (calm_drop t u).orderly ht.orderly
        · exact ih ht heach

theorem IsOrderly.finish {finale : Finale} {remainder : Remainder} (h : s.IsOrderly ahead mark w)
    (hfinale : s.IsSteady mark w ∨ ∃ callback, finale = .each callback)
    (hfinish : s.finish fuel finale w = some (remainder, v)) : v.Orderly ahead mark := by
  have hdrain : ∀ {texts failure u}, s.IsSteady mark w → s.drain fuel w = some (texts, failure, u) →
      u.Orderly ahead mark := by
    intro texts failure u hsteady hdrain
    have hconcurrency := h.concurrency
    subst hconcurrency
    exact hsteady.drain_go h.orderly hdrain
  cases finale with
  | collect | text =>
    have hsteady := hfinale.resolve_right nofun
    obtain ⟨⟨texts, failure, u⟩, hdrained, heq⟩ := Option.map_eq_some_iff.mp hfinish
    cases failure <;> cases heq <;> exact hdrain hsteady hdrained
  | each callback =>
    obtain ⟨⟨chunks, failure, u⟩, heach, heq⟩ := Option.map_eq_some_iff.mp hfinish
    cases heq
    exact h.each_go heach

/-- A render that was opened is orderly. -/
theorem isOrderly_start (config : RenderConfig) {stack : List Work}
    (hstack : ∀ work ∈ stack, work.isPlain = true) (w : World) :
    (start config stack w).1.IsOrderly config.concurrency w.mark (start config stack w).2 := by
  have hsince : (start config stack w).2.since w.mark = [] := by
    simp [start, newTask, since, mark]
  have hlineups : Work.lineupsOfAll (start config stack w).1.stack = [] :=
    Work.lineupsOfAll_of_isPlain hstack
  refine ⟨⟨Nat.le_refl _, hsince ▸ trivial, fun _ _ _ => by rw [hsince]; rfl⟩, rfl, .inr ⟨?_, ?_, rfl⟩⟩
  · refine .resting (fun work hwork => Work.isNote_of_isPlain (hstack work hwork)) ?_
    rw [hlineups]
    exact settled_nil ..
  · exact ⟨{ window := none }, by simp [start, newTask], rfl⟩

/-- **Windows are bounded and in order.** Take anything of a render, by the rules for roots or by those for
items, and then all the rest, fragments in one go only if no error has come out. At every moment, which is
wherever the log then stood, and in every window: members have come in, begun and left in the order in which
the list has them, none before it might, and no more than `concurrency` of those that came in have not
left. -/
theorem withinWindows (config : RenderConfig) (value : Value) (w : World)
    (opened : RenderStream × World)
    (hopened : opened = ofRoot config value w ∨ opened = ofItem config value w) (fuel : Nat)
    (takings : List Taking) (taken : List Taken) (s : RenderStream) (v : World)
    (h : opened.1.performAll fuel takings opened.2 = some (taken, s, v)) :
    (∀ early, early <:+ v.since w.mark → ∀ window, WithinWindow config.concurrency window early) ∧
    ∀ finale, ((∀ one ∈ taken, ¬ one.IsError) ∨ ∃ callback, finale = .each callback) →
      ∀ more remainder u, s.finish more finale v = some (remainder, u) →
        ∀ early, early <:+ u.since w.mark → ∀ window, WithinWindow config.concurrency window early := by
  have hstart : opened.1.IsOrderly config.concurrency w.mark opened.2 ∧ opened.1.IsOpen := by
    rcases hopened with rfl | rfl
    · exact ⟨isOrderly_start config (fun work hwork => List.mem_singleton.mp hwork ▸ rfl) w, rfl, rfl, rfl⟩
    · exact ⟨isOrderly_start config (fun work hwork => List.mem_singleton.mp hwork ▸ rfl) w, rfl, rfl, rfl⟩
  have hs := hstart.1.performAll h
  refine ⟨fun early hearly window => hs.orderly.orderly.withinWindow window hearly, ?_⟩
  intro finale hfinale more remainder u hfinish early hearly window
  have hsteady : s.IsSteady w.mark v ∨ ∃ callback, finale = .each callback := by
    refine hfinale.imp (fun hsound => ?_) id
    -- without an error the stream is not broken
    have hfailed : s.failed = false :=
      (remains_of_performAll (.inl hstart.2) h hsound).1.elim (·.failed) (·.failed)
    exact hs.rest.resolve_left fun hbroken => absurd hbroken.failed (by simp [hfailed])
  exact (hs.finish hsteady hfinish).orderly.withinWindow window hearly

/-- Three strings rendered two ahead: after the first fragment two have come in and none has left. -/
theorem withinWindows_three :
    ∃ s v, (ofItem { concurrency := 2 } (.list [.str "a", .str "b", .str "c"]) {}).1.performAll 9 [.next]
        (ofItem { concurrency := 2 } (.list [.str "a", .str "b", .str "c"]) {}).2 =
          some ([.one (.fragment "a")], s, v) ∧
      count .entered 0 (v.since 0) = 2 ∧ count .left 0 (v.since 0) = 0 ∧
      WithinWindow 2 0 (v.since 0) := by
  obtain ⟨s, v, h, hentered, hleft⟩ : ∃ s v,
      (ofItem { concurrency := 2 } (.list [.str "a", .str "b", .str "c"]) {}).1.performAll 9 [.next]
        (ofItem { concurrency := 2 } (.list [.str "a", .str "b", .str "c"]) {}).2 =
          some ([.one (.fragment "a")], s, v) ∧
      count .entered 0 (v.since 0) = 2 ∧ count .left 0 (v.since 0) = 0 :=
    ⟨_, _, by cbv, by cbv, by cbv⟩
  exact ⟨s, v, h, hentered, hleft,
    (withinWindows { concurrency := 2 } (.list [.str "a", .str "b", .str "c"]) {} _ (.inr rfl) 9 [.next]
      [.one (.fragment "a")] s v h).1 _ (List.suffix_refl _) 0⟩

/-- A world with a sequence of three, the first of which is a string and then, after a delay, an error. -/
def crowd : World :=
  ((Action.pending none 1 [] (.give (.bool true)) fun pending =>
    .sequence (some "i") [(0, .list [.str "a", pending]), (0, .str "b"), (0, .str "x")] .give).run {}).2

/-- The error comes out while the first of two has not left. Collecting the rest draws a third. -/
theorem finish_crowded :
    ∃ t v u, (ofRoot { concurrency := 2 } (.sequence 0) crowd).1.performAll 30 [.next]
        (ofRoot { concurrency := 2 } (.sequence 0) crowd).2 =
          some ([.one (.failed (.invalidItemType "boolean"))], t, v) ∧
      count .entered 0 v.log = 2 ∧ count .left 0 v.log = 0 ∧
      t.finish 30 .collect v = some (.collected (.ok []), u) ∧
      u.log.head? = some (1, .entered 0 2) ∧ count .left 0 u.log = 0 :=
  ⟨_, _, _, by cbv, by cbv, by cbv, by cbv, by cbv, by cbv⟩

end RenderStream

end TaggedMarkup
