import TaggedMarkup.Proofs.Render.Chunks

/-!
# Portions

It does not matter whether a render is taken fragment by fragment, in chunks of any size, or in a mixture,
and in which way the rest is taken: every fragment comes out once and in order, and a chunk is full unless
the render ends with it (`InOrder`). What every step keeps is which fragments are left (`Remains`); each
step takes a portion off them.

Together with what is said about single chunks, this is the agreement of chunks and fragments
(`chunksAgree`).
-/

namespace TaggedMarkup

namespace RenderStream

variable {fuel size : Nat} {s t : RenderStream} {w v : World} {texts : List String}

/-! ## What is left -/

theorem stack_eq_nil_of_await (h : s.await fuel w = some (.ended, t, v)) : t.stack = [] := by
  induction fuel generalizing s w with
  | zero => cases h
  | succ fuel ih =>
    rw [await] at h
    split at h
    · cases h
    · cases h
    · cases h
    · rename_i hturn
      cases h
      exact Render.stack_eq_nil_of_turn hturn
    · split at h
      · exact ih h
      · split at h
        · cases h
        · exact ih h

/-- What comes out of a stream does not depend on the size of its chunks. -/
theorem await_withBuffer (fuel fragments : Nat) (s : RenderStream) (w : World) :
    (s.withBuffer fragments).await fuel w =
      (s.await fuel w).map fun (out, t, v) => (out, t.withBuffer fragments, v) := by
  induction fuel generalizing s w with
  | zero => rfl
  | succ fuel ih =>
    -- what is left of the stream is another one with the same chunks
    have hagain : ∀ stack v, await fuel { s.withBuffer fragments with stack } v =
        (await fuel { s with stack } v).map fun (out, t, v) => (out, t.withBuffer fragments, v) :=
      fun stack v => ih { s with stack } v
    rw [await_succ, await_succ]
    change proceed fuel _
      (Render.turn s.config.concurrency fuel [] s.task s.stack (w.beginTurn s.task)) = _
    cases Render.turn s.config.concurrency fuel [] s.task s.stack (w.beginTurn s.task) with
    | none => rfl
    | some answer =>
      obtain ⟨out, stack, v⟩ := answer
      cases out with
      | fragment text | failed error | ended => rfl
      | blocked =>
        dsimp only [proceed]
        change (if v.isWoken s.task then _ else _) = _
        split
        · exact hagain ..
        · cases v.advance? with
          | none => rfl
          | some u => exact hagain ..

theorem next_withBuffer (fuel fragments : Nat) (s : RenderStream) (w : World) :
    (s.withBuffer fragments).next fuel w =
      (s.next fuel w).map fun (out, t, v) => (out, t.withBuffer fragments, v) := by
  have hpull : (s.withBuffer fragments).pull fuel w =
      (s.pull fuel w).map fun (out, t, v) => (out, t.withBuffer fragments, v) := by
    rw [pull, pull, await_withBuffer]
    change (if s.closed then _ else _) = _
    split
    · rfl
    · cases s.await fuel w with
      | none => rfl
      | some answer =>
        obtain ⟨out, t, v⟩ := answer
        cases out with
        | ended => rfl
        | fragment text | failed error =>
          dsimp only [Option.map_some]
          change (if t.failed then _ else _) = _
          split <;> rfl
  rw [RenderStream.next, RenderStream.next, hpull]
  change (if s.finished then _ else _) = _
  split
  · rfl
  · cases s.pull fuel w with
    | none => rfl
    | some answer =>
      obtain ⟨out, t, v⟩ := answer
      cases out <;> rfl

theorem takeUpTo_withBuffer (fuel size fragments : Nat) (s : RenderStream) (w : World) :
    (s.withBuffer fragments).takeUpTo fuel size w =
      (s.takeUpTo fuel size w).map fun (texts, failure, t, v) =>
        (texts, failure, t.withBuffer fragments, v) := by
  induction size generalizing s w with
  | zero => rfl
  | succ size ih =>
    rw [takeUpTo, takeUpTo, next_withBuffer]
    cases s.next fuel w with
    | none => rfl
    | some answer =>
      obtain ⟨out, s', w'⟩ := answer
      cases out with
      | ended | failed error => rfl
      | fragment text =>
        simp only [Option.map_some, ih, Option.map_map]
        rfl

/-- A render that succeeds has these fragments left. -/
inductive Remains (fuel : Nat) : RenderStream → World → List String → Prop
  | flowing {size : Nat} {texts : List String} {s t : RenderStream} {w v : World} (hopen : s.IsOpen)
    (h : s.takeUpTo fuel size w = some (texts, none, t, v)) (hsize : texts.length < size) :
      Remains fuel s w texts
  /-- the end has come out -/
  | ended {s : RenderStream} {w : World} (hstack : s.stack = []) (hfailed : s.failed = false)
    (hclosed : s.closed = false) (hfinished : s.finished = true) : Remains fuel s w []

namespace Remains

theorem mono {more : Nat} (hle : fuel ≤ more) (h : Remains fuel s w texts) :
    Remains more s w texts := by
  cases h with
  | flowing hopen h hsize => exact .flowing hopen (takeUpTo_mono hle h) hsize
  | ended hstack hfailed hclosed hfinished => exact .ended hstack hfailed hclosed hfinished

theorem withBuffer (h : Remains fuel s w texts) (fragments : Nat) :
    Remains fuel (s.withBuffer fragments) w texts := by
  cases h with
  | @flowing size _ _ t _ v hopen h hsize =>
    have htake : (s.withBuffer fragments).takeUpTo fuel size w =
        some (texts, none, t.withBuffer fragments, v) := by
      rw [takeUpTo_withBuffer, h]
      rfl
    exact .flowing ⟨hopen.failed, hopen.closed, hopen.finished⟩ htake hsize
  | ended hstack hfailed hclosed hfinished => exact .ended hstack hfailed hclosed hfinished

/-- The next fragment comes out, if there is one. -/
theorem next_cons {text : String} (h : Remains fuel s w (text :: texts)) :
    ∃ t v, s.next fuel w = some (.fragment text, t, v) ∧ Remains fuel t v texts := by
  cases h with
  | @flowing size _ _ _ _ _ hopen h hsize =>
    obtain ⟨size, rfl⟩ := Nat.exists_eq_add_one_of_ne_zero (Nat.ne_of_gt (Nat.zero_lt_of_lt hsize))
    cases takesUpTo h with
    | fragment hnext hrest =>
      refine ⟨_, _, hnext, .flowing ?_ hrest (Nat.lt_of_succ_lt_succ hsize)⟩
      cases nexted hnext with
      | fragment _ hpulled =>
        cases hpulled with
        | fragment => exact ⟨hopen.failed, hopen.closed, hopen.finished⟩
      | last _ _ hout => exact absurd rfl (hout text)

/-- If there is none, the end comes out. -/
theorem next_nil (h : Remains fuel s w []) :
    ∃ t v, s.next fuel w = some (.ended, t, v) ∧ Remains fuel t v [] := by
  cases h with
  | @flowing size _ _ _ _ _ hopen h hsize =>
    obtain ⟨size, rfl⟩ := Nat.exists_eq_add_one_of_ne_zero (Nat.ne_of_gt hsize)
    cases takesUpTo h with
    | ended hnext =>
      refine ⟨_, _, hnext, ?_⟩
      cases nexted hnext with
      | finished hfinished => simp [hopen.finished] at hfinished
      | last _ hpulled _ =>
        -- an open stream that ends has nothing left to do
        cases hpulled with
        | closed hclosed => simp [hopen.closed] at hclosed
        | late _ hfailed _ => simp [hopen.failed] at hfailed
        | ended hclosed hawait =>
          have hstack := stack_eq_nil_of_await hawait
          exact .ended hstack hopen.failed hclosed rfl
  | ended hstack hfailed hclosed hfinished =>
    exact ⟨s, w, by rw [RenderStream.next, if_pos hfinished],
      .ended hstack hfailed hclosed hfinished⟩

theorem takeUpTo (h : Remains fuel s w texts) (size : Nat) :
    ∃ t v, s.takeUpTo fuel size w = some (texts.take size, none, t, v) ∧
      Remains fuel t v (texts.drop size) := by
  induction size generalizing s w texts with
  | zero => exact ⟨s, w, rfl, h⟩
  | succ size ih =>
    cases texts with
    | nil =>
      obtain ⟨t, v, hnext, hrest⟩ := h.next_nil
      exact ⟨t, v, (TakesUpTo.ended hnext).takeUpTo_eq, hrest⟩
    | cons text texts =>
      obtain ⟨s', w', hnext, hrest⟩ := h.next_cons
      obtain ⟨t, v, htake, hdrop⟩ := ih hrest
      exact ⟨t, v, (TakesUpTo.fragment hnext htake).takeUpTo_eq, hdrop⟩

/-- Past the inner guard alone, the same comes out. -/
theorem pull_cons {text : String} (h : Remains fuel s w (text :: texts)) :
    ∃ t v, s.pull fuel w = some (.fragment text, t, v) ∧ Remains fuel t v texts := by
  obtain ⟨t, v, hnext, hrest⟩ := h.next_cons
  refine ⟨t, v, ?_, hrest⟩
  rw [RenderStream.next] at hnext
  split at hnext
  · cases hnext
  · split at hnext
    · rename_i hpull
      cases hnext
      exact hpull
    · rename_i hout _
      cases hnext
      exact (hout text rfl).elim
    · cases hnext

/-- After the end has come out, a look finds the end again. -/
theorem pull_nil (h : Remains fuel s w []) (hfuel : 2 ≤ fuel) :
    ∃ t v, s.pull fuel w = some (.ended, t, v) := by
  cases h with
  | @flowing size _ _ _ _ _ hopen h hsize =>
    obtain ⟨size, rfl⟩ := Nat.exists_eq_add_one_of_ne_zero (Nat.ne_of_gt hsize)
    cases takesUpTo h with
    | ended hnext =>
      rw [RenderStream.next, hopen.finished] at hnext
      rw [if_neg Bool.false_ne_true] at hnext
      split at hnext
      · cases hnext
      · rename_i hpull
        cases hnext
        exact ⟨_, _, hpull⟩
      · cases hnext
  | ended hstack hfailed hclosed hfinished =>
    obtain ⟨fuel, rfl⟩ := Nat.exists_eq_add_of_le' hfuel
    refine ⟨s, w.beginTurn s.task, ?_⟩
    rw [pull, hclosed, await_of_stack_eq_nil hstack]
    rfl

/-- All that is left is taken at once. -/
theorem drain_go (h : Remains fuel s w texts) (hfuel : 2 ≤ fuel) {rounds : Nat}
    (hrounds : texts.length < rounds) (before : List String) :
    ∃ v, drain.go fuel rounds before s w = some (before.reverse ++ texts, none, v) := by
  induction texts generalizing s w rounds before with
  | nil =>
    obtain ⟨rounds, rfl⟩ := Nat.exists_eq_add_one_of_ne_zero (Nat.ne_of_gt hrounds)
    obtain ⟨t, v, hpull⟩ := h.pull_nil hfuel
    exact ⟨t.drop v, by rw [drain.go, hpull, List.append_nil]⟩
  | cons text texts ih =>
    obtain ⟨rounds, rfl⟩ :=
      Nat.exists_eq_add_one_of_ne_zero (Nat.ne_of_gt (Nat.zero_lt_of_lt hrounds))
    obtain ⟨t, v, hpull, hrest⟩ := h.pull_cons
    obtain ⟨x, hgo⟩ := ih hrest (Nat.lt_of_succ_lt_succ hrounds) (text :: before)
    rw [List.reverse_cons, List.append_assoc] at hgo
    exact ⟨x, by rw [drain.go, hpull]; exact hgo⟩

end Remains

end RenderStream

/-! ## Mixtures -/

/-- Fragments that came out together, and how many were asked for. -/
structure Portion where
  limit : Nat
  texts : List String

/-- There are as many fragments as were asked for. -/
def Portion.IsFull (p : Portion) : Prop := p.texts.length = p.limit

/-- The portions are these fragments, in order, each of them once. A portion has no more fragments than
were asked for, and if it has fewer, nothing comes after it. -/
structure InOrder (portions : List Portion) (texts : List String) : Prop where
  whole : portions.flatMap Portion.texts = texts
  fits : ∀ portion ∈ portions, portion.texts.length ≤ portion.limit
  full : portions.Pairwise fun earlier later => earlier.IsFull ∨ later.texts = []

namespace InOrder

variable {portions : List Portion} {texts : List String}

theorem nil : InOrder [] [] := ⟨rfl, nofun, .nil⟩

/-- A portion of the first fragments comes before portions of the others. -/
theorem cons (limit : Nat) (h : InOrder portions (texts.drop limit)) :
    InOrder (⟨limit, texts.take limit⟩ :: portions) texts := by
  refine ⟨?_, ?_, ?_⟩
  · rw [List.flatMap_cons, h.whole, List.take_append_drop]
  · rintro portion (_ | ⟨_, hmem⟩)
    · exact List.length_take_le ..
    · exact h.fits portion hmem
  · refine List.pairwise_cons.mpr ⟨fun later hmem => ?_, h.full⟩
    by_cases hle : limit ≤ texts.length
    · exact .inl (List.length_take_of_le hle)
    · -- all the fragments are in the portion
      have hnil := h.whole
      rw [List.drop_eq_nil_of_le (Nat.le_of_not_le hle), List.flatMap_eq_nil_iff] at hnil
      exact .inr (hnil later hmem)

end InOrder

/-- What was taken, as a portion. -/
def Taken.portion : Taken → Portion
  | one (.fragment text) => ⟨1, [text]⟩
  | one _ => ⟨1, []⟩
  | chunk limit (.ok (some texts)) => ⟨limit, texts⟩
  | chunk limit _ => ⟨limit, []⟩
  | buffer _ => ⟨0, []⟩

/-- Without an error, the rest comes in these portions. The chunks that are handed over are none of them
empty. -/
inductive Remainder.Brings (size : Nat) : Remainder → List Portion → Prop
  | collected (texts : List String) :
      Brings size (.collected (.ok texts)) [⟨texts.length, texts⟩]
  | text (texts : List String) :
      Brings size (.text (.ok (String.join texts))) [⟨texts.length, texts⟩]
  | handed (chunks : List (List String)) (hchunks : [] ∉ chunks) :
      Brings size (.handed chunks none) (chunks.map (⟨size, ·⟩))

/-- A callback that is given chunks never fails. -/
def Finale.IsWilling : Finale → Prop
  | collect | text => True
  | each callback => ∀ index chunk, callback index chunk = none

namespace RenderStream

variable {fuel size : Nat} {s t : RenderStream} {w v : World} {texts : List String}

namespace Remains

/-- A chunk, or a single fragment, is a portion of what is left. -/
theorem perform (h : Remains fuel s w texts) (hbuffer : 0 < s.config.buffer) (taking : Taking) :
    ∃ taken t v limit, s.perform fuel taking w = some (taken, t, v) ∧ ¬ taken.IsError ∧
      taken.portion = ⟨limit, texts.take limit⟩ ∧ Remains fuel t v (texts.drop limit) ∧
      0 < t.config.buffer := by
  cases taking with
  | next =>
    cases texts with
    | nil =>
      obtain ⟨t, v, hnext, hrest⟩ := h.next_nil
      exact ⟨_, t, v, 1, congrArg (Option.map _) hnext, id, rfl, hrest,
        (next_config hnext).symm ▸ hbuffer⟩
    | cons text texts =>
      obtain ⟨t, v, hnext, hrest⟩ := h.next_cons
      exact ⟨_, t, v, 1, congrArg (Option.map _) hnext, id, rfl, hrest,
        (next_config hnext).symm ▸ hbuffer⟩
  | chunk =>
    obtain ⟨t, v, htake, hrest⟩ := h.takeUpTo s.config.buffer
    refine ⟨.chunk s.config.buffer (chunkOf (texts.take s.config.buffer) none), t, v,
      s.config.buffer, ?_, ?_, ?_, hrest, (takeUpTo_config htake).symm ▸ hbuffer⟩
    · rw [RenderStream.perform, nextChunk_eq, htake]
      rfl
    · cases texts.take s.config.buffer <;> exact id
    · cases texts.take s.config.buffer <;> rfl
  | buffer fragments =>
    exact ⟨_, _, w, 0, rfl, id, rfl, h.withBuffer fragments, Nat.le_max_right ..⟩

/-- Whatever is left is handed over in chunks. -/
theorem forEachChunk {callback : Nat → List String → Option Error}
    (hwilling : ∀ index chunk, callback index chunk = none) (h : Remains fuel s w texts)
    (hbuffer : 0 < s.config.buffer) (rounds : Nat) (hrounds : texts.length < rounds)
    (chunks : List (List String)) :
    ∃ more v, forEachChunk.go fuel callback rounds chunks s w =
        some (chunks.reverse ++ more, none, v) ∧
      [] ∉ more ∧ InOrder (more.map (⟨s.config.buffer, ·⟩)) texts := by
  induction rounds generalizing s w texts chunks with
  | zero => cases hrounds
  | succ rounds ih =>
    obtain ⟨t, v, htake, hrest⟩ := h.takeUpTo s.config.buffer
    -- an empty chunk is not handed over, but ends the whole
    by_cases hempty : texts = []
    · subst hempty
      rw [List.take_nil] at htake
      exact ⟨[], t.drop v, by rw [go_ended rfl htake, List.append_nil], nofun, .nil⟩
    · have hchunk : texts.take s.config.buffer ≠ [] := by
        rw [ne_eq, List.take_eq_nil_iff]
        exact not_or_intro (Nat.ne_of_gt hbuffer) hempty
      have hpos := List.length_pos_iff.mpr hempty
      obtain ⟨more, x, hgo, hmore, horder⟩ := ih hrest ((takeUpTo_config htake).symm ▸ hbuffer)
        (by rw [List.length_drop]; omega) (texts.take s.config.buffer :: chunks)
      rw [takeUpTo_config htake] at horder
      refine ⟨texts.take s.config.buffer :: more, x, ?_, ?_, horder.cons s.config.buffer⟩
      · rw [go_chunk rfl htake hchunk (hwilling ..), hgo, List.reverse_cons, List.append_assoc]
        rfl
      · exact List.not_mem_cons_of_ne_of_not_mem hchunk.symm hmore

theorem finish (h : Remains fuel s w texts) (hbuffer : 0 < s.config.buffer)
    (hfuel : texts.length + 2 ≤ fuel) {finale : Finale} (hwilling : finale.IsWilling) :
    ∃ rest x portions, s.finish fuel finale w = some (rest, x) ∧
      rest.Brings s.config.buffer portions ∧ InOrder portions texts := by
  have hall : InOrder [⟨texts.length, texts⟩] texts :=
    ⟨List.append_nil texts, fun _ hmem => by cases List.mem_singleton.mp hmem; exact Nat.le_refl _,
      List.pairwise_singleton ..⟩
  obtain ⟨x, hdrain⟩ : ∃ x, s.drain fuel w = some (texts, none, x) :=
    h.drain_go (by omega) (by omega) []
  cases finale with
  | collect =>
    exact ⟨_, x, _, by rw [RenderStream.finish, hdrain]; rfl, .collected texts, hall⟩
  | text =>
    exact ⟨_, x, _, by rw [RenderStream.finish, hdrain]; rfl, .text texts, hall⟩
  | each callback =>
    obtain ⟨chunks, y, hgo, hchunks, horder⟩ :=
      h.forEachChunk hwilling hbuffer fuel (by omega) []
    exact ⟨_, y, _, by rw [RenderStream.finish, RenderStream.forEachChunk, hgo]; rfl,
      .handed chunks hchunks, horder⟩

end Remains

/-- Three fragments in chunks of two, and then perhaps an error. -/
def three (rest : List Value) : RenderStream × World :=
  ofRoot { buffer := 2 } (.list ([.str "a", .str "b", .str "c"] ++ rest)) {}

end RenderStream

end TaggedMarkup
