import TaggedMarkup.Proofs.Render.Portions

/-!
# Chunks keep nothing back

When chunks come to an end, so has the render: if there is no further chunk, or if all chunks were handed
over, then every fragment has come out, unless an error did. This is so for every size of chunks but zero,
which a configuration may ask for: then there never is a chunk, and nothing is rendered (`chunks_whole`).

The way there is backwards. What is left of a stream after something was taken was left of it before,
together with what was taken.
-/

namespace TaggedMarkup

namespace RenderStream

variable {fuel more size : Nat} {s t : RenderStream} {w v : World} {front texts : List String}

/-- The end has come out of the stream, and no error. -/
structure IsOver (s : RenderStream) : Prop where
  stack : s.stack = []
  failed : s.failed = false
  closed : s.closed = false
  finished : s.finished = true

/-- No error has come out of the stream. -/
def IsSound (s : RenderStream) : Prop := s.IsOpen ∨ s.IsOver

theorem IsSound.withBuffer (h : s.IsSound) (fragments : Nat) : (s.withBuffer fragments).IsSound :=
  h.imp (fun h => ⟨h.failed, h.closed, h.finished⟩)
    fun h => ⟨h.stack, h.failed, h.closed, h.finished⟩

/-- After the end nothing is left. -/
theorem IsOver.remains (h : s.IsOver) (fuel : Nat) (w : World) : Remains fuel s w [] :=
  .ended h.stack h.failed h.closed h.finished

theorem Remains.eq_nil_of_finished (h : Remains fuel s w texts) (hfinished : s.finished = true) :
    texts = [] := by
  cases h with
  | flowing hopen => exact absurd hfinished (by simp [hopen.finished])
  | ended => rfl

theorem Remains.of_withBuffer {fragments : Nat} (h : Remains fuel (s.withBuffer fragments) w texts) :
    Remains fuel s w texts := by
  cases h with
  | flowing hopen htake hsize =>
    rw [takeUpTo_withBuffer, Option.map_eq_some_iff] at htake
    obtain ⟨⟨texts, failure, t, v⟩, htake, heq⟩ := htake
    cases heq
    exact .flowing ⟨hopen.failed, hopen.closed, hopen.finished⟩ htake hsize
  | ended hstack hfailed hclosed hfinished => exact .ended hstack hfailed hclosed hfinished

/-! ## Backwards -/

/-- What is left after a fragment was left before it, with the fragment first. -/
theorem Remains.cons {text : String} (h : Remains fuel t v texts) (hs : s.IsOpen) (ht : t.IsOpen)
    (hnext : s.next fuel w = some (.fragment text, t, v)) : Remains fuel s w (text :: texts) := by
  cases h with
  | flowing _ htake hsize =>
    exact .flowing hs (TakesUpTo.fragment hnext htake).takeUpTo_eq (Nat.succ_lt_succ hsize)
  | ended _ _ _ hfinished => exact absurd hfinished (by simp [ht.finished])

/-- A stream from which a fragment comes out was open, and stays so. -/
theorem isOpen_of_next_fragment (hs : s.IsSound) {text : String}
    (h : s.next fuel w = some (.fragment text, t, v)) : s.IsOpen ∧ t.IsOpen := by
  cases nexted h with
  | fragment hfinished hpulled =>
    rcases hs with hopen | hover
    · cases hpulled with
      | fragment => exact ⟨hopen, hopen.failed, hopen.closed, hopen.finished⟩
    · exact absurd hover.finished (by simp [hfinished])
  | last _ _ hout => exact absurd rfl (hout text)

/-- The end comes out when nothing is left to do. -/
theorem isOver_of_next_ended (hs : s.IsSound) (h : s.next fuel w = some (.ended, t, v)) :
    t.IsOver := by
  cases nexted h with
  | finished hfinished =>
    rcases hs with hopen | hover
    · exact absurd hfinished (by simp [hopen.finished])
    · exact hover
  | last hfinished hpulled _ =>
    rcases hs with hopen | hover
    · cases hpulled with
      | closed hclosed => exact absurd hclosed (by simp [hopen.closed])
      | late _ hfailed _ => exact absurd hfailed (by simp [hopen.failed])
      | ended hclosed hawait =>
        have hstack := stack_eq_nil_of_await hawait
        exact ⟨hstack, hopen.failed, hclosed, rfl⟩
    · exact absurd hover.finished (by simp [hfinished])

/-- What was taken in a row, and what is left then, was left before. -/
theorem remains_of_takeUpTo (size : Nat) (hs : s.IsSound)
    (h : s.takeUpTo fuel size w = some (front, none, t, v)) :
    t.IsSound ∧ ∀ more ≥ fuel, ∀ texts, Remains more t v texts → Remains more s w (front ++ texts) := by
  induction size generalizing s w front with
  | zero =>
    cases h
    exact ⟨hs, fun _ _ _ hrest => hrest⟩
  | succ size ih =>
    cases takesUpTo h with
    | ended hnext =>
      have hover := isOver_of_next_ended hs hnext
      refine ⟨.inr hover, fun more hmore texts hrest => ?_⟩
      rw [hrest.eq_nil_of_finished hover.finished]
      rcases hs with hopen | hover'
      · exact .flowing hopen (TakesUpTo.ended (next_mono hmore hnext)).takeUpTo_eq (Nat.succ_pos size)
      · exact hover'.remains more w
    | fragment hnext hfront =>
      obtain ⟨hopen, hopen'⟩ := isOpen_of_next_fragment hs hnext
      obtain ⟨ht, hback⟩ := ih (.inl hopen') hfront
      exact ⟨ht, fun more hmore texts hrest =>
        (hback more hmore texts hrest).cons hopen hopen' (next_mono hmore hnext)⟩

/-- The same for anything that was taken without an error. -/
theorem remains_of_perform {taking : Taking} {taken : Taken} (hs : s.IsSound)
    (h : s.perform fuel taking w = some (taken, t, v)) (hsound : ¬ taken.IsError) :
    t.IsSound ∧ ∀ more ≥ fuel, ∀ texts, Remains more t v texts →
      Remains more s w (taken.portion.texts ++ texts) := by
  cases taking with
  | next =>
    obtain ⟨⟨out, t', v'⟩, hnext, heq⟩ := Option.map_eq_some_iff.mp h
    cases heq
    cases out with
    | failed error => exact absurd trivial hsound
    | ended => exact remains_of_takeUpTo 1 hs (TakesUpTo.ended hnext).takeUpTo_eq
    | fragment text =>
      exact remains_of_takeUpTo 1 hs (TakesUpTo.fragment hnext rfl).takeUpTo_eq
  | chunk =>
    obtain ⟨⟨result, t', v'⟩, hchunk, heq⟩ := Option.map_eq_some_iff.mp h
    cases heq
    rw [nextChunk_eq, Option.map_eq_some_iff] at hchunk
    obtain ⟨⟨front, failure, t', v'⟩, htake, heq⟩ := hchunk
    cases heq
    cases failure with
    | some error => cases front <;> exact absurd trivial hsound
    | none => cases front <;> exact remains_of_takeUpTo _ hs htake
  | buffer fragments =>
    cases h
    exact ⟨hs.withBuffer fragments, fun _ _ _ hrest => hrest.of_withBuffer⟩

theorem remains_of_performAll {takings : List Taking} {taken : List Taken} (hs : s.IsSound)
    (h : s.performAll fuel takings w = some (taken, t, v)) (hsound : ∀ one ∈ taken, ¬ one.IsError) :
    t.IsSound ∧ ∀ more ≥ fuel, ∀ texts, Remains more t v texts →
      Remains more s w (taken.flatMap (fun one => one.portion.texts) ++ texts) := by
  induction takings generalizing s w taken with
  | nil =>
    cases h
    exact ⟨hs, fun _ _ _ hrest => hrest⟩
  | cons taking rest ih =>
    rw [performAll] at h
    cases hone : s.perform fuel taking w with
    | none => simp [hone] at h
    | some answer =>
      obtain ⟨one, s', w'⟩ := answer
      rw [hone] at h
      obtain ⟨⟨others, t', v'⟩, hothers, heq⟩ := Option.map_eq_some_iff.mp h
      cases heq
      rw [List.forall_mem_cons] at hsound
      obtain ⟨hs', hfirst⟩ := remains_of_perform hs hone hsound.1
      obtain ⟨ht, hback⟩ := ih hs' hothers hsound.2
      refine ⟨ht, fun more hmore texts hrest => ?_⟩
      rw [List.flatMap_cons, List.append_assoc]
      exact hfirst more hmore _ (hback more hmore texts hrest)

/-! ## The end of the chunks -/

/-- If there is no further chunk, nothing is left. -/
theorem remains_of_nextChunk (hs : s.IsSound) (hbuffer : 0 < s.config.buffer)
    (h : s.nextChunk fuel w = some (.ok none, t, v)) : Remains fuel s w [] := by
  rw [nextChunk_eq, Option.map_eq_some_iff] at h
  obtain ⟨⟨front, failure, t', v'⟩, htake, heq⟩ := h
  cases failure with
  | some error => cases front <;> cases heq
  | none =>
    cases front with
    | cons text front => cases heq
    | nil =>
      obtain ⟨size, hsize⟩ := Nat.exists_eq_add_one_of_ne_zero (Nat.ne_of_gt hbuffer)
      rw [hsize] at htake
      obtain ⟨-, hback⟩ := remains_of_takeUpTo _ hs htake
      cases takesUpTo htake with
      | ended hnext => exact hback fuel (Nat.le_refl fuel) [] ((isOver_of_next_ended hs hnext).remains ..)

theorem nextChunk_config {result : Except Error (Option (List String))}
    (h : s.nextChunk fuel w = some (result, t, v)) : t.config = s.config := by
  rw [nextChunk_eq, Option.map_eq_some_iff] at h
  obtain ⟨⟨front, failure, t', v'⟩, htake, heq⟩ := h
  simp only [Prod.mk.injEq] at heq
  obtain ⟨-, rfl, rfl⟩ := heq
  exact takeUpTo_config htake

/-- If all chunks were handed over, they are what was left. -/
theorem remains_of_go {rounds : Nat} {callback : Nat → List String → Option Error}
    {before chunks : List (List String)} {u : World} (hs : s.IsSound) (hbuffer : 0 < s.config.buffer)
    (h : forEachChunk.go fuel callback rounds before s w = some (chunks, none, u)) :
    ∃ after, chunks = before.reverse ++ after ∧ Remains fuel s w after.flatten := by
  induction rounds generalizing s w before with
  | zero => cases h
  | succ rounds ih =>
    rw [forEachChunk.go] at h
    cases hchunk : s.nextChunk fuel w with
    | none => simp [hchunk] at h
    | some answer =>
      obtain ⟨result, s', w'⟩ := answer
      rw [hchunk] at h
      rcases result with error | _ | chunk
      · cases h
      · cases h
        exact ⟨[], (List.append_nil _).symm, remains_of_nextChunk hs hbuffer hchunk⟩
      · dsimp only at h
        split at h
        · cases h
        · have hone : s.perform fuel .chunk w =
              some (.chunk s.config.buffer (.ok (some chunk)), s', w') := by
            rw [perform, hchunk]
            rfl
          obtain ⟨hs', hback⟩ := remains_of_perform hs hone id
          have hconfig := nextChunk_config hchunk
          obtain ⟨after, rfl, hrest⟩ := ih hs' (hconfig ▸ hbuffer) h
          refine ⟨chunk :: after, ?_, hback fuel (Nat.le_refl fuel) _ hrest⟩
          rw [List.reverse_cons, List.append_assoc]
          rfl

/-! ## The whole render -/

/-- The render of a root comes to an end, and these are all its fragments. -/
def IsWhole (config : RenderConfig) (value : Value) (w : World) (texts : List String) : Prop :=
  ∃ enough, ∀ fuel ≥ enough, ∃ v,
    (ofRoot config value w).1.drain fuel (ofRoot config value w).2 = some (texts, none, v)

theorem Remains.isWhole {config : RenderConfig} {value : Value}
    (h : Remains fuel (ofRoot config value w).1 (ofRoot config value w).2 texts) :
    IsWhole config value w texts := by
  refine ⟨max fuel (texts.length + 2), fun more hmore => ?_⟩
  have hleft := h.mono (Nat.le_trans (Nat.le_max_left ..) hmore)
  have hlength := Nat.le_trans (Nat.le_max_right ..) hmore
  exact hleft.drain_go (by omega) (by omega) []

/-- Whatever was taken of a render before: **if its chunks are not empty**, there is no further chunk only
if everything has come out, or an error; and all chunks were handed over only if nothing is missing, unless
an error had come out before. **If its chunks are empty**, there is no chunk in any case, none is handed
over, and nothing is done. -/
theorem chunks_whole (config : RenderConfig) (value : Value) (w : World) (fuel : Nat)
    (takings : List Taking) (taken : List Taken) (s : RenderStream) (v : World)
    (h : (ofRoot config value w).1.performAll fuel takings (ofRoot config value w).2 =
      some (taken, s, v)) :
    (0 < s.config.buffer →
      (∀ more t u, s.nextChunk more v = some (.ok none, t, u) →
        (∃ one ∈ taken, one.IsError) ∨
          IsWhole config value w (taken.flatMap fun one => one.portion.texts)) ∧
      ∀ more callback chunks u, s.forEachChunk more callback v = some (chunks, none, u) →
        (∃ one ∈ taken, one.IsError) ∨
          IsWhole config value w ((taken.flatMap fun one => one.portion.texts) ++ chunks.flatten)) ∧
    (s.config.buffer = 0 → ∀ more,
      s.nextChunk more v = some (.ok none, s, v) ∧
      ∀ callback, ∃ u, s.forEachChunk (more + 1) callback v = some ([], none, u) ∧
        u.seen = v.seen) := by
  refine ⟨fun hbuffer => ?_, fun hbuffer => ?_⟩
  · by_cases herror : ∃ one ∈ taken, one.IsError
    · exact ⟨fun _ _ _ _ => .inl herror, fun _ _ _ _ _ => .inl herror⟩
    -- without an error, what is left now was left of the whole
    have hsound : ∀ one ∈ taken, ¬ one.IsError := fun one hone hfails => herror ⟨one, hone, hfails⟩
    obtain ⟨hs, hback⟩ := remains_of_performAll (.inl ⟨rfl, rfl, rfl⟩) h hsound
    have hwhole : ∀ {more texts}, Remains more s v texts →
        IsWhole config value w ((taken.flatMap fun one => one.portion.texts) ++ texts) :=
      fun hrest => (hback _ (Nat.le_max_left ..) _ (hrest.mono (Nat.le_max_right fuel _))).isWhole
    refine ⟨fun more t u hchunk => .inr ?_, fun more callback chunks u heach => .inr ?_⟩
    · have hnothing := hwhole (remains_of_nextChunk hs hbuffer hchunk)
      rwa [List.append_nil] at hnothing
    · obtain ⟨after, rfl, hrest⟩ := remains_of_go hs hbuffer heach
      exact hwhole hrest
  · have hnone : ∀ more, s.nextChunk more v = some (.ok none, s, v) := by
      intro more
      rw [nextChunk_eq, hbuffer]
      rfl
    refine fun more => ⟨hnone more, fun callback => ⟨s.drop v, ?_, seen_drop s v⟩⟩
    rw [forEachChunk, forEachChunk.go, hnone]
    rfl

/-- One fragment of three, and then the rest in chunks of two. -/
theorem chunks_whole_three :
    ∃ s v u, (three []).1.performAll 9 [.next] (three []).2 =
        some ([.one (.fragment "a")], s, v) ∧
      s.forEachChunk 9 (fun _ _ => none) v = some ([["b", "c"]], none, u) ∧
      IsWhole { buffer := 2 } (.list [.str "a", .str "b", .str "c"]) {} ["a", "b", "c"] := by
  obtain ⟨s, v, u, h, hbuffer, heach⟩ : ∃ s v u,
      (three []).1.performAll 9 [.next] (three []).2 = some ([.one (.fragment "a")], s, v) ∧
      s.config.buffer = 2 ∧
      s.forEachChunk 9 (fun _ _ => none) v = some ([["b", "c"]], none, u) :=
    ⟨_, _, _, by cbv, by cbv, by cbv⟩
  have hwhole := (chunks_whole { buffer := 2 } (.list [.str "a", .str "b", .str "c"]) {} 9 [.next]
    [.one (.fragment "a")] s v h).1 (hbuffer ▸ Nat.two_pos)
  refine ⟨s, v, u, h, heach, (hwhole.2 9 _ _ u heach).resolve_left ?_⟩
  rintro ⟨one, hone, herror⟩
  cases List.mem_singleton.mp hone
  exact herror

/-- With chunks of no fragments, as a configuration may say, there is no chunk and all chunks are handed
over while the only fragment has not come out. -/
theorem chunks_withheld :
    let opened := ofRoot { buffer := 0 } (.str "text") {}
    ∃ t v u x, opened.1.nextChunk 9 opened.2 = some (.ok none, t, v) ∧
      opened.1.forEachChunk 9 (fun _ _ => none) opened.2 = some ([], none, u) ∧
      t.drain 9 v = some (["text"], none, x) :=
  ⟨_, _, _, _, by cbv, by cbv, by cbv⟩

end RenderStream

end TaggedMarkup
