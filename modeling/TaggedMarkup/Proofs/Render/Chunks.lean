import TaggedMarkup.Proofs.Render.Taking

/-!
# Chunks

A chunk is what `next` gives in a row: up to as many fragments as a chunk may have, up to the first end
or error (`takeUpTo`).

Handing a render over chunk by chunk cuts it into pieces of one size. If the render fails, the pieces that
were full by then are handed over; if the callback fails, nothing more is rendered.
-/

namespace TaggedMarkup

/-! ## Pieces -/

/-- The piece with this number of a list that is cut into pieces of a size. -/
def piece (size : Nat) (texts : List String) (index : Nat) : List String :=
  (texts.drop (size * index)).take size

/-- So many pieces, from the first one. -/
def pieces (size : Nat) (texts : List String) (count : Nat) : List (List String) :=
  (List.range count).map (piece size texts)

@[simp] theorem pieces_zero (size : Nat) (texts : List String) : pieces size texts 0 = [] := rfl

namespace RenderStream

/-- Call `next` so many times, and no more after the first end or error. -/
def takeUpTo (fuel : Nat) : Nat → RenderStream → World →
    Option (List String × Option Error × RenderStream × World)
  | 0, s, w => some ([], none, s, w)
  | size + 1, s, w =>
    match s.next fuel w with
    | none => none
    | some (.ended, s, w) => some ([], none, s, w)
    | some (.failed error, s, w) => some ([], some error, s, w)
    | some (.fragment text, s, w) =>
      (takeUpTo fuel size s w).map fun (texts, failure, s, w) => (text :: texts, failure, s, w)

variable {fuel size : Nat} {s t : RenderStream} {w v : World} {texts : List String}
  {failure : Option Error} {error : Error}

/-- How taking goes on after what came out first. -/
inductive TakesUpTo (fuel size : Nat) (s : RenderStream) (w : World) :
    List String → Option Error → RenderStream → World → Prop
  | ended {t : RenderStream} {v : World} (hnext : s.next fuel w = some (.ended, t, v)) :
      TakesUpTo fuel size s w [] none t v
  | failed {error : Error} {t : RenderStream} {v : World}
    (hnext : s.next fuel w = some (.failed error, t, v)) :
      TakesUpTo fuel size s w [] (some error) t v
  | fragment {text : String} {texts : List String} {failure : Option Error}
    {s' t : RenderStream} {w' v : World} (hnext : s.next fuel w = some (.fragment text, s', w'))
    (hrest : takeUpTo fuel size s' w' = some (texts, failure, t, v)) :
      TakesUpTo fuel size s w (text :: texts) failure t v

theorem takesUpTo (h : s.takeUpTo fuel (size + 1) w = some (texts, failure, t, v)) :
    TakesUpTo fuel size s w texts failure t v := by
  rw [takeUpTo] at h
  cases hnext : s.next fuel w with
  | none => simp [hnext] at h
  | some answer =>
    obtain ⟨out, s', w'⟩ := answer
    rw [hnext] at h
    cases out with
    | ended =>
      cases h
      exact .ended hnext
    | failed error =>
      cases h
      exact .failed hnext
    | fragment text =>
      obtain ⟨⟨texts, failure, t, v⟩, hrest, heq⟩ := Option.map_eq_some_iff.mp h
      cases heq
      exact .fragment hnext hrest

theorem TakesUpTo.takeUpTo_eq (h : TakesUpTo fuel size s w texts failure t v) :
    s.takeUpTo fuel (size + 1) w = some (texts, failure, t, v) := by
  cases h with
  | ended hnext => simp [takeUpTo, hnext]
  | failed hnext => simp [takeUpTo, hnext]
  | fragment hnext hrest => simp [takeUpTo, hnext, hrest]

/-- With more fuel, the same is taken. -/
theorem takeUpTo_mono {more : Nat} (hle : fuel ≤ more)
    (h : s.takeUpTo fuel size w = some (texts, failure, t, v)) :
    s.takeUpTo more size w = some (texts, failure, t, v) := by
  induction size generalizing s w texts with
  | zero => exact h
  | succ size ih =>
    refine TakesUpTo.takeUpTo_eq ?_
    cases takesUpTo h with
    | ended hnext => exact .ended (next_mono hle hnext)
    | failed hnext => exact .failed (next_mono hle hnext)
    | fragment hnext hrest => exact .fragment (next_mono hle hnext) (ih hrest)

/-- `next` never changes the size of a chunk. -/
theorem next_config {out : Delivery} (h : s.next fuel w = some (out, t, v)) :
    t.config = s.config := by
  cases nexted h with
  | finished _ => rfl
  | fragment _ hpulled => cases hpulled with | fragment => rfl
  | last _ hpulled _ => cases hpulled <;> rfl

theorem takeUpTo_config (h : s.takeUpTo fuel size w = some (texts, failure, t, v)) :
    t.config = s.config := by
  induction size generalizing s w texts with
  | zero =>
    cases h
    rfl
  | succ size ih =>
    cases takesUpTo h with
    | ended hnext | failed hnext => exact next_config hnext
    | fragment hnext hrest => exact (ih hrest).trans (next_config hnext)

/-- After the end there is nothing more to take. -/
theorem takeUpTo_of_finished (h : s.finished = true) (fuel size : Nat) (w : World) :
    s.takeUpTo fuel size w = some ([], none, s, w) := by
  cases size with
  | zero => rfl
  | succ size => rw [takeUpTo, RenderStream.next, if_pos h]

/-- The chunk that is made of these fragments: an error takes the place of all of them, and if there
are none, there is no chunk. -/
def chunkOf : List String → Option Error → Except Error (Option (List String))
  | _, some error => .error error
  | [], none => .ok none
  | text :: texts, none => .ok (some (text :: texts))

theorem gather_eq (fuel size : Nat) (s : RenderStream) (w : World) :
    gather fuel size s w = (s.takeUpTo fuel size w).map fun
      | (_, some error, t, v) => (.error error, t, v)
      | (texts, none, t, v) => (.ok texts, t, v) := by
  induction size generalizing s w with
  | zero => rfl
  | succ size ih =>
    rw [gather, takeUpTo]
    cases s.next fuel w with
    | none => rfl
    | some answer =>
      obtain ⟨out, s', w'⟩ := answer
      cases out with
      | ended | failed error => rfl
      | fragment text =>
        dsimp only
        rw [ih s' w']
        cases s'.takeUpTo fuel size w' with
        | none => rfl
        | some rest =>
          obtain ⟨texts, failure, t, v⟩ := rest
          cases failure <;> rfl

/-- A chunk is made of what `next` gives. -/
theorem nextChunk_eq (fuel : Nat) (s : RenderStream) (w : World) :
    s.nextChunk fuel w = (s.takeUpTo fuel s.config.buffer w).map fun (texts, failure, t, v) =>
      (chunkOf texts failure, t, v) := by
  rw [nextChunk, gather_eq]
  split
  · rename_i hfinished
    rw [takeUpTo_of_finished hfinished]
    rfl
  · cases s.takeUpTo fuel s.config.buffer w with
    | none => rfl
    | some answer =>
      obtain ⟨texts, failure, t, v⟩ := answer
      cases failure with
      | some error => rfl
      | none => cases texts <;> rfl

/-! ## Chunk by chunk -/

section Each

variable {callback : Nat → List String → Option Error} {rounds count : Nat}
  {chunks : List (List String)}

/-- A chunk that the callback accepts. -/
theorem go_chunk (hbuffer : s.config.buffer = size)
    (h : s.takeUpTo fuel size w = some (texts, none, t, v)) (htexts : texts ≠ [])
    (haccepts : callback chunks.length texts = none) :
    forEachChunk.go fuel callback (rounds + 1) chunks s w =
      forEachChunk.go fuel callback rounds (texts :: chunks) t v := by
  obtain ⟨text, more, rfl⟩ := List.exists_cons_of_ne_nil htexts
  rw [forEachChunk.go, nextChunk_eq, hbuffer, h]
  simp only [Option.map_some, chunkOf, haccepts]

/-- So does the end. -/
theorem go_ended (hbuffer : s.config.buffer = size)
    (h : s.takeUpTo fuel size w = some ([], none, t, v)) :
    forEachChunk.go fuel callback (rounds + 1) chunks s w =
      some (chunks.reverse, none, t.drop v) := by
  rw [forEachChunk.go, nextChunk_eq, hbuffer, h]
  rfl

end Each

end RenderStream

end TaggedMarkup
