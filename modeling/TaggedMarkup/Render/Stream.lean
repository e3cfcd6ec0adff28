import TaggedMarkup.Config
import TaggedMarkup.Render.Turn

/-!
# Render streams

A render is taken **fragment by fragment**. Between two fragments nothing happens; while one is
asked for, the render has turns, and the clock moves on whenever it can only wait.

Two guards end a stream after an error. The inner one, on every render, lets one error out and ends
the stream when it is asked again; it finds out by looking for one more fragment. The outer one
belongs to `next` and `nextChunk` and ends the stream at once. `drain` goes past the outer guard.
-/

namespace TaggedMarkup

/-- A render that is being taken. -/
structure RenderStream where
  /-- the task of the render -/
  task : Nat
  /-- what is left to do -/
  stack : List Work
  config : RenderConfig
  /-- an error came out -/
  failed : Bool := false
  /-- asked again after the error, the render ended for good -/
  closed : Bool := false
  /-- `next` has seen the end or an error -/
  finished : Bool := false

/-- What comes out of a stream. -/
inductive Delivery where
  | fragment (text : String)
  | failed (error : Error)
  | ended
  deriving DecidableEq, Repr

namespace RenderStream

/-- A render of pieces of work. Nothing is done yet. -/
def start (config : RenderConfig) (stack : List Work) (w : World) : RenderStream × World :=
  let (task, w) := w.newTask { window := none }
  ({ task, stack, config }, w)

/-- A render of a root. -/
def ofRoot (config : RenderConfig) (value : Value) (w : World) : RenderStream × World :=
  start config [.root value] w

/-- A render of an item. -/
def ofItem (config : RenderConfig) (value : Value) (w : World) : RenderStream × World :=
  start config [.item value] w

/-- Have turns until something comes out, letting time pass as needed. A render that waits for
nothing never delivers. -/
def await : Nat → RenderStream → World → Option (Delivery × RenderStream × World)
  | 0, _, _ => none
  | fuel + 1, s, w =>
    match Render.turn s.config.concurrency fuel [] s.task s.stack (w.beginTurn s.task) with
    | none => none
    | some (.fragment text, stack, w) => some (.fragment text, { s with stack }, w)
    | some (.failed error, stack, w) => some (.failed error, { s with stack }, w)
    | some (.ended, stack, w) => some (.ended, { s with stack }, w)
    | some (.blocked, stack, w) =>
      if w.isWoken s.task then await fuel { s with stack } w
      else match w.advance? with
        | none => none
        | some w => await fuel { s with stack } w

/-- Take what comes next, past the inner guard. -/
def pull (fuel : Nat) (s : RenderStream) (w : World) : Option (Delivery × RenderStream × World) :=
  if s.closed then
    some (.ended, s, w)
  else
    match s.await fuel w with
    | none => none
    | some (.ended, s, w) => some (.ended, s, w)
    | some (out, s, w) =>
      if s.failed then some (.ended, { s with closed := true }, w)
      else match out with
        | .failed error => some (.failed error, { s with failed := true }, w)
        | out => some (out, s, w)

/-- Take what comes next, past both guards. -/
def next (fuel : Nat) (s : RenderStream) (w : World) : Option (Delivery × RenderStream × World) :=
  if s.finished then
    some (.ended, s, w)
  else
    match s.pull fuel w with
    | some (.fragment text, s, w) => some (.fragment text, s, w)
    | some (out, s, w) => some (out, { s with finished := true }, w)
    | none => none

/-- Take up to `size` fragments; an error takes the place of all of them. -/
def gather (fuel : Nat) :
    Nat → RenderStream → World → Option (Except Error (List String) × RenderStream × World)
  | 0, s, w => some (.ok [], s, w)
  | size + 1, s, w =>
    match s.next fuel w with
    | none => none
    | some (.ended, s, w) => some (.ok [], s, w)
    | some (.failed error, s, w) => some (.error error, s, w)
    | some (.fragment text, s, w) =>
      match gather fuel size s w with
      | some (.ok texts, s, w) => some (.ok (text :: texts), s, w)
      | other => other

/-- Take the next chunk; there is none at the end. -/
def nextChunk (fuel : Nat) (s : RenderStream) (w : World) :
    Option (Except Error (Option (List String)) × RenderStream × World) :=
  if s.finished then
    some (.ok none, s, w)
  else
    match gather fuel s.config.buffer s w with
    | none => none
    | some (.error error, s, w) => some (.error error, s, w)
    | some (.ok texts, s, w) => some (.ok (if texts.isEmpty then none else some texts), s, w)

/-- Choose the number of fragments in a chunk, at least one. -/
def withBuffer (fragments : Nat) (s : RenderStream) : RenderStream :=
  { s with config := s.config.withBuffer fragments }

/-- Give a render up. What it was waiting for keeps its deadline. -/
def drop (s : RenderStream) (w : World) : World :=
  (w.abandon [] s.stack).modifyTask s.task fun cell => { cell with ended := true }

/-- Take everything there is, and the error that ended it, if one did; then the render is given
up. -/
def drain (fuel : Nat) (s : RenderStream) (w : World) :
    Option (List String × Option Error × World) :=
  go fuel [] s w
where
  go : Nat → List String → RenderStream → World → Option (List String × Option Error × World)
    | 0, _, _, _ => none
    | rounds + 1, texts, s, w =>
      match s.pull fuel w with
      | none => none
      | some (.ended, s, w) => some (texts.reverse, none, s.drop w)
      | some (.failed error, s, w) => some (texts.reverse, some error, s.drop w)
      | some (.fragment text, s, w) => go rounds (text :: texts) s w

/-- Take everything there is, and ask on after an error until the render has ended for good: what comes
after the error is looked for in vain. Then the render is given up. -/
def exhaust (fuel : Nat) (s : RenderStream) (w : World) :
    Option (List String × Option Error × World) :=
  go fuel [] none s w
where
  go : Nat → List String → Option Error → RenderStream → World →
      Option (List String × Option Error × World)
    | 0, _, _, _, _ => none
    | rounds + 1, texts, failed, s, w =>
      match s.pull fuel w with
      | none => none
      | some (.ended, s, w) => some (texts.reverse, failed, s.drop w)
      | some (.failed error, s, w) => go rounds texts (some error) s w
      | some (.fragment text, s, w) => go rounds (text :: texts) failed s w

/-- Take every chunk and hand it to a callback with its number, until one of them fails; the chunks
that were handed over are returned. Then the render is given up. -/
def forEachChunk (fuel : Nat) (callback : Nat → List String → Option Error) (s : RenderStream)
    (w : World) : Option (List (List String) × Option Error × World) :=
  go fuel [] s w
where
  go : Nat → List (List String) → RenderStream → World →
      Option (List (List String) × Option Error × World)
    | 0, _, _, _ => none
    | rounds + 1, chunks, s, w =>
      match s.nextChunk fuel w with
      | none => none
      | some (.error error, s, w) => some (chunks.reverse, some error, s.drop w)
      | some (.ok none, s, w) => some (chunks.reverse, none, s.drop w)
      | some (.ok (some chunk), s, w) =>
        match callback chunks.length chunk with
        | some error => some ((chunk :: chunks).reverse, some error, s.drop w)
        | none => go rounds (chunk :: chunks) s w

end RenderStream

namespace Render

/-- Fragments in order as one text, up to the first error. -/
def concat : List (Except Error String) → Except Error String
  | [] => .ok ""
  | .error error :: _ => .error error
  | .ok text :: rest => (concat rest).map (text ++ ·)

/-- Render a root into one text. -/
def toText (fuel : Nat) (config : RenderConfig) (value : Value) (w : World) :
    Option (Except Error String × World) :=
  let (s, w) := RenderStream.ofRoot config value w
  match s.drain fuel w with
  | none => none
  | some (_, some error, w) => some (.error error, w)
  | some (texts, none, w) => some (.ok (String.join texts), w)

end Render

namespace World

/-- Await a pending value outside a render. -/
def resolve (fuel : Nat) (pending : Nat) (w : World) : Option (Outcome × World) :=
  let (task, w) := w.newTask { window := none }
  go fuel task none w
where
  go : Nat → Nat → Option Nat → World → Option (Outcome × World)
    | 0, _, _, _ => none
    | rounds + 1, task, seat, w =>
      match (w.beginTurn task).await (.task task) pending seat with
      | (.ready outcome, w) => some (outcome, w)
      | (.notYet seat, w) =>
        if w.isWoken task then go rounds task (some seat) w
        else match w.advance? with
          | none => none
          | some w => go rounds task (some seat) w

end World

end TaggedMarkup
