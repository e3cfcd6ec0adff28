import TaggedMarkup.Template.Scanner
import TaggedMarkup.Template.Evaluate

/-!
# Templates in an arena

A compiled template can be laid out flat: its blocks stand in a row, the root first, and where the tree
has an element, the block of its parent has a *reference*, the index of the element's block.

Here the scanner writes into such an **arena**, and an evaluation reads from it. An index may be wrong,
and a chain of references may go in circles; so the scanner gives `none` where it indexes outside the
arena, and the evaluation where it has no fuel left for the depth of the references.
-/

namespace TaggedMarkup

/-- One instruction of a block in an arena. -/
inductive Instruction where
  | tag (operand : Operand)
  | spread (field : Nat)
  | set (name : String) (operand : Operand)
  | append (name : String) (operand : Operand)
  | child (operand : Operand)
  /-- build the element of the block at this index -/
  | recurse (block : Nat)

namespace Instruction

/-- An instruction of the tree; an element becomes a reference to its block. -/
def ofOp : Op → Instruction
  | .tag operand => tag operand
  | .spread field => spread field
  | .set name operand => set name operand
  | .append name operand => append name operand
  | .child operand => child operand
  | .element block _ => recurse block

/-- The instruction in a tree in which nothing stands below it. -/
def bare : Instruction → Op
  | tag operand => .tag operand
  | spread field => .spread field
  | set name operand => .set name operand
  | append name operand => .append name operand
  | child operand => .child operand
  | recurse block => .element block []

/-- The index of the block that an instruction refers to. -/
def target? : Instruction → Option Nat
  | recurse block => some block
  | _ => none

end Instruction

/-- The instructions of one block. -/
abbrev Block := List Instruction

namespace Block

/-- The block with the instructions of a block in the tree. -/
def ofOps (ops : List Op) : Block := ops.map Instruction.ofOp

/-- The indices of the blocks that a block refers to. -/
def references (b : Block) : List Nat := b.filterMap Instruction.target?

end Block

/-- The blocks of a template, each at the index that is its number. -/
def Template.layout (t : Template) : List Block := t.blocks.map fun row => Block.ofOps row.2

/-- Blocks, and which of them are open. -/
structure Arena where
  blocks : List Block := [[]]
  /-- the indices of the open blocks, the innermost first, that of the root last -/
  stack : List Nat := [0]

namespace Arena

/-- The index of the innermost open block. -/
def current (a : Arena) : Nat := a.stack.headD 0

/-- Add an instruction to the innermost open block. -/
def push (i : Instruction) (a : Arena) : Option Arena := do
  let block ← a.blocks[a.current]?
  return { a with blocks := a.blocks.set a.current (block ++ [i]) }

/-- Open a new block. -/
def openElement (a : Arena) : Arena where
  blocks := a.blocks ++ [[]]
  stack := a.blocks.length :: a.stack

/-- Take back the innermost open block, if it is not the root. Nothing refers to it yet; if it is the
last one and empty, it leaves the arena. -/
def discard (a : Arena) : Option Arena :=
  match a.stack with
  | id :: next :: outer =>
    let stack := next :: outer
    if id + 1 = a.blocks.length then do
      let block ← a.blocks[id]?
      return { blocks := if block.isEmpty then a.blocks.dropLast else a.blocks, stack }
    else
      some { a with stack }
  | _ => some a

/-- Close the innermost open block, if it is not the root: the one around it refers to it. -/
def close (a : Arena) : Option Arena :=
  match a.stack with
  | id :: next :: outer => { a with stack := next :: outer }.push (.recurse id)
  | _ => some a

/-- The state of a scanner that writes into an arena. -/
structure Writer where
  mode : Mode := .text
  /-- the characters not yet committed, the newest first -/
  buffer : List Char := []
  /-- the quote that is open -/
  quote : Option Char := none
  arena : Arena := {}

namespace Writer

/-- Act on the arena. -/
def act (f : Arena → Option Arena) (w : Writer) : Option Writer := do
  let arena ← f w.arena
  return { w with arena }

/-- Add an instruction to the innermost open block. -/
def push (i : Instruction) : Writer → Option Writer := act (Arena.push i)

/-- The buffer as text. -/
def word (w : Writer) : String := String.ofList w.buffer.reverse

/-- Add a piece of the value of the attribute `name`. -/
def pushPiece (name : String) (operand : Operand) (begun : Bool) (w : Writer) : Option Writer := do
  let w ← w.push (if begun then .append name operand else .set name operand)
  return { w with mode := .value name true }

/-- Give the buffer its meaning at the end of a mode, where no field follows. -/
def commit (w : Writer) : Option Writer :=
  let word := w.word
  let w := { w with buffer := [] }
  match w.mode with
  | .text =>
    let text := Trim.text word
    if text = "" then some w else w.push (.child (.fixed (.str text)))
  | .tagName =>
    if word = "" then some w
    else do
      let w ← w.push (.tag (.fixed (.str word)))
      return { w with mode := .space }
  | .space => if word = "" then some w else w.push (.set word (.fixed (.bool true)))
  | .value name begun =>
    if word = "" ∧ begun then some w else w.pushPiece name (.fixed (.str word)) begun
  | .comment _ => some { w with mode := .comment [] }
  | .slash => some w

/-- Give the buffer its meaning before the field with number `field`, and place the field. -/
def commitField (field : Nat) (w : Writer) : Option Writer :=
  let word := w.word
  let w := { w with buffer := [] }
  match w.mode with
  | .text => w.push (.child (.field field))
  | .tagName => do
    let w ← w.push (.tag (.field field))
    return { w with mode := .space }
  | .space => if word = "..." then w.push (.spread field) else some w
  | .value name begun =>
    if word = "" then w.pushPiece name (.field field) begun
    else do
      let w ← w.pushPiece name (.fixed (.str word)) begun
      w.pushPiece name (.field field) true
  | .comment _ => some { w with mode := .comment [] }
  | .slash => some w

/-- Read a character that means nothing special. -/
def buffered (c : Char) (w : Writer) : Writer := { w with buffer := c :: w.buffer }

/-- A slash closes the element. In a tag name it makes the tag a closing tag, which opened no
element. -/
def slash (w : Writer) : Option Writer := do
  let w ← w.commit
  let w ← if w.mode = .tagName then w.act discard else some w
  let w ← w.act close
  return { w with mode := .slash }

/-- Whether the mode is inside an attribute's value, where a slash only counts before `>`. -/
def inValue (w : Writer) : Bool :=
  match w.mode with
  | .value _ _ => true
  | _ => false

/-- Commit, and go on in another mode. -/
def commitInto (mode : Mode) (w : Writer) : Option Writer := do
  let w ← w.commit
  return { w with mode }

/-- Read a character inside a tag, outside quotes. -/
def stepTag (c : Char) (following : Option Char) (w : Writer) : Option Writer :=
  if c = '"' ∨ c = '\'' then some { w with quote := some c }
  else if c = '>' then w.commitInto .text
  else if w.mode = .slash then some w
  else if c = '=' then some { w with mode := .value w.word false, buffer := [] }
  else if c = '/' ∧ (¬ w.inValue ∨ following = some '>') then w.slash
  else if c = ' ' ∨ c = '\t' ∨ c = '\n' ∨ c = '\r' then w.commitInto .space
  else some (w.buffered c)

/-- A tag name that starts a comment, once it has been read that far. -/
def enterComment (w : Writer) : Option Writer :=
  if w.mode = .tagName ∧ w.buffer = ['-', '-', '!'] then do
    let w ← w.act discard
    return { w with mode := .comment [], buffer := [] }
  else
    some w

/-- Read a character inside a tag, where a quote may be open. -/
def stepInside (c : Char) (following : Option Char) (w : Writer) : Option Writer :=
  match w.quote with
  | some quote => some (if c = quote then { w with quote := none } else w.buffered c)
  | none => w.stepTag c following

/-- Read one character, given the one after it in the same part. -/
def step (c : Char) (following : Option Char) (w : Writer) : Option Writer :=
  match w.mode with
  | .text =>
    if c = '<' then do
      let w ← w.commit
      return { w with arena := w.arena.openElement, mode := .tagName }
    else
      some (w.buffered c)
  | .comment latest =>
    if latest = ['-', '-'] ∧ c = '>' then some { w with mode := .text, buffer := [] }
    else some { w with mode := .comment (c :: latest.take 1) }
  | _ => (w.stepInside c following).bind enterComment

/-- Read the characters of one part. -/
def part : List Char → Writer → Option Writer
  | [], w => some w
  | c :: rest, w => (w.step c rest.head?).bind (part rest)

/-- Place the field before the next part. Text before it is committed on its own. -/
def field (index : Nat) (w : Writer) : Option Writer :=
  (if w.mode = .text then w.commit else some w).bind (commitField index)

/-- Read the parts that follow the one before field `index`. -/
def rest (index : Nat) : List String → Writer → Option Writer
  | [], w => some w
  | p :: ps, w => do
    let w ← w.field index
    let w ← w.part p.toList
    rest (index + 1) ps w

/-- Read all parts. -/
def parts : List String → Writer → Option Writer
  | [], w => some w
  | p :: ps, w => (w.part p.toList).bind (rest 0 ps)

/-- Close so many open blocks. -/
def closeTimes : Nat → Writer → Option Writer
  | 0, w => some w
  | n + 1, w => (closeTimes n w).bind (act close)

/-- Close what is open at the end: all but the root. -/
def finish (w : Writer) : Option Writer := do
  let w ← w.commit
  w.closeTimes (w.arena.stack.length - 1)

end Writer

/-- Compile the parts of a template into an arena. -/
def compile (parts : List String) : Option (List Block) := do
  let w ← Writer.parts parts {}
  let w ← w.finish
  return w.arena.blocks

end Arena

/-- A pass over an arena, with the blocks it has visited, the latest last. -/
structure Tour (σ : Type) where
  pass : Pass σ
  visited : List Nat := []

namespace Tour

variable {σ : Type}

/-- Come to a block. -/
def visit (block : Nat) (t : Tour σ) : Tour σ := { t with visited := t.visited ++ [block] }

end Tour

namespace Setting

variable {σ : Type}

/-- Carry out one instruction, given how a block is carried out. -/
def runInstruction (s : Setting σ) (runBlock : Nat → Draft → Tour σ → Option (Draft × Tour σ)) :
    Instruction → Draft → Tour σ → Option (Draft × Tour σ)
  | .recurse block, d, t =>
    match t.pass.folds.lookup block with
    | some value => some (d.addChild value, t)
    | none => do
      let (child, t) ← runBlock block .element t
      let (value, flags, host) := s.factory ⟨s.template, block, child.flags⟩ child.tag child.props
        child.children t.pass.host
      let p := { t.pass with host }
      if flags.isStatic then
        return (d.addChild value, { t with pass := if s.fold then p.keep block value else p })
      else
        return ((d.addChild value).markChildren true, { t with pass := p })
  | i, d, t =>
    let (d, p) := s.run i.bare d t.pass
    some (d, { t with pass := p })

/-- Carry out instructions in order, given how a block is carried out. -/
def runInstructions (s : Setting σ)
    (runBlock : Nat → Draft → Tour σ → Option (Draft × Tour σ)) :
    Block → Draft → Tour σ → Option (Draft × Tour σ)
  | [], d, t => some (d, t)
  | i :: rest, d, t => do
    let (d, t) ← s.runInstruction runBlock i d t
    runInstructions s runBlock rest d t

/-- Carry out the block at an index, with fuel for so many references one inside the other. There is
nothing to do for an index outside the arena. -/
def runBlock (s : Setting σ) (blocks : List Block) :
    Nat → Nat → Draft → Tour σ → Option (Draft × Tour σ)
  | 0, _, _, _ => none
  | fuel + 1, id, d, t =>
    match blocks[id]? with
    | none => some (d, t)
    | some block => s.runInstructions (runBlock s blocks fuel) block d (t.visit id)

/-- Evaluate a template from its blocks. -/
def evaluateBlocks (s : Setting σ) (blocks : List Block) (fuel : Nat) (folds : Folds) (host : σ) :
    Option (Value × Tour σ) := do
  let (d, t) ← s.runBlock blocks fuel 0 .root { pass := { folds, host } }
  return (ofRoots d.children, t)

end Setting

end TaggedMarkup
