import TaggedMarkup.Template.Basic
import TaggedMarkup.Text.Trim

/-!
# Scanning template parts

One pass over the characters of the parts turns them into a compiled template. The scanner accepts
anything: a closing tag too many is passed over, and what is open at the end is closed there.

* **Mode.** Where in the markup the scanner stands. A quote may be open in any mode inside a tag.
* **Buffer.** The characters read since the last instruction, the newest first. They are *committed*
  when the mode ends, or when a part ends and a field follows; what they mean depends on the mode.
* **Frames.** The elements that are open, the innermost first, each with the instructions it has so
  far, the newest first. An element enters the tree when it is closed.
-/

namespace TaggedMarkup

/-- Where the scanner stands. -/
inductive Mode where
  /-- after a slash: nothing counts until `>` -/
  | slash
  | text
  /-- inside a tag, between attributes or in an attribute's name -/
  | space
  | tagName
  /-- inside a comment, with its two latest characters, the newest first -/
  | comment (latest : List Char)
  /-- in the value of an attribute; `begun` once the value has a first piece -/
  | value (name : String) (begun : Bool)
  deriving DecidableEq, Repr

/-- An open element. -/
structure Frame where
  /-- the number of the element's block -/
  block : Nat
  /-- its instructions, the newest first -/
  ops : List Op

/-- The state of the scanner. -/
structure Scan where
  mode : Mode := .text
  /-- the characters not yet committed, the newest first -/
  buffer : List Char := []
  /-- the quote that is open -/
  quote : Option Char := none
  /-- the instructions at the root, the newest first -/
  root : List Op := []
  /-- the open elements, the innermost first -/
  frames : List Frame := []
  /-- the number of the next block -/
  next : Nat := 1

namespace Scan

/-- Add an instruction to the innermost open element. -/
def push (op : Op) (s : Scan) : Scan :=
  match s.frames with
  | [] => { s with root := op :: s.root }
  | frame :: rest => { s with frames := { frame with ops := op :: frame.ops } :: rest }

/-- Open an element. -/
def openElement (s : Scan) : Scan :=
  { s with frames := ⟨s.next, []⟩ :: s.frames, next := s.next + 1 }

/-- Take back the innermost open element, and its number with it: what looked like an element was a
closing tag or a comment. -/
def discard (s : Scan) : Scan :=
  match s.frames with
  | [] => s
  | frame :: rest => { s with frames := rest, next := frame.block }

/-- Close the innermost open element, if there is one. -/
def close (s : Scan) : Scan :=
  match s.frames with
  | [] => s
  | frame :: rest => { s with frames := rest }.push (.element frame.block frame.ops.reverse)

/-- Close every open element. -/
def closeAll (s : Scan) : Scan := Nat.repeat close s.frames.length s

/-- The buffer as text. -/
def word (s : Scan) : String := String.ofList s.buffer.reverse

/-- Add a piece of the value of the attribute `name`. -/
def pushPiece (name : String) (operand : Operand) (begun : Bool) (s : Scan) : Scan :=
  { s.push (if begun then .append name operand else .set name operand) with
    mode := .value name true }

/-- Give the buffer its meaning at the end of a mode, where no field follows. -/
def commit (s : Scan) : Scan :=
  let word := s.word
  let s := { s with buffer := [] }
  match s.mode with
  | .text =>
    let text := Trim.text word
    if text = "" then s else s.push (.child (.fixed (.str text)))
  | .tagName =>
    if word = "" then s else { s.push (.tag (.fixed (.str word))) with mode := .space }
  | .space => if word = "" then s else s.push (.set word (.fixed (.bool true)))
  | .value name begun =>
    if word = "" ∧ begun then s else s.pushPiece name (.fixed (.str word)) begun
  | .comment _ => { s with mode := .comment [] }
  | .slash => s

/-- Give the buffer its meaning before the field with number `field`, and place the field. -/
def commitField (field : Nat) (s : Scan) : Scan :=
  let word := s.word
  let s := { s with buffer := [] }
  match s.mode with
  | .text => s.push (.child (.field field))
  | .tagName => { s.push (.tag (.field field)) with mode := .space }
  | .space => if word = "..." then s.push (.spread field) else s
  | .value name begun =>
    if word = "" then s.pushPiece name (.field field) begun
    else (s.pushPiece name (.fixed (.str word)) begun).pushPiece name (.field field) true
  | .comment _ => { s with mode := .comment [] }
  | .slash => s

/-- Read a character that means nothing special. -/
def buffered (c : Char) (s : Scan) : Scan := { s with buffer := c :: s.buffer }

/-- A slash closes the element. In a tag name it makes the tag a closing tag, which opened no
element. -/
def slash (s : Scan) : Scan :=
  let s := s.commit
  let s := if s.mode = .tagName then s.discard else s
  { s.close with mode := .slash }

/-- Whether the mode is inside an attribute's value, where a slash only counts before `>`. -/
def inValue (s : Scan) : Bool :=
  match s.mode with
  | .value _ _ => true
  | _ => false

/-- Read a character inside a tag, outside quotes. -/
def stepTag (c : Char) (following : Option Char) (s : Scan) : Scan :=
  if c = '"' ∨ c = '\'' then { s with quote := some c }
  else if c = '>' then { s.commit with mode := .text }
  else if s.mode = .slash then s
  else if c = '=' then { s with mode := .value s.word false, buffer := [] }
  else if c = '/' ∧ (¬ s.inValue ∨ following = some '>') then s.slash
  else if c = ' ' ∨ c = '\t' ∨ c = '\n' ∨ c = '\r' then { s.commit with mode := .space }
  else s.buffered c

/-- A tag name that starts a comment, once it has been read that far. -/
def enterComment (s : Scan) : Scan :=
  if s.mode = .tagName ∧ s.buffer = ['-', '-', '!'] then
    { s.discard with mode := .comment [], buffer := [] }
  else
    s

/-- Read one character, given the one after it in the same part. -/
def step (c : Char) (following : Option Char) (s : Scan) : Scan :=
  match s.mode with
  | .text =>
    if c = '<' then { s.commit.openElement with mode := .tagName } else s.buffered c
  | .comment latest =>
    if latest = ['-', '-'] ∧ c = '>' then { s with mode := .text, buffer := [] }
    else { s with mode := .comment (c :: latest.take 1) }
  | _ =>
    enterComment <| match s.quote with
      | some quote => if c = quote then { s with quote := none } else s.buffered c
      | none => s.stepTag c following

/-- Read the characters of one part. -/
def part : List Char → Scan → Scan
  | [], s => s
  | c :: rest, s => part rest (s.step c rest.head?)

/-- Place the field before the next part. Text before it is committed on its own. -/
def field (index : Nat) (s : Scan) : Scan :=
  (if s.mode = .text then s.commit else s).commitField index

/-- Read the parts that follow the one before field `index`. -/
def rest (index : Nat) : List String → Scan → Scan
  | [], s => s
  | p :: ps, s => rest (index + 1) ps ((s.field index).part p.toList)

/-- Read all parts. -/
def parts : List String → Scan → Scan
  | [], s => s
  | p :: ps, s => rest 0 ps (s.part p.toList)

/-- Close what is open at the end. -/
def finish (s : Scan) : Scan := s.commit.closeAll

end Scan

namespace Template

/-- Compile the parts of a template. -/
def compile (parts : List String) : Template where
  root := (Scan.parts parts {}).finish.root.reverse
  fields := parts.length - 1

end Template

end TaggedMarkup
