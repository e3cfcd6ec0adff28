/-!
# Trimming

Line breaks and indentation between tags are layout, not content. A run of blanks at either end of
a text is dropped **if it contains a newline**, and kept verbatim otherwise. The end is trimmed
after the start, on what the start has left.

Both cuts are found by walking over the **bytes** of the text: forwards from its start, then backwards
from its end, no further than the first cut. A walk that comes over no newline is undone.
-/

namespace TaggedMarkup.Trim

/-- The byte of a newline. -/
def newline : UInt8 := 10

/-- The bytes of space, tab, carriage return and newline. -/
def isBlankByte (b : UInt8) : Bool := b == 32 || b == 9 || b == 13 || b == newline

/-- Walk forwards over blank bytes from place `i` on: where they end, and whether a newline has been among
them. -/
def forwards (bytes : ByteArray) (i : Nat) (broken : Bool) : Nat × Bool :=
  if h : i < bytes.size then
    if isBlankByte bytes[i] then forwards bytes (i + 1) (broken || bytes[i] == newline) else (i, broken)
  else
    (i, broken)
termination_by bytes.size - i

/-- Walk backwards over the blank bytes that end before place `i`, but not below `low`: where they begin, and
whether a newline has been among them. -/
def backwards (bytes : ByteArray) (low : Nat) : (i : Nat) → (broken : Bool) → Nat × Bool
  | 0, broken => (0, broken)
  | i + 1, broken =>
    if low ≤ i && isBlankByte bytes[i]! then backwards bytes low i (broken || bytes[i]! == newline)
    else (i + 1, broken)

/-- Where what is kept begins. -/
def start (bytes : ByteArray) : Nat :=
  let (i, broken) := forwards bytes 0 false
  if broken then i else 0

/-- Where what is kept ends, if it begins at `start`. -/
def stop (bytes : ByteArray) (start : Nat) : Nat :=
  let (i, broken) := backwards bytes start bytes.size false
  if broken then i else bytes.size

/-- A text without the layout at its ends. -/
def text (s : String) : String :=
  let bytes := s.toUTF8
  let start := start bytes
  String.Pos.Raw.extract s ⟨start⟩ ⟨stop bytes start⟩

end TaggedMarkup.Trim
