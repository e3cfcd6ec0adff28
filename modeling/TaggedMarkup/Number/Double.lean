/-!
# Doubles

The numbers of the value model are 64-bit binary floating-point words, and a word is all that a
`Double` holds. Its three fields are read off with `Nat` arithmetic, so every statement about a
double is a statement about natural numbers; no machine arithmetic is involved.

* **Fields.** A sign, an 11-bit exponent field and a 52-bit fraction.
* **Magnitude.** A finite double stands for `± significand · 2 ^ binaryExponent`.
* **Equality.** `Double.equals` is the numeric one: the two zeros are equal, and a NaN is equal to
  nothing. Equality of `Double`s as words is the ordinary `=`.
-/

namespace TaggedMarkup

/-- `2 ^ n`, the weight of bit `n`. -/
def twoTo (n : Nat) : Nat := Nat.pow 2 n

/-- A 64-bit floating-point number, by its bits. -/
structure Double where
  /-- the sign, exponent and fraction, from the high bit down -/
  bits : UInt64
  deriving DecidableEq, Repr, Inhabited

namespace Double

/-- The bits as a natural number. -/
def word (d : Double) : Nat := d.bits.toNat

/-- The sign bit is set. -/
def negative (d : Double) : Bool := twoTo 63 ≤ d.word

/-- The word without its sign. Magnitudes of finite doubles are ordered as these are. -/
def unsigned (d : Double) : Nat := d.word % twoTo 63

/-- The 11-bit exponent field. -/
def exponentField (d : Double) : Nat := d.unsigned / twoTo 52

/-- The 52-bit fraction. -/
def fraction (d : Double) : Nat := d.unsigned % twoTo 52

/-- The exponent field of infinities and NaNs. -/
def topField : Nat := 2047

def isFinite (d : Double) : Bool := d.exponentField != topField

def isNaN (d : Double) : Bool := d.exponentField == topField && d.fraction != 0

def isInfinite (d : Double) : Bool := d.exponentField == topField && d.fraction == 0

/-- Either of the two zeros. -/
def isZero (d : Double) : Bool := d.unsigned == 0

/-- The integer that `2 ^ binaryExponent` multiplies. -/
def significand (d : Double) : Nat :=
  if d.exponentField = 0 then d.fraction else twoTo 52 + d.fraction

/-- The power of two of the last fraction bit. -/
def binaryExponent (d : Double) : Int := (max d.exponentField 1 : Nat) - 1075

/-- The numerator and denominator of the magnitude of a finite double. -/
def magnitude (d : Double) : Nat × Nat :=
  (d.significand * twoTo d.binaryExponent.toNat, twoTo (-d.binaryExponent).toNat)

/-- Numeric equality: the zeros are equal and a NaN is equal to nothing. -/
def equals (a b : Double) : Bool :=
  !a.isNaN && !b.isNaN && (a.bits == b.bits || (a.isZero && b.isZero))

/-- The integer that a finite double is, if it is one. -/
def toInt? (d : Double) : Option Int :=
  let (num, den) := d.magnitude
  if d.isFinite && num % den == 0 then
    some (if d.negative then -(num / den : Nat) else (num / den : Nat))
  else
    none

/-- The zero with its sign bit clear. -/
def zero : Double := ⟨0⟩

/-- The word with the given sign bit in front of 63 bits. -/
def signed (negative : Bool) (unsigned : Nat) : Double :=
  ⟨UInt64.ofNat (if negative then twoTo 63 + unsigned else unsigned)⟩

end Double

end TaggedMarkup
