import TaggedMarkup.Number.Double

/-!
# Rounding to a double

The **nearest double** of an exact quotient, ties going to the even significand. Decimal text,
integers of any width, single-precision words and hit rates all become doubles through
`Double.ofRatio`, so each of them is rounded once.
-/

namespace TaggedMarkup

/-- `10 ^ n`, the weight of decimal place `n`. -/
def tenTo (n : Nat) : Nat := Nat.pow 10 n

/-- `num / den` rounded to the nearest integer, a half going to the even one. -/
def roundHalfEven (num den : Nat) : Nat :=
  let floor := num / den
  let twice := 2 * (num % den)
  if twice < den ∨ (twice = den ∧ floor % 2 = 0) then floor else floor + 1

namespace Double

/-- `num / den` divided by `2 ^ e`, as a numerator and a denominator. -/
def scaleDown (num den : Nat) (e : Int) : Nat × Nat :=
  (num * twoTo (-e).toNat, den * twoTo e.toNat)

/-- The power of two that the last significand bit of `num / den` stands for: the one that leaves
53 significant bits, but never below the power of the subnormal numbers. -/
def lastBit (num den : Nat) : Int :=
  let low : Int := max ((num.log2 : Int) - den.log2 - 53) (-1074)
  let (n, d) := scaleDown num den low
  if n / d < twoTo 53 then low else low + 1

/-- The double nearest to `num / den`, negated if `negative`; beyond the largest double it is an
infinity. The exponent field and the significand are added, so a significand rounded up to the
next power of two carries into the exponent. -/
def ofRatio (negative : Bool) (num den : Nat) : Double :=
  if num = 0 then
    signed negative 0
  else
    let e := lastBit num den
    let (n, d) := scaleDown num den e
    let rounded := roundHalfEven n d
    signed negative (min ((e + 1074).toNat * twoTo 52 + rounded) (topField * twoTo 52))

/-- The double nearest to an integer. -/
def ofInt (n : Int) : Double := ofRatio (n < 0) n.natAbs 1

/-- The double nearest to a natural number. -/
def ofNat (n : Nat) : Double := ofInt n

/-- The double nearest to `digits · 10 ^ exponent`. -/
def ofDecimal (digits exponent : Int) : Double :=
  ofRatio (digits < 0) (digits.natAbs * tenTo exponent.toNat) (tenTo (-exponent).toNat)

/-- The double equal to a 32-bit floating-point word; every NaN becomes the same one. -/
def ofSingle (bits : UInt32) : Double :=
  let word := bits.toNat
  let negative : Bool := twoTo 31 ≤ word
  let exponent := word % twoTo 31 / twoTo 23
  let fraction := word % twoTo 23
  if exponent = 255 then
    signed negative (topField * twoTo 52 + if fraction = 0 then 0 else twoTo 51)
  else
    let significand := if exponent = 0 then fraction else twoTo 23 + fraction
    let power : Int := (max exponent 1 : Nat) - 150
    ofRatio negative (significand * twoTo power.toNat) (twoTo (-power).toNat)

end Double

end TaggedMarkup
