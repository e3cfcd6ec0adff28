import TaggedMarkup.Number.Shortest

/-!
# Number text

How a double is written: the digits are always the shortest that read back, and a `NumberStyle`
says how they are laid out. A number is written **positionally** while its leading exponent stays
in the style's range, and with an **exponent** outside it, the sign of the exponent always
explicit.

`Double.text` is the string form of numbers: positional from `1e-6` up to below `1e21`.
-/

namespace TaggedMarkup

/-- A way of laying out decimal digits. -/
structure NumberStyle where
  /-- the least leading exponent that is written positionally -/
  least : Int
  /-- the first leading exponent past the positional range -/
  past : Int
  /-- positional integers end in `.0` -/
  pointZero : Bool
  /-- the choice between equally near digits -/
  tie : Tie

namespace Decimal

/-- The digits with a decimal point where the exponent puts it. -/
def positional (pointZero : Bool) (d : Decimal) : String :=
  let digits := Nat.toDigits 10 d.digits
  let places := (-d.exponent).toNat
  if d.exponent < 0 then
    let padded := List.replicate (places + 1 - digits.length) '0' ++ digits
    let whole := padded.length - places
    String.ofList (padded.take whole ++ '.' :: padded.drop whole)
  else
    String.ofList (digits ++ List.replicate d.exponent.toNat '0') ++ if pointZero then ".0" else ""

/-- One digit, the others behind a point, and the leading exponent with its sign. -/
def scientific (d : Decimal) : String :=
  let e := d.leading
  let sign := if e < 0 then "e-" else "e+"
  let mantissa := match Nat.toDigits 10 d.digits with
    | first :: second :: rest => String.ofList (first :: '.' :: second :: rest)
    | short => String.ofList short
  mantissa ++ sign ++ String.ofList (Nat.toDigits 10 e.natAbs)

/-- The text of a decimal in a style. -/
def text (style : NumberStyle) (d : Decimal) : String :=
  if style.least ≤ d.leading ∧ d.leading < style.past then d.positional style.pointZero
  else d.scientific

end Decimal

namespace Double

/-- The text of a finite nonzero double in a style. -/
def written (style : NumberStyle) (d : Double) : String :=
  (if d.negative then "-" else "") ++ (d.shortest style.tie).text style

/-- The style of the string form of numbers. -/
def stringStyle : NumberStyle where
  least := -6
  past := 21
  pointZero := false
  tie := .away

/-- The string form of a number. Both zeros are `0`. -/
def text (d : Double) : String :=
  if d.isNaN then "NaN"
  else if d.isInfinite then (if d.negative then "-Infinity" else "Infinity")
  else if d.isZero then "0"
  else d.written stringStyle

end Double

end TaggedMarkup
