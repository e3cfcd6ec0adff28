import TaggedMarkup.Number.Rounding

/-!
# The shortest decimal that reads back

A finite double is read back from every decimal that lies closer to it than to its neighbours.
Among those, **the fewest digits** win; among decimals with that many digits, **the nearest** one
wins, and a `Tie` decides between two that are equally near.

The search walks the grids of decimals with 1, 2, …, 17 digits. If any point of a grid reads back,
so does one of the two grid points around the double, hence only those two are looked at. All
arithmetic is exact.
-/

namespace TaggedMarkup

/-- Which of two equally near decimals is written. -/
inductive Tie where
  /-- the one further from zero -/
  | away
  /-- the one whose last digit is even -/
  | even
  deriving DecidableEq, Repr

/-- The decimal `digits · 10 ^ exponent`. -/
structure Decimal where
  digits : Nat
  exponent : Int
  deriving DecidableEq, Repr

namespace Decimal

/-- Trailing zeros move from the digits into the exponent, at most `fuel` of them. -/
def strip : Nat → Decimal → Decimal
  | 0, d => d
  | fuel + 1, d =>
    if d.digits ≠ 0 ∧ d.digits % 10 = 0 then strip fuel ⟨d.digits / 10, d.exponent + 1⟩ else d

/-- The exponent `e` of the form `d.ddd · 10 ^ e`. -/
def leading (d : Decimal) : Int := d.exponent + (Nat.toDigits 10 d.digits).length - 1

end Decimal

namespace Double

/-- `num / den` divided by `10 ^ p`, as a numerator and a denominator. -/
def scaleByTen (num den : Nat) (p : Int) : Nat × Nat :=
  (num * tenTo (-p).toNat, den * tenTo p.toNat)

/-- The `e` with `10 ^ e ≤ num / den < 10 ^ (e + 1)`: an estimate from the binary logarithm,
corrected upwards. -/
def decimalExponent (num den : Nat) : Int :=
  let estimate : Int := ((num.log2 : Int) - den.log2 - 1) * 30103 / 100000
  let reaches (e : Int) : Bool := let (n, d) := scaleByTen num den e; d ≤ n
  if reaches (estimate + 2) then estimate + 2
  else if reaches (estimate + 1) then estimate + 1
  else estimate

/-- The quarter steps of the last bit from the double down to the point half way to the next
smaller double. Just above a power of two that neighbour is twice as close. -/
def quartersBelow (d : Double) : Nat :=
  if d.fraction = 0 ∧ 1 < d.exponentField then 1 else 2

/-- Whether `digits · 10 ^ p` reads back as `d`, for a finite `d` with sign bit clear. Both ends of
the interval read back exactly when the significand is even. -/
def readsBack (d : Double) (digits : Nat) (p : Int) : Bool :=
  let e := d.binaryExponent - 2
  let value := digits * tenTo p.toNat * twoTo (-e).toNat
  let unit := twoTo e.toNat * tenTo (-p).toNat
  let low := (4 * d.significand - d.quartersBelow) * unit
  let high := (4 * d.significand + 2) * unit
  (low < value && value < high) || (d.significand % 2 == 0 && (low == value || value == high))

/-- The decimal with digits counted in steps of `10 ^ p` that reads back and is nearest, if one
does. -/
def onGrid (tie : Tie) (d : Double) (p : Int) : Option Decimal :=
  let (num, den) := d.magnitude
  let (n, m) := scaleByTen num den p
  let floor := n / m
  let below := d.readsBack floor p
  let above := d.readsBack (floor + 1) p
  let twice := 2 * (n % m)
  let up := m < twice || (twice == m && (tie == .away || floor % 2 == 1))
  if below && !(above && up) then some ⟨floor, p⟩
  else if above then some ⟨floor + 1, p⟩
  else none

/-- The shortest decimal that reads back as the magnitude of a finite nonzero double. Seventeen
digits always suffice, so the last alternative is never taken. -/
def shortest (tie : Tie) (d : Double) : Decimal :=
  let (num, den) := d.magnitude
  let e := decimalExponent num den
  let found := (List.range 17).findSome? fun (k : Nat) => onGrid tie d (e - k)
  (found.getD ⟨num, 0⟩).strip 17

end Double

end TaggedMarkup
