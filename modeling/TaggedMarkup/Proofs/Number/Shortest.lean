import TaggedMarkup.Proofs.Number.Magnitudes

/-!
# The shortest decimal

A decimal **reads back** as a double if the double is nearest to it, which the search for the shortest one
decides by comparing with the ends of the double's interval (`readsBack_iff`). The search looks at two points of
each grid only, because the interval has no gaps; and it ends, because the interval is wider than the steps of
the grid with 17 digits (`takes_seventeen`).

The main statement is `isShortest_shortest`: the decimal found reads back, none with fewer digits does, and none with
as many is nearer.
-/

namespace TaggedMarkup

/-- Decimal places move from the exponent into the digits. -/
theorem ten_zpow_add (p : Int) (i : Nat) : (10 : ℚ) ^ (p + i) = (10 ^ i : Nat) * 10 ^ p := by
  rw [zpow_add₀ (by norm_num), zpow_natCast, mul_comm]
  push_cast
  rfl

/-- The number that a decimal is. -/
def Decimal.size (s : Decimal) : ℚ := s.digits * 10 ^ s.exponent

namespace Double

variable {d : Double}

/-! ## Reading back -/

theorem significand_pos (h : d.isZero = false) : 0 < d.significand := by
  have hsize := d.size_pos h
  rw [size] at hsize
  exact_mod_cast pos_of_mul_pos_left hsize (two_zpow_pos _).le

/-- The test is whether the double takes the decimal. -/
theorem readsBack_iff (h : d.isZero = false) (digits : Nat) (p : Int) :
    d.readsBack digits p = true ↔ d.Takes (digits * 10 ^ p) := by
  have hone : d.quartersBelow ≤ 4 * d.significand := by
    have hpos := significand_pos h
    rw [quartersBelow]
    split <;> omega
  have hten : (0 : ℚ) < 10 ^ (-p).toNat := by positivity
  have htwo : (0 : ℚ) < 2 ^ (-(d.binaryExponent - 2)).toNat := by positivity
  have hquarter : (2 : ℚ) ^ d.binaryExponent = 4 * 2 ^ (d.binaryExponent - 2) := by
    rw [zpow_sub₀ (by norm_num)]
    norm_num
    ring
  -- everything is compared after multiplying by the denominators
  have hvalue : ((digits * tenTo p.toNat * twoTo (-(d.binaryExponent - 2)).toNat : Nat) : ℚ) =
      digits * 10 ^ p * (10 ^ (-p).toNat * 2 ^ (-(d.binaryExponent - 2)).toNat) := by
    rw [zpow_eq_div 10 p]
    push_cast [cast_tenTo, cast_twoTo]
    field_simp
  have hlow : (((4 * d.significand - d.quartersBelow) *
      (twoTo (d.binaryExponent - 2).toNat * tenTo (-p).toNat) : Nat) : ℚ) =
        d.lower * (10 ^ (-p).toNat * 2 ^ (-(d.binaryExponent - 2)).toNat) := by
    rw [lower, hquarter, zpow_eq_div 2 (d.binaryExponent - 2)]
    push_cast [cast_tenTo, cast_twoTo, Nat.cast_sub hone]
    field_simp
  have hhigh : (((4 * d.significand + 2) *
      (twoTo (d.binaryExponent - 2).toNat * tenTo (-p).toNat) : Nat) : ℚ) =
        d.upper * (10 ^ (-p).toNat * 2 ^ (-(d.binaryExponent - 2)).toNat) := by
    rw [upper, hquarter, zpow_eq_div 2 (d.binaryExponent - 2)]
    push_cast [cast_tenTo, cast_twoTo]
    field_simp
    ring
  have hscale := mul_pos hten htwo
  have hcompare : ∀ {a b : Nat} {x y : ℚ}, (a : ℚ) = x * (10 ^ (-p).toNat * 2 ^ (-(d.binaryExponent - 2)).toNat) →
      (b : ℚ) = y * (10 ^ (-p).toNat * 2 ^ (-(d.binaryExponent - 2)).toNat) → (a < b ↔ x < y) ∧ (a = b ↔ x = y) := by
    intro a b x y ha hb
    rw [← Nat.cast_lt (α := ℚ), ← Nat.cast_inj (R := ℚ), ha, hb, mul_lt_mul_iff_left₀ hscale,
      mul_left_inj' hscale.ne']
    exact ⟨.rfl, .rfl⟩
  unfold readsBack
  dsimp only
  rw [Bool.or_eq_true, Bool.and_eq_true, Bool.and_eq_true, Bool.or_eq_true, decide_eq_true_eq, decide_eq_true_eq,
    beq_iff_eq, beq_iff_eq, beq_iff_eq, (hcompare hlow hvalue).1, (hcompare hlow hvalue).2,
    (hcompare hvalue hhigh).1, (hcompare hvalue hhigh).2, Takes, eq_comm (a := d.lower)]

/-- **A decimal that the double takes is read as the double**, and no other one is. -/
theorem ofDecimal_eq_iff (hfinite : d.isFinite = true) {digits : Nat} (hdigits : 0 < digits) (p : Int) :
    ofDecimal (if d.negative then -(digits : Int) else digits) p = d ↔ d.Takes (digits * 10 ^ p) := by
  have hsign : decide ((if d.negative then -(digits : Int) else digits) < 0) = d.negative := by
    cases d.negative
    · exact decide_eq_false (by simp)
    · exact decide_eq_true (by simpa using hdigits)
  have hdigits' : (if d.negative then -(digits : Int) else digits).natAbs = digits := by
    cases d.negative <;> simp
  have hsize : ((digits * tenTo p.toNat : Nat) : ℚ) / (tenTo (-p).toNat : Nat) = digits * 10 ^ p := by
    rw [Nat.cast_mul, cast_tenTo, cast_tenTo, zpow_eq_div 10 p, mul_div_assoc]
  rw [ofDecimal, hsign, hdigits', ofRatio_eq_iff hfinite (Nat.mul_pos hdigits (tenTo_pos _)) (tenTo_pos _), hsize]

/-! ## The decimal exponent -/

/-- A power of two with an exponent that a double can have lies where the estimate puts it among the powers of
ten. -/
theorem powers_near : ∀ i < 1100,
    (10 ^ (30103 * i / 100000) ≤ 2 ^ i ∧ 4 * 2 ^ i ≤ 1000 * 10 ^ (30103 * i / 100000)) ∧
      2 ^ i ≤ 10 ^ ((30103 * i + 99999) / 100000) ∧ 4 * 10 ^ ((30103 * i + 99999) / 100000) ≤ 1000 * 2 ^ i := by
  decide +kernel

/-- The same for powers of either sign. -/
theorem estimate_bounds {j : Int} (hlow : -1100 < j) (hhigh : j < 1100) :
    (10 : ℚ) ^ (j * 30103 / 100000) ≤ 2 ^ j ∧ (2 : ℚ) ^ (j + 2) ≤ 10 ^ (j * 30103 / 100000 + 3) := by
  have hfour : (2 : ℚ) ^ (j + 2) = 4 * 2 ^ j := by
    rw [zpow_add₀ (by norm_num)]
    norm_num
    ring
  have hthousand : ∀ e : Int, (10 : ℚ) ^ (e + 3) = 1000 * 10 ^ e := by
    intro e
    rw [zpow_add₀ (by norm_num)]
    norm_num
    ring
  rw [hfour, hthousand]
  rcases Int.le_total 0 j with hj | hj
  · obtain ⟨i, rfl⟩ := Int.eq_ofNat_of_zero_le hj
    obtain ⟨⟨hten, htwo⟩, -⟩ := powers_near i (by omega)
    have hestimate : (i : Int) * 30103 / 100000 = (30103 * i / 100000 : Nat) := by omega
    rw [hestimate, zpow_natCast, zpow_natCast]
    exact ⟨by exact_mod_cast hten, by exact_mod_cast htwo⟩
  · obtain ⟨i, hi⟩ := Int.eq_ofNat_of_zero_le (Int.neg_nonneg_of_nonpos hj)
    obtain rfl : j = -(i : Int) := by omega
    obtain ⟨-, hten, htwo⟩ := powers_near i (by omega)
    have hestimate : -(i : Int) * 30103 / 100000 = -((30103 * i + 99999) / 100000 : Nat) := by omega
    have hi : (0 : ℚ) < 2 ^ i := by positivity
    generalize (30103 * i + 99999) / 100000 = c at *
    have hc : (0 : ℚ) < 10 ^ c := by positivity
    rw [hestimate, zpow_neg, zpow_neg, zpow_natCast, zpow_natCast]
    refine ⟨inv_anti₀ hi (by exact_mod_cast hten), ?_⟩
    rw [← div_eq_mul_inv, ← div_eq_mul_inv, div_le_div_iff₀ hi hc]
    exact_mod_cast htwo

theorem scaleByTen_eq (num den : Nat) (p : Int) :
    ((scaleByTen num den p).1 : ℚ) / (scaleByTen num den p).2 = num / den / 10 ^ p := by
  rw [scaleByTen, zpow_eq_div 10 p, Nat.cast_mul, Nat.cast_mul, cast_tenTo, cast_tenTo, div_div_eq_mul_div,
    div_mul_eq_mul_div, div_div]

theorem scaleByTen_pos (num : Nat) {den : Nat} (hden : 0 < den) (p : Int) : 0 < (scaleByTen num den p).2 :=
  Nat.mul_pos hden (tenTo_pos _)

/-- **The decimal exponent is exact.** -/
theorem decimalExponent_spec {num den : Nat} (hnum : 0 < num) (hden : 0 < den)
    (hlow : (2 : ℚ) ^ (-1074 : Int) ≤ num / den) (hhigh : (num / den : ℚ) < 2 ^ (1024 : Int)) :
    (10 : ℚ) ^ decimalExponent num den ≤ num / den ∧ (num / den : ℚ) < 10 ^ (decimalExponent num den + 1) := by
  obtain ⟨habove, hbelow⟩ := log2_bounds hnum hden
  have hless : ∀ {i k : Int}, (2 : ℚ) ^ i < 2 ^ k → i < k := fun h => (zpow_lt_zpow_iff_right₀ (by norm_num)).mp h
  have hreaches : ∀ e : Int, (scaleByTen num den e).2 ≤ (scaleByTen num den e).1 ↔ (10 : ℚ) ^ e ≤ num / den := by
    intro e
    have hpos : (0 : ℚ) < (scaleByTen num den e).2 := by exact_mod_cast scaleByTen_pos num hden e
    rw [← Nat.cast_le (α := ℚ), ← one_le_div hpos, scaleByTen_eq, one_le_div (ten_zpow_pos e)]
  unfold decimalExponent
  dsimp only
  simp only [decide_eq_true_eq, hreaches]
  generalize hj : (num.log2 : Int) - den.log2 - 1 = j at *
  have hj' : (num.log2 : Int) - den.log2 + 1 = j + 2 := by omega
  rw [hj'] at hbelow
  have hleast := hless (hlow.trans_lt hbelow)
  have hmost := hless (habove.trans hhigh)
  obtain ⟨hten, htwo⟩ := estimate_bounds (j := j) (by omega) (by omega)
  generalize j * 30103 / 100000 = estimate at *
  split
  · rename_i hsecond
    exact ⟨hsecond, hbelow.trans_le (by rwa [Int.add_assoc])⟩
  · rename_i hsecond
    rw [not_le] at hsecond
    split
    · rename_i hfirst
      exact ⟨hfirst, by rwa [Int.add_assoc]⟩
    · rename_i hfirst
      exact ⟨hten.trans habove.le, not_le.mp hfirst⟩

/-! ## One grid -/

/-- The number of steps of `10 ^ p` up to the double. -/
def stepsBelow (d : Double) (p : Int) : Nat :=
  (scaleByTen d.magnitude.1 d.magnitude.2 p).1 / (scaleByTen d.magnitude.1 d.magnitude.2 p).2

theorem size_scaled (d : Double) (p : Int) :
    d.size = ((scaleByTen d.magnitude.1 d.magnitude.2 p).1 : ℚ) /
      (scaleByTen d.magnitude.1 d.magnitude.2 p).2 * 10 ^ p := by
  rw [scaleByTen_eq, div_mul_cancel₀ _ (ten_zpow_pos p).ne', size_eq_magnitude]

/-- The double lies between two neighbours on the grid. -/
theorem stepsBelow_spec (d : Double) (p : Int) :
    d.stepsBelow p * 10 ^ p ≤ d.size ∧ d.size < (d.stepsBelow p + 1 : Nat) * 10 ^ p := by
  have hpos := scaleByTen_pos d.magnitude.1 d.magnitude_pos p
  have hq : (0 : ℚ) < (scaleByTen d.magnitude.1 d.magnitude.2 p).2 := by exact_mod_cast hpos
  have hten := ten_zpow_pos p
  rw [d.size_scaled p, mul_le_mul_iff_left₀ hten, mul_lt_mul_iff_left₀ hten, le_div_iff₀ hq, div_lt_iff₀ hq]
  refine ⟨by exact_mod_cast Nat.div_mul_le_self _ _, ?_⟩
  have hless := Nat.lt_mul_div_succ (scaleByTen d.magnitude.1 d.magnitude.2 p).1 hpos
  rw [Nat.mul_comm] at hless
  exact_mod_cast hless

/-- A point of the grid is at one side of the double or at the other. -/
theorem steps_cases (d : Double) (n : Nat) (p : Int) :
    (n ≤ d.stepsBelow p ∧ (n : ℚ) * 10 ^ p ≤ d.stepsBelow p * 10 ^ p) ∨
      (d.stepsBelow p + 1 ≤ n ∧ ((d.stepsBelow p + 1 : Nat) : ℚ) * 10 ^ p ≤ n * 10 ^ p) := by
  have hten := ten_zpow_pos p
  rw [mul_le_mul_iff_left₀ hten, mul_le_mul_iff_left₀ hten, Nat.cast_le, Nat.cast_le]
  omega

/-- If any point of the grid reads back, so does a neighbour of the double. -/
theorem takes_neighbour {n : Nat} {p : Int} (h : d.Takes (n * 10 ^ p)) :
    (n ≤ d.stepsBelow p ∧ d.Takes (d.stepsBelow p * 10 ^ p)) ∨
      (d.stepsBelow p + 1 ≤ n ∧ d.Takes ((d.stepsBelow p + 1 : Nat) * 10 ^ p)) := by
  obtain ⟨hbelow, habove⟩ := d.stepsBelow_spec p
  rcases d.steps_cases n p with ⟨hle, hless⟩ | ⟨hle, hless⟩
  · exact .inl ⟨hle, h.convex d.takes_size hless hbelow⟩
  · exact .inr ⟨hle, d.takes_size.convex h habove.le hless⟩

/-- Of the neighbours that read back, the search takes the nearer one. -/
theorem onGrid_eq (d : Double) (tie : Tie) (p : Int) : ∃ up : Bool,
    d.onGrid tie p = (if d.readsBack (d.stepsBelow p) p && !(d.readsBack (d.stepsBelow p + 1) p && up) then
        some ⟨d.stepsBelow p, p⟩
      else if d.readsBack (d.stepsBelow p + 1) p then some ⟨d.stepsBelow p + 1, p⟩ else none) ∧
    if up then (d.stepsBelow p + 1 : Nat) * 10 ^ p - d.size ≤ d.size - d.stepsBelow p * 10 ^ p
    else d.size - d.stepsBelow p * 10 ^ p ≤ (d.stepsBelow p + 1 : Nat) * 10 ^ p - d.size := by
  have hpos := scaleByTen_pos d.magnitude.1 d.magnitude_pos p
  have hten := ten_zpow_pos p
  rw [d.size_scaled p]
  unfold onGrid stepsBelow
  dsimp only
  generalize (scaleByTen d.magnitude.1 d.magnitude.2 p).1 = n at *
  generalize (scaleByTen d.magnitude.1 d.magnitude.2 p).2 = m at *
  have hq : (0 : ℚ) < m := by exact_mod_cast hpos
  have hparts : (n / m : ℚ) = (n / m : Nat) + (n % m : Nat) / m := by
    rw [eq_comm, ← eq_sub_iff_add_eq', div_eq_iff hq.ne', sub_mul, div_mul_cancel₀ _ hq.ne', eq_sub_iff_add_eq']
    exact_mod_cast (mul_comm _ m ▸ Nat.div_add_mod n m)
  refine ⟨_, rfl, ?_⟩
  rw [hparts]
  generalize n / m = f at *
  have hhalf : ∀ k : Nat, ((k : ℚ) / m ≤ 1 / 2 ↔ 2 * k ≤ m) ∧ (1 / 2 ≤ (k : ℚ) / m ↔ m ≤ 2 * k) := by
    intro k
    rw [div_le_div_iff₀ hq two_pos, div_le_div_iff₀ two_pos hq]
    refine ⟨⟨fun h => ?_, fun h => ?_⟩, ⟨fun h => ?_, fun h => ?_⟩⟩
    · have : ((2 * k : Nat) : ℚ) ≤ m := by push_cast; linarith
      exact_mod_cast this
    · have : ((2 * k : Nat) : ℚ) ≤ m := by exact_mod_cast h
      push_cast at this
      linarith
    · have : (m : ℚ) ≤ (2 * k : Nat) := by push_cast; linarith
      exact_mod_cast this
    · have : (m : ℚ) ≤ (2 * k : Nat) := by exact_mod_cast h
      push_cast at this
      linarith
  have hnear := hhalf (n % m)
  generalize n % m = k at *
  split
  · rename_i hup
    have hlarge : m ≤ 2 * k := by
      simp only [Bool.or_eq_true, Bool.and_eq_true, decide_eq_true_eq, beq_iff_eq] at hup
      omega
    have := hnear.2.mpr hlarge
    push_cast
    nlinarith
  · rename_i hup
    have hsmall : 2 * k ≤ m := by
      simp only [Bool.or_eq_true, Bool.and_eq_true, decide_eq_true_eq, beq_iff_eq] at hup
      omega
    have := hnear.1.mpr hsmall
    push_cast
    nlinarith

/-- What is found on a grid reads back, and is the nearest that does. -/
theorem onGrid_some (h : d.isZero = false) {tie : Tie} {p : Int} {s : Decimal} (hs : d.onGrid tie p = some s) :
    s.exponent = p ∧ (s.digits = d.stepsBelow p ∨ s.digits = d.stepsBelow p + 1) ∧ d.Takes s.size ∧
      ∀ n : Nat, d.Takes (n * 10 ^ p) → |d.size - s.size| ≤ |d.size - n * 10 ^ p| := by
  obtain ⟨hbelow, habove⟩ := d.stepsBelow_spec p
  -- the neighbours are the nearest points at their sides
  have hdown : ∀ n : Nat, n ≤ d.stepsBelow p → d.size - d.stepsBelow p * 10 ^ p ≤ |d.size - n * 10 ^ p| := by
    intro n hn
    have hless : (n : ℚ) * 10 ^ p ≤ d.stepsBelow p * 10 ^ p :=
      mul_le_mul_of_nonneg_right (by exact_mod_cast hn) (ten_zpow_pos p).le
    rw [abs_of_nonneg (by linarith)]
    linarith
  have hup : ∀ n : Nat, d.stepsBelow p + 1 ≤ n →
      (d.stepsBelow p + 1 : Nat) * 10 ^ p - d.size ≤ |d.size - n * 10 ^ p| := by
    intro n hn
    have hless : ((d.stepsBelow p + 1 : Nat) : ℚ) * 10 ^ p ≤ n * 10 ^ p :=
      mul_le_mul_of_nonneg_right (by exact_mod_cast hn) (ten_zpow_pos p).le
    rw [abs_of_nonpos (by linarith)]
    linarith
  obtain ⟨up, heq, hnearer⟩ := d.onGrid_eq tie p
  rw [heq] at hs
  split at hs
  · rename_i hfound
    simp only [Bool.and_eq_true, Bool.not_eq_true', Bool.and_eq_false_iff, readsBack_iff h] at hfound
    obtain rfl := (Option.some.inj hs).symm
    refine ⟨rfl, .inl rfl, hfound.1, fun n hn => ?_⟩
    rw [Decimal.size, abs_of_nonneg (by linarith)]
    rcases takes_neighbour hn with ⟨hle, -⟩ | ⟨hle, htakes⟩
    · exact hdown n hle
    · -- then the one above reads back as well, and is not nearer
      rcases hfound.2 with hnot | hnot
      · exact absurd (((readsBack_iff h _ _).mpr htakes).symm.trans hnot) nofun
      · rw [hnot] at hnearer
        exact hnearer.trans (hup n hle)
  · rename_i hnone
    simp only [Bool.and_eq_true, Bool.not_eq_true', Bool.and_eq_false_iff, readsBack_iff h] at hnone
    split at hs
    · rename_i hfound
      obtain rfl := (Option.some.inj hs).symm
      refine ⟨rfl, .inr rfl, (readsBack_iff h _ _).mp hfound, fun n hn => ?_⟩
      rw [Decimal.size, abs_of_nonpos (by linarith), neg_sub]
      rcases takes_neighbour hn with ⟨hle, htakes⟩ | ⟨hle, -⟩
      · rw [not_and, not_or] at hnone
        have hclose := (hnone htakes).2
        rw [Bool.not_eq_false] at hclose
        rw [hclose] at hnearer
        exact hnearer.trans (hdown n hle)
      · exact hup n hle
    · cases hs

/-- Where nothing is found on a grid, no point of it reads back. -/
theorem onGrid_none (h : d.isZero = false) {tie : Tie} {p : Int} (hs : d.onGrid tie p = none) (n : Nat) :
    ¬d.Takes (n * 10 ^ p) := by
  intro htakes
  obtain ⟨up, heq, -⟩ := d.onGrid_eq tie p
  rw [heq] at hs
  split at hs
  · cases hs
  · rename_i hnone
    simp only [Bool.and_eq_true, Bool.not_eq_true', Bool.and_eq_false_iff] at hnone
    split at hs
    · cases hs
    · rename_i hnot
      rcases takes_neighbour htakes with ⟨-, hdown⟩ | ⟨-, hup⟩
      · exact hnone ⟨(readsBack_iff h _ _).mpr hdown, .inl (Bool.eq_false_iff.mpr hnot)⟩
      · exact hnot ((readsBack_iff h _ _).mpr hup)

/-! ## The width of a double -/

/-- A nonzero finite double lies between the least subnormal number and the power past the largest double. -/
theorem size_range (hfinite : d.isFinite = true) (h : d.isZero = false) :
    (2 : ℚ) ^ (-1074 : Int) ≤ d.size ∧ d.size < 2 ^ (1024 : Int) := by
  have hleast := d.binaryExponent_ge
  have hmost : d.binaryExponent ≤ 971 := by
    have hunsigned := d.unsigned_eq_add
    have hword := isFinite_iff.mp hfinite
    rw [twoTo_fraction, show topField = 2047 from rfl] at hword
    by_cases hsubnormal : d.binaryExponent = -1074
    · omega
    · have hbits := significand_ge hsubnormal
      omega
  have hone : (1 : ℚ) ≤ d.significand := by exact_mod_cast significand_pos h
  have hbits : (d.significand : ℚ) < 2 ^ (53 : Int) := by exact_mod_cast d.significand_lt
  have hlow : (2 : ℚ) ^ (-1074 : Int) ≤ 2 ^ d.binaryExponent := zpow_le_zpow_right₀ (by norm_num) hleast
  have hhigh : (2 : ℚ) ^ d.binaryExponent ≤ 2 ^ (971 : Int) := zpow_le_zpow_right₀ (by norm_num) hmost
  have hpos := two_zpow_pos d.binaryExponent
  constructor
  · calc (2 : ℚ) ^ (-1074 : Int) ≤ 2 ^ d.binaryExponent := hlow
      _ = 1 * 2 ^ d.binaryExponent := (one_mul _).symm
      _ ≤ d.size := mul_le_mul_of_nonneg_right hone hpos.le
  · calc d.size < 2 ^ (53 : Int) * 2 ^ d.binaryExponent := mul_lt_mul_of_pos_right hbits hpos
      _ ≤ 2 ^ (53 : Int) * 2 ^ (971 : Int) := mul_le_mul_of_nonneg_left hhigh (two_zpow_pos _).le
      _ = 2 ^ (1024 : Int) := by rw [← zpow_add₀ (by norm_num)]; norm_num

/-- The exponent of the power of ten at or below the double. -/
def decade (d : Double) : Int := decimalExponent d.magnitude.1 d.magnitude.2

theorem decade_spec (hfinite : d.isFinite = true) (h : d.isZero = false) :
    (10 : ℚ) ^ d.decade ≤ d.size ∧ d.size < 10 ^ (d.decade + 1) := by
  obtain ⟨hlow, hhigh⟩ := size_range hfinite h
  rw [size_eq_magnitude] at hlow hhigh ⊢
  exact decimalExponent_spec (Nat.mul_pos (significand_pos h) (twoTo_pos _)) d.magnitude_pos hlow hhigh

/-- A grid with steps narrower than the interval of the double has a point in it. -/
theorem takes_of_narrow {p : Int} (h : (10 : ℚ) ^ p < d.upper - d.lower) : ∃ n : Nat, d.Takes (n * 10 ^ p) := by
  obtain ⟨hbelow, habove⟩ := d.stepsBelow_spec p
  have hsize : d.size < d.upper := mul_lt_mul_of_pos_right (by linarith) (two_zpow_pos _)
  by_cases hlow : d.lower < d.stepsBelow p * 10 ^ p
  · exact ⟨d.stepsBelow p, .inl ⟨hlow, hbelow.trans_lt hsize⟩⟩
  · refine ⟨d.stepsBelow p + 1, .inl ⟨?_, ?_⟩⟩
    · have hinside : d.lower < d.size := by
        have hquarters : (0 : ℚ) < d.quartersBelow := by
          rw [quartersBelow]
          split <;> norm_num
        exact mul_lt_mul_of_pos_right (by linarith) (two_zpow_pos _)
      exact hinside.trans habove
    · push_cast
      linarith

/-- **Seventeen digits suffice.** -/
theorem takes_seventeen (hfinite : d.isFinite = true) (h : d.isZero = false) :
    ∃ n : Nat, d.Takes (n * 10 ^ (d.decade - 16)) := by
  obtain ⟨hlow, -⟩ := decade_spec hfinite h
  have hpos := two_zpow_pos d.binaryExponent
  refine takes_of_narrow ?_
  have hstep : (10 : ℚ) ^ (d.decade - 16) * 10 ^ 16 ≤ d.significand * 2 ^ d.binaryExponent := by
    rw [zpow_sub₀ (by norm_num)]
    norm_num
    exact hlow
  have hwidth : d.upper - d.lower = (1 / 2 + d.quartersBelow / 4) * 2 ^ d.binaryExponent := by
    rw [upper, lower]
    ring
  -- a double that is a power of two has a narrower interval, but a significand half as large
  have hbits : (d.significand : ℚ) < (1 / 2 + d.quartersBelow / 4) * 10 ^ 16 := by
    rw [quartersBelow_eq]
    split
    · rename_i hpower
      rw [hpower.1]
      norm_num
    · have hmost : (d.significand : ℚ) < 2 ^ 53 := by exact_mod_cast d.significand_lt
      norm_num at hmost ⊢
      linarith
  rw [hwidth]
  nlinarith

/-! ## The search -/

/-- The search stops at the first grid on which a decimal reads back. -/
theorem shortest_eq (hfinite : d.isFinite = true) (h : d.isZero = false) (tie : Tie) :
    ∃ k < 17, ∃ s, d.onGrid tie (d.decade - (k : Nat)) = some s ∧ (∀ j < k, d.onGrid tie (d.decade - j) = none) ∧
      d.shortest tie = s.strip 17 := by
  have hshortest : d.shortest tie =
      (((List.range 17).findSome? fun (k : Nat) => d.onGrid tie (d.decade - k)).getD ⟨d.magnitude.1, 0⟩).strip 17 := rfl
  cases hfound : (List.range 17).findSome? fun (k : Nat) => d.onGrid tie (d.decade - k) with
  | none =>
    obtain ⟨n, hn⟩ := takes_seventeen hfinite h
    rw [List.findSome?_eq_none_iff] at hfound
    exact absurd hn (onGrid_none h (hfound 16 (by decide)) n)
  | some s =>
    rw [hfound] at hshortest
    obtain ⟨before, k, after, hrange, hs, hnone⟩ := List.findSome?_eq_some_iff.mp hfound
    have hk : k = before.length ∧ before.length < 17 := by
      have hlength := congrArg List.length hrange
      have hget := congrArg (·[before.length]?) hrange
      simp only [List.length_range, List.length_append, List.length_cons] at hlength
      have hless : before.length < 17 := by omega
      simp only [List.getElem?_range hless, List.getElem?_append_right (Nat.le_refl _), Nat.sub_self,
        List.getElem?_cons_zero, Option.some.injEq] at hget
      exact ⟨hget.symm, hless⟩
    refine ⟨k, by omega, s, hs, fun j hj => hnone j ?_, hshortest⟩
    have hget := congrArg (·[j]?) hrange
    have hless : j < before.length := by omega
    simp only [List.getElem?_range (show j < 17 by omega), List.getElem?_append_left hless] at hget
    exact List.mem_of_getElem? hget.symm

/-- On the grid with `k + 1` digits the double lies among the numbers with that many digits. -/
theorem stepsBelow_range (hfinite : d.isFinite = true) (h : d.isZero = false) (k : Nat) :
    10 ^ k ≤ d.stepsBelow (d.decade - k) ∧ d.stepsBelow (d.decade - k) < 10 ^ (k + 1) := by
  obtain ⟨hlow, hhigh⟩ := decade_spec hfinite h
  obtain ⟨hbelow, habove⟩ := d.stepsBelow_spec (d.decade - k)
  have hpos := ten_zpow_pos (d.decade - k)
  constructor
  · have hless : ((10 ^ k : Nat) : ℚ) < (d.stepsBelow (d.decade - k) + 1 : Nat) := by
      refine lt_of_mul_lt_mul_right ?_ hpos.le
      rw [← ten_zpow_add, Int.sub_add_cancel]
      exact hlow.trans_lt habove
    exact Nat.lt_succ_iff.mp (by exact_mod_cast hless)
  · have hless : (d.stepsBelow (d.decade - k) : ℚ) < (10 ^ (k + 1) : Nat) := by
      refine lt_of_mul_lt_mul_right ?_ hpos.le
      rw [← ten_zpow_add, show d.decade - k + (k + 1 : Nat) = d.decade + 1 by omega]
      exact hbelow.trans_lt hhigh
    exact_mod_cast hless

end Double

/-! ## Digits -/

namespace Decimal

/-- The number of digits. -/
def count (s : Decimal) : Nat := (Nat.toDigits 10 s.digits).length

theorem count_le_iff {s : Decimal} {k : Nat} (hk : 0 < k) : s.count ≤ k ↔ s.digits < 10 ^ k :=
  Nat.length_toDigits_le_iff (by decide) hk

theorem count_pos (s : Decimal) : 0 < s.count := Nat.length_toDigits_pos

/-- A decimal lies between the power of ten of its first digit and the next. -/
theorem size_leading {s : Decimal} (h : s.digits ≠ 0) :
    (10 : ℚ) ^ s.leading ≤ s.size ∧ s.size < 10 ^ (s.leading + 1) := by
  have hpos := ten_zpow_pos s.exponent
  have hcount := s.count_pos
  have hlow : 10 ^ (s.count - 1) ≤ s.digits := by
    by_cases hone : s.count = 1
    · rw [hone]
      exact Nat.one_le_iff_ne_zero.mpr h
    · refine Nat.not_lt.mp fun hless => ?_
      have hfewer := (count_le_iff (by omega)).mpr hless
      omega
  have hhigh := (count_le_iff hcount).mp (Nat.le_refl s.count)
  rw [show s.leading = s.exponent + (s.count - 1 : Nat) by rw [leading, ← count]; omega,
    show s.exponent + (s.count - 1 : Nat) + 1 = s.exponent + s.count by omega, ten_zpow_add, ten_zpow_add, size]
  exact ⟨mul_le_mul_of_nonneg_right (by exact_mod_cast hlow) hpos.le,
    mul_lt_mul_of_pos_right (by exact_mod_cast hhigh) hpos⟩

/-- Only zeros are stripped. -/
theorem strip_eq (fuel : Nat) (s : Decimal) : ∃ zeros : Nat,
    s.digits = (s.strip fuel).digits * 10 ^ zeros ∧ (s.strip fuel).exponent = s.exponent + zeros := by
  induction fuel generalizing s with
  | zero => exact ⟨0, (Nat.mul_one _).symm, (Int.add_zero _).symm⟩
  | succ fuel ih =>
    rw [strip]
    split
    · rename_i hzero
      obtain ⟨zeros, hdigits, hexponent⟩ := ih ⟨s.digits / 10, s.exponent + 1⟩
      refine ⟨zeros + 1, ?_, ?_⟩
      · rw [Nat.pow_succ, ← Nat.mul_assoc, ← hdigits]
        exact (Nat.div_mul_cancel (Nat.dvd_of_mod_eq_zero hzero.2)).symm
      · rw [hexponent]
        dsimp only
        omega
    · exact ⟨0, (Nat.mul_one _).symm, (Int.add_zero _).symm⟩

theorem size_strip (fuel : Nat) (s : Decimal) : (s.strip fuel).size = s.size := by
  obtain ⟨zeros, hdigits, hexponent⟩ := s.strip_eq fuel
  rw [size, size, hdigits, hexponent, ten_zpow_add, Nat.cast_mul, mul_assoc]

/-- With enough fuel no zero is left at the end. -/
theorem strip_bare (fuel : Nat) (s : Decimal) (hpos : s.digits ≠ 0) (hfuel : s.digits ≤ 10 ^ fuel) :
    (s.strip fuel).digits % 10 ≠ 0 := by
  induction fuel generalizing s with
  | zero =>
    rw [strip]
    rw [Nat.pow_zero] at hfuel
    omega
  | succ fuel ih =>
    rw [strip]
    rw [Nat.pow_succ] at hfuel
    split
    · exact ih ⟨s.digits / 10, s.exponent + 1⟩ (by dsimp only; omega) (by dsimp only; omega)
    · omega

/-- Stripping leaves no more digits than the number has places, and one only of a power of ten. -/
theorem count_strip_le {k fuel : Nat} (s : Decimal) (hk : 0 < k) (hfuel : k ≤ fuel) (hpos : s.digits ≠ 0)
    (hdigits : s.digits ≤ 10 ^ k) : (s.strip fuel).count ≤ k := by
  obtain ⟨zeros, hzeros, -⟩ := s.strip_eq fuel
  have hbare := s.strip_bare fuel hpos (hdigits.trans (Nat.pow_le_pow_right (by decide) hfuel))
  have hplaces : 0 < 10 ^ zeros := Nat.pow_pos (by decide)
  have hless : (s.strip fuel).digits ≤ s.digits := hzeros ▸ Nat.le_mul_of_pos_right _ hplaces
  refine (count_le_iff hk).mpr (Nat.lt_of_le_of_ne (hless.trans hdigits) fun hpower => hbare ?_)
  rw [hpower]
  exact Nat.mod_eq_zero_of_dvd (dvd_pow_self 10 hk.ne')

end Decimal

/-! ## The shortest decimal -/

namespace Double

variable {d : Double}

/-- The decimal, with the sign of the double, is read as the double. -/
def Reads (d : Double) (s : Decimal) : Prop :=
  ofDecimal (if d.negative then -(s.digits : Int) else s.digits) s.exponent = d

/-- The decimal has the fewest digits of those that are read as the double, and among those with as many it is
nearest. -/
structure IsShortest (d : Double) (s : Decimal) : Prop where
  reads : d.Reads s
  /-- no zeros at the end -/
  bare : s.digits % 10 ≠ 0
  fewest : ∀ t, d.Reads t → s.count ≤ t.count
  nearest : ∀ t, d.Reads t → t.count ≤ s.count → |d.size - s.size| ≤ |d.size - t.size|

theorem Takes.pos (h : d.isZero = false) {x : ℚ} (hx : d.Takes x) : 0 < x := by
  have hlower : 0 < d.lower := by
    have hone : (1 : ℚ) ≤ d.significand := by exact_mod_cast significand_pos h
    have hquarters : (d.quartersBelow : ℚ) ≤ 2 := by
      rw [quartersBelow]
      split <;> norm_num
    exact mul_pos (by linarith) (two_zpow_pos _)
  have hupper : 0 < d.upper := mul_pos (by positivity) (two_zpow_pos _)
  rcases hx with ⟨hlow, -⟩ | ⟨-, rfl | rfl⟩
  · exact hlower.trans hlow
  · exact hlower
  · exact hupper

theorem reads_iff (hfinite : d.isFinite = true) (h : d.isZero = false) (s : Decimal) :
    d.Reads s ↔ d.Takes s.size := by
  rcases Nat.eq_zero_or_pos s.digits with hzero | hpos
  · refine ⟨fun hreads => ?_, fun htakes => ?_⟩
    · have hsame : (ofDecimal 0 s.exponent).isZero = false := by
        rw [Reads, hzero, Int.natCast_zero, Int.neg_zero, ite_self] at hreads
        rw [hreads]
        exact h
      rw [ofDecimal, Int.natAbs_zero, Nat.zero_mul, ofRatio, if_pos rfl] at hsame
      exact absurd hsame (by decide)
    · have hsize := htakes.pos h
      rw [Decimal.size, hzero, Nat.cast_zero, zero_mul] at hsize
      exact absurd hsize (lt_irrefl 0)
  · exact ofDecimal_eq_iff hfinite hpos s.exponent

/-- A decimal with at most `j + 1` digits that reads back has a point on the grid with that many digits that does,
and is not nearer. -/
theorem takes_grid (hfinite : d.isFinite = true) (h : d.isZero = false) {t : Decimal} (ht : d.Takes t.size) {j : Nat}
    (hj : t.count ≤ j + 1) :
    ∃ n : Nat, d.Takes (n * 10 ^ (d.decade - j)) ∧ |d.size - n * 10 ^ (d.decade - j)| ≤ |d.size - t.size| := by
  obtain ⟨hlow, -⟩ := decade_spec hfinite h
  by_cases hsteps : d.decade - j ≤ t.exponent
  · have hsame : (t.digits * 10 ^ (t.exponent - (d.decade - j)).toNat : Nat) * (10 : ℚ) ^ (d.decade - j) = t.size := by
      rw [Nat.cast_mul, mul_assoc, ← ten_zpow_add, Int.toNat_of_nonneg (by omega), Decimal.size]
      congr 2
      omega
    exact ⟨_, hsame ▸ ht, hsame ▸ le_refl _⟩
  · -- the decimal is below the power of ten that the double is not below
    have hbelow : t.size < 10 ^ d.decade := by
      have hdigits : (t.digits : ℚ) < (10 ^ (j + 1) : Nat) := by
        exact_mod_cast (Decimal.count_le_iff (by omega)).mp hj
      calc t.size < (10 ^ (j + 1) : Nat) * 10 ^ t.exponent := mul_lt_mul_of_pos_right hdigits (ten_zpow_pos _)
        _ = 10 ^ (t.exponent + (j + 1 : Nat)) := (ten_zpow_add _ _).symm
        _ ≤ 10 ^ d.decade := zpow_le_zpow_right₀ (by norm_num) (by omega)
    have hsame : ((10 ^ j : Nat) : ℚ) * 10 ^ (d.decade - j) = 10 ^ d.decade := by
      rw [← ten_zpow_add, Int.sub_add_cancel]
    refine ⟨10 ^ j, hsame ▸ ht.convex d.takes_size hbelow.le hlow, ?_⟩
    rw [hsame, abs_of_nonneg (by linarith), abs_of_nonneg (by linarith)]
    linarith

/-- **The decimal that is found is the shortest.** -/
theorem isShortest_shortest (hfinite : d.isFinite = true) (h : d.isZero = false) (tie : Tie) :
    d.IsShortest (d.shortest tie) := by
  obtain ⟨k, hk, s, hs, hnone, heq⟩ := shortest_eq hfinite h tie
  obtain ⟨-, hdigits, htakes, hnearest⟩ := onGrid_some h hs
  obtain ⟨hleast, hmost⟩ := stepsBelow_range hfinite h k
  have hpos : 0 < 10 ^ k := Nat.pow_pos (by decide)
  have hcount : (s.strip 17).count ≤ k + 1 := s.count_strip_le (by omega) (by omega) (by omega) (by omega)
  rw [heq]
  refine ⟨?_, ?_, fun t ht => ?_, fun t ht hfewer => ?_⟩
  · exact (reads_iff hfinite h _).mpr ((s.size_strip 17).symm ▸ htakes)
  · have hgrow : 10 ^ (k + 1) ≤ 10 ^ 17 := Nat.pow_le_pow_right (by decide) (by omega)
    exact s.strip_bare 17 (by omega) (by omega)
  · -- one with fewer digits would have been found on an earlier grid
    have htcount := t.count_pos
    refine Nat.not_lt.mp fun hfewer => ?_
    obtain ⟨n, hn, -⟩ := takes_grid hfinite h ((reads_iff hfinite h t).mp ht) (j := t.count - 1) (by omega)
    exact onGrid_none h (hnone (t.count - 1) (by omega)) n hn
  · obtain ⟨n, hn, hless⟩ := takes_grid hfinite h ((reads_iff hfinite h t).mp ht) (hfewer.trans hcount)
    rw [s.size_strip 17]
    exact (hnearest n hn).trans hless

/-- Its size has the double's decade, or is the power of ten after it. -/
theorem size_shortest (hfinite : d.isFinite = true) (h : d.isZero = false) (tie : Tie) :
    (10 : ℚ) ^ d.decade ≤ (d.shortest tie).size ∧ (d.shortest tie).size ≤ 10 ^ (d.decade + 1) := by
  obtain ⟨k, -, s, hs, -, heq⟩ := shortest_eq hfinite h tie
  obtain ⟨hexponent, hdigits, -, -⟩ := onGrid_some h hs
  obtain ⟨hleast, hmost⟩ := stepsBelow_range hfinite h k
  have hpos := ten_zpow_pos (d.decade - k)
  rw [heq, s.size_strip 17, Decimal.size, hexponent]
  constructor
  · calc (10 : ℚ) ^ d.decade = 10 ^ (d.decade - k + k) := by rw [Int.sub_add_cancel]
      _ = (10 ^ k : Nat) * 10 ^ (d.decade - k) := ten_zpow_add _ k
      _ ≤ s.digits * 10 ^ (d.decade - k) := by
        refine mul_le_mul_of_nonneg_right ?_ hpos.le
        exact_mod_cast show 10 ^ k ≤ s.digits by omega
  · calc (s.digits : ℚ) * 10 ^ (d.decade - k) ≤ (10 ^ (k + 1) : Nat) * 10 ^ (d.decade - k) := by
          refine mul_le_mul_of_nonneg_right ?_ hpos.le
          exact_mod_cast show s.digits ≤ 10 ^ (k + 1) by omega
      _ = 10 ^ (d.decade - k + (k + 1 : Nat)) := (ten_zpow_add _ (k + 1)).symm
      _ = 10 ^ (d.decade + 1) := by
        congr 1
        omega

end Double

end TaggedMarkup
