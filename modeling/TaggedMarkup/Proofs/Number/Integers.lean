import TaggedMarkup.Number.Rounding
import TaggedMarkup.Number.Text

/-!
# Doubles that are integers

An integer below `2 ^ 53` is **exactly** a double: its magnitude is shifted until the significand has its
53 bits, and rounding finds nothing to round. So a double that is such an integer is the double nearest to
that integer, but for the sign of a zero (`Double.ofInt_toInt?`), which is not written
(`Double.text_ofInt`).
-/

namespace TaggedMarkup

/-! ## Powers of two -/

theorem twoTo_pos (n : Nat) : 0 < twoTo n := Nat.two_pow_pos n

theorem twoTo_add (m n : Nat) : twoTo (m + n) = twoTo m * twoTo n := Nat.pow_add 2 m n

theorem twoTo_succ (n : Nat) : twoTo (n + 1) = twoTo n * 2 := Nat.pow_succ 2 n

theorem lt_of_twoTo_lt {m n : Nat} (h : twoTo m < twoTo n) : m < n :=
  (Nat.pow_lt_pow_iff_right (by decide)).mp h

/-- The weight of the bit before the fraction. -/
theorem twoTo_fraction : twoTo 52 = 4503599627370496 := rfl

theorem twoTo_significand : twoTo 53 = 9007199254740992 := rfl

theorem roundHalfEven_one (n : Nat) : roundHalfEven n 1 = n := by
  simp [roundHalfEven, Nat.mod_one]

namespace Double

variable {d : Double}

theorem fraction_lt (d : Double) : d.fraction < twoTo 52 := Nat.mod_lt _ (twoTo_pos 52)

theorem unsigned_eq (d : Double) : d.unsigned = d.exponentField * twoTo 52 + d.fraction := by
  rw [exponentField, fraction, Nat.mul_comm]
  exact (Nat.div_add_mod _ _).symm

/-- A word is its sign and the rest. -/
theorem signed_unsigned (d : Double) : signed d.negative d.unsigned = d := by
  have hword : (if d.negative then twoTo 63 + d.unsigned else d.unsigned) = d.word := by
    have hlt : d.word < 18446744073709551616 := d.bits.toNat_lt
    rw [negative, unsigned, show twoTo 63 = 9223372036854775808 from rfl]
    split <;> rename_i hsign <;> simp only [decide_eq_true_eq] at hsign <;> omega
  rw [signed, hword, word, UInt64.ofNat_toNat]

/-! ## The double of an integer -/

/-- A magnitude that has 53 bits once it is shifted by `k` is scaled by just that shift. -/
theorem lastBit_one {m k : Nat} (hlow : twoTo 52 ≤ m * twoTo k) (hhigh : m * twoTo k < twoTo 53)
    (hk : k ≤ 52) : lastBit m 1 = -k := by
  have hleast : twoTo (52 - k) ≤ m := by
    refine Nat.le_of_mul_le_mul_right ?_ (twoTo_pos k)
    rwa [← twoTo_add, Nat.sub_add_cancel hk]
  have hpast : m < twoTo (52 - k + 1) := by
    refine Nat.lt_of_mul_lt_mul_right (a := twoTo k) ?_
    rwa [← twoTo_add, show 52 - k + 1 + k = 53 by omega]
  have hm : m ≠ 0 := Nat.ne_of_gt (Nat.lt_of_lt_of_le (twoTo_pos _) hleast)
  have hlog : m.log2 = 52 - k := (Nat.log2_eq_iff hm).mpr ⟨hleast, hpast⟩
  have hone : (1 : Nat).log2 = 0 := by decide
  -- the first guess is one bit too low: it leaves 54 of them
  have hguess : max (((52 - k : Nat) : Int) - (0 : Nat) - 53) (-1074) = -((k + 1 : Nat) : Int) := by omega
  have hscaled : scaleDown m 1 (-((k + 1 : Nat) : Int)) = (m * twoTo k * 2, 1) := by
    rw [scaleDown, Int.neg_neg, Int.toNat_natCast, Int.toNat_neg_natCast, Nat.mul_assoc, ← twoTo_succ]
    rfl
  have hmany : ¬m * twoTo k * 2 < twoTo 53 := by
    rw [twoTo_fraction] at hlow
    rw [twoTo_significand]
    omega
  rw [lastBit, hlog, hone, hguess, hscaled]
  dsimp only
  rw [Nat.div_one, if_neg hmany]
  omega

/-- An integer of at most 53 bits is not rounded. -/
theorem ofRatio_one {m k : Nat} (negative : Bool) (hlow : twoTo 52 ≤ m * twoTo k)
    (hhigh : m * twoTo k < twoTo 53) (hk : k ≤ 52) :
    ofRatio negative m 1 = signed negative ((1074 - k) * twoTo 52 + m * twoTo k) := by
  have hm : m ≠ 0 := by
    rintro rfl
    rw [Nat.zero_mul] at hlow
    exact Nat.not_lt.mpr hlow (twoTo_pos 52)
  have hscaled : scaleDown m 1 (-(k : Int)) = (m * twoTo k, 1) := by
    rw [scaleDown, Int.neg_neg, Int.toNat_natCast, Int.toNat_neg_natCast]
    rfl
  have hfield : (-(k : Int) + 1074).toNat = 1074 - k := by omega
  have hsmall : (1074 - k) * twoTo 52 + m * twoTo k ≤ topField * twoTo 52 := by
    rw [twoTo_significand] at hhigh
    rw [twoTo_fraction, show topField = 2047 from rfl]
    omega
  rw [ofRatio, if_neg hm, lastBit_one hlow hhigh hk]
  dsimp only
  rw [hscaled, hfield]
  dsimp only
  rw [roundHalfEven_one, Nat.min_eq_left hsmall]

/-! ## Reading an integer off a double -/

variable {n : Int}

/-- The integer is the quotient that the magnitude is, with the sign of the double. -/
theorem magnitude_of_toInt? (h : d.toInt? = some n) :
    n.natAbs * d.magnitude.2 = d.magnitude.1 ∧ n = if d.negative then -(n.natAbs : Int) else n.natAbs := by
  unfold toInt? at h
  generalize d.magnitude = magnitude at h ⊢
  obtain ⟨num, den⟩ := magnitude
  dsimp only at h ⊢
  split at h
  · rename_i hwhole
    rw [Bool.and_eq_true, beq_iff_eq] at hwhole
    have habs : n.natAbs = num / den := by
      rw [← Option.some.inj h]
      split <;> simp only [Int.natAbs_neg, Int.natAbs_natCast]
    rw [habs]
    exact ⟨Nat.div_mul_cancel (Nat.dvd_of_mod_eq_zero hwhole.2), (Option.some.inj h).symm⟩
  · cases h

/-- A double that is an integer below `2 ^ 53` other than zero is a shift away from its significand. -/
theorem significand_of_toInt? (h : d.toInt? = some n) (hzero : n ≠ 0) (hsmall : n.natAbs < twoTo 53) :
    ∃ k ≤ 52, d.exponentField + k = 1075 ∧ n.natAbs * twoTo k = twoTo 52 + d.fraction := by
  obtain ⟨hmagnitude, -⟩ := magnitude_of_toInt? h
  have hpos : 1 ≤ n.natAbs := Int.natAbs_pos.mpr hzero
  have hfraction := d.fraction_lt
  rw [twoTo_significand] at hsmall
  rw [twoTo_fraction] at hfraction ⊢
  rw [magnitude, significand, binaryExponent, twoTo_fraction] at hmagnitude
  dsimp only at hmagnitude
  have hone : twoTo 0 = 1 := rfl
  by_cases hfield : d.exponentField < 1075
  · have hwhole : ((max d.exponentField 1 : Nat) - 1075 : Int).toNat = 0 := by omega
    have hshift : (-((max d.exponentField 1 : Nat) - 1075 : Int)).toNat = 1075 - max d.exponentField 1 := by
      omega
    rw [hwhole, hshift, hone, Nat.mul_one] at hmagnitude
    have hleast : twoTo (1075 - max d.exponentField 1) ≤
        n.natAbs * twoTo (1075 - max d.exponentField 1) := Nat.le_mul_of_pos_left _ hpos
    have hmost : twoTo (1075 - max d.exponentField 1) < twoTo 53 := by
      rw [twoTo_significand]
      split at hmagnitude <;> omega
    have hk := lt_of_twoTo_lt hmost
    have hnormal : d.exponentField ≠ 0 := by omega
    rw [if_neg hnormal] at hmagnitude
    exact ⟨1075 - max d.exponentField 1, by omega, by omega, hmagnitude⟩
  · have hwhole : ((max d.exponentField 1 : Nat) - 1075 : Int).toNat = d.exponentField - 1075 := by omega
    have hshift : (-((max d.exponentField 1 : Nat) - 1075 : Int)).toNat = 0 := by omega
    rw [hwhole, hshift, hone, Nat.mul_one, if_neg (by omega)] at hmagnitude
    -- a larger exponent would make it `2 ^ 53` at least
    have hexact : d.exponentField - 1075 = 0 := by
      refine Decidable.byContradiction fun hlarge => ?_
      obtain ⟨more, hmore⟩ := Nat.exists_eq_add_one_of_ne_zero hlarge
      rw [hmore, twoTo_succ, ← Nat.mul_assoc] at hmagnitude
      have hleast := Nat.le_mul_of_pos_right (4503599627370496 + d.fraction) (twoTo_pos more)
      omega
    rw [hexact, hone, Nat.mul_one] at hmagnitude
    exact ⟨0, by decide, by omega, by rw [hmagnitude, hone, Nat.mul_one]⟩

/-- **A double that is an integer below `2 ^ 53` is the double nearest to it**, unless it is a zero. -/
theorem ofInt_toInt? (h : d.toInt? = some n) (hzero : n ≠ 0) (hsmall : n.natAbs < twoTo 53) :
    ofInt n = d := by
  obtain ⟨k, hk, hfield, hshifted⟩ := significand_of_toInt? h hzero hsmall
  have hfraction := d.fraction_lt
  have hsign : decide (n < 0) = d.negative := by
    have habs := (magnitude_of_toInt? h).2
    cases hnegative : d.negative with
    | true =>
      rw [hnegative, if_pos rfl] at habs
      exact decide_eq_true (by omega)
    | false =>
      rw [hnegative, if_neg Bool.false_ne_true] at habs
      exact decide_eq_false (by omega)
  have hlow : twoTo 52 ≤ n.natAbs * twoTo k := hshifted ▸ Nat.le_add_right ..
  have hhigh : n.natAbs * twoTo k < twoTo 53 := by
    rw [hshifted, twoTo_significand]
    rw [twoTo_fraction] at hfraction ⊢
    omega
  have hword : (1074 - k) * twoTo 52 + n.natAbs * twoTo k = d.unsigned := by
    rw [hshifted, unsigned_eq, twoTo_fraction]
    omega
  rw [ofInt, ofRatio_one _ hlow hhigh hk, hword, hsign, signed_unsigned]

/-- A double that is the integer zero is one of the two zeros. -/
theorem isZero_of_toInt? (h : d.toInt? = some 0) : d.isZero = true := by
  obtain ⟨hmagnitude, -⟩ := magnitude_of_toInt? h
  have hsignificand : d.significand = 0 := by
    rw [magnitude, Int.natAbs_zero, Nat.zero_mul] at hmagnitude
    exact (Nat.mul_eq_zero.mp hmagnitude.symm).resolve_right (Nat.ne_of_gt (twoTo_pos _))
  have hzero : d.unsigned = 0 := by
    rw [significand, twoTo_fraction] at hsignificand
    rw [unsigned_eq, twoTo_fraction]
    split at hsignificand <;> omega
  rw [isZero, hzero, beq_self_eq_true]

/-- **The integer that a double is has the double's text**, as long as it is below `2 ^ 53`. -/
theorem text_ofInt (hfinite : d.isFinite = true) (h : d.toInt? = some n) (hsmall : n.natAbs < twoTo 53) :
    (ofInt n).text = d.text := by
  by_cases hzero : n = 0
  · subst hzero
    have hnumber : (d.exponentField == topField) = false := by
      rw [isFinite, bne, Bool.not_eq_true'] at hfinite
      exact hfinite
    have htext : d.text = "0" := by
      rw [text, isNaN, isInfinite, hnumber, isZero_of_toInt? h]
      rfl
    rw [htext]
    rfl
  · rw [ofInt_toInt? h hzero hsmall]

end Double

end TaggedMarkup
