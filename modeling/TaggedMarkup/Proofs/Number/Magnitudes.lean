import Mathlib
import TaggedMarkup.Number.Shortest
import TaggedMarkup.Proofs.Number.Integers

/-!
# Magnitudes and rounding

The **magnitude** of a finite double is a rational number. Around it lies the interval of the numbers that are
rounded to the double: half a unit of its last bit upwards, and downwards as much, or half of that where the
smaller neighbour is twice as close. The ends belong to it exactly if the significand is even.

The main statement is that rounding does just that (`ofRatio_eq_iff`). Rounding finds the power of two that
leaves 53 bits (`lastBit_spec`) and rounds to an integer there; a significand that is
rounded up to `2 ^ 53` is `2 ^ 52` with the next power of two, and a word does not tell these apart
(`unsigned_eq_add`).
-/

namespace TaggedMarkup

/-! ## Powers -/

theorem cast_twoTo (n : Nat) : (twoTo n : ℚ) = 2 ^ n := Nat.cast_pow 2 n

theorem cast_tenTo (n : Nat) : (tenTo n : ℚ) = 10 ^ n := Nat.cast_pow 10 n

theorem tenTo_pos (n : Nat) : 0 < tenTo n := Nat.pow_pos (by decide)

/-- A power with an integer exponent is a quotient of two, one of which is 1. -/
theorem zpow_eq_div (b : ℚ) (e : Int) : b ^ e = b ^ e.toNat / b ^ (-e).toNat := by
  rcases Int.le_total 0 e with h | h
  · rw [Int.toNat_eq_zero.mpr (Int.neg_nonpos_of_nonneg h), pow_zero, div_one, ← zpow_natCast, Int.toNat_of_nonneg h]
  · rw [Int.toNat_eq_zero.mpr h, pow_zero, one_div, ← zpow_natCast, Int.toNat_of_nonneg (Int.neg_nonneg_of_nonpos h),
      zpow_neg, inv_inv]

theorem two_zpow_pos (e : Int) : (0 : ℚ) < 2 ^ e := zpow_pos (by norm_num) e

theorem ten_zpow_pos (e : Int) : (0 : ℚ) < 10 ^ e := zpow_pos (by norm_num) e

/-! ## Rounding to an integer -/

/-- The number is nearest to the integer, or half way to the next one and the integer is even. -/
def RoundsTo (x : ℚ) (n : Nat) : Prop :=
  (n - 1 / 2 < x ∧ x < n + 1 / 2) ∨ n % 2 = 0 ∧ (x = n - 1 / 2 ∨ x = n + 1 / 2)

theorem roundsTo_roundHalfEven (num : Nat) {den : Nat} (hden : 0 < den) :
    RoundsTo (num / den) (roundHalfEven num den) := by
  have hq : (0 : ℚ) < den := by exact_mod_cast hden
  have hdivision : (num : ℚ) = den * (num / den : Nat) + (num % den : Nat) := by
    exact_mod_cast (Nat.div_add_mod num den).symm
  have hless : ((num % den : Nat) : ℚ) < den := by exact_mod_cast Nat.mod_lt num hden
  have hpos : (0 : ℚ) ≤ (num % den : Nat) := Nat.cast_nonneg _
  unfold roundHalfEven
  dsimp only
  generalize num / den = floor at *
  generalize num % den = part at *
  rw [hdivision]
  split
  · rename_i hdown
    rcases hdown with hbelow | ⟨hhalf, heven⟩
    · have hbelow' : 2 * (part : ℚ) < den := by exact_mod_cast hbelow
      exact .inl ⟨by rw [lt_div_iff₀ hq]; linarith, by rw [div_lt_iff₀ hq]; linarith⟩
    · have hhalf' : 2 * (part : ℚ) = den := by exact_mod_cast hhalf
      exact .inr ⟨heven, .inr (by rw [div_eq_iff hq.ne']; linarith)⟩
  · rename_i hup
    rw [not_or, not_lt] at hup
    have habove : (den : ℚ) ≤ 2 * part := by exact_mod_cast hup.1
    by_cases hhalf : 2 * part = den
    · have hodd : ¬floor % 2 = 0 := fun heven => hup.2 ⟨hhalf, heven⟩
      have hhalf' : 2 * (part : ℚ) = den := by exact_mod_cast hhalf
      refine .inr ⟨by omega, .inl ?_⟩
      rw [div_eq_iff hq.ne', Nat.cast_succ]
      linarith
    · have habove' : (den : ℚ) < 2 * part := lt_of_le_of_ne habove fun h => hhalf (by exact_mod_cast h.symm)
      refine .inl ⟨?_, ?_⟩
      · rw [lt_div_iff₀ hq, Nat.cast_succ]
        linarith
      · rw [div_lt_iff₀ hq, Nat.cast_succ]
        linarith

theorem RoundsTo.bounds {x : ℚ} {n : Nat} (h : RoundsTo x n) : n - 1 / 2 ≤ x ∧ x ≤ n + 1 / 2 := by
  rcases h with ⟨hlow, hhigh⟩ | ⟨-, rfl | rfl⟩
  · exact ⟨hlow.le, hhigh.le⟩
  · exact ⟨le_refl _, by linarith⟩
  · exact ⟨by linarith, le_refl _⟩

/-- A number is rounded to one integer. -/
theorem RoundsTo.unique {x : ℚ} {m n : Nat} (hm : RoundsTo x m) (hn : RoundsTo x n) : m = n := by
  -- of two neighbours one is odd, and does not take the point half way between them
  have hnext : ∀ {k : Nat}, RoundsTo x k → ¬RoundsTo x (k + 1) := by
    intro k hk hk'
    have hhalf : x = k + 1 / 2 := by
      have hhigh := hk.bounds.2
      have hlow := hk'.bounds.1
      push_cast at hlow
      linarith
    rcases hk with ⟨-, hhigh⟩ | ⟨heven, -⟩
    · exact hhigh.ne hhalf
    · rcases hk' with ⟨hlow, -⟩ | ⟨heven', -⟩
      · push_cast at hlow
        linarith
      · omega
  have hle : ∀ {j k : Nat}, RoundsTo x j → RoundsTo x k → j ≤ k + 1 := by
    intro j k hj hk
    have hlow := hj.bounds.1
    have hhigh := hk.bounds.2
    have hcast : (j : ℚ) ≤ (k + 1 : Nat) := by
      push_cast
      linarith
    exact_mod_cast hcast
  rcases Nat.lt_trichotomy m n with hless | heq | hless
  · obtain rfl : n = m + 1 := Nat.le_antisymm (hle hn hm) hless
    exact absurd hn (hnext hm)
  · exact heq
  · obtain rfl : m = n + 1 := Nat.le_antisymm (hle hm hn) hless
    exact absurd hm (hnext hn)

namespace Double

/-! ## Magnitudes -/

/-- The magnitude of a finite double as a rational number. -/
def size (d : Double) : ℚ := d.significand * 2 ^ d.binaryExponent

/-- The least number that is rounded to the double, if the significand is even. -/
def lower (d : Double) : ℚ := (d.significand - d.quartersBelow / 4) * 2 ^ d.binaryExponent

/-- The largest one. -/
def upper (d : Double) : ℚ := (d.significand + 1 / 2) * 2 ^ d.binaryExponent

/-- The number is rounded to the double. -/
def Takes (d : Double) (x : ℚ) : Prop :=
  (d.lower < x ∧ x < d.upper) ∨ d.significand % 2 = 0 ∧ (x = d.lower ∨ x = d.upper)

variable {d : Double}

theorem size_eq_magnitude (d : Double) : d.size = d.magnitude.1 / d.magnitude.2 := by
  rw [size, magnitude, zpow_eq_div 2, Nat.cast_mul, cast_twoTo, cast_twoTo, mul_div_assoc]

theorem magnitude_pos (d : Double) : 0 < d.magnitude.2 := twoTo_pos _

/-- The exponent is at least that of the subnormal numbers; above it the significand has all its bits. -/
theorem binaryExponent_ge (d : Double) : -1074 ≤ d.binaryExponent := by
  rw [binaryExponent]
  omega

theorem significand_lt (d : Double) : d.significand < 2 ^ 53 := by
  have hfraction := d.fraction_lt
  rw [twoTo_fraction] at hfraction
  rw [significand, twoTo_fraction]
  split <;> omega

theorem significand_ge (h : d.binaryExponent ≠ -1074) : 2 ^ 52 ≤ d.significand := by
  rw [binaryExponent] at h
  rw [significand, twoTo_fraction, if_neg (by omega)]
  omega

/-- The word puts the exponent before the significand, and the two are added. -/
theorem unsigned_eq_add (d : Double) :
    (d.unsigned : Int) = (d.binaryExponent + 1074) * 2 ^ 52 + d.significand := by
  rw [unsigned_eq, binaryExponent, significand, twoTo_fraction]
  split <;> omega

theorem isFinite_iff : d.isFinite = true ↔ d.unsigned < topField * twoTo 52 := by
  have hword : d.unsigned < twoTo 63 := Nat.mod_lt _ (twoTo_pos 63)
  have hfraction := d.fraction_lt
  have hunsigned := d.unsigned_eq
  rw [isFinite, bne_iff_ne, show topField = 2047 from rfl]
  rw [twoTo_fraction] at hfraction hunsigned ⊢
  rw [show twoTo 63 = 9223372036854775808 from rfl] at hword
  omega

/-- The exponent and the significand can be read off a word, if the significand has all its bits. -/
theorem fields_of_unsigned {e : Int} {r : Nat} (h : (d.unsigned : Int) = (e + 1074) * 2 ^ 52 + r)
    (hlow : -1074 ≤ e) (hbits : e = -1074 ∨ 2 ^ 52 ≤ r) (hhigh : r < 2 ^ 53) :
    d.binaryExponent = e ∧ d.significand = r := by
  have hexponent := d.binaryExponent_ge
  have hsignificand := d.significand_lt
  have hfull := d.significand_ge
  rw [unsigned_eq_add] at h
  by_cases hleast : d.binaryExponent = -1074
  · omega
  · have := hfull hleast
    omega

/-- Finite doubles are ordered as their words without the sign are. -/
theorem size_lt_iff {d' : Double} : d.size < d'.size ↔ d.unsigned < d'.unsigned := by
  have hforward : ∀ {a b : Double}, a.unsigned < b.unsigned → a.size < b.size := by
    intro a b hless
    have ha := a.unsigned_eq_add
    have hb := b.unsigned_eq_add
    have hmost : (a.significand : ℚ) < 2 ^ 53 := by exact_mod_cast a.significand_lt
    have hpos := two_zpow_pos a.binaryExponent
    rw [size, size]
    rcases lt_trichotomy a.binaryExponent b.binaryExponent with hexponent | hexponent | hexponent
    · obtain ⟨k, hk⟩ : ∃ k : Nat, b.binaryExponent = a.binaryExponent + (k + 1 : Nat) :=
        ⟨(b.binaryExponent - a.binaryExponent - 1).toNat, by omega⟩
      have hleast : (2 : ℚ) ^ 52 ≤ b.significand := by
        have hexact := a.binaryExponent_ge
        exact_mod_cast significand_ge (d := b) (by omega)
      have hone : (1 : ℚ) ≤ 2 ^ k := one_le_pow₀ (by norm_num)
      rw [hk, zpow_add₀ (by norm_num), zpow_natCast, mul_left_comm,
        mul_comm (a.significand : ℚ)]
      refine mul_lt_mul_of_pos_left ?_ hpos
      rw [pow_succ]
      nlinarith
    · rw [hexponent] at ha ⊢
      refine mul_lt_mul_of_pos_right ?_ (hexponent ▸ hpos)
      have hsignificand : a.significand < b.significand := by omega
      exact_mod_cast hsignificand
    · -- the larger exponent would make the word larger
      have hfew := b.significand_lt
      have hexact := b.binaryExponent_ge
      have hmany := significand_ge (d := a) (by omega)
      omega
  refine ⟨fun h => ?_, hforward⟩
  rcases Nat.lt_trichotomy d.unsigned d'.unsigned with hless | heq | hless
  · exact hless
  · have hd := d.unsigned_eq_add
    have hd' := d'.unsigned_eq_add
    have hsame : d.binaryExponent = d'.binaryExponent ∧ d.significand = d'.significand := by
      by_cases hleast : d'.binaryExponent = -1074
      · exact fields_of_unsigned (by omega) (by omega) (.inl hleast) d'.significand_lt
      · exact fields_of_unsigned (by omega) d'.binaryExponent_ge (.inr (significand_ge hleast)) d'.significand_lt
    rw [size, size, hsame.1, hsame.2] at h
    exact absurd h (lt_irrefl _)
  · exact absurd h (lt_asymm (hforward hless))

theorem size_pos (h : d.isZero = false) : 0 < d.size := by
  have hunsigned := d.unsigned_eq_add
  have hexponent := d.binaryExponent_ge
  have hnonzero : d.unsigned ≠ 0 := beq_eq_false_iff_ne.mp h
  have hsignificand : 0 < d.significand := by
    by_cases hleast : d.binaryExponent = -1074
    · omega
    · exact Nat.lt_of_lt_of_le (by decide) (significand_ge hleast)
  exact mul_pos (by exact_mod_cast hsignificand) (two_zpow_pos _)

/-! ## The last bit -/

section LastBit

variable {num den : Nat}

theorem scaleDown_eq (num den : Nat) (e : Int) :
    ((scaleDown num den e).1 : ℚ) / (scaleDown num den e).2 = num / den / 2 ^ e := by
  rw [scaleDown, zpow_eq_div 2 e, Nat.cast_mul, Nat.cast_mul, cast_twoTo, cast_twoTo, div_div_eq_mul_div,
    div_mul_eq_mul_div, div_div]

theorem scaleDown_pos (num : Nat) (hden : 0 < den) (e : Int) : 0 < (scaleDown num den e).2 :=
  Nat.mul_pos hden (twoTo_pos _)

/-- The binary logarithms bound the quotient. -/
theorem log2_bounds (hnum : 0 < num) (hden : 0 < den) :
    (2 : ℚ) ^ ((num.log2 : Int) - den.log2 - 1) < num / den ∧
      (num / den : ℚ) < 2 ^ ((num.log2 : Int) - den.log2 + 1) := by
  have hq : (0 : ℚ) < den := by exact_mod_cast hden
  have hbounds : ∀ {n : Nat}, 0 < n → (2 : ℚ) ^ (n.log2 : Int) ≤ n ∧ (n : ℚ) < 2 ^ ((n.log2 : Int) + 1) := by
    intro n hn
    obtain ⟨hlow, hhigh⟩ := (Nat.log2_eq_iff hn.ne').mp rfl
    refine ⟨?_, ?_⟩
    · rw [zpow_natCast]
      exact_mod_cast hlow
    · rw [← Nat.cast_succ, zpow_natCast]
      exact_mod_cast hhigh
  obtain ⟨hnlow, hnhigh⟩ := hbounds hnum
  obtain ⟨hdlow, hdhigh⟩ := hbounds hden
  refine ⟨?_, ?_⟩
  · rw [lt_div_iff₀ hq]
    calc (2 : ℚ) ^ ((num.log2 : Int) - den.log2 - 1) * den
        < 2 ^ ((num.log2 : Int) - den.log2 - 1) * 2 ^ ((den.log2 : Int) + 1) :=
          mul_lt_mul_of_pos_left hdhigh (two_zpow_pos _)
      _ = 2 ^ (num.log2 : Int) := by rw [← zpow_add₀ (by norm_num)]; congr 1; ring
      _ ≤ num := hnlow
  · rw [div_lt_iff₀ hq]
    calc (num : ℚ) < 2 ^ ((num.log2 : Int) + 1) := hnhigh
      _ = 2 ^ ((num.log2 : Int) - den.log2 + 1) * 2 ^ (den.log2 : Int) := by
        rw [← zpow_add₀ (by norm_num)]; congr 1; ring
      _ ≤ 2 ^ ((num.log2 : Int) - den.log2 + 1) * den := mul_le_mul_of_nonneg_left hdlow (two_zpow_pos _).le

/-- **The last bit leaves 53 bits**, or fewer if it is that of the subnormal numbers. -/
theorem lastBit_spec (hnum : 0 < num) (hden : 0 < den) :
    -1074 ≤ lastBit num den ∧ (num / den : ℚ) < 2 ^ 53 * 2 ^ lastBit num den ∧
      (lastBit num den = -1074 ∨ 2 ^ 52 * 2 ^ lastBit num den ≤ (num / den : ℚ)) := by
  obtain ⟨hlow, hhigh⟩ := log2_bounds hnum hden
  have hless : ∀ e : Int, (scaleDown num den e).1 / (scaleDown num den e).2 < twoTo 53 ↔
      (num / den : ℚ) < 2 ^ 53 * 2 ^ e := by
    intro e
    have hpos : (0 : ℚ) < (scaleDown num den e).2 := by exact_mod_cast scaleDown_pos num hden e
    rw [Nat.div_lt_iff_lt_mul (scaleDown_pos num hden e), ← Nat.cast_lt (α := ℚ), Nat.cast_mul, cast_twoTo,
      ← div_lt_iff₀ hpos, scaleDown_eq, div_lt_iff₀ (two_zpow_pos e)]
  have hpow : ∀ (k : Nat) (e : Int), (2 : ℚ) ^ k * 2 ^ e = 2 ^ (k + e) := by
    intro k e
    rw [zpow_add₀ (by norm_num), zpow_natCast]
  unfold lastBit
  dsimp only
  generalize (num.log2 : Int) - den.log2 = b at *
  have hmono : ∀ {i j : Int}, i ≤ j → (2 : ℚ) ^ i ≤ 2 ^ j := fun h => zpow_le_zpow_right₀ (by norm_num) h
  split
  · rename_i hfew
    rw [hless] at hfew
    refine ⟨le_max_right _ _, hfew, ?_⟩
    by_cases hleast : b - 53 ≤ -1074
    · exact .inl (max_eq_right hleast)
    · rw [max_eq_left (by omega), hpow]
      exact .inr ((hmono (by push_cast; omega)).trans hlow.le)
  · rename_i hmany
    rw [hless, not_lt] at hmany
    -- there is one bit too many, so the first guess is not that of the subnormal numbers
    rw [hpow] at hmany
    rw [hpow, hpow]
    refine ⟨by omega, hhigh.trans_le (hmono ?_), .inr (le_trans (hmono ?_) hmany)⟩
    · push_cast
      omega
    · push_cast
      omega

end LastBit

/-! ## Rounding to a double -/

/-- The smaller neighbour is twice as close just above a power of two, unless it is subnormal. -/
theorem quartersBelow_eq (d : Double) :
    d.quartersBelow = if d.significand = 2 ^ 52 ∧ d.binaryExponent ≠ -1074 then 1 else 2 := by
  have hfraction := d.fraction_lt
  rw [twoTo_fraction] at hfraction
  rw [quartersBelow, significand, binaryExponent, twoTo_fraction]
  refine ite_congr (propext ?_) (fun _ => rfl) (fun _ => rfl)
  split <;> omega

/-- Seen in units of the last bit, the interval is the numbers that are rounded to the significand, but for its
lower end. -/
theorem takes_iff {y : ℚ} : d.Takes (y * 2 ^ d.binaryExponent) ↔
    (d.significand - d.quartersBelow / 4 < y ∧ y < d.significand + 1 / 2) ∨
      d.significand % 2 = 0 ∧ (y = d.significand - d.quartersBelow / 4 ∨ y = d.significand + 1 / 2) := by
  have hpos := two_zpow_pos d.binaryExponent
  rw [Takes, lower, upper, mul_lt_mul_iff_left₀ hpos, mul_lt_mul_iff_left₀ hpos, mul_left_inj' hpos.ne',
    mul_left_inj' hpos.ne']

theorem unsigned_signed {u : Nat} (h : u < twoTo 63) (negative : Bool) : (signed negative u).unsigned = u := by
  rw [show twoTo 63 = 9223372036854775808 from rfl] at h
  simp only [signed, unsigned, word, show twoTo 63 = 9223372036854775808 from rfl, UInt64.toNat_ofNat']
  split <;> omega

/-- In units of the last bit, the double takes no number further away. -/
theorem Takes.bounds {y : ℚ} (h : d.Takes (y * 2 ^ d.binaryExponent)) :
    d.significand - (d.quartersBelow : ℚ) / 4 ≤ y ∧ y ≤ d.significand + 1 / 2 := by
  have hquarters : (0 : ℚ) ≤ d.quartersBelow := Nat.cast_nonneg _
  rcases takes_iff.mp h with ⟨hlow, hhigh⟩ | ⟨-, rfl | rfl⟩
  · exact ⟨hlow.le, hhigh.le⟩
  · exact ⟨le_refl _, by linarith⟩
  · exact ⟨by linarith, le_refl _⟩

/-- A double takes its own magnitude. -/
theorem takes_size (d : Double) : d.Takes d.size := by
  have hquarters : (0 : ℚ) < d.quartersBelow := by
    rw [quartersBelow]
    split <;> norm_num
  exact takes_iff.mpr (.inl ⟨by linarith, by linarith⟩)

/-- What lies between two numbers that the double takes is taken too. -/
theorem Takes.convex {x y z : ℚ} (hx : d.Takes x) (hz : d.Takes z) (hxy : x ≤ y) (hyz : y ≤ z) : d.Takes y := by
  rcases hxy.eq_or_lt with rfl | hxy
  · exact hx
  rcases hyz.eq_or_lt with rfl | hyz
  · exact hz
  have hends : d.lower < d.upper := by
    have hquarters : (0 : ℚ) ≤ d.quartersBelow := Nat.cast_nonneg _
    exact mul_lt_mul_of_pos_right (by linarith) (two_zpow_pos _)
  refine .inl ⟨?_, ?_⟩
  · rcases hx with ⟨hlow, -⟩ | ⟨-, rfl | rfl⟩
    · exact hlow.trans hxy
    · exact hxy
    · exact hends.trans hxy
  · rcases hz with ⟨-, hhigh⟩ | ⟨-, rfl | rfl⟩
    · exact hyz.trans hhigh
    · exact hyz.trans hends
    · exact hyz

section Word

variable {y : ℚ} {e : Int} {r : Nat}

/-- The double that a rounded significand is put into takes what was rounded. -/
theorem takes_of_unsigned (hlow : -1074 ≤ e) (hhigh : y < 2 ^ 53) (hbits : e = -1074 ∨ 2 ^ 52 ≤ y)
    (hr : RoundsTo y r) (h : (d.unsigned : Int) = (e + 1074) * 2 ^ 52 + r) : d.Takes (y * 2 ^ e) := by
  obtain ⟨hbelow, habove⟩ := hr.bounds
  have hmost : r ≤ 2 ^ 53 := by
    have hcast : (r : ℚ) < (2 ^ 53 + 1 : Nat) := by
      push_cast
      linarith
    exact Nat.lt_succ_iff.mp (by exact_mod_cast hcast)
  rcases Nat.lt_or_eq_of_le hmost with hless | rfl
  · have hleast : e = -1074 ∨ 2 ^ 52 ≤ r := by
      refine hbits.imp_right fun hfull => ?_
      have hcast : ((2 ^ 52 : Nat) : ℚ) < (r + 1 : Nat) := by
        push_cast
        linarith
      exact Nat.lt_succ_iff.mp (by exact_mod_cast hcast)
    obtain ⟨rfl, rfl⟩ := fields_of_unsigned h hlow hleast hless
    rw [takes_iff, quartersBelow_eq]
    split
    · -- nothing below the power of two has this last bit
      rename_i hpower
      have hfull : (2 : ℚ) ^ 52 ≤ y := hbits.resolve_left hpower.2
      rw [hpower.1] at hr ⊢
      rcases hr with ⟨-, hup⟩ | ⟨heven, hdown | hup⟩
      · exact .inl ⟨by push_cast; linarith, hup⟩
      · push_cast at hdown
        linarith
      · exact .inr ⟨heven, .inr hup⟩
    · have hhalf : ((2 : Nat) : ℚ) / 4 = 1 / 2 := by norm_num
      rw [hhalf]
      exact hr
  · -- rounding up to the next power of two
    obtain ⟨hexponent, hsignificand⟩ := fields_of_unsigned (d := d) (e := e + 1) (r := 2 ^ 52)
      (by push_cast at h ⊢; omega) (by omega) (.inr le_rfl) (by norm_num)
    have hscaled : y * 2 ^ e = y / 2 * 2 ^ d.binaryExponent := by
      rw [hexponent, zpow_add₀ (by norm_num), zpow_one]
      ring
    rw [hscaled, takes_iff, quartersBelow_eq, hexponent, hsignificand, if_pos ⟨rfl, by omega⟩]
    push_cast at hbelow ⊢
    rcases hbelow.lt_or_eq with hinside | hend
    · exact .inl ⟨by linarith, by linarith⟩
    · exact .inr ⟨by norm_num, .inl (by linarith)⟩

/-- A double that takes a number has the word that rounding puts together. -/
theorem unsigned_of_takes (hlow : -1074 ≤ e) (hhigh : y < 2 ^ 53) (hbits : e = -1074 ∨ 2 ^ 52 ≤ y)
    (hr : RoundsTo y r) (h : d.Takes (y * 2 ^ e)) : (d.unsigned : Int) = (e + 1074) * 2 ^ 52 + r := by
  have hexponent := d.binaryExponent_ge
  have hmost : (d.significand : ℚ) ≤ 2 ^ 53 - 1 := by
    have hless : ((d.significand + 1 : Nat) : ℚ) ≤ (2 ^ 53 : Nat) := by exact_mod_cast d.significand_lt
    push_cast at hless
    linarith
  rw [unsigned_eq_add]
  rcases lt_trichotomy d.binaryExponent e with hless | heq | hless
  · -- a larger last bit leaves too large a number
    obtain ⟨k, hk⟩ : ∃ k : Nat, e = d.binaryExponent + (k + 1 : Nat) := ⟨(e - d.binaryExponent - 1).toNat, by omega⟩
    have hfull : (2 : ℚ) ^ 52 ≤ y := hbits.resolve_left (by omega)
    have hscaled : y * 2 ^ e = y * 2 ^ (k + 1) * 2 ^ d.binaryExponent := by
      rw [hk, zpow_add₀ (by norm_num), zpow_natCast]
      ring
    have habove := (hscaled ▸ h).bounds.2
    have hone : (1 : ℚ) ≤ 2 ^ k := one_le_pow₀ (by norm_num)
    rw [pow_succ] at habove
    nlinarith
  · subst heq
    have hsame : r = d.significand := by
      refine hr.unique ?_
      rw [takes_iff, quartersBelow_eq] at h
      split at h
      · rename_i hpower
        have hfull : (2 : ℚ) ^ 52 ≤ y := hbits.resolve_left hpower.2
        rw [hpower.1] at h ⊢
        push_cast at h
        rcases h with ⟨-, hup⟩ | ⟨-, hdown | hup⟩
        · exact .inl ⟨by push_cast; linarith, by push_cast; exact hup⟩
        · linarith
        · exact .inr ⟨by norm_num, .inr (by push_cast; exact hup)⟩
      · have hhalf : ((2 : Nat) : ℚ) / 4 = 1 / 2 := by norm_num
        rw [hhalf] at h
        exact h
    rw [hsame]
  · -- a smaller last bit leaves the double just above, with a significand rounded up
    obtain ⟨k, hk⟩ : ∃ k : Nat, d.binaryExponent = e + (k + 1 : Nat) :=
      ⟨(d.binaryExponent - e - 1).toNat, by omega⟩
    have hleast : d.binaryExponent ≠ -1074 := by omega
    have hfull : (2 : ℚ) ^ 52 ≤ d.significand := by exact_mod_cast significand_ge hleast
    have hpow := pow_pos (two_pos (α := ℚ)) (k + 1)
    have hscaled : y * 2 ^ e = y / 2 ^ (k + 1) * 2 ^ d.binaryExponent := by
      rw [hk, zpow_add₀ (by norm_num), zpow_natCast]
      field_simp
    rw [hscaled] at h
    obtain ⟨hbelow, -⟩ := h.bounds
    rw [le_div_iff₀ hpow] at hbelow
    have hone : (1 : ℚ) ≤ 2 ^ k := one_le_pow₀ (by norm_num)
    rw [quartersBelow_eq] at hbelow
    have hpower : d.significand = 2 ^ 52 := by
      have hcast : (d.significand : ℚ) < (2 ^ 52 + 1 : Nat) := by
        push_cast
        split at hbelow <;> push_cast at hbelow <;> rw [pow_succ] at hbelow <;> nlinarith
      exact Nat.le_antisymm (Nat.lt_succ_iff.mp (by exact_mod_cast hcast)) (by exact_mod_cast hfull)
    rw [hpower, if_pos ⟨rfl, hleast⟩] at hbelow
    obtain rfl : k = 0 := by
      refine Nat.eq_zero_of_not_pos fun hpos => ?_
      have htwo : (2 : ℚ) ^ 1 ≤ 2 ^ k := pow_le_pow_right₀ (by norm_num) hpos
      push_cast at hbelow
      rw [pow_succ] at hbelow
      nlinarith
    have hup : RoundsTo y (2 ^ 53) := by
      push_cast at hbelow
      rcases hbelow.lt_or_eq with hinside | hend
      · exact .inl ⟨by push_cast; linarith, by push_cast; linarith⟩
      · exact .inr ⟨by norm_num, .inl (by push_cast; linarith)⟩
    rw [hr.unique hup, hpower, hk]
    push_cast
    ring

end Word

/-- **Rounding gives the double that takes the number**, with the sign that it is told. -/
theorem ofRatio_eq_iff (hfinite : d.isFinite = true) {num den : Nat} (hnum : 0 < num) (hden : 0 < den) :
    ofRatio d.negative num den = d ↔ d.Takes (num / den) := by
  obtain ⟨hlow, hhigh, hbits⟩ := lastBit_spec hnum hden
  have hrounded := roundsTo_roundHalfEven (scaleDown num den (lastBit num den)).1
    (scaleDown_pos num hden (lastBit num den))
  rw [scaleDown_eq] at hrounded
  rw [ofRatio, if_neg hnum.ne']
  dsimp only
  generalize lastBit num den = e at *
  generalize roundHalfEven _ _ = r at *
  have hpos := two_zpow_pos e
  obtain ⟨y, hy⟩ : ∃ y : ℚ, (num / den : ℚ) = y * 2 ^ e := ⟨num / den / 2 ^ e, (div_mul_cancel₀ _ hpos.ne').symm⟩
  rw [hy, mul_div_cancel_right₀ y hpos.ne'] at hrounded
  rw [hy] at hhigh hbits ⊢
  replace hhigh : y < 2 ^ 53 := lt_of_mul_lt_mul_right hhigh hpos.le
  replace hbits : e = -1074 ∨ 2 ^ 52 ≤ y := hbits.imp_right fun h => le_of_mul_le_mul_right h hpos
  have hless := isFinite_iff.mp hfinite
  have hlimit : topField * twoTo 52 < twoTo 63 := by decide
  -- the double is finite, so the word was not cut off
  have hword : signed d.negative (min ((e + 1074).toNat * twoTo 52 + r) (topField * twoTo 52)) = d ↔
      (d.unsigned : Int) = (e + 1074) * 2 ^ 52 + r := by
    refine ⟨fun h => ?_, fun h => ?_⟩
    · have hunsigned := congrArg unsigned h
      rw [unsigned_signed (Nat.lt_of_le_of_lt (Nat.min_le_right _ _) hlimit)] at hunsigned
      rw [twoTo_fraction] at hunsigned hless
      omega
    · have hsame : min ((e + 1074).toNat * twoTo 52 + r) (topField * twoTo 52) = d.unsigned := by
        rw [twoTo_fraction] at hless ⊢
        omega
      rw [hsame, signed_unsigned]
  exact hword.trans ⟨takes_of_unsigned hlow hhigh hbits hrounded, unsigned_of_takes hlow hhigh hbits hrounded⟩

end Double

end TaggedMarkup
