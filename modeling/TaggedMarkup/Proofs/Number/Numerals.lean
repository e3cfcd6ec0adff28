import TaggedMarkup.Proofs.Number.Shortest
import TaggedMarkup.Proofs.Markup.Characters

/-!
# The string form of a number

The **layout** of a decimal depends on where its point falls: behind its digits and perhaps some zeros, among them,
or before them and perhaps some zeros. A decimal with an exponent has its point behind the first digit.

The main statement is `Double.text_layout`: the string form of a double is the layout of the shortest decimal
that reads back, and it has an exponent exactly outside the range from the double nearest to `1e-6` up to below
`1e21`. The digits decide about that in the definition, and the double decides in the statement. These could differ
for the doubles next to both ends only (`leading_lt_iff`, `le_leading_iff`), where the shortest decimal might be
the power of ten on the other side.

A layout can be **read** (`reading_layout`), so equal texts are of equal doubles.
-/

namespace TaggedMarkup

namespace Decimal

/-! ## Layouts -/

/-- The digits with a point where the exponent puts it, or behind the first digit and the exponent written out. -/
def layout (plain : Bool) (s : Decimal) : List Char :=
  let digits := Nat.toDigits 10 s.digits
  let point := s.leading + 1
  if plain then
    if digits.length ≤ point then digits ++ List.replicate (point - digits.length).toNat '0'
    else if 0 < point then digits.take point.toNat ++ '.' :: digits.drop point.toNat
    else '0' :: '.' :: (List.replicate (-point).toNat '0' ++ digits)
  else
    digits.take 1 ++ (if digits.length = 1 then [] else '.' :: digits.drop 1) ++
      'e' :: (if s.leading < 0 then '-' else '+') :: Nat.toDigits 10 s.leading.natAbs

theorem positional_eq (s : Decimal) : (s.positional false).toList = s.layout true := by
  have hlength : 0 < (Nat.toDigits 10 s.digits).length := Nat.length_toDigits_pos
  unfold positional layout leading
  dsimp only
  generalize Nat.toDigits 10 s.digits = digits at *
  rw [if_pos rfl]
  split
  · rename_i hplaces
    rw [String.toList_ofList, if_neg (by omega)]
    split
    · -- there are enough digits before the point
      rename_i hpoint
      rw [show (-s.exponent).toNat + 1 - digits.length = 0 by omega, List.replicate_zero, List.nil_append,
        show digits.length - (-s.exponent).toNat = (s.exponent + digits.length - 1 + 1).toNat by omega]
    · rename_i hpoint
      rw [List.length_append, List.length_replicate,
        show (-s.exponent).toNat + 1 - digits.length + digits.length - (-s.exponent).toNat = 1 by omega,
        show (-s.exponent).toNat + 1 - digits.length = (-(s.exponent + digits.length - 1 + 1)).toNat + 1 by omega]
      rfl
  · rename_i hplaces
    rw [if_neg Bool.false_ne_true, String.append_empty, String.toList_ofList, if_pos (by omega),
      show (s.exponent + digits.length - 1 + 1 - digits.length).toNat = s.exponent.toNat by omega]

theorem scientific_eq (s : Decimal) : s.scientific.toList = s.layout false := by
  unfold scientific layout
  dsimp only
  rw [if_neg Bool.false_ne_true, String.toList_append, String.toList_append, String.toList_ofList]
  have hsign : (if s.leading < 0 then "e-" else "e+").toList = ['e', if s.leading < 0 then '-' else '+'] := by
    split <;> rfl
  rw [hsign]
  split
  · rename_i first second rest heq
    have hmany : ¬(first :: second :: rest).length = 1 := by simp
    rw [String.toList_ofList, heq, if_neg hmany]
    simp
  · rename_i hshort
    have hlength : 0 < (Nat.toDigits 10 s.digits).length := Nat.length_toDigits_pos
    generalize Nat.toDigits 10 s.digits = digits at *
    obtain _ | ⟨first, _ | ⟨second, rest⟩⟩ := digits
    · cases hlength
    · simp
    · exact absurd rfl (hshort first second rest)

end Decimal

/-! ## Reading -/

/-- What the text behind the mantissa stands for. -/
def writtenExponent : List Char → Int
  | 'e' :: '-' :: digits => -(Nat.ofDigitChars 10 digits 0 : Int)
  | 'e' :: _ :: digits => Nat.ofDigitChars 10 digits 0
  | _ => 0

/-- The number that a text without a sign stands for: the digits with the point left out, divided by a power of ten
for each digit behind it, and multiplied by the one after `e`. -/
def reading (text : List Char) : ℚ :=
  let mantissa := text.takeWhile (· ≠ 'e')
  let whole := mantissa.takeWhile (· ≠ '.')
  let fraction := (mantissa.dropWhile (· ≠ '.')).tail
  Nat.ofDigitChars 10 (whole ++ fraction) 0 *
    10 ^ (writtenExponent (text.dropWhile (· ≠ 'e')) - fraction.length)

theorem ne_of_isDigit {c : Char} (h : c.isDigit = true) : c ≠ 'e' ∧ c ≠ '.' ∧ c ≠ '-' := by
  refine ⟨?_, ?_, ?_⟩ <;> rintro rfl <;> exact absurd h (by decide)

/-- A text is cut at the first mark. -/
theorem cut_at {mark : Char} {text tail : List Char} (htext : mark ∉ text)
    (htail : tail = [] ∨ ∃ rest, tail = mark :: rest) :
    (text ++ tail).takeWhile (· ≠ mark) = text ∧ (text ++ tail).dropWhile (· ≠ mark) = tail := by
  have hother : ∀ c ∈ text, decide (c ≠ mark) = true := by
    rintro c hc
    exact decide_eq_true fun h => htext (h ▸ hc)
  rw [List.takeWhile_append_of_pos hother, List.dropWhile_append_of_pos hother]
  rcases htail with rfl | ⟨rest, rfl⟩
  · exact ⟨List.append_nil _, rfl⟩
  · rw [List.takeWhile_cons_of_neg (by simp), List.dropWhile_cons_of_neg (by simp)]
    exact ⟨List.append_nil _, rfl⟩

/-- Digits, perhaps a point and more digits, and perhaps an exponent. -/
theorem reading_eq (whole : List Char) {behind tail : List Char} (hwhole : ∀ c ∈ whole, c.isDigit = true)
    (hbehind : behind = [] ∨ ∃ fraction, behind = '.' :: fraction ∧ ∀ c ∈ fraction, c.isDigit = true)
    (htail : tail = [] ∨ ∃ rest, tail = 'e' :: rest) :
    reading (whole ++ behind ++ tail) =
      Nat.ofDigitChars 10 (whole ++ behind.tail) 0 * 10 ^ (writtenExponent tail - behind.tail.length) := by
  have hexponent : 'e' ∉ whole ++ behind := by
    rw [List.mem_append, not_or]
    refine ⟨fun hmem => (ne_of_isDigit (hwhole _ hmem)).1 rfl, fun hmem => ?_⟩
    rcases hbehind with rfl | ⟨fraction, rfl, hfraction⟩
    · cases hmem
    · rcases List.mem_cons.mp hmem with hpoint | hmem
      · exact absurd hpoint (by decide)
      · exact (ne_of_isDigit (hfraction _ hmem)).1 rfl
  have hpoint : '.' ∉ whole := fun hmem => (ne_of_isDigit (hwhole _ hmem)).2.1 rfl
  have hcut := cut_at hpoint (hbehind.imp id fun ⟨fraction, h, _⟩ => ⟨fraction, h⟩)
  unfold reading
  dsimp only
  rw [(cut_at hexponent htail).1, (cut_at hexponent htail).2, hcut.1, hcut.2]

namespace Decimal

variable {s : Decimal}

theorem isDigit_digits : ∀ c ∈ Nat.toDigits 10 s.digits, c.isDigit = true :=
  fun _ hc => Nat.isDigit_of_mem_toDigits (by decide) (by decide) hc

theorem isDigit_zeros (n : Nat) : ∀ c ∈ List.replicate n '0', c.isDigit = true := by
  intro c hc
  rw [List.eq_of_mem_replicate hc]
  decide

/-- Without an exponent the digits behind the point say how far they are shifted. -/
theorem reading_plain (s : Decimal) : reading (s.layout true) = s.size := by
  have hdigit := isDigit_digits (s := s)
  have hvalue : Nat.ofDigitChars 10 (Nat.toDigits 10 s.digits) 0 = s.digits := Nat.ofDigitChars_ten_toDigits
  have hleading : s.leading = s.exponent + (Nat.toDigits 10 s.digits).length - 1 := rfl
  unfold layout
  dsimp only
  generalize Nat.toDigits 10 s.digits = digits at *
  rw [if_pos rfl]
  split
  · rename_i hpoint
    have hread := reading_eq (digits ++ List.replicate (s.leading + 1 - digits.length).toNat '0')
      (List.forall_mem_append.mpr ⟨hdigit, isDigit_zeros _⟩) (.inl rfl) (.inl rfl)
    rw [List.append_nil, List.append_nil] at hread
    rw [hread, size, List.tail_nil, List.append_nil, Nat.ofDigitChars_append, hvalue,
      Nat.ofDigitChars_replicate_zero, mul_comm (10 ^ _), Nat.cast_mul, mul_assoc, ← ten_zpow_add]
    congr 2
    exact (show (0 : Int) - (0 : Nat) + (s.leading + 1 - digits.length).toNat = s.exponent by omega)
  · split
    · rename_i hpoint
      have hread := reading_eq (digits.take (s.leading + 1).toNat)
        (fun c hc => hdigit c (List.mem_of_mem_take hc))
        (.inr ⟨digits.drop (s.leading + 1).toNat, rfl, fun c hc => hdigit c (List.mem_of_mem_drop hc)⟩) (.inl rfl)
      rw [List.append_nil] at hread
      rw [hread, List.tail_cons, List.take_append_drop, hvalue, List.length_drop, size]
      congr 2
      exact (show (0 : Int) - (digits.length - (s.leading + 1).toNat : Nat) = s.exponent by omega)
    · rename_i hpoint
      have hread := reading_eq ['0'] (isDigit_zeros 1)
        (.inr ⟨List.replicate (-(s.leading + 1)).toNat '0' ++ digits, rfl,
          List.forall_mem_append.mpr ⟨isDigit_zeros _, hdigit⟩⟩) (.inl rfl)
      rw [List.append_nil] at hread
      refine hread.trans ?_
      rw [List.tail_cons, ← List.append_assoc, Nat.ofDigitChars_append, List.singleton_append,
        ← List.replicate_succ, Nat.ofDigitChars_replicate_zero, Nat.mul_zero, hvalue, List.length_append,
        List.length_replicate, size]
      congr 2
      exact (show (0 : Int) - ((-(s.leading + 1)).toNat + digits.length : Nat) = s.exponent by omega)

/-- With one the exponent makes up for them. -/
theorem reading_exponent (s : Decimal) : reading (s.layout false) = s.size := by
  have hdigit := isDigit_digits (s := s)
  have hvalue : Nat.ofDigitChars 10 (Nat.toDigits 10 s.digits) 0 = s.digits := Nat.ofDigitChars_ten_toDigits
  have hlength : 0 < (Nat.toDigits 10 s.digits).length := Nat.length_toDigits_pos
  have hleading : s.leading = s.exponent + (Nat.toDigits 10 s.digits).length - 1 := rfl
  have hpower : Nat.ofDigitChars 10 (Nat.toDigits 10 s.leading.natAbs) 0 = s.leading.natAbs :=
    Nat.ofDigitChars_ten_toDigits
  have hexponent : writtenExponent ('e' :: (if s.leading < 0 then '-' else '+') ::
      Nat.toDigits 10 s.leading.natAbs) = s.leading := by
    split
    · rw [writtenExponent, hpower]
      omega
    · rw [writtenExponent, hpower]
      · omega
      · decide
  unfold layout
  dsimp only
  generalize Nat.toDigits 10 s.digits = digits at *
  have hbehind : ∃ behind, (if digits.length = 1 then [] else '.' :: digits.drop 1) = behind ∧
      behind.tail = digits.drop 1 ∧
      (behind = [] ∨ ∃ fraction, behind = '.' :: fraction ∧ ∀ c ∈ fraction, c.isDigit = true) := by
    refine ⟨_, rfl, ?_⟩
    split
    · rename_i hone
      exact ⟨(List.drop_eq_nil_of_le hone.le).symm, .inl rfl⟩
    · exact ⟨rfl, .inr ⟨_, rfl, fun c hc => hdigit c (List.mem_of_mem_drop hc)⟩⟩
  obtain ⟨behind, hsame, hfraction, hshape⟩ := hbehind
  rw [if_neg Bool.false_ne_true, hsame, reading_eq _ (fun c hc => hdigit c (List.mem_of_mem_take hc)) hshape
    (.inr ⟨_, rfl⟩), hfraction, List.take_append_drop, hvalue, hexponent, List.length_drop, size]
  congr 2
  omega

/-- **A layout stands for the decimal.** -/
theorem reading_layout (plain : Bool) (s : Decimal) : reading (s.layout plain) = s.size := by
  cases plain
  · exact s.reading_exponent
  · exact s.reading_plain

/-- A layout starts with a digit. -/
theorem layout_head (plain : Bool) (s : Decimal) : ∃ c rest, s.layout plain = c :: rest ∧ c.isDigit = true := by
  have hdigit := isDigit_digits (s := s)
  have hlength : 0 < (Nat.toDigits 10 s.digits).length := Nat.length_toDigits_pos
  unfold layout
  dsimp only
  generalize Nat.toDigits 10 s.digits = digits at *
  obtain _ | ⟨first, rest⟩ := digits
  · cases hlength
  · have hfirst := hdigit first List.mem_cons_self
    split
    · split
      · exact ⟨first, _, rfl, hfirst⟩
      · split
        · rename_i hpoint
          obtain ⟨places, hplaces⟩ := Nat.exists_eq_add_one_of_ne_zero (n := (s.leading + 1).toNat) (by omega)
          rw [hplaces]
          exact ⟨first, _, rfl, hfirst⟩
        · exact ⟨'0', _, rfl, by decide⟩
    · exact ⟨first, _, rfl, hfirst⟩

/-- A decimal starts at a power of ten or above it exactly if it is not below that power. -/
theorem le_leading_iff {s : Decimal} (h : s.digits ≠ 0) {e : Int} : e ≤ s.leading ↔ (10 : ℚ) ^ e ≤ s.size := by
  obtain ⟨hlow, hhigh⟩ := size_leading h
  refine ⟨fun hle => (zpow_le_zpow_right₀ (by norm_num) hle).trans hlow, fun hle => ?_⟩
  exact Int.lt_add_one_iff.mp ((zpow_lt_zpow_iff_right₀ (by norm_num)).mp (hle.trans_lt hhigh))

end Decimal

/-! ## The ends of the plain range -/

namespace Double

variable {d : Double}

theorem unsigned_ofRatio (negative : Bool) (num den : Nat) :
    (ofRatio negative num den).unsigned = (ofRatio false num den).unsigned := by
  unfold ofRatio
  split
  · rw [unsigned_signed (twoTo_pos 63), unsigned_signed (twoTo_pos 63)]
  · dsimp only
    have hsmall : topField * twoTo 52 < twoTo 63 := by decide
    rw [unsigned_signed ((Nat.min_le_right _ _).trans_lt hsmall),
      unsigned_signed ((Nat.min_le_right _ _).trans_lt hsmall)]

theorem size_congr {d' : Double} (h : d.unsigned = d'.unsigned) : d.size = d'.size :=
  le_antisymm (not_lt.mp fun hless => (size_lt_iff.mp hless).ne h.symm)
    (not_lt.mp fun hless => (size_lt_iff.mp hless).ne h)

/-- The shortest decimal reaches a power of ten if the double does. -/
theorem le_size_shortest (hfinite : d.isFinite = true) (h : d.isZero = false) {tie : Tie} {e : Int}
    (he : (10 : ℚ) ^ e ≤ d.size) : (10 : ℚ) ^ e ≤ (d.shortest tie).size := by
  have hless := he.trans_lt (decade_spec hfinite h).2
  rw [zpow_lt_zpow_iff_right₀ (by norm_num)] at hless
  exact (zpow_le_zpow_right₀ (by norm_num) (Int.lt_add_one_iff.mp hless)).trans (size_shortest hfinite h tie).1

/-- It stays below the power if the double does, unless the double is the one nearest to the power. -/
theorem size_shortest_lt (hfinite : d.isFinite = true) (h : d.isZero = false) {tie : Tie} {e : Int}
    (he : d.size < 10 ^ e) (hother : d.unsigned ≠ (ofDecimal 1 e).unsigned) : (d.shortest tie).size < 10 ^ e := by
  have hless := (decade_spec hfinite h).1.trans_lt he
  rw [zpow_lt_zpow_iff_right₀ (by norm_num)] at hless
  refine ((size_shortest hfinite h tie).2.trans (zpow_le_zpow_right₀ (by norm_num) hless)).lt_of_ne fun hpower => ?_
  have hreads := (isShortest_shortest hfinite h tie).reads
  rw [reads_iff hfinite h, hpower] at hreads
  have hone : (10 : ℚ) ^ e = (1 : Nat) * 10 ^ e := by rw [Nat.cast_one, one_mul]
  rw [hone, ← ofDecimal_eq_iff hfinite Nat.one_pos] at hreads
  refine hother ?_
  rw [← hreads, ofDecimal, ofDecimal, unsigned_ofRatio, unsigned_ofRatio (decide ((1 : Int) < 0))]
  cases d.negative <;> rfl

/-- The least double whose string form has an exponent because it is large. -/
def sextillion : Double := ofDecimal 1 21

/-- The least double whose string form has no exponent. -/
def millionth : Double := ofDecimal 1 (-6)

theorem size_sextillion : sextillion.size = 10 ^ (21 : Int) := by
  have hmagnitude : sextillion.magnitude = (10 ^ 21, 1) := by decide
  rw [size_eq_magnitude, hmagnitude]
  norm_num

/-- The double nearest to a millionth is below it, and the next one is above it. -/
theorem size_millionth : millionth.size < 10 ^ (-6 : Int) ∧
    (10 : ℚ) ^ (-6 : Int) < (signed false (millionth.unsigned + 1)).size := by
  have hbelow : millionth.magnitude.1 * 10 ^ 6 < millionth.magnitude.2 := by decide
  have habove : (signed false (millionth.unsigned + 1)).magnitude.2 <
      (signed false (millionth.unsigned + 1)).magnitude.1 * 10 ^ 6 := by decide
  have hpower : (10 : ℚ) ^ (-6 : Int) = 1 / 10 ^ 6 := by norm_num
  rw [size_eq_magnitude, size_eq_magnitude, hpower,
    div_lt_div_iff₀ (by exact_mod_cast magnitude_pos _) (by norm_num),
    div_lt_div_iff₀ (by norm_num) (by exact_mod_cast magnitude_pos _), one_mul, one_mul]
  exact ⟨by exact_mod_cast hbelow, by exact_mod_cast habove⟩

theorem shortest_millionth (h : d.unsigned = millionth.unsigned) : d.shortest .away = ⟨1, -6⟩ := by
  have hboth : ∀ negative, (signed negative millionth.unsigned).shortest .away = ⟨1, -6⟩ := by decide
  rw [← d.signed_unsigned, h]
  exact hboth d.negative

/-- The digits and the double agree about the upper end, -/
theorem leading_lt_iff (hfinite : d.isFinite = true) (h : d.isZero = false) :
    (d.shortest .away).leading < 21 ↔ d.size < sextillion.size := by
  have hbare := (isShortest_shortest hfinite h .away).bare
  rw [size_sextillion, ← not_le, ← not_le, not_iff_not, Decimal.le_leading_iff (by omega)]
  refine ⟨fun hle => not_lt.mp fun hless => ?_, le_size_shortest hfinite h⟩
  refine (size_shortest_lt hfinite h hless fun hsame => ?_).not_ge hle
  have hsize : d.size = sextillion.size := size_congr hsame
  rw [size_sextillion] at hsize
  exact hless.ne hsize

/-- and about the lower one. -/
theorem le_leading_iff (hfinite : d.isFinite = true) (h : d.isZero = false) :
    -6 ≤ (d.shortest .away).leading ↔ millionth.size ≤ d.size := by
  obtain ⟨hbelow, habove⟩ := size_millionth
  have hbare := (isShortest_shortest hfinite h .away).bare
  rw [Decimal.le_leading_iff (by omega)]
  refine ⟨fun hle => not_lt.mp fun hless => ?_, fun hle => ?_⟩
  · refine (size_shortest_lt hfinite h (hless.trans hbelow) fun hsame => ?_).not_ge hle
    have hsize : d.size = millionth.size := size_congr hsame
    exact hless.ne hsize
  · by_cases hsame : d.unsigned = millionth.unsigned
    · rw [shortest_millionth hsame, Decimal.size, Nat.cast_one, one_mul]
    · -- then it is the next double or a larger one
      have hnext : (signed false (millionth.unsigned + 1)).size ≤ d.size := by
        rw [← not_lt, size_lt_iff] at hle ⊢
        rw [unsigned_signed (by decide)]
        omega
      exact le_size_shortest hfinite h (habove.le.trans hnext)

/-! ## Texts -/

theorem isFinite_of_isZero (h : d.isZero = true) : d.isFinite = true := by
  rw [isFinite_iff, beq_iff_eq.mp h]
  decide

/-- A finite double is neither a NaN nor an infinity. -/
theorem exponentField_of_isFinite (h : d.isFinite = true) : (d.exponentField == topField) = false := by
  rwa [isFinite, bne, Bool.not_eq_true'] at h

/-- Both zeros have one text. -/
theorem text_of_isZero (h : d.isZero = true) : d.text = "0" := by
  rw [text, isNaN, isInfinite, exponentField_of_isFinite (isFinite_of_isZero h), h]
  rfl

/-- The digits and the double agree about both ends. -/
theorem plain_iff (hfinite : d.isFinite = true) (h : d.isZero = false) :
    (millionth.size ≤ d.size ∧ d.size < sextillion.size) ↔
      -6 ≤ (d.shortest .away).leading ∧ (d.shortest .away).leading < 21 := by
  rw [le_leading_iff hfinite h, leading_lt_iff hfinite h]

/-- The text of any other finite double is a sign and a layout. -/
theorem text_layout (hfinite : d.isFinite = true) (h : d.isZero = false) :
    d.text.toList = (if d.negative then ['-'] else []) ++
      (d.shortest .away).layout (decide (millionth.size ≤ d.size ∧ d.size < sextillion.size)) := by
  rw [text, isNaN, isInfinite, exponentField_of_isFinite hfinite, h, Bool.false_and, if_neg Bool.false_ne_true,
    Bool.false_and, if_neg Bool.false_ne_true, if_neg Bool.false_ne_true, written, String.toList_append, Decimal.text]
  refine congr (congrArg _ (by split <;> rfl)) ?_
  change (if -6 ≤ (d.shortest .away).leading ∧ (d.shortest .away).leading < 21 then
    (d.shortest .away).positional false else (d.shortest .away).scientific).toList = _
  split
  · rename_i hplain
    rw [decide_eq_true ((plain_iff hfinite h).mpr hplain)]
    exact Decimal.positional_eq _
  · rename_i hplain
    rw [decide_eq_false (mt (plain_iff hfinite h).mp hplain)]
    exact Decimal.scientific_eq _

/-- The text without its sign can be read, and the sign as well. -/
theorem reading_text (hfinite : d.isFinite = true) (h : d.isZero = false) :
    ∃ text, d.text.toList = (if d.negative then ['-'] else []) ++ text ∧ text.head? ≠ some '-' ∧
      reading text = (d.shortest .away).size := by
  refine ⟨_, text_layout hfinite h, ?_, Decimal.reading_layout _ _⟩
  obtain ⟨c, rest, heq, hdigit⟩ := Decimal.layout_head
    (decide (millionth.size ≤ d.size ∧ d.size < sextillion.size)) (d.shortest .away)
  rw [heq, List.head?_cons, ne_eq, Option.some_inj]
  exact (ne_of_isDigit hdigit).2.2

/-- A sign is told from what follows it. -/
theorem sign_inj {negative negative' : Bool} {text text' : List Char} (h : text.head? ≠ some '-')
    (h' : text'.head? ≠ some '-')
    (heq : (if negative then ['-'] else []) ++ text = (if negative' then ['-'] else []) ++ text') :
    negative = negative' ∧ text = text' := by
  cases negative <;> cases negative'
  · exact ⟨rfl, heq⟩
  · exact absurd (congrArg List.head? (show text = '-' :: text' from heq)) h
  · exact absurd (congrArg List.head? (show '-' :: text = text' from heq)).symm h'
  · exact ⟨rfl, (List.cons.inj heq).2⟩

/-- No other double has the text of a zero. -/
theorem text_ne_zero (hfinite : d.isFinite = true) (h : d.isZero = false) : d.text ≠ "0" := by
  intro hzero
  obtain ⟨text, htext, -, hreading⟩ := reading_text hfinite h
  have hreads := (reads_iff hfinite h _).mp (isShortest_shortest hfinite h .away).reads
  rw [hzero] at htext
  cases hsign : d.negative with
  | true =>
    rw [hsign] at htext
    exact absurd (List.cons.inj htext).1 (by decide)
  | false =>
    rw [hsign] at htext
    have hnone : reading text = 0 := by
      rw [← show ['0'] = text from htext]
      have hdigit : Nat.ofDigitChars 10 ['0'] 0 = 0 := by decide
      simp [reading, writtenExponent, hdigit]
    exact absurd (hreads.pos h) (hreading ▸ hnone.le).not_gt

/-- **Finite doubles with equal texts are equal.** -/
theorem equals_of_text {d' : Double} (hfinite : d.isFinite = true) (hfinite' : d'.isFinite = true)
    (htext : d.text = d'.text) : d.equals d' = true := by
  have hnumber : ∀ {a : Double}, a.isFinite = true → a.isNaN = false := by
    intro a ha
    rw [isNaN, exponentField_of_isFinite ha, Bool.false_and]
  rw [equals, hnumber hfinite, hnumber hfinite']
  cases hzero : d.isZero with
  | true =>
    cases hzero' : d'.isZero with
    | true => simp only [Bool.and_self, Bool.or_true, Bool.not_false]
    | false => exact absurd ((text_of_isZero hzero).symm.trans htext).symm (text_ne_zero hfinite' hzero')
  | false =>
    cases hzero' : d'.isZero with
    | true => exact absurd (htext.trans (text_of_isZero hzero')) (text_ne_zero hfinite hzero)
    | false =>
      obtain ⟨text, hlayout, hhead, hreading⟩ := reading_text hfinite hzero
      obtain ⟨text', hlayout', hhead', hreading'⟩ := reading_text hfinite' hzero'
      rw [htext, hlayout'] at hlayout
      have hsame := sign_inj hhead hhead' hlayout.symm
      -- one decimal is read as both
      have hreads := (isShortest_shortest hfinite hzero .away).reads
      have hreads' := (reads_iff hfinite' hzero' _).mp (isShortest_shortest hfinite' hzero' .away).reads
      rw [← hreading', ← hsame.2, hreading, ← reads_iff hfinite' hzero', Reads, ← hsame.1] at hreads'
      rw [← hreads, hreads', beq_self_eq_true]
      rfl

/-- **The string form of a number** is that of its shortest decimal. It has an exponent exactly if the magnitude is
below the double nearest to `1e-6`, or not below `1e21`. -/
theorem text_conventional (d : Double) :
    (d.isNaN = true → d.text = "NaN") ∧
    (d.isInfinite = true → d.text = if d.negative then "-Infinity" else "Infinity") ∧
    (d.isZero = true → d.text = "0") ∧
    (d.isFinite = true → d.isZero = false →
      d.IsShortest (d.shortest .away) ∧
      d.text.toList = (if d.negative then ['-'] else []) ++
        (d.shortest .away).layout (decide (millionth.size ≤ d.size ∧ d.size < sextillion.size)) ∧
      (millionth.size ≤ d.size ∧ d.size < sextillion.size ↔
        -6 ≤ (d.shortest .away).leading ∧ (d.shortest .away).leading < 21)) ∧
    (∀ d', d.isFinite = true → d'.isFinite = true → d.text = d'.text → d.equals d' = true) ∧
    ∀ c ∈ d.text.toList, Escape.reference? c = none := by
  refine ⟨fun hnan => ?_, fun hinfinite => ?_, text_of_isZero, fun hfinite hzero => ⟨?_, ?_, ?_⟩, fun d' => ?_, ?_⟩
  · rw [text, if_pos hnan]
  · have hnumber : d.isNaN = false := by
      rw [isInfinite, Bool.and_eq_true, beq_iff_eq] at hinfinite
      rw [isNaN, bne, hinfinite.2, Bool.not_true, Bool.and_false]
    rw [text, hnumber, hinfinite, if_neg Bool.false_ne_true, if_pos rfl]
  · exact isShortest_shortest hfinite hzero .away
  · exact text_layout hfinite hzero
  · exact plain_iff hfinite hzero
  · exact equals_of_text
  · exact fun c => reference?_text

/-- The doubles at both ends, and those before them: a millionth of either sign has no exponent, the double before
it has one, and the double before `1e21` has none. -/
theorem text_conventional_ends :
    (⟨0x3EB0C6F7A0B5ED8C⟩ : Double).text = "9.999999999999997e-7" ∧ (⟨0xBEB0C6F7A0B5ED8D⟩ : Double).text = "-0.000001" ∧
    (⟨0x444B1AE4D6E2EF4F⟩ : Double).text = "999999999999999900000" ∧ (⟨0xC44B1AE4D6E2EF50⟩ : Double).text = "-1e+21" ∧
    (⟨0x3EB0C6F7A0B5ED8C⟩ : Double).IsShortest ⟨9999999999999997, -22⟩ ∧
    (⟨0xC44B1AE4D6E2EF50⟩ : Double).IsShortest ⟨1, 21⟩ := by
  have hbefore := ((text_conventional ⟨0x3EB0C6F7A0B5ED8C⟩).2.2.2.1 (by decide) (by decide)).1
  have hlarge := ((text_conventional ⟨0xC44B1AE4D6E2EF50⟩).2.2.2.1 (by decide) (by decide)).1
  rw [show (⟨0x3EB0C6F7A0B5ED8C⟩ : Double).shortest .away = ⟨9999999999999997, -22⟩ by decide] at hbefore
  rw [show (⟨0xC44B1AE4D6E2EF50⟩ : Double).shortest .away = ⟨1, 21⟩ by decide] at hlarge
  exact ⟨by decide, by decide, by decide, by decide, hbefore, hlarge⟩

end Double

end TaggedMarkup
