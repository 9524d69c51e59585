import MitScheme.Microcode.BignumConvert

/-! # The machine-word range test

What `bignum_fits_in_word_p` answers for every bignum and every word length
up to 64 bits, and with it when the conversions to `long`, to `unsigned long`
and to a canonical object are exact. The test looks at the digit count, cut
to 32 bits, and at the leading digit; `Extreme` is the leading digit that it
accepts for negative numbers whatever stands below it. -/

namespace MitScheme.Microcode
open Lib.Checked Lib.Outcome Lib.Radix

/-! ## What the range test says -/

theorem bignumRadix_pow (k : Nat) : bignumRadix ^ k = 2 ^ (62 * k) := by
  rw [pow_mul]; norm_num [bignumRadix]

/-- The leading digit is the one the comparison with `max` lets through for a
negative number. -/
def Extreme (b : Bignum) (nBits : Nat) : Prop :=
  b.length = bignumBitsToDigits nBits ∧
    b.magnitude / bignumRadix ^ (b.length - 1) = 2 ^ (nBits - 62 * (b.length - 1))

instance (b : Bignum) (nBits : Nat) : Decidable (Extreme b nBits) :=
  inferInstanceAs (Decidable (_ ∧ _))

variable {b : Bignum}

section
variable (h : b.WellFormed)
include h

theorem magnitude_lt_pow {n} (hl : 62 * b.length ≤ n) : b.magnitude < 2 ^ n := by
  have h1 := value_lt_pow bignumRadix_pos h.digits
  rw [bignumRadix_pow] at h1
  exact lt_of_lt_of_le h1 (pow_le_pow_right₀ (by norm_num) hl)

theorem pow_le_magnitude {n} (hz : b.length ≠ 0) (hl : n ≤ 62 * (b.length - 1)) :
    2 ^ n ≤ b.magnitude := by
  have h1 := h.pow_le (fun h0 => hz (by simp [Bignum.length, h0]))
  rw [bignumRadix_pow] at h1
  exact le_trans (pow_le_pow_right₀ (by norm_num) hl) h1

theorem lead_digit (hz : b.length ≠ 0) :
    index b.digits (b.length - 1) = .ok (b.magnitude / bignumRadix ^ (b.length - 1)) := by
  have hz' : b.digits ≠ [] := fun h0 => hz (by simp [Bignum.length, h0])
  obtain ⟨init, top, he⟩ := (List.eq_nil_or_concat b.digits).resolve_left hz'
  rw [List.concat_eq_append] at he
  have hd := h.digits
  rw [he] at hd
  obtain ⟨hi, -⟩ := digits_append.mp hd
  have hlen : b.length - 1 = init.length := by simp [Bignum.length, he]
  have hlow := value_lt_pow bignumRadix_pos hi
  have hlow0 := value_nonneg bignumRadix_pos hi
  have hm : b.magnitude = value bignumRadix init + bignumRadix ^ init.length * top := by
    simp [Bignum.magnitude, he, value_append]
  rw [index_of_cut (l := init) (r := []) he hlen, hlen, hm,
    Int.add_mul_ediv_left _ _ (pow_pos bignumRadix_pos _).ne', Int.ediv_eq_zero_of_lt hlow0 hlow,
    zero_add]

theorem fitsInBits_eq {n} (hn : 1 ≤ n) (hn' : n ≤ 64) (hl : b.length < 2 ^ 32) (t : Bool) :
    fitsInBits b n t =
      .ok (decide (b.magnitude < 2 ^ n) || (t && decide (Extreme b n) && b.negative)) := by
  have hmod : b.length % 2 ^ 32 = b.length := Nat.mod_eq_of_lt hl
  unfold fitsInBits
  rw [check_ok (by omega), ok_bind]
  simp only [hmod]
  have hd1 : 62 * (bignumBitsToDigits n - 1) < n ∧ n ≤ 62 * bignumBitsToDigits n := by
    unfold bignumBitsToDigits; omega
  rcases lt_trichotomy b.length (bignumBitsToDigits n) with hlt | heq | hgt
  · rw [if_pos hlt]
    have := magnitude_lt_pow h (show 62 * b.length ≤ n by omega)
    simp only [this, decide_true, Bool.true_or]
    rfl
  · rw [if_neg (by omega), if_neg (by omega)]
    have hz : b.length ≠ 0 := by unfold bignumBitsToDigits at heq; omega
    have hs : toUlong (n - ((b.length : Int) - 1) * 62) =
        ((n - 62 * (b.length - 1) : Nat) : Int) := by
      unfold toUlong; omega
    have h62 : n - 62 * (b.length - 1) ≤ 62 := by omega
    have hmax : toLong (2 ^ (n - 62 * (b.length - 1))) = 2 ^ (n - 62 * (b.length - 1)) := by
      refine toLong_of_range ⟨?_, ?_⟩
      · have : (0 : Int) ≤ 2 ^ (n - 62 * (b.length - 1)) := by positivity
        norm_num
        omega
      · exact pow_lt_pow_right₀ (by norm_num) (by omega)
    rw [lead_digit h hz, ok_bind, hs, shiftedOne, if_pos (by omega), ok_bind, Int.toNat_natCast]
    have hcmp : b.magnitude / bignumRadix ^ (b.length - 1) < 2 ^ (n - 62 * (b.length - 1)) ↔
        b.magnitude < 2 ^ n := by
      rw [bignumRadix_pow, Int.ediv_lt_iff_lt_mul (by positivity), ← pow_add]
      rw [show n - 62 * (b.length - 1) + 62 * (b.length - 1) = n by omega]
    have hx : Extreme b n ↔ b.magnitude / bignumRadix ^ (b.length - 1) =
        2 ^ (n - 62 * (b.length - 1)) := and_iff_right heq
    simp only [hmax, hcmp, hx, beq_eq_decide]
    rfl
  · rw [if_neg (by omega), if_pos (by omega)]
    have h1 := pow_le_magnitude h (n := n) (by omega) (by omega)
    have h2 : ¬ Extreme b n := fun he => by have := he.1; omega
    simp only [h2, decide_false, Bool.and_false, Bool.false_and, Bool.or_false]
    rw [decide_eq_false (by omega)]
    rfl

theorem fitsInBits_long (ha : b.length ≤ bignumLengthMax) {n} (hn : 1 ≤ n) (hn' : n ≤ 64)
    (hl : 2 ^ 32 ≤ b.length) (t : Bool) :
    fitsInBits b n t = .ok false ↔ bignumBitsToDigits n < b.length % 2 ^ 32 := by
  unfold fitsInBits
  rw [check_ok (by omega), ok_bind]
  simp only []
  rcases lt_trichotomy (b.length % 2 ^ 32) (bignumBitsToDigits n) with hlt | heq | hgt
  · rw [if_pos hlt]
    refine iff_of_false (fun he => ?_) (by omega)
    cases he
  · rw [if_neg (by omega), if_neg (by omega), lead_digit h (by omega), ok_bind]
    have hs : 64 ≤ toUlong (n - ((b.length : Int) - 1) * 62) := by
      have hb : -2 ^ 62 ≤ (n : Int) - ((b.length : Int) - 1) * 62 ∧
          (n : Int) - ((b.length : Int) - 1) * 62 < 0 := by
        unfold bignumLengthMax at ha
        omega
      generalize (n : Int) - ((b.length : Int) - 1) * 62 = shift at hb
      unfold toUlong
      omega
    rw [shiftedOne, if_neg (by omega)]
    refine iff_of_false (fun he => ?_) (by omega)
    cases he
  · rw [if_neg (by omega), if_pos (by omega)]
    exact iff_of_true rfl hgt

theorem extreme_small {n} (hn : 1 ≤ n) (hn' : n ≤ 61) : Extreme b n ↔ b.magnitude = 2 ^ n := by
  have hd : bignumBitsToDigits n = 1 := by unfold bignumBitsToDigits; omega
  have hone : b.length = 1 → (Extreme b n ↔ b.magnitude = 2 ^ n) := by
    intro hl
    unfold Extreme
    rw [hl, hd]
    simp
  by_cases hl : b.length = 1
  · exact hone hl
  refine iff_of_false (fun he => hl (he.1.trans hd)) (fun he => ?_)
  have hlt : (2 : Int) ^ n < 2 ^ 62 := pow_lt_pow_right₀ (by norm_num) (by omega)
  by_cases h0 : b.length = 0
  · have := magnitude_lt_pow h (n := 0) (by omega)
    have : (1 : Int) ≤ 2 ^ n := one_le_pow₀ (by norm_num)
    omega
  · have := pow_le_magnitude h (n := 62) h0 (by omega)
    omega

theorem not_extreme_62 : ¬ Extreme b 62 := by
  rintro ⟨hl, he⟩
  have hd : b.length = 1 := hl
  rw [hd] at he
  have := magnitude_lt_pow h (n := 62) (by omega)
  simp at he
  omega

theorem extreme_63 : Extreme b 63 ↔ 2 ^ 63 ≤ b.magnitude ∧ b.magnitude < 3 * 2 ^ 62 := by
  have hd : bignumBitsToDigits 63 = 2 := rfl
  have hm := h.magnitude_nonneg
  by_cases hl : b.length = 2
  · unfold Extreme
    rw [hl, hd, bignumRadix_pow]
    norm_num
    omega
  refine iff_of_false (fun he => hl (he.1.trans hd)) (fun he => ?_)
  by_cases h1 : b.length ≤ 1
  · have := magnitude_lt_pow h (n := 62) (by omega)
    omega
  · have := pow_le_magnitude h (n := 124) (by omega) (by omega)
    omega

end

/-! ## The guard and the conversions -/

/-- What the conversions rely on for words of `w` bits. -/
structure WordTest (b : Bignum) (w : Nat) : Prop where
  signed : bignumFitsInWordP b w true = .ok (decide (InRange w b.toInt))
  unsigned : bignumFitsInWordP b w false = .ok (decide (0 ≤ b.toInt ∧ b.toInt < 2 ^ w))
  toLong : w = 64 → bignumFitsInWordP b w true = .ok true → bignumToLong b = .ok b.toInt
  toUlong : w = 64 → bignumFitsInWordP b w false = .ok true → bignumToUlong b = .ok b.toInt

/-- The digit count is not taken for a small one when it is cut to 32 bits. -/
def LengthSeen (b : Bignum) (w : Nat) : Prop :=
  b.length < 2 ^ 32 ∨ bignumBitsToDigits (if b.negative then w - 1 else w) < b.length % 2 ^ 32

/-- Not one of the negative numbers the test or the negation gets wrong. -/
def ClearOfExtreme (b : Bignum) (w : Nat) : Prop :=
  ¬ (w = 63 ∧ b.toInt = -2 ^ 62) ∧ ¬ (w = 64 ∧ -(3 * 2 ^ 62) < b.toInt ∧ b.toInt ≤ -2 ^ 63)

theorem decide_ok_inj {p q : Prop} [Decidable p] [Decidable q] :
    (Except.ok (decide p) : Exec Bool) = .ok (decide q) ↔ (p ↔ q) := by
  rw [Except.ok.injEq, decide_eq_decide]

theorem negative_toInt (h : b.WellFormed) (hs : b.negative = true) :
    b.toInt = -b.magnitude ∧ 0 < b.magnitude := by
  refine ⟨by rw [Bignum.toInt_eq, hs]; rfl, h.magnitude_pos fun hz => ?_⟩
  have := h.sign hz
  rw [hs] at this
  exact Bool.false_ne_true this.symm

theorem nonnegative_toInt (hs : b.negative = false) : b.toInt = b.magnitude := by
  rw [Bignum.toInt_eq, hs]; rfl

theorem fitsInWordP_negative (hs : b.negative = true) (w : Nat) :
    bignumFitsInWordP b w false = .ok false := by
  unfold bignumFitsInWordP
  rw [if_neg Bool.false_ne_true, if_pos hs]
  rfl

section
variable (h : b.WellFormed)
include h

theorem wordTest_nonnegative (hs : b.negative = false) {w}
    (hfs : bignumFitsInWordP b w true = .ok (decide (b.magnitude < 2 ^ (w - 1))))
    (hfu : bignumFitsInWordP b w false = .ok (decide (b.magnitude < 2 ^ w))) : WordTest b w := by
  have hm := h.magnitude_nonneg
  have hv := nonnegative_toInt hs
  have hpow : (0 : Int) ≤ 2 ^ (w - 1) := by positivity
  refine ⟨?_, ?_, ?_, ?_⟩
  · rw [hfs, decide_ok_inj, hv]
    unfold InRange
    omega
  · rw [hfu, decide_ok_inj, hv]
    omega
  · rintro rfl ht
    have hlt : b.magnitude < 2 ^ 63 := by simpa [hfs] using ht
    rw [bignumToLong_eq h ⟨by norm_num; omega, by norm_num; omega⟩, if_neg (by omega)]
  · rintro rfl ht
    have hlt : b.magnitude < 2 ^ 64 := by simpa [hfu] using ht
    exact bignumToUlong_eq h (by omega) (by omega)

theorem wordTest_negative (hs : b.negative = true) {w} {p : Prop} [Decidable p]
    (hfs : bignumFitsInWordP b w true = .ok (decide p)) :
    WordTest b w ↔ (p ↔ b.magnitude ≤ 2 ^ (w - 1)) ∧ (w = 64 → b.magnitude ≠ 2 ^ 63) := by
  obtain ⟨hv, hpos⟩ := negative_toInt h hs
  have hfu := fitsInWordP_negative hs w
  have hpow : (0 : Int) ≤ 2 ^ (w - 1) := by positivity
  have hrange : InRange w b.toInt ↔ b.magnitude ≤ 2 ^ (w - 1) := by
    unfold InRange
    omega
  refine ⟨fun ht => ?_, fun ⟨hp, hne⟩ => ⟨?_, ?_, ?_, ?_⟩⟩
  · have hp : p ↔ b.magnitude ≤ 2 ^ (w - 1) := by
      rw [← hrange, ← decide_ok_inj, ← hfs, ← ht.signed]
    refine ⟨hp, ?_⟩
    rintro rfl he
    have hc := ht.toLong rfl (by rw [hfs, decide_eq_true (hp.mpr he.le)])
    rw [bignumToLong_eq h (hrange.mpr he.le), if_pos (by omega)] at hc
    cases hc
  · rw [hfs, decide_ok_inj, hrange, hp]
  · rw [hfu, decide_eq_false (by omega)]
  · rintro rfl ht
    have hle : b.magnitude ≤ 2 ^ 63 := hp.mp (by simpa [hfs] using ht)
    have := hne rfl
    rw [bignumToLong_eq h (hrange.mpr hle), if_neg (by omega)]
  · intro _ ht
    rw [hfu] at ht
    cases ht

theorem wordTest_short {w} (hw : 2 ≤ w) (hw' : w ≤ 64) (hl : b.length < 2 ^ 32) :
    WordTest b w ↔ ClearOfExtreme b w := by
  have hfs : bignumFitsInWordP b w true = _ :=
    fitsInBits_eq h (by omega) (by omega) hl true
  cases hs : b.negative with
  | false =>
    have hv := nonnegative_toInt hs
    have hm := h.magnitude_nonneg
    have hfu : bignumFitsInWordP b w false = .ok (decide (b.magnitude < 2 ^ w)) := by
      simpa [bignumFitsInWordP, hs] using fitsInBits_eq h (n := w) (by omega) hw' hl false
    rw [hs, Bool.and_false, Bool.or_false] at hfs
    exact iff_of_true (wordTest_nonnegative h hs hfs hfu) ⟨by omega, by omega⟩
  | true =>
    obtain ⟨hv, hpos⟩ := negative_toInt h hs
    rw [hs, Bool.and_true, Bool.true_and, ← Bool.decide_or] at hfs
    rw [wordTest_negative h hs hfs]
    unfold ClearOfExtreme
    rcases (by omega : w ≤ 62 ∨ w = 63 ∨ w = 64) with hw62 | rfl | rfl
    · rw [extreme_small h (by omega) (by omega)]
      omega
    · simp only [show 63 - 1 = 62 from rfl, not_extreme_62 h, or_false]
      norm_num
      omega
    · rw [show 64 - 1 = 63 from rfl, extreme_63 h]
      norm_num
      omega

theorem wordTest_long (ha : b.length ≤ bignumLengthMax) {w} (hw : 2 ≤ w) (hw' : w ≤ 64)
    (hl : 2 ^ 32 ≤ b.length) :
    WordTest b w ↔
      bignumBitsToDigits (if b.negative then w - 1 else w) < b.length % 2 ^ 32 := by
  have hbig := pow_le_magnitude h (n := 64) (by omega) (by omega)
  have hpow : (2 : Int) ^ (w - 1) < 2 ^ 64 := pow_lt_pow_right₀ (by norm_num) (by omega)
  have hpow' : (2 : Int) ^ w ≤ 2 ^ 64 := pow_le_pow_right₀ (by norm_num) (by omega)
  have hs1 : bignumFitsInWordP b w true = .ok false ↔ _ :=
    fitsInBits_long h ha (n := w - 1) (by omega) (by omega) hl true
  cases hs : b.negative with
  | false =>
    have hv := nonnegative_toInt hs
    have hu1 : bignumFitsInWordP b w false = .ok false ↔
        bignumBitsToDigits w < b.length % 2 ^ 32 := by
      simpa [bignumFitsInWordP, hs] using fitsInBits_long h ha (n := w) (by omega) hw' hl false
    rw [if_neg Bool.false_ne_true]
    have hmono : bignumBitsToDigits (w - 1) ≤ bignumBitsToDigits w := by
      unfold bignumBitsToDigits
      omega
    refine ⟨fun ht => hu1.mp ?_, fun hc => wordTest_nonnegative h hs ?_ ?_⟩
    · rw [ht.unsigned, decide_eq_false (by omega)]
    · rw [hs1.mpr (by omega), decide_eq_false (by omega)]
    · rw [hu1.mpr hc, decide_eq_false (by omega)]
  | true =>
    obtain ⟨hv, hpos⟩ := negative_toInt h hs
    rw [if_pos rfl]
    refine ⟨fun ht => hs1.mp ?_, fun hc => ?_⟩
    · rw [ht.signed, decide_eq_false]
      unfold InRange
      omega
    · refine (wordTest_negative h hs (p := False) ((hs1.mpr hc).trans rfl)).mpr ?_
      exact ⟨iff_of_false id (by omega), fun _ => by omega⟩

theorem wordTest_iff (ha : b.length ≤ bignumLengthMax) {w} (hw : 2 ≤ w) (hw' : w ≤ 64) :
    WordTest b w ↔ LengthSeen b w ∧ ClearOfExtreme b w := by
  by_cases hl : b.length < 2 ^ 32
  · rw [wordTest_short h hw hw' hl]
    exact ⟨fun hc => ⟨.inl hl, hc⟩, fun hc => hc.2⟩
  · have hbig := pow_le_magnitude h (n := 64) (by omega) (by omega)
    have hclear : ClearOfExtreme b w := by
      cases hs : b.negative with
      | false => have := nonnegative_toInt hs; exact ⟨by omega, by omega⟩
      | true => have := negative_toInt h hs; exact ⟨by omega, by omega⟩
    rw [wordTest_long h ha hw hw' (by omega)]
    exact ⟨fun hc => ⟨.inr hc, hclear⟩, fun hc => hc.1.resolve_left hl⟩

end

namespace ExactInteger

/-- The test `integer_to_long_p` and the conversions it stands before. -/
structure LongGuard (n : ExactInteger) : Prop where
  longP : integerToLongP n = .ok (decide (InRange 64 n.toInt))
  ulongP : integerToUlongP n = .ok (decide (0 ≤ n.toInt ∧ n.toInt < 2 ^ 64))
  toLong : integerToLongP n = .ok true → integerToLong n = .ok n.toInt
  toUlong : integerToUlongP n = .ok true → integerToUlong n = .ok n.toInt

def LongGuardSafe : ExactInteger → Prop
  | .fixnum _ => True
  | .bignum b => LengthSeen b 64 ∧ ClearOfExtreme b 64

end ExactInteger

theorem land_fixnumSignBit (d : BitVec 58) : (d &&& fixnumSignBit) = 0 ↔ 0 ≤ fixnumToLong d := by
  have hd := d.isLt
  rw [← BitVec.toNat_inj, BitVec.toNat_and, fixnumToLong_eq, BitVec.toInt_eq_toNat_cond]
  change d.toNat &&& 2 ^ 57 = 0 ↔ _
  rw [Nat.and_two_pow, Nat.testBit_eq_decide_div_mod_eq]
  rcases (by omega : d.toNat / 2 ^ 57 = 0 ∨ d.toNat / 2 ^ 57 = 1) with h | h <;> rw [h] <;>
    norm_num <;> split <;> omega

theorem longGuard_fixnum (d : BitVec 58) : (ExactInteger.fixnum d).LongGuard := by
  obtain ⟨h1, h2⟩ := fixnumToLong_range d
  norm_num at h1 h2
  have hu : integerToUlongP (.fixnum d) =
      .ok (decide (0 ≤ fixnumToLong d ∧ fixnumToLong d < 2 ^ 64)) := by
    have hb : ((d &&& fixnumSignBit) == 0) =
        decide (0 ≤ fixnumToLong d ∧ fixnumToLong d < 2 ^ 64) := by
      rw [beq_eq_decide, decide_eq_decide, land_fixnumSignBit]
      omega
    exact congrArg Except.ok hb
  refine ⟨?_, hu, fun _ => rfl, fun ht => ?_⟩
  · rw [decide_eq_true]
    · rfl
    · exact ⟨by norm_num; change _ ≤ fixnumToLong d; omega,
        by norm_num; change fixnumToLong d < _; omega⟩
  · have hr : 0 ≤ fixnumToLong d ∧ fixnumToLong d < 2 ^ 64 := by simpa [hu] using ht
    exact congrArg Except.ok (Int.emod_eq_of_lt hr.1 hr.2)

theorem longGuard_bignum (h : b.WellFormed) (ha : b.length ≤ bignumLengthMax) :
    (ExactInteger.bignum b).LongGuard ↔ LengthSeen b 64 ∧ ClearOfExtreme b 64 := by
  rw [← wordTest_iff h ha (by norm_num) (by norm_num)]
  exact ⟨fun hg => ⟨hg.longP, hg.ulongP, fun _ => hg.toLong, fun _ => hg.toUlong⟩,
    fun ht => ⟨ht.signed, ht.unsigned, ht.toLong rfl, ht.toUlong rfl⟩⟩

/-- **The range test and the conversions it guards are exact just when** the
digit count survives the cast to `unsigned int` and the number is none of: the
least number of a word of 63 bits, the least `long`, and the negative numbers
just below the least `long` whose leading digit equals its leading digit.
The same condition at 64 bits decides whether `integer_to_long_p` guards
`integer_to_long`. -/
theorem word_test_exact_iff (b : WFBignum) (ha : b.1.length ≤ bignumLengthMax) (n : ExactInteger)
    (hn : n.Canonical) :
    (∀ w, 2 ≤ w → w ≤ 64 → (WordTest b.1 w ↔ LengthSeen b.1 w ∧ ClearOfExtreme b.1 w)) ∧
      (n.LongGuard ↔ n.LongGuardSafe) := by
  refine ⟨fun w hw hw' => wordTest_iff b.2 ha hw hw', ?_⟩
  cases n with
  | fixnum d => exact iff_of_true (longGuard_fixnum d) trivial
  | bignum b => exact longGuard_bignum hn.wellFormed hn.allocated

theorem word_test_exact_min_long_succ :
    WordTest ⟨true, [4611686018427387903, 1]⟩ 64 ∧
      (ExactInteger.bignum ⟨true, [4611686018427387903, 1]⟩).LongGuard := by
  have hwf : (Bignum.mk true [4611686018427387903, 1]).WellFormed :=
    ⟨by simp [bignumRadix], by simp, by simp⟩
  have hlen : (Bignum.mk true [4611686018427387903, 1]).length ≤ bignumLengthMax := by decide
  have hsafe : LengthSeen ⟨true, [4611686018427387903, 1]⟩ 64 ∧
      ClearOfExtreme ⟨true, [4611686018427387903, 1]⟩ 64 := by
    unfold LengthSeen ClearOfExtreme
    decide
  obtain ⟨htest, hguard⟩ := word_test_exact_iff ⟨_, hwf⟩ hlen (.bignum _)
    (ExactInteger.CanonicalBignum.mk hwf hlen (by decide))
  exact ⟨(htest 64 (by decide) (by decide)).mpr hsafe, hguard.mpr hsafe⟩

/-- `-(2 ^ 63 + 1)` passes for a `long` and is converted to the greatest one;
`-2 ^ 62` does not pass for a word of 63 bits. -/
theorem word_test_accepts_below_min_long :
    (Bignum.mk true [1, 2]).WellFormed ∧ (Bignum.mk true [1, 2]).toInt = -(2 ^ 63 + 1) ∧
      bignumFitsInWordP ⟨true, [1, 2]⟩ 64 true = .ok true ∧
      integerToLongP (.bignum ⟨true, [1, 2]⟩) = .ok true ∧
      integerToLong (.bignum ⟨true, [1, 2]⟩) = .ok (2 ^ 63 - 1) ∧
      (Bignum.mk true [0, 1]).WellFormed ∧ InRange 63 (Bignum.mk true [0, 1]).toInt ∧
      bignumFitsInWordP ⟨true, [0, 1]⟩ 63 true = .ok false := by
  refine ⟨⟨by simp [bignumRadix], by simp, by simp⟩, by decide, by rfl, by rfl, by rfl,
    ⟨by simp [bignumRadix], by simp, by simp⟩, by decide, by rfl⟩

/-! ## Canonical objects -/

/-- `x` returns the canonical object for `v`. -/
def Makes (x : Exec ExactInteger) (v : Int) : Prop :=
  ∃ n, x = .ok n ∧ n.Canonical ∧ n.toInt = v

theorem makes_fixnum {v} (h : InRange 58 v) : Makes (.ok (.fixnum (longToFixnum v))) v :=
  ⟨_, rfl, trivial, fixnumToLong_longToFixnum h⟩

theorem makes_bignum (h : b.WellFormed) (ha : b.length ≤ bignumLengthMax)
    (hl : ¬ InRange 58 b.toInt) : Makes (.ok (.bignum b)) b.toInt :=
  ⟨_, rfl, ExactInteger.CanonicalBignum.mk h ha hl, rfl⟩

theorem longToInteger_makes {n} (h : -2 ^ 63 < n) (h' : n < 2 ^ 63) :
    Makes (longToInteger n) n := by
  have hp := longToFixnumP_iff (n := n) ⟨by norm_num; omega, by norm_num; omega⟩
  unfold longToInteger
  by_cases hr : InRange 58 n
  · rw [if_pos (hp.mpr hr)]
    exact makes_fixnum hr
  · obtain ⟨b, he, hw, hv, hl⟩ := longToBignum_ok h h'
    rw [if_neg (fun ht => hr (hp.mp ht)), he, ← hv]
    exact makes_bignum hw (le_trans hl (by decide)) (hv ▸ hr)

theorem ulongToInteger_makes {n} (h : 0 ≤ n) (h' : n < 2 ^ 64) : Makes (ulongToInteger n) n := by
  unfold ulongToInteger
  by_cases hs : n < 2 ^ 63
  · have ht : toLong n = n := toLong_of_range ⟨by norm_num; omega, by norm_num; omega⟩
    simp only [ht]
    rw [if_pos h]
    exact longToInteger_makes (by omega) hs
  · have ht : toLong n = n - 2 ^ 64 := by
      unfold toLong
      rw [Int.bmod_def]
      norm_num
      split <;> omega
    simp only [ht]
    rw [if_neg (by omega)]
    obtain ⟨b, he, hw, hv, hl⟩ := ulongToBignum_ok h h'
    rw [he, ← hv]
    refine makes_bignum hw (le_trans hl (by decide)) fun hr => ?_
    have := hr.2
    norm_num at this
    omega

theorem wordTest_fixnum_iff (h : b.WellFormed) (ha : b.length ≤ bignumLengthMax) :
    WordTest b 58 ↔ b.length < 2 ^ 32 ∨ 1 < b.length % 2 ^ 32 := by
  rw [wordTest_iff h ha (by norm_num) (by norm_num)]
  have hd : bignumBitsToDigits (if b.negative then 58 - 1 else 58) = 1 := by
    split <;> rfl
  unfold LengthSeen ClearOfExtreme
  rw [hd]
  omega

theorem bignumToInteger_makes_iff (h : b.WellFormed) (ha : b.length ≤ bignumLengthMax) :
    Makes (bignumToInteger b) b.toInt ↔ b.length < 2 ^ 32 ∨ 1 < b.length % 2 ^ 32 := by
  refine ⟨fun ⟨n, he, hc, hv⟩ => ?_, fun hs => ?_⟩
  · by_contra hl
    have hbig := pow_le_magnitude h (n := 64) (by omega) (by omega)
    have hfits : ¬ bignumToFixnumP b = .ok false := fun hf => hl (.inr
      ((fitsInBits_long h ha (n := 57) (by norm_num) (by norm_num) (by omega) true).mp hf))
    have hout : ¬ InRange 58 b.toInt := by
      unfold InRange
      cases hs : b.negative with
      | false => have := nonnegative_toInt hs; norm_num; omega
      | true => have := negative_toInt h hs; norm_num; omega
    unfold bignumToInteger at he
    match hp : bignumToFixnumP b, hk : bignumToLong b with
    | .error f, _ => rw [hp] at he; cases he
    | .ok false, _ => exact hfits hp
    | .ok true, .error f => rw [hp, ok_bind, if_pos rfl, hk] at he; cases he
    | .ok true, .ok k =>
      rw [hp, ok_bind, if_pos rfl, hk] at he
      cases he
      exact hout (hv ▸ fixnumToLong_range _)
  · have ht := (wordTest_fixnum_iff h ha).mpr hs
    have hp : bignumToFixnumP b = .ok (decide (InRange 58 b.toInt)) := ht.signed
    unfold bignumToInteger
    rw [hp, ok_bind]
    by_cases hr : InRange 58 b.toInt
    · have hlong := bignumToLong_eq h (b := b) (by
        have := hr.1
        have := hr.2
        norm_num at *
        exact ⟨by norm_num; omega, by norm_num; omega⟩)
      have hne : b.toInt ≠ -2 ^ 63 := fun he => by have := hr.1; rw [he] at this; norm_num at this
      rw [decide_eq_true hr, if_pos rfl, hlong, if_neg hne]
      exact makes_fixnum hr
    · rw [decide_eq_false hr, if_neg Bool.false_ne_true]
      exact makes_bignum h ha hr

theorem integerToBignum_ok {n} (h : n.Canonical) :
    ∃ b, integerToBignum n = .ok b ∧ b.WellFormed ∧ b.toInt = n.toInt ∧
      b.length ≤ bignumLengthMax := by
  cases n with
  | fixnum d =>
    obtain ⟨h1, h2⟩ := fixnumToLong_range d
    norm_num at h1 h2
    obtain ⟨b, he, hw, hv, hl⟩ := longToBignum_ok (n := fixnumToLong d) (by omega) (by omega)
    exact ⟨b, he, hw, hv, le_trans hl (by decide)⟩
  | bignum b => exact ⟨b, rfl, h.wellFormed, rfl, h.allocated⟩

end MitScheme.Microcode
