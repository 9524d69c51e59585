import MitScheme.Microcode.BignumBitwise

/-! # Bitwise operations: the canonical result

The operators of `artutl.c` on fixnums and bignums, up to the object they
return. -/

namespace MitScheme.Microcode
open Lib.Checked Lib.Outcome Lib.Radix Lib.TwosComplement

/-! ## Digit counts -/

def digitCount (v : Int) : Nat := bignumBitsToDigits v.natAbs.size

/-- A digit count that `bignum_fits_in_word_p` does not take for 0 or 1. -/
def CountSeen (count : Nat) : Prop := count < 2 ^ 32 ∨ 1 < count % 2 ^ 32

theorem Bignum.natAbs_toInt {b : Bignum} (h : b.WellFormed) :
    (b.toInt.natAbs : Int) = b.magnitude := by
  have hm := h.magnitude_nonneg
  cases hs : b.negative with
  | false => have := nonnegative_toInt hs; omega
  | true => have := negative_toInt h hs; omega

theorem Bignum.WellFormed.length_eq {b : Bignum} (h : b.WellFormed) :
    b.length = digitCount b.toInt := by
  have hm := Bignum.natAbs_toInt h
  have hle : b.toInt.natAbs.size ≤ 62 * b.length := by
    rw [Nat.size_le, ← Nat.cast_lt (α := Int), hm]
    push_cast
    exact magnitude_lt_pow h le_rfl
  have hge : b.length ≠ 0 → 62 * (b.length - 1) < b.toInt.natAbs.size := by
    intro hz
    rw [Nat.lt_size, ← Nat.cast_le (α := Int), hm]
    push_cast
    exact pow_le_magnitude h hz le_rfl
  unfold digitCount bignumBitsToDigits
  omega

theorem not_tooLong {f} : ¬ TooLong bignumLengthMax f :=
  fun h => absurd h.2 (Nat.lt_irrefl _)

variable (op : BitwiseOp)

theorem onLong_bitwise (x y : Int) : Bitwise op.truth x y (op.onLong x y) := by
  intro i
  cases op <;>
    simp only [BitwiseOp.onLong, BitwiseOp.truth, Int.testBit_land, Int.testBit_lor,
      Int.testBit_lxor, Int.testBit_lnot] <;>
    cases x.testBit i <;> cases y.testBit i <;> rfl

theorem integerToBignum_small {n : ExactInteger} (h : n.Canonical)
    (hc : digitCount n.toInt < bignumLengthMax) :
    ∃ b, integerToBignum n = .ok b ∧ b.toInt = n.toInt ∧ Small bignumLengthMax b := by
  obtain ⟨b, he, hw, hv, -⟩ := integerToBignum_ok h
  exact ⟨b, he, hv, hw, by rw [hw.length_eq, hv]; exact hc⟩

theorem Small.wordRange {N} {b : Bignum} (h : Small N b) :
    -2 ^ (62 * (N - 1)) ≤ b.toInt ∧ b.toInt < 2 ^ (62 * (N - 1)) := by
  have hm := magnitude_lt_pow h.wellFormed (n := 62 * (N - 1)) (by have := h.length; omega)
  have hn := Bignum.natAbs_toInt h.wellFormed
  omega

theorem onBignum_toInteger {x y : Bignum} (hx : Small bignumLengthMax x)
    (hy : Small bignumLengthMax y) :
    (∃ z, (op.onBignum x y >>= bignumToInteger) = .ok z ∧ z.Canonical ∧
        Bitwise op.truth x.toInt y.toInt z.toInt) ↔
      CountSeen (digitCount (op.onLong x.toInt y.toInt)) := by
  obtain ⟨r, he, hw, hb⟩ :=
    (BitwiseOp.onBignum_spec (by decide) op x y hx hy).ok fun _ => not_tooLong
  have hv : op.onLong x.toInt y.toInt = r.toInt := (onLong_bitwise op _ _).unique hb
  have hr := hb.wordRange hx.wordRange hy.wordRange
  have hlen : r.length ≤ bignumLengthMax := by
    refine length_le_of_magnitude_lt hw ?_
    have hn := Bignum.natAbs_toInt hw
    have hpow : (2 : Int) ^ (62 * (bignumLengthMax - 1)) < 2 ^ (62 * bignumLengthMax) :=
      pow_lt_pow_right₀ (by norm_num) (by unfold bignumLengthMax; norm_num)
    omega
  rw [he, ok_bind, hv, ← hw.length_eq]
  refine Iff.trans ⟨?_, ?_⟩ (bignumToInteger_makes_iff hw hlen)
  · rintro ⟨z, hz, hc, hbz⟩
    exact ⟨z, hz, hc, hbz.unique hb⟩
  · rintro ⟨z, hz, hc, hvz⟩
    exact ⟨z, hz, hc, hvz ▸ hb⟩

theorem onInteger_fixnum (n m : BitVec 58) :
    ∃ z, op.onInteger (.fixnum n) (.fixnum m) = .ok z ∧ z.Canonical ∧
      Bitwise op.truth (fixnumToLong n) (fixnumToLong m) z.toInt := by
  have hb := onLong_bitwise op (fixnumToLong n) (fixnumToLong m)
  have hr : InRange 58 (op.onLong (fixnumToLong n) (fixnumToLong m)) :=
    hb.wordRange (fixnumToLong_range n) (fixnumToLong_range m)
  refine ⟨_, rfl, trivial, ?_⟩
  change Bitwise _ _ _ (fixnumToLong (longToFixnum _))
  rw [fixnumToLong_longToFixnum hr]
  exact hb

theorem countSeen_of_word {v} (h : -2 ^ 63 ≤ v ∧ v < 2 ^ 63) : CountSeen (digitCount v) := by
  have hs : v.natAbs.size ≤ 64 := by
    rw [Nat.size_le]
    omega
  unfold CountSeen digitCount bignumBitsToDigits
  omega

/-- `op` returns the canonical integer with the bits it stands for. -/
def BitwiseOp.Exact (op : BitwiseOp) (n m : ExactInteger) : Prop :=
  ∃ z, op.onInteger n m = .ok z ∧ z.Canonical ∧ Bitwise op.truth n.toInt m.toInt z.toInt

theorem onInteger_exact_iff {n m} (hn : n.Canonical) (hm : m.Canonical)
    (hcn : digitCount n.toInt < bignumLengthMax) (hcm : digitCount m.toInt < bignumLengthMax) :
    op.Exact n m ↔ CountSeen (digitCount (op.onLong n.toInt m.toInt)) := by
  obtain ⟨x, hx, hvx, hsx⟩ := integerToBignum_small hn hcn
  obtain ⟨y, hy, hvy, hsy⟩ := integerToBignum_small hm hcm
  have hbig : (integerToBignum n >>= fun x => integerToBignum m >>= fun y =>
      op.onBignum x y >>= bignumToInteger) = (op.onBignum x y >>= bignumToInteger) := by
    rw [hx, ok_bind, hy, ok_bind]
  have hpath := onBignum_toInteger op hsx hsy
  rw [hvx, hvy] at hpath
  unfold BitwiseOp.Exact
  cases n with
  | fixnum d =>
    cases m with
    | fixnum e =>
      have hr := (onLong_bitwise op _ _).wordRange (fixnumToLong_range d) (fixnumToLong_range e)
      norm_num at hr
      have hs : CountSeen (digitCount (op.onLong (fixnumToLong d) (fixnumToLong e))) :=
        countSeen_of_word ⟨by omega, by omega⟩
      exact iff_of_true (onInteger_fixnum op d e) hs
    | bignum c =>
      rw [← hpath, ← hbig]
      rfl
  | bignum b =>
    rw [← hpath, ← hbig]
    rfl

theorem integerBitwiseNot_exact {n : ExactInteger} (hn : n.Canonical)
    (hc : digitCount n.toInt < bignumLengthMax) :
    ∃ z, integerBitwiseNot n = .ok z ∧ z.Canonical ∧ z.toInt = -1 - n.toInt := by
  cases n with
  | fixnum d =>
    obtain ⟨h1, h2⟩ := fixnumToLong_range d
    have hv : Int.lnot (fixnumToLong d) = -1 - fixnumToLong d :=
      eq_of_testBit_eq fun i => by rw [Int.testBit_lnot, testBit_neg_one_sub]
    refine ⟨_, rfl, trivial, ?_⟩
    change fixnumToLong (longToFixnum _) = -1 - fixnumToLong d
    rw [hv]
    norm_num at h1 h2
    exact fixnumToLong_longToFixnum ⟨by norm_num; omega, by norm_num; omega⟩
  | bignum b =>
    have hw := hn.wellFormed
    have hlarge := hn.large
    have hlen : b.length < bignumLengthMax := by rw [hw.length_eq]; exact hc
    obtain ⟨r, he, hr, hv⟩ :=
      (bignumBitwiseNot_gives (N := bignumLengthMax) (by decide) ⟨hw, hlen⟩).ok
        fun _ => not_tooLong
    refine ⟨.bignum r, ?_, ExactInteger.CanonicalBignum.mk hr ?_ ?_, hv⟩
    · rw [integerBitwiseNot, he]
      rfl
    · refine length_le_of_magnitude_lt hr ?_
      have hmb := magnitude_lt_pow hw (n := 62 * (bignumLengthMax - 1)) (by omega)
      have h1 := Bignum.natAbs_toInt hw
      have h2 := Bignum.natAbs_toInt hr
      have hpow : (2 : Int) ^ (62 * (bignumLengthMax - 1)) < 2 ^ (62 * bignumLengthMax) :=
        pow_lt_pow_right₀ (by norm_num) (by unfold bignumLengthMax; norm_num)
      omega
    · rw [hv]
      unfold InRange fixnumLength at hlarge ⊢
      norm_num at hlarge ⊢
      omega

/-- **Every bitwise operation on exact integers gives the canonical integer
with the right two's complement bits**, on the fixnum path and for all four
sign combinations of the bignum path, just when the digit count of that
integer survives the cast to `unsigned int` in `bignum_to_integer`; the
complement, which does not go through it, always does. -/
theorem integer_bitwise_exact_iff {n m : ExactInteger} (hn : n.Canonical) (hm : m.Canonical)
    (hcn : digitCount n.toInt < bignumLengthMax) (hcm : digitCount m.toInt < bignumLengthMax) :
    (∀ op : BitwiseOp, op.Exact n m ↔ CountSeen (digitCount (op.onLong n.toInt m.toInt))) ∧
      ∃ z, integerBitwiseNot n = .ok z ∧ z.Canonical ∧
        ∀ i, z.toInt.testBit i = !n.toInt.testBit i := by
  refine ⟨fun op => onInteger_exact_iff op hn hm hcn hcm, ?_⟩
  obtain ⟨z, he, hc, hv⟩ := integerBitwiseNot_exact hn hcn
  exact ⟨z, he, hc, fun i => by rw [hv, testBit_neg_one_sub]⟩

/-- `2 ^ 62` and `-1`, one operand on each path. -/
theorem integer_bitwise_exact_mixed :
    (∀ op : BitwiseOp, op.Exact (.bignum ⟨false, [0, 1]⟩) (.fixnum (longToFixnum (-1)))) ∧
      ∃ z, integerBitwiseNot (.bignum ⟨false, [0, 1]⟩) = .ok z ∧ z.Canonical ∧
        ∀ i, z.toInt.testBit i = !(4611686018427387904 : Int).testBit i := by
  have hwf : (Bignum.mk false [0, 1]).WellFormed := ⟨by simp [bignumRadix], by simp, by simp⟩
  have h := integer_bitwise_exact_iff (n := .bignum ⟨false, [0, 1]⟩)
    (m := .fixnum (longToFixnum (-1)))
    (ExactInteger.CanonicalBignum.mk hwf (by decide) (by decide)) trivial
    (lt_of_eq_of_lt hwf.length_eq.symm (by decide))
    (by rw [show (ExactInteger.fixnum (longToFixnum (-1))).toInt = -1 from by decide]
        decide)
  refine ⟨fun op => (h.1 op).mpr (countSeen_of_word ?_), h.2⟩
  exact (onLong_bitwise op _ _).wordRange (by decide) (by decide)

/-- The bignum `2 ^ (62 * k)`. -/
def radixPower (k : Nat) : Bignum := ⟨false, List.replicate k 0 ++ [1]⟩

theorem radixPower_length (k : Nat) : (radixPower k).length = k + 1 := by
  simp [radixPower, Bignum.length]

theorem radixPower_wellFormed (k : Nat) : (radixPower k).WellFormed := by
  refine ⟨digits_append.mpr ⟨digits_replicate_zero bignumRadix_pos k, ?_⟩, ?_, ?_⟩
  · simp [bignumRadix]
  · simp [radixPower]
  · simp [radixPower]

theorem radixPower_canonical {k} (hk : k ≠ 0) (hl : k < bignumLengthMax) :
    ExactInteger.CanonicalBignum (radixPower k) := by
  refine ⟨radixPower_wellFormed k, by rw [radixPower_length]; omega, fun hr => ?_⟩
  have hlen := radixPower_length k
  have hm := pow_le_magnitude (radixPower_wellFormed k) (n := 62) (by omega) (by omega)
  have h2 := hr.2
  rw [show (radixPower k).toInt = (radixPower k).magnitude from rfl] at h2
  norm_num [fixnumLength] at h2
  omega

/-- The conjunction of `2 ^ (62 * (2 ^ 32 - 1))` with itself: its `2 ^ 32`
digits are taken for none, and a fixnum is returned. -/
theorem integer_bitwise_and_long_operand :
    (ExactInteger.bignum (radixPower (2 ^ 32 - 1))).Canonical ∧
      ¬ BitwiseOp.and.Exact (.bignum (radixPower (2 ^ 32 - 1)))
        (.bignum (radixPower (2 ^ 32 - 1))) := by
  have hcan : (ExactInteger.bignum (radixPower (2 ^ 32 - 1))).Canonical :=
    radixPower_canonical (by norm_num) (by unfold bignumLengthMax; norm_num)
  have hcount : digitCount (ExactInteger.bignum (radixPower (2 ^ 32 - 1))).toInt = 2 ^ 32 := by
    change digitCount (radixPower (2 ^ 32 - 1)).toInt = 2 ^ 32
    rw [← (radixPower_wellFormed _).length_eq, radixPower_length]
    norm_num
  have hroom : digitCount (ExactInteger.bignum (radixPower (2 ^ 32 - 1))).toInt <
      bignumLengthMax := by
    rw [hcount]
    unfold bignumLengthMax
    norm_num
  refine ⟨hcan, fun h => ?_⟩
  have hseen := (onInteger_exact_iff .and hcan hcan hroom hroom).mp h
  have hself : ∀ v : Int, BitwiseOp.and.onLong v v = v := fun v =>
    eq_of_testBit_eq fun i => by rw [BitwiseOp.onLong, Int.testBit_land, Bool.and_self]
  rw [hself, hcount] at hseen
  unfold CountSeen at hseen
  omega

end MitScheme.Microcode
