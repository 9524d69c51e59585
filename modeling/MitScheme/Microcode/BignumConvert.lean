import MitScheme.Microcode.BignumRing
import Mathlib.Data.Int.ModEq

/-! # Exact integers and machine words

An exact integer is a fixnum, whose object word holds a datum of
`DATUM_LENGTH` = 58 bits, or a bignum. The conversions of `bignum.c` and
`artutl.c` between these objects and `long` and `unsigned long` are here, with
`bignum_fits_in_word_p`, the test they are guarded by. Conversions of C
between the two 64-bit types keep the low 64 bits; a negation that leaves the
range of a `long` and a shift by 64 or more are undefined there and stop the
run. -/

namespace MitScheme.Microcode
open Lib.Checked Lib.Outcome Lib.Radix

/-! ## Words -/

/-- The conversion of a word to `long`. -/
def toLong (v : Int) : Int := Int.bmod v (2 ^ 64)

/-- The conversion of a word to `unsigned long`. -/
def toUlong (v : Int) : Int := v % 2 ^ 64

/-- `1UL << shift`. -/
def shiftedOne (shift : Int) : Exec Int :=
  if 0 ≤ shift ∧ shift < 64 then .ok (2 ^ shift.toNat) else .error .overflow

def bignumBitsToDigits (n : Nat) : Nat := (n + 61) / 62

/-! ## The range test -/

/-- `bignum_fits_in_word_p` once `n_bits` is known. The length is cut to an
`unsigned int` before it is compared; the shift count is an `unsigned long`. -/
def fitsInBits (b : Bignum) (nBits : Nat) (twosComplementP : Bool) : Exec Bool := do
  check (nBits > 0)
  let length := b.length
  let maxDigits := bignumBitsToDigits nBits
  if length % 2 ^ 32 < maxDigits then return true
  else if length % 2 ^ 32 > maxDigits then return false
  else
    let msd ← index b.digits (length - 1)
    let max ← shiftedOne (toUlong (nBits - ((length : Int) - 1) * 62))
    let max := toLong max
    return msd < max || (twosComplementP && msd == max && b.negative)

def bignumFitsInWordP (b : Bignum) (wordLength : Nat) (twosComplementP : Bool) : Exec Bool :=
  if twosComplementP then fitsInBits b (wordLength - 1) true
  else if b.negative then return false
  else fitsInBits b wordLength false

/-! ## Bignums and words -/

/-- The loop of `DEFINE_BIGNUM_TO_INT` and `DEFINE_BIGNUM_TO_UINT`, over the
digits from the leading one down. -/
def accumulateDigits : List Int → Int → Int
  | [], accumulator => accumulator
  | digit :: rest, accumulator =>
    accumulateDigits rest (toUlong (toUlong (accumulator * 2 ^ 62) + digit))

def bignumToLong (b : Bignum) : Exec Int :=
  if b.zeroP then return 0
  else
    let accumulator := accumulateDigits b.digits.reverse 0
    if b.negative then long (-toLong accumulator) else return toLong accumulator

def bignumToUlong (b : Bignum) : Exec Int :=
  if b.zeroP then return 0
  else do
    check (b.negative = false)
    return accumulateDigits b.digits.reverse 0

/-- The loop of `DEFINE_INT_TO_BIGNUM` and `DEFINE_UINT_TO_BIGNUM`, into an
array with room for `room` digits. -/
def splitDigits : Nat → Int → Exec (List Int)
  | 0, _ => .error .outOfBounds
  | room + 1, accumulator => do
    let digit := Int.land accumulator (bignumRadix - 1)
    let accumulator := accumulator >>> (62 : Nat)
    if accumulator ≠ 0 then
      let rest ← splitDigits room accumulator
      return digit :: rest
    else return [digit]

/-- `BIGNUM_DIGITS_FOR_TYPE` of a 64-bit type. -/
def bignumDigitsForType : Nat := bignumBitsToDigits 64

def bignumFromDigits (digits : List Int) (negative : Bool) : Exec Bignum := do
  bignumAllocate digits.length
  return ⟨negative, digits⟩

def longToBignum (n : Int) : Exec Bignum :=
  if n = 0 then return bignumMakeZero
  else if n = 1 then return bignumMakeOne false
  else if n = -1 then return bignumMakeOne true
  else do
    let negative := decide (n < 0)
    let accumulator ← (if negative then long (-n) else pure n : Exec Int)
    let digits ← splitDigits bignumDigitsForType (toUlong accumulator)
    bignumFromDigits digits negative

def ulongToBignum (n : Int) : Exec Bignum :=
  if n = 0 then return bignumMakeZero
  else if n = 1 then return bignumMakeOne false
  else do
    let digits ← splitDigits bignumDigitsForType n
    bignumFromDigits digits false

/-! ## Fixnums -/

/-- `FIXNUM_LENGTH`; it does not include the sign. -/
def fixnumLength : Nat := 57

def fixnumSignBit : BitVec 58 := 0x200000000000000#58

def signMask : BitVec 64 := 0xFE00000000000000#64

/-- `FIXNUM_TO_LONG`: flip the sign bit, then subtract its weight. The type
code of the object cancels in the subtraction. -/
def fixnumToLong (datum : BitVec 58) : Int :=
  ((datum ^^^ fixnumSignBit).toNat : Int) - fixnumSignBit.toNat

def longToFixnum (n : Int) : BitVec 58 := BitVec.ofInt 58 n

def longToFixnumP (n : Int) : Bool :=
  BitVec.ofInt 64 n &&& signMask == 0 || BitVec.ofInt 64 n &&& signMask == signMask

/-! ## Exact integers -/

inductive ExactInteger
  | fixnum (datum : BitVec 58)
  | bignum (b : Bignum)

def bignumToFixnumP (b : Bignum) : Exec Bool := bignumFitsInWordP b (fixnumLength + 1) true

def bignumToLongP (b : Bignum) : Exec Bool := bignumFitsInWordP b 64 true

def bignumToUlongP (b : Bignum) : Exec Bool := bignumFitsInWordP b 64 false

def integerToLongP : ExactInteger → Exec Bool
  | .fixnum _ => return true
  | .bignum b => bignumToLongP b

def integerToLong : ExactInteger → Exec Int
  | .fixnum n => return fixnumToLong n
  | .bignum b => bignumToLong b

def integerToUlongP : ExactInteger → Exec Bool
  | .fixnum n => return (n &&& fixnumSignBit) == 0
  | .bignum b => bignumToUlongP b

def integerToUlong : ExactInteger → Exec Int
  | .fixnum n => return toUlong (fixnumToLong n)
  | .bignum b => bignumToUlong b

def longToInteger (number : Int) : Exec ExactInteger :=
  if longToFixnumP number then return .fixnum (longToFixnum number)
  else do
    let b ← longToBignum number
    return .bignum b

def ulongToInteger (number : Int) : Exec ExactInteger :=
  let sNumber := toLong number
  if sNumber ≥ 0 then
    if longToFixnumP sNumber then return .fixnum (longToFixnum sNumber)
    else do
      let b ← longToBignum sNumber
      return .bignum b
  else do
    let b ← ulongToBignum number
    return .bignum b

/-- `bignum_to_integer`, with `BIGNUM_TO_FIXNUM`. -/
def bignumToInteger (b : Bignum) : Exec ExactInteger := do
  if ← bignumToFixnumP b then
    let n ← bignumToLong b
    return .fixnum (longToFixnum n)
  else return .bignum b

/-- `FIXNUM_TO_BIGNUM`, and a bignum as it is. -/
def integerToBignum : ExactInteger → Exec Bignum
  | .fixnum n => longToBignum (fixnumToLong n)
  | .bignum b => return b

namespace ExactInteger

def toInt : ExactInteger → Int
  | .fixnum n => fixnumToLong n
  | .bignum b => b.toInt

/-- One object for each integer: a bignum is well formed, within the length
`bignum_allocate` lets through, and no fixnum has its value. -/
structure CanonicalBignum (b : Bignum) : Prop where
  wellFormed : b.WellFormed
  allocated : b.length ≤ bignumLengthMax
  large : ¬ InRange (fixnumLength + 1) b.toInt

def Canonical : ExactInteger → Prop
  | .fixnum _ => True
  | .bignum b => CanonicalBignum b

end ExactInteger

/-! ## Words and fixnums -/

theorem toLong_of_range {v} (h : InRange 64 v) : toLong v = v := by
  obtain ⟨h1, h2⟩ := h
  norm_num at h1 h2
  unfold toLong
  rw [Int.bmod_def]
  norm_num
  split <;> omega

theorem fixnumToLong_eq (d : BitVec 58) : fixnumToLong d = d.toInt := by
  have hd := d.isLt
  have hx : (d ^^^ fixnumSignBit).toNat = (d.toNat + 2 ^ 57) % 2 ^ 58 := by
    have hq := Nat.xor_div_two_pow (a := d.toNat) (b := 2 ^ 57) (n := 57)
    have hr := Nat.xor_mod_two_pow (a := d.toNat) (b := 2 ^ 57) (n := 57)
    have he : (d ^^^ fixnumSignBit).toNat = d.toNat ^^^ 2 ^ 57 := by
      rw [BitVec.toNat_xor]; rfl
    rw [he]
    rcases (by omega : d.toNat / 2 ^ 57 = 0 ∨ d.toNat / 2 ^ 57 = 1) with h | h <;>
      · rw [h] at hq
        norm_num at hq hr ⊢
        omega
  rw [fixnumToLong, hx, BitVec.toInt_eq_toNat_cond]
  have hs : fixnumSignBit.toNat = 2 ^ 57 := rfl
  rw [hs]
  split <;> omega

theorem fixnumToLong_range (d : BitVec 58) : InRange 58 (fixnumToLong d) := by
  rw [fixnumToLong_eq]
  exact ⟨BitVec.le_toInt d, BitVec.toInt_lt⟩

theorem fixnumToLong_longToFixnum {n} (h : InRange 58 n) : fixnumToLong (longToFixnum n) = n := by
  rw [fixnumToLong_eq, longToFixnum, BitVec.toInt_ofInt]
  obtain ⟨h1, h2⟩ := h
  norm_num at h1 h2
  rw [Int.bmod_def]
  norm_num
  split <;> omega

theorem land_signMask (d : BitVec 64) : (d &&& signMask).toNat = 2 ^ 57 * (d.toNat / 2 ^ 57) := by
  have hd := d.isLt
  have hq := Nat.and_div_two_pow (a := d.toNat) (b := signMask.toNat) (n := 57)
  have hr := Nat.and_mod_two_pow (a := d.toNat) (b := signMask.toNat) (n := 57)
  have hm : signMask.toNat / 2 ^ 57 = 2 ^ 7 - 1 := by decide
  have h0 : signMask.toNat % 2 ^ 57 = 0 := by decide
  rw [hm, Nat.and_two_pow_sub_one_eq_mod] at hq
  rw [h0, Nat.and_zero] at hr
  rw [BitVec.toNat_and]
  omega

theorem longToFixnumP_iff {n} (h : InRange 64 n) : longToFixnumP n = true ↔ InRange 58 n := by
  obtain ⟨h1, h2⟩ := h
  norm_num at h1 h2
  have hn : ((BitVec.ofInt 64 n).toNat : Int) = n % 2 ^ 64 := by
    rw [BitVec.toNat_ofInt]
    norm_num
    omega
  have h57 := land_signMask (BitVec.ofInt 64 n)
  have hm : signMask.toNat = 2 ^ 57 * 127 := by decide
  unfold longToFixnumP InRange
  rw [Bool.or_eq_true, beq_iff_eq, beq_iff_eq, ← BitVec.toNat_inj, ← BitVec.toNat_inj, h57, hm,
    show (0 : BitVec 64).toNat = 0 from rfl]
  generalize (BitVec.ofInt 64 n).toNat = k at hn
  norm_num
  omega

/-! ## Between bignums and words -/

theorem accumulateDigits_eq (ds : List Int) (acc : Int) :
    accumulateDigits ds acc % 2 ^ 64 =
      (value bignumRadix ds.reverse + bignumRadix ^ ds.length * acc) % 2 ^ 64 := by
  induction ds generalizing acc with
  | nil => simp [accumulateDigits]
  | cons d ds ih =>
    have hv : value bignumRadix (d :: ds).reverse + bignumRadix ^ (d :: ds).length * acc =
        value bignumRadix ds.reverse + bignumRadix ^ ds.length * (acc * 2 ^ 62 + d) := by
      simp only [List.reverse_cons, value_append, List.length_reverse, value_cons, value_nil,
        List.length_cons, pow_succ, bignumRadix]
      ring
    rw [accumulateDigits, ih, hv]
    refine Int.ModEq.add_left _ (Int.ModEq.mul_left _ ?_)
    change (acc * 2 ^ 62 % 2 ^ 64 + d) % 2 ^ 64 % 2 ^ 64 = (acc * 2 ^ 62 + d) % 2 ^ 64
    omega

theorem accumulateDigits_range (ds : List Int) {acc} (h : 0 ≤ acc ∧ acc < 2 ^ 64) :
    0 ≤ accumulateDigits ds acc ∧ accumulateDigits ds acc < 2 ^ 64 := by
  induction ds generalizing acc with
  | nil => exact h
  | cons d ds ih =>
    refine ih ⟨Int.emod_nonneg _ (by norm_num), Int.emod_lt_of_pos _ (by norm_num)⟩

theorem accumulateDigits_reverse (ds : List Int) :
    accumulateDigits ds.reverse 0 = value bignumRadix ds % 2 ^ 64 := by
  have h1 := accumulateDigits_eq ds.reverse 0
  have h2 := accumulateDigits_range ds.reverse (show (0 : Int) ≤ 0 ∧ (0 : Int) < 2 ^ 64 by norm_num)
  rw [Int.emod_eq_of_lt h2.1 h2.2, List.reverse_reverse, mul_zero, add_zero] at h1
  exact h1

theorem Bignum.WellFormed.magnitude_pos {b : Bignum} (h : b.WellFormed) (hz : b.digits ≠ []) :
    0 < b.magnitude :=
  lt_of_lt_of_le (pow_pos bignumRadix_pos _) (h.pow_le hz)

theorem bignumToLong_eq {b} (h : b.WellFormed) (hr : InRange 64 b.toInt) :
    bignumToLong b = if b.toInt = -2 ^ 63 then .error .overflow else .ok b.toInt := by
  have hm := h.magnitude_nonneg
  obtain ⟨h1, h2⟩ := hr
  norm_num at h1 h2
  unfold bignumToLong
  by_cases hz : b.digits = []
  · rw [if_pos (Bignum.zeroP_iff.mpr hz), Bignum.toInt_of_nil hz, if_neg (by norm_num)]
    rfl
  rw [if_neg (by simpa using hz), accumulateDigits_reverse]
  rw [Bignum.toInt_eq] at h1 h2 ⊢
  change _ = if signedValue b.negative (value bignumRadix b.digits) = _ then _ else _
  unfold Bignum.magnitude at hm h1 h2
  cases hs : b.negative <;> simp only [hs, signedValue, Bool.false_eq_true, if_false, if_true] at *
  · rw [if_neg (by norm_num; omega), toLong_of_range (by unfold InRange; norm_num; omega),
      Int.emod_eq_of_lt hm (by norm_num; omega)]
    rfl
  · rcases eq_or_lt_of_le h1 with he | he
    · have hv : value bignumRadix b.digits = 2 ^ 63 := by norm_num; omega
      rw [hv]
      rfl
    · rw [if_neg (by norm_num; omega), Int.emod_eq_of_lt hm (by norm_num; omega),
        toLong_of_range (by unfold InRange; norm_num; omega)]
      exact long_ok (by omega) (by omega)

theorem bignumToUlong_eq {b : Bignum} (h : b.WellFormed) (h0 : 0 ≤ b.toInt)
    (h1 : b.toInt < 2 ^ 64) : bignumToUlong b = .ok b.toInt := by
  have hm := h.magnitude_nonneg
  unfold bignumToUlong
  by_cases hz : b.digits = []
  · rw [if_pos (Bignum.zeroP_iff.mpr hz), Bignum.toInt_of_nil hz]
    rfl
  have hpos := h.magnitude_pos hz
  have hs : b.negative = false := by
    cases hs : b.negative with
    | false => rfl
    | true =>
      rw [Bignum.toInt_eq, hs] at h0
      simp only [signedValue, if_true] at h0
      omega
  have hv : b.toInt = value bignumRadix b.digits := by
    rw [Bignum.toInt_eq, hs]; rfl
  rw [if_neg (by simpa using hz), check_ok hs, ok_bind, accumulateDigits_reverse, hv,
    Int.emod_eq_of_lt (hv ▸ h0) (hv ▸ h1)]
  rfl

/-! ## From words to objects -/

theorem splitDigits_ok (room : Nat) {acc} (h : 0 ≤ acc) (hr : acc < bignumRadix ^ (room + 1)) :
    ∃ ds, splitDigits (room + 1) acc = .ok ds ∧ Digits bignumRadix ds ∧
      value bignumRadix ds = acc ∧ (acc ≠ 0 → ds.getLast? ≠ some 0) ∧ ds ≠ [] ∧
      ds.length ≤ room + 1 := by
  induction room generalizing acc with
  | zero =>
    have hlow : Int.land acc (bignumRadix - 1) = acc % 2 ^ 62 := land_mask 62 h
    have hhigh : acc >>> (62 : Nat) = acc / 2 ^ 62 := shiftRight_eq acc 62
    simp only [bignumRadix] at hr
    refine ⟨[acc], ?_, ?_, ?_, ?_, ?_, ?_⟩
    · rw [splitDigits]
      simp only [hlow, hhigh]
      rw [if_neg (by omega), Int.emod_eq_of_lt h (by omega)]
      rfl
    · simpa [bignumRadix] using ⟨h, hr⟩
    · simp
    · simp
    · simp
    · simp
  | succ room ih =>
    have hlow : Int.land acc (bignumRadix - 1) = acc % 2 ^ 62 := land_mask 62 h
    have hhigh : acc >>> (62 : Nat) = acc / 2 ^ 62 := shiftRight_eq acc 62
    have hd : 0 ≤ acc % 2 ^ 62 ∧ acc % 2 ^ 62 < bignumRadix := by
      unfold bignumRadix; omega
    rw [splitDigits]
    simp only [hlow, hhigh]
    by_cases hz : acc / 2 ^ 62 = 0
    · refine ⟨[acc], ?_, ?_, by simp, by simp, by simp, by simp⟩
      · rw [if_neg (not_not.mpr hz), show acc % 2 ^ 62 = acc by omega]
        rfl
      · rw [show acc % 2 ^ 62 = acc by omega] at hd
        simpa using hd
    · have hlt : acc / 2 ^ 62 < bignumRadix ^ (room + 1) := by
        rw [Int.ediv_lt_iff_lt_mul (by norm_num)]
        calc acc < bignumRadix ^ (room + 1 + 1) := hr
          _ = bignumRadix ^ (room + 1) * 2 ^ 62 := by rw [pow_succ]; norm_num [bignumRadix]
      obtain ⟨ds, he, hds, hv, hlead, hne, hlen⟩ := ih (show 0 ≤ acc / 2 ^ 62 by omega) hlt
      refine ⟨acc % 2 ^ 62 :: ds, ?_, digits_cons.mpr ⟨hd, hds⟩, ?_, fun _ => ?_, by simp, ?_⟩
      · rw [if_pos hz, he]
        rfl
      · rw [value_cons, hv]
        norm_num [bignumRadix]
        omega
      · obtain ⟨e, es, rfl⟩ := List.exists_cons_of_ne_nil hne
        rw [List.getLast?_cons_cons]
        exact hlead hz
      · simpa using hlen

theorem bignumFromDigits_ok {ds} (hl : ds.length ≤ 2) (s : Bool) :
    bignumFromDigits ds s = .ok ⟨s, ds⟩ := by
  unfold bignumFromDigits bignumAllocate
  rw [check_ok (by unfold bignumLengthMax; omega)]
  rfl

theorem splitDigits_bignum (acc : Int) (h : 0 < acc) (hr : acc < 2 ^ 64) (s : Bool) :
    ∃ b, (do let digits ← splitDigits bignumDigitsForType acc
             bignumFromDigits digits s) = .ok b ∧
      b.WellFormed ∧ b.toInt = signedValue s acc ∧ b.length ≤ 2 := by
  obtain ⟨ds, he, hds, hv, hlead, hne, hlen⟩ := splitDigits_ok 1 h.le
    (lt_trans hr (by norm_num [bignumRadix]))
  refine ⟨⟨s, ds⟩, ?_, ⟨hds, hlead h.ne', fun h0 => absurd h0 hne⟩, ?_, hlen⟩
  · change (splitDigits 2 acc >>= _) = _
    rw [he, ok_bind, bignumFromDigits_ok hlen]
  · rw [Bignum.toInt_mk, hv]
    rfl

theorem longToBignum_ok {n} (h : -2 ^ 63 < n) (h' : n < 2 ^ 63) :
    ∃ b, longToBignum n = .ok b ∧ b.WellFormed ∧ b.toInt = n ∧ b.length ≤ 2 := by
  unfold longToBignum
  by_cases h0 : n = 0
  · exact ⟨bignumMakeZero, if_pos h0, wellFormed_zero, h0.symm, by decide⟩
  rw [if_neg h0]
  by_cases h1 : n = 1
  · exact ⟨bignumMakeOne false, if_pos h1, wellFormed_one false, h1.symm, by decide⟩
  rw [if_neg h1]
  by_cases h2 : n = -1
  · exact ⟨bignumMakeOne true, if_pos h2, wellFormed_one true, h2.symm, by decide⟩
  rw [if_neg h2]
  by_cases hn : n < 0
  · obtain ⟨b, he, hw, hv, hl⟩ := splitDigits_bignum (-n) (by omega) (by omega) true
    refine ⟨b, ?_, hw, by rw [hv]; simp [signedValue], hl⟩
    simp only [hn, decide_true, if_true]
    rw [long_ok (by omega) (by omega), ok_bind, toUlong, Int.emod_eq_of_lt (by omega) (by omega)]
    exact he
  · obtain ⟨b, he, hw, hv, hl⟩ := splitDigits_bignum n (by omega) (by omega) false
    refine ⟨b, ?_, hw, by rw [hv]; simp [signedValue], hl⟩
    simp only [hn, decide_false, Bool.false_eq_true, if_false]
    change (splitDigits bignumDigitsForType (toUlong n) >>= _) = _
    rw [toUlong, Int.emod_eq_of_lt (by omega) (by omega)]
    exact he

theorem ulongToBignum_ok {n} (h : 0 ≤ n) (h' : n < 2 ^ 64) :
    ∃ b, ulongToBignum n = .ok b ∧ b.WellFormed ∧ b.toInt = n ∧ b.length ≤ 2 := by
  unfold ulongToBignum
  by_cases h0 : n = 0
  · exact ⟨bignumMakeZero, if_pos h0, wellFormed_zero, h0.symm, by decide⟩
  rw [if_neg h0]
  by_cases h1 : n = 1
  · exact ⟨bignumMakeOne false, if_pos h1, wellFormed_one false, h1.symm, by decide⟩
  rw [if_neg h1]
  obtain ⟨b, he, hw, hv, hl⟩ := splitDigits_bignum n (by omega) h' false
  exact ⟨b, he, hw, by rw [hv]; simp [signedValue], hl⟩

end MitScheme.Microcode
