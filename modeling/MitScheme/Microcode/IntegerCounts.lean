import MitScheme.Microcode.BitsCount
import MitScheme.Microcode.IntegerShift

/-! # Lengths and bit counts of exact integers

The bignum functions read the magnitude and correct for the sign; the functions of `artutl.c`
choose between them and the functions on words. -/

namespace MitScheme.Microcode
open Lib.Checked Lib.Outcome Lib.Radix Lib.BitCount
open Bits
open BitVec (ofInt)
open Bignum (length magnitude natAbs_toInt toInt_of_nil)

/-! ## Bignums -/

def bignumLengthInBits (bignum : Bignum) : Exec Nat :=
  if bignum.zeroP then return 0
  else do
    let i := bignum.length - 1
    return (ulongLengthInBits (ofInt 64 (← index bignum.digits i)) + 62 * i) % 2 ^ 64

/-- The loop of `bignum_integer_length`: a nonzero digit before the leading one. -/
def scanNonzero : List Int → Bool
  | [] => false
  | digit :: scan => if 0 ≠ digit then true else scanNonzero scan

def bignumIntegerLength (bignum : Bignum) : Exec Nat := do
  let lengthInBits ← bignumLengthInBits bignum
  if bignum.zeroP || !bignum.negative then return lengthInBits
  else if scanNonzero (bignum.digits.take (bignum.length - 1)) then return lengthInBits
  else do
    let top ← index bignum.digits (bignum.length - 1)
    return lengthInBits - if 0 = Int.land top (← long (top - 1)) then 1 else 0

/-- The loop of `bignum_first_set_bit`: the first nonzero digit and its place. -/
def firstNonzero : List Int → Exec (Int × Int)
  | [] => .error .assertion
  | digit :: scan =>
    if digit ≠ 0 then return (digit, 0)
    else do
      let (d, place) ← firstNonzero scan
      return (d, place + 1)

def bignumFirstSetBit (bignum : Bignum) : Exec Int :=
  if bignum.zeroP then return -1
  else do
    let (digit, place) ← firstNonzero bignum.digits
    let below := Int.xor digit (← long (digit - 1)) >>> (1 : Nat)
    long ((ulongBitCount (ofInt 64 below)).toNat + place * 62)

/-- `digits_bit_count`, adding to a count. -/
def digitsBitCount (bitCount : Nat) : List Int → Nat
  | [] => bitCount
  | digit :: scan =>
    digitsBitCount ((bitCount + (ulongBitCount (ofInt 64 digit)).toNat) % 2 ^ 64) scan

/-- `digits_hamming_distance` of equally many digits, adding to a distance. -/
def digitsHammingDistance (distance : Nat) : List Int → List Int → Nat
  | x :: xScan, y :: yScan =>
    digitsHammingDistance
      ((distance + (ulongBitCount (ofInt 64 (Int.xor x y))).toNat) % 2 ^ 64) xScan yScan
  | _, _ => distance

/-- `bignum_positive_hamming_distance`, when `x` is not the shorter one. -/
def hammingDistanceOrdered (x y : Bignum) : Nat :=
  (digitsHammingDistance 0 (x.digits.take y.length) y.digits +
    digitsBitCount 0 (x.digits.drop y.length)) % 2 ^ 64

def bignumPositiveHammingDistance (x y : Bignum) : Exec Nat := do
  check (x.zeroP = false)
  check (y.zeroP = false)
  check (x.negative = false)
  check (y.negative = false)
  return if x.length < y.length then hammingDistanceOrdered y x else hammingDistanceOrdered x y

def bignumBitCountUnsigned (x : Bignum) : Nat := digitsBitCount 0 x.digits

def bignumNegativeHammingDistance (x y : Bignum) : Exec Nat := do
  let x ← bignumBitwiseNot x
  let y ← bignumBitwiseNot y
  if x.zeroP then return bignumBitCountUnsigned y
  else if y.zeroP then return bignumBitCountUnsigned x
  else bignumPositiveHammingDistance x y

def bignumBitCount (x : Bignum) : Exec Nat :=
  if x.zeroP then return 0
  else if x.negative then do return bignumBitCountUnsigned (← bignumBitwiseNot x)
  else return bignumBitCountUnsigned x

/-- `bignum_hamming_distance`; `same` says that the arguments are one object. -/
def bignumHammingDistance (same : Bool) (x y : Bignum) : Exec Int :=
  if same then return 0
  else if x.zeroP then
    if y.negative then return -1 else return toLong (bignumBitCountUnsigned y)
  else if y.zeroP then
    if x.negative then return -1 else return toLong (bignumBitCountUnsigned x)
  else if !x.negative then
    if !y.negative then do return toLong (← bignumPositiveHammingDistance x y) else return -1
  else if !y.negative then return -1
  else do return toLong (← bignumNegativeHammingDistance x y)

/-! ## Exact integers -/

def ulongToFixnum (n : Nat) : BitVec 58 := BitVec.ofNat 58 n

def integerLengthInBits : ExactInteger → Exec ExactInteger
  | .fixnum datum => do
    let n1 := fixnumToLong datum
    let magnitude ← (if n1 < 0 then long (-n1) else pure n1)
    return .fixnum (ulongToFixnum (ulongLengthInBits (ofInt 64 magnitude)))
  | .bignum b => do ulongToInteger (← bignumLengthInBits b)

def integerLength : ExactInteger → Exec ExactInteger
  | .fixnum datum =>
    let n1 := fixnumToLong datum
    let bits := if n1 < 0 then Int.lnot n1 else n1
    return .fixnum (ulongToFixnum (ulongLengthInBits (ofInt 64 bits)))
  | .bignum b => do ulongToInteger (← bignumIntegerLength b)

def integerFirstSetBit : ExactInteger → Exec ExactInteger
  | .fixnum datum =>
    let n1 := fixnumToLong datum
    let word := if n1 < 0 then ~~~ofInt 64 (Int.lnot n1) else ofInt 64 n1
    return .fixnum (longToFixnum (ulongFirstSetBit word))
  | .bignum b => do longToInteger (← bignumFirstSetBit b)

def integerBitCount : ExactInteger → Exec ExactInteger
  | .fixnum datum =>
    let n1 := fixnumToLong datum
    let bits := if n1 < 0 then Int.lnot n1 else n1
    return .fixnum (ulongToFixnum (ulongBitCount (ofInt 64 bits)).toNat)
  | .bignum b => do ulongToInteger (← bignumBitCount b)

/-- `integer_hamming_distance`; `same` says that the arguments are one object. -/
def integerHammingDistance (same : Bool) : ExactInteger → ExactInteger → Exec ExactInteger
  | .fixnum n, .fixnum m =>
    let x := Int.xor (fixnumToLong n) (fixnumToLong m)
    if x < 0 then return .fixnum (longToFixnum (-1))
    else return .fixnum (ulongToFixnum (ulongBitCount (ofInt 64 x)).toNat)
  | n, m => do
    let x ← integerToBignum n
    let y ← integerToBignum m
    longToInteger (← bignumHammingDistance same x y)

/-! ## Words -/

theorem ofInt_toNat {v} (h : 0 ≤ v ∧ v < 2 ^ 64) : (ofInt 64 v).toNat = v.natAbs := by
  rw [BitVec.toNat_ofInt]
  norm_num at h ⊢
  omega

theorem ulongBitCount_ofInt {v} (h : 0 ≤ v ∧ v < 2 ^ 64) :
    (ulongBitCount (ofInt 64 v)).toNat = bitCount v.natAbs := by
  rw [ulongBitCount_eq, ofInt_toNat h]

theorem fixnumToLong_ulongToFixnum {n} (h : n < 2 ^ 57) : fixnumToLong (ulongToFixnum n) = n := by
  have hmod : n % 2 ^ 58 = n := Nat.mod_eq_of_lt (lt_trans h (by norm_num))
  rw [fixnumToLong_eq, ulongToFixnum, BitVec.toInt_eq_toNat_cond, BitVec.toNat_ofNat, hmod,
    if_pos (by omega)]

theorem makes_count {n} (h : n < 2 ^ 57) : Makes (.ok (.fixnum (ulongToFixnum n))) n :=
  ⟨_, rfl, trivial, fixnumToLong_ulongToFixnum h⟩

theorem digit_range {d} (h : 0 ≤ d ∧ d < bignumRadix) : 0 ≤ d ∧ d < 2 ^ 64 :=
  ⟨h.1, lt_trans h.2 (by norm_num [bignumRadix])⟩

theorem digit_lt {d} (h : 0 ≤ d ∧ d < bignumRadix) : d.natAbs < 2 ^ 62 := by
  have := h.2
  norm_num [bignumRadix] at this ⊢
  omega

theorem natAbs_value_cons {d ds} (h : Digits bignumRadix (d :: ds)) :
    (value bignumRadix (d :: ds)).natAbs =
      d.natAbs + 2 ^ 62 * (value bignumRadix ds).natAbs := by
  obtain ⟨hd, hds⟩ := digits_cons.mp h
  have hv := value_nonneg bignumRadix_pos hds
  rw [value_cons, Int.natAbs_add_of_nonneg hd.1 (mul_nonneg (by decide) hv), Int.natAbs_mul]
  rfl

/-! ## Digit loops -/

theorem bitCount_value_le {ds} (h : Digits bignumRadix ds) :
    bitCount (value bignumRadix ds).natAbs ≤ 62 * ds.length := by
  refine bitCount_le ?_
  have h0 := value_nonneg bignumRadix_pos h
  have h1 := value_lt_pow bignumRadix_pos h
  rw [bignumRadix_pow] at h1
  rw [← Nat.cast_lt (α := Int), Int.natCast_natAbs, abs_of_nonneg h0]
  exact_mod_cast h1

theorem digitsBitCount_eq {ds} (h : Digits bignumRadix ds) {count}
    (hc : count + 62 * ds.length < 2 ^ 64) :
    digitsBitCount count ds = count + bitCount (value bignumRadix ds).natAbs := by
  induction ds generalizing count with
  | nil => simp [digitsBitCount]
  | cons d ds ih =>
    obtain ⟨hd, hds⟩ := digits_cons.mp h
    rw [List.length_cons] at hc
    have hle : bitCount d.natAbs ≤ 62 := bitCount_le (digit_lt hd)
    rw [digitsBitCount, ulongBitCount_ofInt (digit_range hd), Nat.mod_eq_of_lt (by omega),
      ih hds (by omega), natAbs_value_cons h, bitCount_append (digit_lt hd), Nat.add_assoc]

theorem natAbs_xor {x y} (hx : 0 ≤ x) (hy : 0 ≤ y) :
    0 ≤ Int.xor x y ∧ (Int.xor x y).natAbs = x.natAbs ^^^ y.natAbs := by
  obtain ⟨a, rfl⟩ := Int.eq_ofNat_of_zero_le hx
  obtain ⟨b, rfl⟩ := Int.eq_ofNat_of_zero_le hy
  exact ⟨Int.natCast_nonneg (a ^^^ b), rfl⟩

theorem digitsHammingDistance_eq {xs ys} (hl : xs.length = ys.length) (hx : Digits bignumRadix xs)
    (hy : Digits bignumRadix ys) {distance} (hc : distance + 62 * ys.length < 2 ^ 64) :
    digitsHammingDistance distance xs ys = distance +
      bitCount ((value bignumRadix xs).natAbs ^^^ (value bignumRadix ys).natAbs) := by
  induction xs generalizing ys distance with
  | nil =>
    obtain rfl := List.eq_nil_of_length_eq_zero hl.symm
    simp [digitsHammingDistance]
  | cons x xs ih =>
    rcases ys with _ | ⟨y, ys⟩
    · cases hl
    obtain ⟨hdx, hxs⟩ := digits_cons.mp hx
    obtain ⟨hdy, hys⟩ := digits_cons.mp hy
    rw [List.length_cons, List.length_cons, Nat.add_right_cancel_iff] at hl
    rw [List.length_cons] at hc
    obtain ⟨h0, hxor⟩ := natAbs_xor hdx.1 hdy.1
    have hlt := Nat.xor_lt_two_pow (digit_lt hdx) (digit_lt hdy)
    have hle : bitCount (x.natAbs ^^^ y.natAbs) ≤ 62 := bitCount_le hlt
    rw [digitsHammingDistance, ulongBitCount_ofInt ⟨h0, ?_⟩, hxor, Nat.mod_eq_of_lt (by omega),
      ih hl hxs hys (by omega), natAbs_value_cons hx, natAbs_value_cons hy,
      xor_append (digit_lt hdx) (digit_lt hdy), bitCount_append hlt, Nat.add_assoc]
    have h64 : (Int.xor x y).natAbs < 2 ^ 64 := by
      rw [hxor]
      exact lt_trans hlt (by norm_num)
    norm_num at h64 ⊢
    omega

theorem scanNonzero_iff {ds} (h : Digits bignumRadix ds) :
    scanNonzero ds = true ↔ value bignumRadix ds ≠ 0 := by
  induction ds with
  | nil => simp [scanNonzero]
  | cons d ds ih =>
    obtain ⟨hd, hds⟩ := digits_cons.mp h
    have hv := value_nonneg bignumRadix_pos hds
    have hr := bignumRadix_pos
    rw [scanNonzero, value_cons]
    by_cases h0 : d = 0
    · subst h0
      rw [if_neg (by simp), ih hds, zero_add, mul_ne_zero_iff, and_iff_right hr.ne']
    · have := mul_nonneg hr.le hv
      rw [if_pos (Ne.symm h0)]
      exact iff_of_true rfl (by omega)

theorem firstNonzero_ok {ds : List Int} (h : Digits bignumRadix ds) (hv : value bignumRadix ds ≠ 0) :
    ∃ (d : Int) (place : Nat) (w : Int), firstNonzero ds = .ok (d, place) ∧ place < ds.length ∧
      0 < d ∧ d < bignumRadix ∧ value bignumRadix ds = bignumRadix ^ place * (d + bignumRadix * w) := by
  induction ds with
  | nil => exact absurd rfl hv
  | cons d ds ih =>
    obtain ⟨hd, hds⟩ := digits_cons.mp h
    by_cases h0 : d = 0
    · subst h0
      rw [value_cons, zero_add] at hv ⊢
      obtain ⟨d, place, w, he, hlt, hpos, hlt', hval⟩ := ih hds (right_ne_zero_of_mul hv)
      refine ⟨d, place + 1, w, ?_, by simpa using hlt, hpos, hlt', ?_⟩
      · rw [firstNonzero, if_neg (by simp), he]
        simp [pure, Except.pure]
      · rw [hval, pow_succ]
        ring
    · exact ⟨d, 0, value bignumRadix ds, by rw [firstNonzero, if_pos h0]; rfl, by simp,
        lt_of_le_of_ne hd.1 (Ne.symm h0), hd.2, by simp⟩

/-! ## Bignums -/

theorem length_bits_lt {n} (h : n ≤ bignumLengthMax) : 62 * n < 2 ^ 62 := by
  unfold bignumLengthMax at h
  omega

section Bignums

variable {b : Bignum}

theorem natAbs_lt_pow (h : b.WellFormed) : b.toInt.natAbs < 2 ^ (62 * b.length) := by
  have h1 := magnitude_lt_pow h (n := 62 * b.length) le_rfl
  rw [← natAbs_toInt h] at h1
  exact_mod_cast h1

theorem bignumLengthInBits_ok (h : b.WellFormed) (ha : b.length ≤ bignumLengthMax) :
    bignumLengthInBits b = .ok b.toInt.natAbs.size := by
  rw [bignumLengthInBits]
  by_cases hz : b.digits = []
  · rw [if_pos (Bignum.zeroP_iff.mpr hz), toInt_of_nil hz]
    rfl
  · have hlen : b.length ≠ 0 := by simpa [length] using hz
    rw [if_neg (by simpa using hz)]
    dsimp only
    rw [lead_digit h hlen, ok_bind]
    have htop := h.digits _ (List.mem_of_getLast? (getLast_digits h hlen))
    have hsize := size_magnitude h hlen
    have hle : b.toInt.natAbs.size ≤ 62 * b.length := Nat.size_le.mpr (natAbs_lt_pow h)
    have hmax := length_bits_lt ha
    rw [ulongLengthInBits_ofInt htop.1 (digit_range htop).2, Nat.add_comm, ← hsize,
      Nat.mod_eq_of_lt (by omega)]
    rfl

theorem cut_lead (h : b.WellFormed) (hz : b.digits ≠ []) :
    ∃ init top, b.digits = init ++ [top] ∧ init.length = b.length - 1 ∧
      Digits bignumRadix init ∧ (0 < top ∧ top < bignumRadix) ∧
      index b.digits (b.length - 1) = .ok top := by
  have hlen : b.length ≠ 0 := by simpa [length] using hz
  have hlast := getLast_digits h hlen
  have hindex := lead_digit h hlen
  generalize b.magnitude / bignumRadix ^ (b.length - 1) = top at hlast hindex
  obtain ⟨init, hinit⟩ := List.getLast?_eq_some_iff.mp hlast
  have hd := h.digits
  have hlead := h.lead
  rw [hinit] at hd hlead
  obtain ⟨hdi, hdt⟩ := digits_append.mp hd
  have htop := (digits_cons.mp hdt).1
  refine ⟨init, top, hinit, by simp [length, hinit], hdi, ⟨?_, htop.2⟩, hindex⟩
  exact lt_of_le_of_ne htop.1 fun h0 => hlead (by rw [List.getLast?_concat, ← h0])

theorem natAbs_cut (h : b.WellFormed) {init} {top : Int} (hcut : b.digits = init ++ [top])
    (hd : Digits bignumRadix init) (ht : 0 < top) : b.toInt.natAbs =
      (value bignumRadix init).natAbs + 2 ^ (62 * init.length) * top.natAbs ∧
        (value bignumRadix init).natAbs < 2 ^ (62 * init.length) := by
  have h0 := value_nonneg bignumRadix_pos hd
  have hlt := value_lt_pow bignumRadix_pos hd
  rw [bignumRadix_pow] at hlt
  constructor
  · rw [← Nat.cast_inj (R := Int), natAbs_toInt h, magnitude, hcut, value_append,
      bignumRadix_pow]
    push_cast
    rw [abs_of_nonneg h0, abs_of_pos ht]
    simp
  · rw [← Nat.cast_lt (α := Int), Int.natCast_natAbs, abs_of_nonneg h0]
    exact_mod_cast hlt

theorem land_natAbs {x y} (hx : 0 ≤ x) (hy : 0 ≤ y) :
    Int.land x y = ((x.natAbs &&& y.natAbs : Nat) : Int) := by
  obtain ⟨a, rfl⟩ := Int.eq_ofNat_of_zero_le hx
  obtain ⟨c, rfl⟩ := Int.eq_ofNat_of_zero_le hy
  rfl

section
variable (h : b.WellFormed)
include h

/-- **`bignum_integer_length`.** The magnitude of a negative number is one more than the bits that
differ from the sign, so it has one bit more exactly when it is a power of two. -/
theorem bignumIntegerLength_ok (ha : b.length ≤ bignumLengthMax) :
    bignumIntegerLength b = .ok (offSign b.toInt).size := by
  rw [bignumIntegerLength, bignumLengthInBits_ok h ha, ok_bind]
  by_cases hneg : b.negative = true
  · have hz : b.digits ≠ [] := fun h0 => by
      rw [h.sign h0] at hneg
      cases hneg
    rw [if_neg (by simp [hneg, hz])]
    obtain ⟨init, top, hcut, hinit, hd, ⟨ht, ht'⟩, hindex⟩ := cut_lead h hz
    obtain ⟨habs, hlow⟩ := natAbs_cut h hcut hd ht
    rw [hcut, List.take_left' hinit, ← hcut, offSign_of_neg ((negative_iff h).mp hneg), habs]
    have htop : top.natAbs ≠ 0 := Int.natAbs_ne_zero.mpr ht.ne'
    have hpow := Nat.two_pow_pos (62 * init.length)
    have hbig := Nat.mul_le_mul_left (2 ^ (62 * init.length)) (Nat.one_le_iff_ne_zero.mpr htop)
    have hscan := scanNonzero_iff hd
    cases hs : scanNonzero init with
    | true =>
      -- the subtraction stops below the leading digit
      have hv := Int.natAbs_ne_zero.mpr (hscan.mp hs)
      rw [if_pos rfl, show (value bignumRadix init).natAbs + 2 ^ (62 * init.length) * top.natAbs - 1 =
        ((value bignumRadix init).natAbs - 1) + 2 ^ (62 * init.length) * top.natAbs by omega,
        size_append hlow htop, size_append (by omega) htop]
      rfl
    | false =>
      have hv : value bignumRadix init = 0 := by
        by_contra hv
        rw [hscan.mpr hv] at hs
        cases hs
      have hr : bignumRadix = 4611686018427387904 := rfl
      rw [if_neg Bool.false_ne_true, hindex, ok_bind, long_ok (by omega) (by omega), ok_bind, hv,
        land_natAbs ht.le (by omega), show (top - 1).natAbs = top.natAbs - 1 by omega]
      have hpred := size_pred htop
      have hsize : (2 ^ (62 * init.length) * top.natAbs - 1).size =
          62 * init.length + (top.natAbs - 1).size := by
        have hsplit : 2 ^ (62 * init.length) * top.natAbs - 1 =
            (2 ^ (62 * init.length) - 1) + 2 ^ (62 * init.length) * (top.natAbs - 1) := by
          rw [Nat.mul_sub, mul_one]
          omega
        rcases Nat.eq_zero_or_pos (top.natAbs - 1) with h0 | h0
        · rw [hsplit, h0, mul_zero, add_zero, size_two_pow_sub_one]
          rfl
        · rw [hsplit, size_append (by omega) (by omega)]
      have hpos : 0 < top.natAbs.size := Nat.size_pos.mpr (Nat.pos_of_ne_zero htop)
      have hfull := size_append (k := 62 * init.length) (a := 0) hpow htop
      rw [zero_add] at hfull
      rw [Int.natAbs_zero, zero_add, hsize, hfull, hpred]
      have hcond : ((0 : Int) = ((top.natAbs &&& (top.natAbs - 1) : Nat) : Int)) ↔
          top.natAbs &&& (top.natAbs - 1) = 0 := by
        rw [eq_comm, Nat.cast_eq_zero]
      simp only [hcond]
      congr 1
      split <;> omega
  · have hneg' : b.negative = false := Bool.eq_false_iff.mpr hneg
    have h0 : 0 ≤ b.toInt := by
      rw [nonnegative_toInt hneg']
      exact h.magnitude_nonneg
    rw [if_pos (by simp [hneg']), offSign_of_nonneg h0]
    rfl

theorem bignumFirstSetBit_ok (ha : b.length ≤ bignumLengthMax) (hz : b.digits ≠ []) :
    ∃ (k : Nat) (q : Int), bignumFirstSetBit b = .ok k ∧ k < 2 ^ 62 ∧
      b.toInt = 2 ^ k * (2 * q + 1) := by
  have hv : value bignumRadix b.digits ≠ 0 := (h.magnitude_pos hz).ne'
  obtain ⟨d, place, w, hfirst, hplace, hd, hd', hval⟩ := firstNonzero_ok h.digits hv
  obtain ⟨n, rfl⟩ := Int.eq_ofNat_of_zero_le hd.le
  have hn : n ≠ 0 := by omega
  have hr : bignumRadix = 2 ^ 62 := rfl
  have hn62 : n < 2 ^ 62 := by
    rw [hr] at hd'
    exact_mod_cast hd'
  obtain ⟨j, q, rfl⟩ := exists_odd_part hn
  have hj : j < 62 := by
    by_contra hc
    have h1 : 2 ^ 62 ≤ 2 ^ j := Nat.pow_le_pow_right (by omega) (not_lt.mp hc)
    have h2 := Nat.mul_le_mul_left (2 ^ j) (show 1 ≤ 2 * q + 1 by omega)
    omega
  have hjpos := Nat.two_pow_pos j
  have hj64 : 2 ^ j - 1 < 2 ^ 64 :=
    lt_of_le_of_lt (Nat.sub_le _ _) (Nat.pow_lt_pow_right (by omega) (by omega))
  have hmax := length_bits_lt ha
  have hlt : j + place * 62 < 62 * b.length := by
    have hplace : place < b.length := hplace
    omega
  have hpredv : ((2 ^ j * (2 * q + 1) : Nat) : Int) - 1 = ((2 ^ j * (2 * q + 1) - 1 : Nat) : Int) := by
    omega
  have hbelow : Int.xor ((2 ^ j * (2 * q + 1) : Nat) : Int) ((2 ^ j * (2 * q + 1) - 1 : Nat) : Int)
      >>> (1 : Nat) = ((2 ^ j - 1 : Nat) : Int) := by
    have hxor : Int.xor ((2 ^ j * (2 * q + 1) : Nat) : Int)
        ((2 ^ j * (2 * q + 1) - 1 : Nat) : Int) =
        ((2 ^ j * (2 * q + 1) ^^^ (2 ^ j * (2 * q + 1) - 1) : Nat) : Int) := rfl
    have hdiv : (2 ^ (j + 1) - 1) / 2 = 2 ^ j - 1 := by
      rw [pow_succ]
      omega
    rw [hxor, xor_pred, shiftRight_eq, pow_one, ← hdiv, Int.natCast_div]
    rfl
  have hrange : 0 ≤ ((2 ^ j - 1 : Nat) : Int) ∧ ((2 ^ j - 1 : Nat) : Int) < 2 ^ 64 :=
    ⟨Int.natCast_nonneg _, by exact_mod_cast hj64⟩
  have hrun : bignumFirstSetBit b = .ok ((j + place * 62 : Nat) : Int) := by
    rw [bignumFirstSetBit, if_neg (by simpa using hz), hfirst, ok_bind]
    dsimp only
    rw [hpredv, long_ok (by omega) (by omega), ok_bind, hbelow, ulongBitCount_ofInt hrange,
      Int.natAbs_natCast, bitCount_two_pow_sub_one, long_ok (by omega) (by omega)]
    push_cast
    rfl
  refine ⟨j + place * 62, (if b.negative then -(q + 2 ^ (61 - j) * w) - 1 else
    q + 2 ^ (61 - j) * w), hrun, by omega, ?_⟩
  have hmag : b.magnitude = 2 ^ (j + place * 62) * (2 * (q + 2 ^ (61 - j) * w) + 1) := by
    have hsplit : (2 : Int) ^ 62 = 2 ^ j * (2 * 2 ^ (61 - j)) := by
      rw [← pow_succ', ← pow_add]
      congr 1
      omega
    rw [magnitude, hval, bignumRadix_pow, hr, hsplit, pow_add, mul_comm place]
    push_cast
    ring
  rw [Bignum.toInt_eq, hmag, signedValue]
  split <;> ring

theorem bignumBitwiseNot_negative (ha : b.length ≤ bignumLengthMax) (hneg : b.negative = true) :
    ∃ z, bignumBitwiseNot b = .ok z ∧ z.WellFormed ∧
      z.negative = false ∧ z.toInt.natAbs = offSign b.toInt ∧ z.length ≤ bignumLengthMax := by
  have hz : b.digits ≠ [] := fun h0 => by
    rw [h.sign h0] at hneg
    cases hneg
  obtain ⟨hv, hpos⟩ := negative_toInt h hneg
  have hmax : max b.length (bignumMakeOne true).length ≤ bignumLengthMax :=
    max_le ha (by decide)
  obtain ⟨z, hrun, hw, hval⟩ := (bignumSubtractUnsigned_gives h (wellFormed_one true) hmax).ok
    fun _ => not_tooLong
  have hone : (bignumMakeOne true).magnitude = 1 := rfl
  rw [hone] at hval
  have hznn : z.negative = false := by
    cases hs : z.negative with
    | false => rfl
    | true => have := (negative_iff hw).mp hs; omega
  have habs : z.toInt.natAbs = offSign b.toInt := by
    rw [offSign_of_neg ((negative_iff h).mp hneg)]
    omega
  refine ⟨z, ?_, hw, hznn, habs, ?_⟩
  · rw [bignumBitwiseNot, bignumSubtract, if_neg (by decide), if_neg (by simpa using hz),
      if_pos (show (bignumMakeOne true).negative = true from rfl), if_pos hneg]
    exact hrun
  · refine (length_le_of_magnitude_lt hw (n := b.length) ?_).trans ha
    have h1 := magnitude_lt_pow h (n := 62 * b.length) le_rfl
    have h2 := nonnegative_toInt hznn
    omega

theorem bignumBitCountUnsigned_eq (ha : b.length ≤ bignumLengthMax) :
    bignumBitCountUnsigned b = bitCount b.toInt.natAbs := by
  have hmax := length_bits_lt ha
  have habs : (value bignumRadix b.digits).natAbs = b.toInt.natAbs := by
    have h1 := natAbs_toInt h
    have h2 := h.magnitude_nonneg
    rw [magnitude] at h1 h2
    omega
  rw [bignumBitCountUnsigned, digitsBitCount_eq h.digits
    (show 0 + 62 * b.length < 2 ^ 64 by omega), zero_add, habs]

theorem nonneg_of_sign (hneg : b.negative = false) : 0 ≤ b.toInt := by
  rw [nonnegative_toInt hneg]
  exact h.magnitude_nonneg

theorem bignumBitCount_ok (ha : b.length ≤ bignumLengthMax) :
    bignumBitCount b = .ok (bitCount (offSign b.toInt)) := by
  rw [bignumBitCount]
  by_cases hz : b.digits = []
  · rw [if_pos (Bignum.zeroP_iff.mpr hz), toInt_of_nil hz]
    exact congrArg Except.ok bitCount_zero.symm
  rw [if_neg (by simpa using hz)]
  cases hneg : b.negative with
  | true =>
    obtain ⟨z, hrun, hw, -, habs, hlen⟩ := bignumBitwiseNot_negative h ha hneg
    rw [if_pos rfl, hrun, ok_bind, bignumBitCountUnsigned_eq hw hlen, habs]
    rfl
  | false =>
    rw [if_neg Bool.false_ne_true, bignumBitCountUnsigned_eq h ha,
      offSign_of_nonneg (nonneg_of_sign h hneg)]
    rfl

end

variable {x y : Bignum}

theorem hammingDistanceOrdered_eq (hx : x.WellFormed) (hy : y.WellFormed)
    (ha : x.length ≤ bignumLengthMax) (hl : y.length ≤ x.length) :
    hammingDistanceOrdered x y = bitCount (x.toInt.natAbs ^^^ y.toInt.natAbs) := by
  have hmax := length_bits_lt ha
  have hdt := hx.digits.take y.length
  have hdd := hx.digits.drop y.length
  have htake : (x.digits.take y.length).length = y.digits.length := by
    rw [List.length_take]
    exact min_eq_left hl
  have hdrop : (x.digits.drop y.length).length = x.length - y.length := List.length_drop
  -- the magnitude of the longer operand, cut where the shorter one ends
  have h0 := value_nonneg bignumRadix_pos hdt
  have h1 := value_nonneg bignumRadix_pos hdd
  have hxabs : x.toInt.natAbs = (value bignumRadix (x.digits.take y.length)).natAbs +
      2 ^ (62 * y.length) * (value bignumRadix (x.digits.drop y.length)).natAbs := by
    have hsplit : x.magnitude = value bignumRadix (x.digits.take y.length) +
        2 ^ (62 * y.length) * value bignumRadix (x.digits.drop y.length) := by
      have := @value_append bignumRadix (x.digits.take y.length) (x.digits.drop y.length)
      rw [List.take_append_drop, htake, bignumRadix_pow] at this
      exact this
    rw [← Nat.cast_inj (R := Int), natAbs_toInt hx, hsplit]
    push_cast
    rw [abs_of_nonneg h0, abs_of_nonneg h1]
  have hyabs : y.toInt.natAbs = (value bignumRadix y.digits).natAbs + 2 ^ (62 * y.length) * 0 := by
    have h2 := natAbs_toInt hy
    have h3 := hy.magnitude_nonneg
    rw [magnitude] at h2 h3
    omega
  have hlow : (value bignumRadix (x.digits.take y.length)).natAbs < 2 ^ (62 * y.length) := by
    have := value_lt_pow bignumRadix_pos hdt
    rw [htake, bignumRadix_pow] at this
    rw [← Nat.cast_lt (α := Int), Int.natCast_natAbs, abs_of_nonneg h0]
    exact_mod_cast this
  have hylow : (value bignumRadix y.digits).natAbs < 2 ^ (62 * y.length) := by
    rw [← Nat.add_zero (value bignumRadix y.digits).natAbs, ← mul_zero (2 ^ (62 * y.length)),
      ← hyabs]
    exact natAbs_lt_pow hy
  have hcount : bitCount ((value bignumRadix (x.digits.take y.length)).natAbs ^^^
      (value bignumRadix y.digits).natAbs) ≤ 62 * y.length :=
    bitCount_le (Nat.xor_lt_two_pow hlow hylow)
  have hcount' := bitCount_value_le hdd
  rw [hdrop] at hcount'
  rw [hammingDistanceOrdered, digitsHammingDistance_eq htake hdt hy.digits
      (show 0 + 62 * y.length < 2 ^ 64 by omega), digitsBitCount_eq hdd (by omega), zero_add,
    zero_add, hxabs, hyabs, xor_append hlow hylow, Nat.xor_zero,
    bitCount_append (Nat.xor_lt_two_pow hlow hylow), Nat.mod_eq_of_lt (by omega)]

theorem bignumPositiveHammingDistance_ok (hx : x.WellFormed) (hy : y.WellFormed)
    (hax : x.length ≤ bignumLengthMax) (hay : y.length ≤ bignumLengthMax) (hzx : x.digits ≠ [])
    (hzy : y.digits ≠ []) (hnx : x.negative = false) (hny : y.negative = false) :
    bignumPositiveHammingDistance x y = .ok (bitCount (x.toInt.natAbs ^^^ y.toInt.natAbs)) := by
  have hzx' : x.zeroP = false := Bool.eq_false_iff.mpr fun h => hzx (Bignum.zeroP_iff.mp h)
  have hzy' : y.zeroP = false := Bool.eq_false_iff.mpr fun h => hzy (Bignum.zeroP_iff.mp h)
  rw [bignumPositiveHammingDistance, check_ok hzx', ok_bind, check_ok hzy', ok_bind, check_ok hnx,
    ok_bind, check_ok hny, ok_bind]
  split
  · next hlt => rw [hammingDistanceOrdered_eq hy hx hay hlt.le, Nat.xor_comm]; rfl
  · next hle => rw [hammingDistanceOrdered_eq hx hy hax (not_lt.mp hle)]; rfl

theorem bignumNegativeHammingDistance_ok (hx : x.WellFormed) (hy : y.WellFormed)
    (hax : x.length ≤ bignumLengthMax) (hay : y.length ≤ bignumLengthMax)
    (hnx : x.negative = true) (hny : y.negative = true) :
    bignumNegativeHammingDistance x y = .ok (bitCount (offSign x.toInt ^^^ offSign y.toInt)) := by
  obtain ⟨u, hu, hwu, hnu, habsu, hlu⟩ := bignumBitwiseNot_negative hx hax hnx
  obtain ⟨v, hv, hwv, hnv, habsv, hlv⟩ := bignumBitwiseNot_negative hy hay hny
  rw [bignumNegativeHammingDistance, hu, ok_bind, hv, ok_bind, ← habsu, ← habsv]
  by_cases hzu : u.digits = []
  · rw [if_pos (Bignum.zeroP_iff.mpr hzu), bignumBitCountUnsigned_eq hwv hlv,
      toInt_of_nil hzu, Int.natAbs_zero, Nat.zero_xor]
    rfl
  rw [if_neg (by simpa using hzu)]
  by_cases hzv : v.digits = []
  · rw [if_pos (Bignum.zeroP_iff.mpr hzv), bignumBitCountUnsigned_eq hwu hlu,
      toInt_of_nil hzv, Int.natAbs_zero, Nat.xor_zero]
    rfl
  rw [if_neg (by simpa using hzv)]
  exact bignumPositiveHammingDistance_ok hwu hwv hlu hlv hzu hzv hnu hnv

theorem bitCount_xor_lt (hx : x.WellFormed) (hy : y.WellFormed) (hax : x.length ≤ bignumLengthMax)
    (hay : y.length ≤ bignumLengthMax) : bitCount (offSign x.toInt ^^^ offSign y.toInt) < 2 ^ 62 := by
  have hbound {b : Bignum} (h : b.WellFormed) (ha : b.length ≤ bignumLengthMax) :
      offSign b.toInt < 2 ^ (62 * bignumLengthMax) := by
    have h1 := magnitude_lt_pow h (n := 62 * bignumLengthMax) (by omega)
    have h2 := natAbs_toInt h
    rw [offSign_lt]
    omega
  refine lt_of_le_of_lt (bitCount_le (Nat.xor_lt_two_pow (hbound hx hax) (hbound hy hay))) ?_
  exact length_bits_lt le_rfl

theorem offSign_zero : offSign 0 = 0 := rfl

theorem bignumHammingDistance_ok {same} (hsame : same = true → x = y) (hx : x.WellFormed)
    (hy : y.WellFormed) (hax : x.length ≤ bignumLengthMax) (hay : y.length ≤ bignumLengthMax) :
    bignumHammingDistance same x y = .ok (if x.negative = y.negative then
      bitCount (offSign x.toInt ^^^ offSign y.toInt) else -1) := by
  have hlt := bitCount_xor_lt hx hy hax hay
  have hlong {c : Nat} (hc : c < 2 ^ 62) : toLong c = c :=
    toLong_of_range ⟨by norm_num, by norm_num at hc ⊢; omega⟩
  rw [bignumHammingDistance]
  cases same with
  | true =>
    obtain rfl := hsame rfl
    rw [if_pos rfl, if_pos rfl, Nat.xor_self, bitCount_zero]
    rfl
  | false =>
    rw [if_neg Bool.false_ne_true]
    by_cases hzx : x.digits = []
    · rw [if_pos (Bignum.zeroP_iff.mpr hzx), hx.sign hzx]
      cases hny : y.negative with
      | true => rfl
      | false =>
        have habs := offSign_of_nonneg (nonneg_of_sign hy hny)
        rw [toInt_of_nil hzx, offSign_zero, Nat.zero_xor, habs] at hlt
        rw [if_neg Bool.false_ne_true, if_pos rfl, bignumBitCountUnsigned_eq hy hay, hlong hlt,
          toInt_of_nil hzx, offSign_zero, Nat.zero_xor, habs]
        rfl
    rw [if_neg (by simpa using hzx)]
    by_cases hzy : y.digits = []
    · rw [if_pos (Bignum.zeroP_iff.mpr hzy), hy.sign hzy]
      cases hnx : x.negative with
      | true => rfl
      | false =>
        have habs := offSign_of_nonneg (nonneg_of_sign hx hnx)
        rw [toInt_of_nil hzy, offSign_zero, Nat.xor_zero, habs] at hlt
        rw [if_neg Bool.false_ne_true, if_pos rfl, bignumBitCountUnsigned_eq hx hax, hlong hlt,
          toInt_of_nil hzy, offSign_zero, Nat.xor_zero, habs]
        rfl
    rw [if_neg (by simpa using hzy)]
    cases hnx : x.negative with
    | true =>
      cases hny : y.negative with
      | true =>
        rw [bignumNegativeHammingDistance_ok hx hy hax hay hnx hny, ok_bind, hlong hlt]
        rfl
      | false => rfl
    | false =>
      cases hny : y.negative with
      | true => rfl
      | false =>
        rw [bignumPositiveHammingDistance_ok hx hy hax hay hzx hzy hnx hny, ok_bind,
          ← offSign_of_nonneg (nonneg_of_sign hx hnx), ← offSign_of_nonneg (nonneg_of_sign hy hny),
          hlong hlt]
        rfl

end Bignums

/-! ## Exact integers -/

section Integers

theorem fixnum_bits (v : Int) : (if v < 0 then Int.lnot v else v) = (offSign v : Int) := by
  cases v with
  | ofNat n => exact if_neg (Int.not_lt.mpr (Int.natCast_nonneg n))
  | negSucc n => exact if_pos (Int.negSucc_lt_zero n)

theorem offSign_fixnum (d : BitVec 58) : offSign (fixnumToLong d) < 2 ^ 57 := by
  rw [offSign_lt]
  exact fixnumToLong_range d

theorem offSign_fixnum_range (d : BitVec 58) :
    0 ≤ (offSign (fixnumToLong d) : Int) ∧ (offSign (fixnumToLong d) : Int) < 2 ^ 64 :=
  ⟨Int.natCast_nonneg _, by exact_mod_cast lt_trans (offSign_fixnum d) (by norm_num)⟩

theorem small_size {n k : Nat} (h : n < 2 ^ k) (hk : k < 2 ^ 6) : n.size < 2 ^ 57 :=
  lt_of_le_of_lt (Nat.size_le.mpr h) (lt_trans hk (by norm_num))

theorem offSign_size_lt {b : Bignum} (h : b.WellFormed) (ha : b.length ≤ bignumLengthMax) :
    (offSign b.toInt).size ≤ 62 * b.length ∧ 62 * b.length < 2 ^ 62 := by
  refine ⟨Nat.size_le.mpr ?_, length_bits_lt ha⟩
  have h1 := magnitude_lt_pow h (n := 62 * b.length) le_rfl
  have h2 := natAbs_toInt h
  rw [offSign_lt]
  omega

theorem ulongToInteger_count {n : Nat} (h : n < 2 ^ 62) : Makes (ulongToInteger n) n :=
  ulongToInteger_makes (Int.natCast_nonneg n) (by norm_num at h ⊢; omega)

theorem integerLengthInBits_makes {n} (hn : n.Canonical) :
    Makes (integerLengthInBits n) n.toInt.natAbs.size := by
  cases n with
  | fixnum d =>
    show Makes (integerLengthInBits (.fixnum d)) ((fixnumToLong d).natAbs.size : Nat)
    obtain ⟨h1, h2⟩ := fixnumToLong_range d
    norm_num at h1 h2
    have habs : (fixnumToLong d).natAbs < 2 ^ 58 := by omega
    have hmag : (if fixnumToLong d < 0 then long (-fixnumToLong d) else pure (fixnumToLong d)) =
        .ok ((fixnumToLong d).natAbs : Int) := by
      split
      · rw [long_ok (by omega) (by omega)]
        exact congrArg Except.ok (by omega)
      · exact congrArg Except.ok (by omega)
    rw [integerLengthInBits, hmag, ok_bind, ulongLengthInBits_ofInt (Int.natCast_nonneg _)
      (by exact_mod_cast lt_trans habs (by norm_num)), Int.natAbs_natCast]
    exact makes_count (small_size habs (by norm_num))
  | bignum b =>
    have hsize : b.toInt.natAbs.size ≤ 62 * b.length := Nat.size_le.mpr (natAbs_lt_pow hn.wellFormed)
    have hmax := length_bits_lt hn.allocated
    show Makes (integerLengthInBits (.bignum b)) (b.toInt.natAbs.size : Nat)
    rw [integerLengthInBits, bignumLengthInBits_ok hn.wellFormed hn.allocated, ok_bind]
    exact ulongToInteger_count (by omega)

theorem integerLength_makes {n : ExactInteger} (hn : n.Canonical) :
    Makes (integerLength n) (offSign n.toInt).size := by
  cases n with
  | fixnum d =>
    have hlt := offSign_fixnum d
    show Makes (integerLength (.fixnum d)) ((offSign (fixnumToLong d)).size : Nat)
    rw [integerLength, fixnum_bits, ulongLengthInBits_ofInt (offSign_fixnum_range d).1
      (offSign_fixnum_range d).2, Int.natAbs_natCast]
    exact makes_count (small_size hlt (by norm_num))
  | bignum b =>
    obtain ⟨h1, h2⟩ := offSign_size_lt hn.wellFormed hn.allocated
    show Makes (integerLength (.bignum b)) ((offSign b.toInt).size : Nat)
    rw [integerLength, bignumIntegerLength_ok hn.wellFormed hn.allocated, ok_bind]
    exact ulongToInteger_count (lt_of_le_of_lt h1 h2)

theorem integerBitCount_makes {n : ExactInteger} (hn : n.Canonical) :
    Makes (integerBitCount n) (bitCount (offSign n.toInt)) := by
  cases n with
  | fixnum d =>
    have hlt := offSign_fixnum d
    show Makes (integerBitCount (.fixnum d)) (bitCount (offSign (fixnumToLong d)) : Nat)
    rw [integerBitCount, fixnum_bits, ulongBitCount_ofInt (offSign_fixnum_range d),
      Int.natAbs_natCast]
    exact makes_count (lt_of_le_of_lt (bitCount_le hlt) (by norm_num))
  | bignum b =>
    obtain ⟨h1, h2⟩ := offSign_size_lt hn.wellFormed hn.allocated
    have hle : bitCount (offSign b.toInt) ≤ 62 * b.length := bitCount_le (Nat.size_le.mp h1)
    show Makes (integerBitCount (.bignum b)) (bitCount (offSign b.toInt) : Nat)
    rw [integerBitCount, bignumBitCount_ok hn.wellFormed hn.allocated, ok_bind]
    exact ulongToInteger_count (lt_of_le_of_lt hle h2)

theorem fixnum_word (v : Int) :
    (if v < 0 then ~~~ofInt 64 (Int.lnot v) else ofInt 64 v) = ofInt 64 v := by
  cases v with
  | ofNat n => exact if_neg (Int.not_lt.mpr (Int.natCast_nonneg n))
  | negSucc n =>
    rw [if_pos (Int.negSucc_lt_zero n), BitVec.ofInt_negSucc_eq_not_ofNat]
    rfl

theorem integerFirstSetBit_makes {n} (hn : n.Canonical) :
    (n.toInt = 0 → Makes (integerFirstSetBit n) (-1)) ∧
      (n.toInt ≠ 0 → ∃ (k : Nat) (q : Int), Makes (integerFirstSetBit n) k ∧
        n.toInt = 2 ^ k * (2 * q + 1)) := by
  cases n with
  | fixnum d =>
    show (fixnumToLong d = 0 → _) ∧ (fixnumToLong d ≠ 0 → ∃ (k : Nat) (q : Int), _ ∧
      fixnumToLong d = 2 ^ k * (2 * q + 1))
    rw [integerFirstSetBit, fixnum_word]
    refine ⟨fun h0 => ?_, fun h0 => ?_⟩
    · rw [h0]
      exact makes_fixnum (v := -1) (by decide)
    · obtain ⟨h1, h2⟩ := fixnumToLong_range d
      norm_num at h1 h2
      have hword : ((ofInt 64 (fixnumToLong d)).toNat : Int) =
          if fixnumToLong d < 0 then fixnumToLong d + 2 ^ 64 else fixnumToLong d := by
        rw [BitVec.toNat_ofInt]
        norm_num
        split <;> omega
      have hlt := (ofInt 64 (fixnumToLong d)).isLt
      have hne : (ofInt 64 (fixnumToLong d)).toNat ≠ 0 := by
        intro h
        rw [h] at hword
        split at hword
        · omega
        · exact h0 hword.symm
      obtain ⟨k, q, hkq⟩ := exists_odd_part hne
      have hk : k < 64 := by
        by_contra hc
        have h3 : 2 ^ 64 ≤ 2 ^ k := Nat.pow_le_pow_right (by omega) (not_lt.mp hc)
        have h4 := Nat.mul_le_mul_left (2 ^ k) (show 1 ≤ 2 * q + 1 by omega)
        omega
      rw [ulongFirstSetBit_eq hkq]
      refine ⟨k, if fixnumToLong d < 0 then q - 2 ^ (63 - k) else q,
        makes_fixnum ⟨by norm_num, by norm_num; omega⟩, ?_⟩
      have h64 : (2 : Int) ^ 64 = 2 ^ k * (2 * 2 ^ (63 - k)) := by
        rw [← pow_succ', ← pow_add]
        congr 1
        omega
      rw [hkq] at hword
      push_cast at hword
      split at hword
      · next hneg =>
        rw [if_pos hneg]
        have hword' : 2 ^ k * (2 * (q : Int) + 1) = fixnumToLong d + 2 ^ 64 := by
          rw [hword]
          norm_num
        rw [h64] at hword'
        linear_combination -hword'
      · next hneg =>
        rw [if_neg hneg]
        exact hword.symm
  | bignum b =>
    have hz : b.toInt ≠ 0 := fun h0 => hn.large (by rw [h0]; decide)
    refine ⟨fun h0 => absurd h0 hz, fun _ => ?_⟩
    obtain ⟨k, q, hrun, hk, hval⟩ := bignumFirstSetBit_ok hn.wellFormed hn.allocated
      fun h0 => hz (toInt_of_nil h0)
    refine ⟨k, q, ?_, hval⟩
    rw [integerFirstSetBit, hrun, ok_bind]
    exact longToInteger_makes (lt_of_lt_of_le (by norm_num) (Int.natCast_nonneg k))
      (by exact_mod_cast lt_trans hk (by norm_num))

theorem xor_offSign (v w : Int) : offSign (Int.xor v w) = offSign v ^^^ offSign w ∧
    (Int.xor v w < 0 ↔ ¬ (v < 0 ↔ w < 0)) := by
  have hneg (n : Nat) : Int.negSucc n < 0 := Int.negSucc_lt_zero n
  have hpos (n : Nat) : ¬ Int.ofNat n < 0 := Int.not_lt.mpr (Int.natCast_nonneg n)
  cases v with
  | ofNat a =>
    cases w with
    | ofNat c =>
      exact ⟨rfl, iff_of_false (hpos (a ^^^ c)) fun h => h (iff_of_false (hpos a) (hpos c))⟩
    | negSucc c => exact ⟨rfl, iff_of_true (hneg (a ^^^ c)) fun h => hpos a (h.mpr (hneg c))⟩
  | negSucc a =>
    cases w with
    | ofNat c => exact ⟨rfl, iff_of_true (hneg (a ^^^ c)) fun h => hpos c (h.mp (hneg a))⟩
    | negSucc c =>
      exact ⟨rfl, iff_of_false (hpos (a ^^^ c)) fun h => h (iff_of_true (hneg a) (hneg c))⟩

theorem hammingDistance_bignums {same : Bool} {n m : ExactInteger} (hn : n.Canonical)
    (hm : m.Canonical) (hsame : ∀ x y, integerToBignum n = .ok x → integerToBignum m = .ok y →
      same = true → x = y) :
    Makes (do
      let x ← integerToBignum n
      let y ← integerToBignum m
      longToInteger (← bignumHammingDistance same x y))
      (if n.toInt < 0 ↔ m.toInt < 0 then bitCount (offSign n.toInt ^^^ offSign m.toInt) else -1) := by
  obtain ⟨x, hx, hwx, hvx, hax⟩ := integerToBignum_ok hn
  obtain ⟨y, hy, hwy, hvy, hay⟩ := integerToBignum_ok hm
  have hsign : x.negative = y.negative ↔ (n.toInt < 0 ↔ m.toInt < 0) := by
    rw [Bool.eq_iff_iff, negative_iff hwx, negative_iff hwy, hvx, hvy]
  have hlt := bitCount_xor_lt hwx hwy hax hay
  rw [hx, ok_bind, hy, ok_bind, bignumHammingDistance_ok (hsame x y hx hy) hwx hwy hax hay, ok_bind]
  simp only [hsign, ← hvx, ← hvy] at hlt ⊢
  split
  · exact longToInteger_makes (lt_of_lt_of_le (by norm_num) (Int.natCast_nonneg _))
      (by exact_mod_cast lt_trans hlt (by norm_num))
  · exact longToInteger_makes (by norm_num) (by norm_num)

theorem integerHammingDistance_makes {same : Bool} {n m : ExactInteger} (hn : n.Canonical)
    (hm : m.Canonical) (hsame : same = true → n = m) :
    Makes (integerHammingDistance same n m)
      (if n.toInt < 0 ↔ m.toInt < 0 then bitCount (offSign n.toInt ^^^ offSign m.toInt) else -1) := by
  cases n with
  | bignum x =>
    refine hammingDistance_bignums hn hm fun x' y' hx hy hs => ?_
    rw [hsame hs, hy] at hx
    exact (Except.ok.inj hx).symm
  | fixnum d =>
    cases m with
    | bignum y =>
      refine hammingDistance_bignums hn hm fun x' y' hx hy hs => ?_
      rw [hsame hs, hy] at hx
      exact (Except.ok.inj hx).symm
    | fixnum e =>
      show Makes _ (if fixnumToLong d < 0 ↔ fixnumToLong e < 0 then
        bitCount (offSign (fixnumToLong d) ^^^ offSign (fixnumToLong e)) else -1)
      obtain ⟨hoff, hneg⟩ := xor_offSign (fixnumToLong d) (fixnumToLong e)
      have hlt := Nat.xor_lt_two_pow (offSign_fixnum d) (offSign_fixnum e)
      rw [integerHammingDistance]
      by_cases hs : fixnumToLong d < 0 ↔ fixnumToLong e < 0
      · have hx : ¬ Int.xor (fixnumToLong d) (fixnumToLong e) < 0 := fun h => hneg.mp h hs
        have habs : Int.xor (fixnumToLong d) (fixnumToLong e) =
            ((offSign (fixnumToLong d) ^^^ offSign (fixnumToLong e) : Nat) : Int) := by
          rw [← hoff, offSign_of_nonneg (not_lt.mp hx)]
          omega
        rw [if_pos hs, if_neg hx, habs, ulongBitCount_ofInt
          ⟨Int.natCast_nonneg _, by exact_mod_cast lt_trans hlt (by norm_num)⟩, Int.natAbs_natCast]
        exact makes_count (lt_of_le_of_lt (bitCount_le hlt) (by norm_num))
      · rw [if_neg hs, if_pos (hneg.mpr hs)]
        exact makes_fixnum (v := -1) (by decide)

/-- **Lengths and counts of exact integers.** For fixnums and bignums alike: the length is the
least one in two's complement, the length in bits is that of the magnitude, the first set bit is
the largest power of two that divides, the bit count counts the bits that differ from the sign,
and the Hamming distance counts the bits that differ. -/
theorem integer_counts (same : Bool) (n m : ExactInteger) (hn : n.Canonical) (hm : m.Canonical)
    (hsame : same = true → n = m) :
    (∃ k : Nat, Makes (integerLength n) k ∧
        IsLeast {k : Nat | -2 ^ k ≤ n.toInt ∧ n.toInt < 2 ^ k} k) ∧
      Makes (integerLengthInBits n) n.toInt.natAbs.size ∧
      (n.toInt = 0 → Makes (integerFirstSetBit n) (-1)) ∧
      (n.toInt ≠ 0 → ∃ k : Nat, Makes (integerFirstSetBit n) k ∧
        IsGreatest {k : Nat | 2 ^ k ∣ n.toInt} k) ∧
      (∃ s : Finset Nat, (∀ i, i ∈ s ↔ n.toInt.testBit i ≠ decide (n.toInt < 0)) ∧
        Makes (integerBitCount n) s.card) ∧
      ((n.toInt < 0 ↔ m.toInt < 0) → ∃ s : Finset Nat,
        (∀ i, i ∈ s ↔ n.toInt.testBit i ≠ m.toInt.testBit i) ∧
          Makes (integerHammingDistance same n m) s.card) ∧
      (¬ (n.toInt < 0 ↔ m.toInt < 0) → Makes (integerHammingDistance same n m) (-1)) := by
  have hfirst := integerFirstSetBit_makes hn
  have hdistance := integerHammingDistance_makes hn hm hsame
  refine ⟨⟨_, integerLength_makes hn, isLeast_size_offSign _⟩, integerLengthInBits_makes hn,
    hfirst.1, fun h0 => ?_, ⟨setBits (offSign n.toInt), fun i => mem_setBits_offSign,
      integerBitCount_makes hn⟩, fun hs => ?_, fun hs => ?_⟩
  · obtain ⟨k, q, hrun, hval⟩ := hfirst.2 h0
    exact ⟨k, hrun, isGreatest_two_pow_dvd_int hval⟩
  · rw [if_pos hs] at hdistance
    exact ⟨setBits (offSign n.toInt ^^^ offSign m.toInt), fun i => mem_setBits_xor hs, hdistance⟩
  · rwa [if_neg hs] at hdistance

/-- A negative power of two and a bignum of two digits. -/
theorem integer_counts_bignums :
    (∃ k : Nat, Makes (integerLength (.bignum ⟨true, [0, 1]⟩)) k ∧
        IsLeast {k : Nat | -2 ^ k ≤ (Bignum.mk true [0, 1]).toInt ∧
          (Bignum.mk true [0, 1]).toInt < 2 ^ k} k) ∧
      Makes (integerHammingDistance false (.bignum ⟨true, [0, 1]⟩) (.bignum ⟨false, [1, 1]⟩))
        (-1) := by
  have hn : (ExactInteger.bignum ⟨true, [0, 1]⟩).Canonical :=
    ExactInteger.CanonicalBignum.mk ⟨by simp [bignumRadix], by simp, by simp⟩ (by decide)
      (by decide)
  have hm : (ExactInteger.bignum ⟨false, [1, 1]⟩).Canonical :=
    ExactInteger.CanonicalBignum.mk ⟨by simp [bignumRadix], by simp, by simp⟩ (by decide)
      (by decide)
  have h := integer_counts false _ _ hn hm (by simp)
  exact ⟨h.1, h.2.2.2.2.2.2 (by decide)⟩

end Integers

end MitScheme.Microcode
