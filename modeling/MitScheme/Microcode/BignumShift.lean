import MitScheme.Microcode.Bits
import MitScheme.Microcode.IntegerBitwise

/-! # Shifts of exact integers

A left shift multiplies by a power of two, a right shift divides by one and
rounds down. The loops fill a block that was allocated for a computed number
of digits; each write takes one digit of the room that is left and stops the
run when there is none, so a run that returns stayed inside its blocks. -/

namespace MitScheme.Microcode
open Lib.Checked Lib.Outcome Lib.Radix Lib.TwosComplement
open Bits

/-! ## The loops -/

/-- Copy digits into a block with `room` digits left. -/
def copyLoop : Nat → List Int → Exec (List Int)
  | _, [] => return []
  | 0, _ :: _ => .error .outOfBounds
  | room + 1, digit :: rest => do
    let tail ← copyLoop room rest
    return digit :: tail

/-- The last write of both shift loops, made when a nonzero part is left over. -/
def writeRest (room : Nat) (rest : Int) : Exec (List Int) :=
  if rest ≠ 0 then copyLoop room [rest] else return []

/-- The loop of `bignum_shift_right_unsigned`. -/
def shiftRightLoop (bits : Nat) : Nat → List Int → Int → Exec (List Int)
  | room, [], extra => writeRest room extra
  | 0, _ :: _, _ => .error .outOfBounds
  | room + 1, digit :: rest, extra => do
    let shifted ← long (Int.land digit (2 ^ bits - 1) <<< (62 - bits))
    let tail ← shiftRightLoop bits room rest (digit >>> bits)
    return Int.lor shifted extra :: tail

/-- The loop of `bignum_shift_left`. The shifted digit is cut to its word
before it is masked. -/
def shiftLeftLoop (shift : Nat) : Nat → List Int → Int → Exec (List Int)
  | room, [], temp => writeRest room temp
  | 0, _ :: _, _ => .error .outOfBounds
  | room + 1, digit :: rest, temp => do
    let low := Int.land (toUlong (digit <<< shift)) (bignumRadix - 1)
    let tail ← shiftLeftLoop shift room rest (digit >>> (62 - shift))
    return Int.lor low temp :: tail

/-- The loop of `unsigned_long_to_shifted_bignum` over what is left of `n`. -/
def spillLoop : Nat → Int → Exec (List Int)
  | 0, n => if n > 0 then .error .outOfBounds else return []
  | room + 1, n =>
    if n > 0 then do
      let tail ← spillLoop room (n >>> (62 : Nat))
      return Int.land n (bignumRadix - 1) :: tail
    else return []

/-- The block is handed out as a bignum; a digit that was never written is no
digit of it. -/
def finishBlock (length : Nat) (digits : List Int) (negative : Bool) : Exec Bignum :=
  if digits.length = length then return ⟨negative, digits⟩ else .error .outOfBounds

/-! ## The exported operations -/

/-- `(n_start < n_end) && (0 == ((n_end[-1]) >> bits))`. -/
def leadShiftedOut (n : Bignum) (bits : Nat) : Exec Bool :=
  if 0 < n.length then do
    let top ← index n.digits (n.length - 1)
    return decide (top >>> bits = 0)
  else return false

/-- `bignum_shift_right_unsigned`. The length of the result is computed from
the leading digit; the digit at `digits` is read before the loop. -/
def bignumShiftRightUnsigned (n : Bignum) (digits bits : Nat) : Exec Bignum := do
  let short ← leadShiftedOut n bits
  let rLength : Int := n.length - digits - (if short then 1 else 0)
  check (0 ≤ rLength)
  bignumAllocate rLength.toNat
  if bits = 0 then
    let copied ← copyLoop rLength.toNat (n.digits.drop digits)
    finishBlock rLength.toNat copied false
  else
    let first ← index n.digits digits
    let shifted ← shiftRightLoop bits rLength.toNat (n.digits.drop (digits + 1)) (first >>> bits)
    check (shifted.length = rLength.toNat)
    return ⟨false, shifted⟩

def bignumShiftRight (n : Bignum) (m : Nat) : Exec Bignum :=
  let digits := m / 62
  let bits := m % 62
  if digits ≥ n.length then return (if n.negative then bignumMakeOne true else bignumMakeZero)
  else if n.negative then do
    let complement ← bignumBitwiseNot n
    let r ← bignumShiftRightUnsigned complement digits bits
    bignumBitwiseNot r
  else bignumShiftRightUnsigned n digits bits

/-- The number of digits for `bits` bits, as `unsigned long` arithmetic has it. -/
def ulongDigits (bits : Nat) : Nat :=
  let sum := bits % 2 ^ 64
  sum / 62 + (if sum % 62 ≠ 0 then 1 else 0)

def bignumShiftLeft (n : Bignum) (m : Nat) : Exec Bignum :=
  if m = 0 ∨ n.zeroP then return n
  else do
    let top ← index n.digits (n.length - 1)
    let delta := ulongLengthInBits (BitVec.ofInt 64 top)
    let zeroes := m / 62
    let shift := m % 62
    let ln2 := (n.length - 1 + ulongDigits (delta + m)) % 2 ^ 64
    bignumAllocate ln2
    let low ← copyLoop ln2 (List.replicate zeroes 0)
    let high ← (if shift = 0 then copyLoop (ln2 - zeroes) n.digits
      else shiftLeftLoop shift (ln2 - zeroes) n.digits 0 : Exec (List Int))
    finishBlock ln2 (low ++ high) n.negative

def unsignedLongToShiftedBignum (n : Int) (m : Nat) (sign : Bool) : Exec Bignum :=
  if n = 0 then return bignumMakeZero
  else do
    let delta := ulongLengthInBits (BitVec.ofInt 64 n)
    let zeroes := m / 62
    let shift := m % 62
    let ln := ulongDigits (delta + m)
    bignumAllocate ln
    let low ← copyLoop ln (List.replicate zeroes 0)
    let first ← copyLoop (ln - zeroes)
      [Int.land (toUlong (n <<< shift)) (bignumRadix - 1)]
    let rest ← spillLoop (ln - zeroes - 1) (n >>> (62 - shift))
    finishBlock ln (low ++ first ++ rest) sign

/-- A left shift of a `long`; by 64 and more it is undefined. -/
def shiftLong (v : Int) (m : Nat) : Exec Int :=
  if m < 64 then return toLong (v <<< m) else .error .overflow

def integerShiftLeft (n : ExactInteger) (m : Nat) : Exec ExactInteger :=
  if m = 0 then return n
  else
    match n with
    | .fixnum d =>
      let n1 := fixnumToLong d
      if n1 < 0 then
        if (m + ulongLengthInBits (BitVec.ofInt 64 (Int.lnot n1))) % 2 ^ 64 ≤ fixnumLength then do
          let shifted ← shiftLong (-n1) m
          let negated ← long (-shifted)
          return .fixnum (longToFixnum negated)
        else do
          let r ← unsignedLongToShiftedBignum (-n1) m false
          let r ← bignumNegate r
          return .bignum r
      else if 0 < n1 then
        if (m + ulongLengthInBits (BitVec.ofInt 64 n1)) % 2 ^ 64 ≤ fixnumLength then do
          let shifted ← shiftLong n1 m
          return .fixnum (longToFixnum shifted)
        else do
          let r ← unsignedLongToShiftedBignum n1 m false
          return .bignum r
      else return .fixnum (longToFixnum 0)
    | .bignum b => do
      let r ← bignumShiftLeft b m
      return .bignum r

def integerShiftRight (n : ExactInteger) (m : Nat) : Exec ExactInteger :=
  if m = 0 then return n
  else
    match n with
    | .fixnum d =>
      let n1 := fixnumToLong d
      if m ≥ 64 then return .fixnum (longToFixnum (if n1 < 0 then -1 else 0))
      else return .fixnum (longToFixnum (if n1 < 0 then Int.lnot (Int.lnot n1 >>> m) else n1 >>> m))
    | .bignum b => do
      let r ← bignumShiftRight b m
      bignumToInteger r

/-! ## What the loops write -/

theorem copyLoop_ok {ds} : ∀ {room : Nat}, ds.length ≤ room → copyLoop room ds = .ok ds := by
  induction ds with
  | nil => intro room _; cases room <;> rfl
  | cons d ds ih =>
    intro room h
    obtain ⟨room, rfl⟩ := Nat.exists_eq_succ_of_ne_zero (show room ≠ 0 by simp at h; omega)
    rw [copyLoop, ih (by simpa using h)]
    rfl

/-- The part of the last digit that the loops carry out at its upper end. -/
def leftover (bits : Nat) : List Int → Int → Int
  | [], extra => extra
  | digit :: rest, _ => leftover bits rest (digit >>> bits)

theorem leftover_concat (bits : Nat) (init : List Int) (top extra : Int) :
    leftover bits (init ++ [top]) extra = top >>> bits := by
  induction init generalizing extra with
  | nil => rfl
  | cons d init ih => exact ih _

def spill (rest : Int) : Nat := if rest = 0 then 0 else 1

theorem two_pow_62 {bits} (hb : bits ≤ 62) : (2 : Int) ^ (62 - bits) * 2 ^ bits = bignumRadix := by
  rw [← pow_add, Nat.sub_add_cancel hb]
  norm_num [bignumRadix]

theorem shifted_digit {bits} (hb : bits ≤ 62) {d extra} (hd : 0 ≤ d ∧ d < bignumRadix)
    (he : 0 ≤ extra ∧ extra < 2 ^ (62 - bits)) :
    long (Int.land d (2 ^ bits - 1) <<< (62 - bits)) = .ok (d % 2 ^ bits * 2 ^ (62 - bits)) ∧
      Int.lor (d % 2 ^ bits * 2 ^ (62 - bits)) extra = d % 2 ^ bits * 2 ^ (62 - bits) + extra ∧
      0 ≤ d % 2 ^ bits * 2 ^ (62 - bits) + extra ∧
      d % 2 ^ bits * 2 ^ (62 - bits) + extra < bignumRadix := by
  have hpos : (0 : Int) < 2 ^ (62 - bits) := by positivity
  have hm0 : 0 ≤ d % 2 ^ bits := Int.emod_nonneg _ (by positivity)
  have hm1 : d % 2 ^ bits + 1 ≤ 2 ^ bits := Int.emod_lt_of_pos _ (by positivity)
  have hle : (d % 2 ^ bits + 1) * 2 ^ (62 - bits) ≤ bignumRadix := by
    rw [← two_pow_62 hb, mul_comm (2 ^ (62 - bits))]
    exact mul_le_mul_of_nonneg_right hm1 hpos.le
  have h0 : 0 ≤ d % 2 ^ bits * 2 ^ (62 - bits) := mul_nonneg hm0 hpos.le
  rw [add_mul, one_mul] at hle
  refine ⟨?_, lor_shift _ hm0 he.1 he.2, by omega, by omega⟩
  rw [land_mask bits hd.1, shiftLeft_eq]
  unfold bignumRadix at hle
  exact long_ok (by omega) (by omega)

theorem shiftRightLoop_ok {bits} (hb : bits ≤ 62) {ds} :
    ∀ {room : Nat} {extra : Int}, Digits bignumRadix ds → 0 ≤ extra ∧ extra < 2 ^ (62 - bits) →
      ds.length + spill (leftover bits ds extra) ≤ room →
      ∃ r, shiftRightLoop bits room ds extra = .ok r ∧ Digits bignumRadix r ∧
        value bignumRadix r = extra + 2 ^ (62 - bits) * value bignumRadix ds ∧
        r.length = ds.length + spill (leftover bits ds extra) := by
  induction ds with
  | nil =>
    intro room extra _ he hroom
    unfold leftover spill at hroom ⊢
    have hlt : extra < bignumRadix := by
      refine lt_of_lt_of_le he.2 ?_
      rw [← two_pow_62 hb]
      exact le_mul_of_one_le_right (by positivity) (one_le_pow₀ (by norm_num))
    by_cases h0 : extra = 0
    · refine ⟨[], ?_, digits_nil, by simp [h0], by simp [h0]⟩
      unfold shiftRightLoop
      cases room <;> simp [writeRest, h0] <;> rfl
    · refine ⟨[extra], ?_, by simpa using ⟨he.1, hlt⟩, by simp, by simp [h0]⟩
      rw [if_neg h0] at hroom
      unfold shiftRightLoop
      cases room with
      | zero => simp at hroom
      | succ room => rw [writeRest, if_pos h0]; exact copyLoop_ok (by simp)
  | cons d ds ih =>
    intro room extra hds he hroom
    obtain ⟨hd, hds⟩ := digits_cons.mp hds
    obtain ⟨room, rfl⟩ := Nat.exists_eq_succ_of_ne_zero (show room ≠ 0 by simp at hroom; omega)
    obtain ⟨hlong, hlor, hlo, hhi⟩ := shifted_digit hb hd he
    have hq : d >>> bits = d / 2 ^ bits := shiftRight_eq d bits
    have hq' : 0 ≤ d / 2 ^ bits ∧ d / 2 ^ bits < 2 ^ (62 - bits) := by
      refine ⟨Int.ediv_nonneg hd.1 (by positivity), ?_⟩
      rw [Int.ediv_lt_iff_lt_mul (by positivity), two_pow_62 hb]
      exact hd.2
    rw [← hq] at hq'
    have hroom' : ds.length + spill (leftover bits ds (d >>> bits)) ≤ room := by
      simp only [List.length_cons, leftover] at hroom
      omega
    obtain ⟨r, hr, hrd, hrv, hrl⟩ := ih hds hq' hroom'
    refine ⟨(d % 2 ^ bits * 2 ^ (62 - bits) + extra) :: r, ?_, digits_cons.mpr ⟨⟨hlo, hhi⟩, hrd⟩,
      ?_, ?_⟩
    · rw [shiftRightLoop, hlong, ok_bind, hr, ok_bind, hlor]
      rfl
    · have hdm := Int.emod_add_mul_ediv d (2 ^ bits)
      rw [value_cons, hrv, hq, value_cons]
      calc d % 2 ^ bits * 2 ^ (62 - bits) + extra +
            bignumRadix * (d / 2 ^ bits + 2 ^ (62 - bits) * value bignumRadix ds)
          = extra + 2 ^ (62 - bits) * (d % 2 ^ bits + 2 ^ bits * (d / 2 ^ bits)) +
            2 ^ (62 - bits) * (bignumRadix * value bignumRadix ds) := by
              rw [← two_pow_62 hb]; ring
        _ = extra + 2 ^ (62 - bits) * (d + bignumRadix * value bignumRadix ds) := by
              rw [hdm]; ring
    · simp [hrl, leftover]
      omega

theorem shiftLeftLoop_eq {shift} (hs : shift < 62) {ds} :
    ∀ {room : Nat} {temp : Int}, Digits bignumRadix ds → 0 ≤ temp ∧ temp < 2 ^ shift →
      shiftLeftLoop shift room ds temp = shiftRightLoop (62 - shift) room ds temp := by
  have hsub : 62 - (62 - shift) = shift := by omega
  induction ds with
  | nil => intro room temp _ _; cases room <;> rfl
  | cons d ds ih =>
    intro room temp hds ht
    obtain ⟨hd, hds⟩ := digits_cons.mp hds
    cases room with
    | zero => rfl
    | succ room =>
      have ht' : 0 ≤ temp ∧ temp < 2 ^ (62 - (62 - shift)) := by rwa [hsub]
      obtain ⟨hlong, hlor, -, -⟩ := shifted_digit (show 62 - shift ≤ 62 by omega) hd ht'
      have hlow : Int.land (toUlong (d <<< shift)) (bignumRadix - 1) =
          d % 2 ^ (62 - shift) * 2 ^ shift := by
        have h62 : (2 : Int) ^ 62 = 2 ^ (62 - shift) * 2 ^ shift := by
          rw [← pow_add]; congr 1; omega
        have hnn : 0 ≤ toUlong (d <<< shift) := Int.emod_nonneg _ (by norm_num)
        rw [show bignumRadix - 1 = 2 ^ 62 - 1 from rfl, land_mask 62 hnn, toUlong, shiftLeft_eq,
          Int.emod_emod_of_dvd _ (by norm_num), h62, mul_comm d, mul_comm (2 ^ (62 - shift)),
          Int.mul_emod_mul_of_pos _ _ (by positivity), mul_comm]
      have hq : 0 ≤ d >>> (62 - shift) ∧ d >>> (62 - shift) < 2 ^ shift := by
        rw [shiftRight_eq]
        refine ⟨Int.ediv_nonneg hd.1 (by positivity), ?_⟩
        rw [Int.ediv_lt_iff_lt_mul (by positivity), ← pow_add,
          show shift + (62 - shift) = 62 by omega]
        exact hd.2
      rw [shiftLeftLoop, shiftRightLoop, hlong, ok_bind, ih hds hq, hlow, hsub]

/-! ## The right shift -/

theorem value_drop {ds} (h : Digits bignumRadix ds) {k} (hk : k ≤ ds.length) :
    value bignumRadix (ds.drop k) = value bignumRadix ds / 2 ^ (62 * k) := by
  have hsplit : value bignumRadix ds =
      value bignumRadix (ds.take k) + bignumRadix ^ k * value bignumRadix (ds.drop k) := by
    conv_lhs => rw [← List.take_append_drop k ds, value_append]
    rw [List.length_take, Nat.min_eq_left hk]
  have hlow := value_lt_pow bignumRadix_pos (h.take k)
  rw [List.length_take, Nat.min_eq_left hk] at hlow
  have hlow0 := value_nonneg bignumRadix_pos (h.take k)
  rw [hsplit, ← bignumRadix_pow, Int.add_mul_ediv_left _ _ (pow_pos bignumRadix_pos k).ne',
    Int.ediv_eq_zero_of_lt hlow0 hlow, zero_add]

theorem wellFormed_of_bounds {ds} (h : Digits bignumRadix ds)
    (hv : ds ≠ [] → 2 ^ (62 * (ds.length - 1)) ≤ value bignumRadix ds) :
    (Bignum.mk false ds).WellFormed := by
  refine ⟨h, ?_, fun _ => rfl⟩
  by_cases hn : ds = []
  · simp [hn]
  · refine lead_ne_zero bignumRadix_pos h ?_
    rw [bignumRadix_pow]
    exact hv hn

variable {n : Bignum}

section
variable (h : n.WellFormed)
include h

theorem quotient_bounds {digits bits} (hd : digits < n.length) (hb : bits < 62) {top}
    (ht : top = n.magnitude / bignumRadix ^ (n.length - 1)) {len}
    (hl : len + 1 = n.length - digits + spill (top / 2 ^ bits)) (hne : len ≠ 0) :
    2 ^ (62 * (len - 1)) ≤ n.magnitude / 2 ^ (62 * digits + bits) := by
  have hm := pow_le_magnitude h (n := 62 * (n.length - 1)) (by omega) le_rfl
  rw [Int.le_ediv_iff_mul_le (by positivity), ← pow_add]
  unfold spill at hl
  split at hl
  · exact le_trans (pow_le_pow_right₀ (by norm_num) (by omega)) hm
  · rename_i hq
    have hpos : 1 ≤ top / 2 ^ bits := by
      have h0 : 0 ≤ top / 2 ^ bits := by
        rw [ht]
        exact Int.ediv_nonneg (Int.ediv_nonneg h.magnitude_nonneg (pow_pos bignumRadix_pos _).le)
          (by positivity)
      omega
    rw [Int.le_ediv_iff_mul_le (by positivity), one_mul, ht, bignumRadix_pow,
      Int.le_ediv_iff_mul_le (by positivity), ← pow_add] at hpos
    exact le_trans (pow_le_pow_right₀ (by norm_num) (by omega)) hpos

theorem getLast_digits (hz : n.length ≠ 0) :
    n.digits.getLast? = some (n.magnitude / bignumRadix ^ (n.length - 1)) := by
  have hi := lead_digit h hz
  unfold index at hi
  rw [List.getLast?_eq_getElem?]
  change n.digits[n.length - 1]? = _
  split at hi
  · rename_i v hv
    rw [hv]
    cases hi
    rfl
  · cases hi

theorem drop_digits {digits} (hd : digits < n.length) :
    ∃ init, n.digits.drop digits = init ++ [n.magnitude / bignumRadix ^ (n.length - 1)] := by
  refine List.getLast?_eq_some_iff.mp ?_
  rw [List.getLast?_drop, if_neg (by simpa [Bignum.length] using hd)]
  exact getLast_digits h (by omega)

theorem leadShiftedOut_ok (hz : n.length ≠ 0) (bits : Nat) :
    leadShiftedOut n bits =
      .ok (decide (n.magnitude / bignumRadix ^ (n.length - 1) / 2 ^ bits = 0)) := by
  unfold leadShiftedOut
  rw [if_pos (Nat.pos_of_ne_zero hz), lead_digit h hz, ok_bind, shiftRight_eq]
  rfl

theorem bignumShiftRightUnsigned_ok (ha : n.length ≤ bignumLengthMax) {digits bits}
    (hd : digits < n.length) (hb : bits < 62) :
    ∃ r, bignumShiftRightUnsigned n digits bits = .ok r ∧ r.WellFormed ∧ r.negative = false ∧
      r.toInt = n.magnitude / 2 ^ (62 * digits + bits) ∧ r.length ≤ n.length := by
  obtain ⟨top, ht⟩ : ∃ top, top = n.magnitude / bignumRadix ^ (n.length - 1) := ⟨_, rfl⟩
  have hshort : leadShiftedOut n bits = .ok (decide (top / 2 ^ bits = 0)) := by
    rw [leadShiftedOut_ok h (by omega), ht]
  have hq : top >>> bits = top / 2 ^ bits := shiftRight_eq top bits
  obtain ⟨len, hlen⟩ : ∃ len, len = n.length - digits - 1 + spill (top / 2 ^ bits) := ⟨_, rfl⟩
  have hspill : spill (top / 2 ^ bits) ≤ 1 := by unfold spill; split <;> omega
  have hr : ((n.length : Int) - digits - (if decide (top / 2 ^ bits = 0) = true then 1 else 0)) =
      (len : Int) := by
    rw [hlen]
    unfold spill
    by_cases h0 : top / 2 ^ bits = 0
    · simp only [h0, decide_true, if_true]
      omega
    · simp only [h0, decide_false, Bool.false_eq_true, if_false]
      omega
  have hrest := value_drop h.digits (show digits ≤ n.digits.length from hd.le)
  have hdr := h.digits.drop digits
  have hvalue : value bignumRadix (n.digits.drop digits) / 2 ^ bits =
      n.magnitude / 2 ^ (62 * digits + bits) := by
    rw [hrest, Int.ediv_ediv_of_nonneg (by positivity), ← pow_add]
    rfl
  have hwell : ∀ r : List Int, Digits bignumRadix r → r.length = len →
      value bignumRadix r = n.magnitude / 2 ^ (62 * digits + bits) →
      (Bignum.mk false r).WellFormed := by
    intro r hrd hrl hrv
    refine wellFormed_of_bounds hrd fun hne => ?_
    rw [hrv, hrl]
    refine quotient_bounds h hd hb ht (by omega) ?_
    rw [← hrl]
    simpa using hne
  unfold bignumShiftRightUnsigned
  rw [hshort, ok_bind]
  simp only [hr, Int.toNat_natCast]
  rw [check_ok (by omega), ok_bind, bignumAllocate, check_ok (by omega), ok_bind]
  obtain ⟨init, hinit⟩ := drop_digits h hd
  rw [← ht] at hinit
  by_cases hb0 : bits = 0
  · subst hb0
    have htop : top ≠ 0 := fun h0 => h.lead (by rw [getLast_digits h (by omega), ← ht, h0])
    have hl : (n.digits.drop digits).length = len := by
      simp only [pow_zero, Int.ediv_one, spill, if_neg htop] at hlen
      rw [List.length_drop]
      change n.length - digits = len
      omega
    refine ⟨⟨false, n.digits.drop digits⟩, ?_, hwell _ hdr hl ?_, rfl, ?_, ?_⟩
    · rw [if_pos rfl, copyLoop_ok hl.le, ok_bind, finishBlock, if_pos hl]
      rfl
    · simpa using hvalue
    · simpa [Bignum.toInt_mk] using hvalue
    · change (n.digits.drop digits).length ≤ n.length
      omega
  · rw [if_neg hb0]
    obtain ⟨first, rest, hcons⟩ : ∃ first rest, n.digits.drop digits = first :: rest :=
      List.exists_cons_of_ne_nil (by rw [hinit]; simp)
    have hfirst : index n.digits digits = .ok first := by
      refine index_of_cut (l := n.digits.take digits) (r := rest) ?_ ?_
      · rw [← hcons, List.take_append_drop]
      · rw [List.length_take]
        exact (Nat.min_eq_left hd.le).symm
    have hdrop : n.digits.drop (digits + 1) = rest := by
      rw [← List.drop_drop, hcons]
      rfl
    obtain ⟨hf, hrest'⟩ := digits_cons.mp (hcons ▸ hdr)
    have hleft : leftover bits rest (first >>> bits) = top / 2 ^ bits := by
      rw [← hq, ← leftover_concat bits init top 0, ← hinit, hcons]
      rfl
    have hrl : rest.length = n.length - digits - 1 := by
      have := congrArg List.length hcons
      rw [List.length_drop, List.length_cons] at this
      change n.length - digits = _ at this
      omega
    have hextra : 0 ≤ first >>> bits ∧ first >>> bits < 2 ^ (62 - bits) := by
      rw [shiftRight_eq]
      refine ⟨Int.ediv_nonneg hf.1 (by positivity), ?_⟩
      rw [Int.ediv_lt_iff_lt_mul (by positivity), two_pow_62 hb.le]
      exact hf.2
    obtain ⟨r, hloop, hrd, hrv, hrlen⟩ := shiftRightLoop_ok hb.le hrest' hextra
      (show rest.length + spill (leftover bits rest (first >>> bits)) ≤ len by rw [hleft]; omega)
    have hlen' : r.length = len := by rw [hrlen, hleft, hrl, hlen]
    have hv : value bignumRadix r = n.magnitude / 2 ^ (62 * digits + bits) := by
      have hcut : bignumRadix * value bignumRadix rest =
          2 ^ bits * (2 ^ (62 - bits) * value bignumRadix rest) := by
        rw [← mul_assoc, mul_comm (2 ^ bits), two_pow_62 hb.le]
      rw [hrv, ← hvalue, hcons, value_cons, hcut, shiftRight_eq,
        Int.add_mul_ediv_left _ _ (by positivity)]
    refine ⟨⟨false, r⟩, ?_, hwell r hrd hlen' hv, rfl, hv, ?_⟩
    · rw [hfirst, ok_bind, hdrop, hloop, ok_bind, check_ok hlen']
      rfl
    · change r.length ≤ n.length
      omega

theorem bignumShiftRightUnsigned_all :
    bignumShiftRightUnsigned n n.length 0 = .ok bignumMakeZero := by
  have hshort : leadShiftedOut n 0 = .ok false := by
    by_cases hz : n.length = 0
    · unfold leadShiftedOut
      rw [if_neg (by omega)]
      rfl
    · rw [leadShiftedOut_ok h hz, pow_zero, Int.ediv_one, decide_eq_false]
      exact fun h0 => h.lead (by rw [getLast_digits h hz, h0])
  unfold bignumShiftRightUnsigned
  rw [hshort, ok_bind]
  simp only [Bool.false_eq_true, if_false, sub_self, Int.toNat_zero]
  rw [check_ok le_rfl, ok_bind, bignumAllocate, check_ok (Nat.zero_le _), ok_bind, if_true,
    show n.digits.drop n.length = [] from List.drop_length]
  rfl

end

theorem bignumShiftRightUnsigned_past {bits} (hb : bits ≠ 0) (r : Bignum) :
    bignumShiftRightUnsigned n n.length bits ≠ .ok r := by
  intro he
  have hi : index n.digits n.length = .error .outOfBounds := by
    unfold index Bignum.length
    rw [List.getElem?_eq_none le_rfl]
  unfold bignumShiftRightUnsigned at he
  obtain ⟨short, -, he⟩ := bind_eq_ok he
  obtain ⟨-, -, he⟩ := bind_eq_ok he
  obtain ⟨-, -, he⟩ := bind_eq_ok he
  rw [if_neg hb] at he
  obtain ⟨first, hf, -⟩ := bind_eq_ok he
  rw [hi] at hf
  cases hf

/-! ### The signed right shift -/

def PastEnd (v : Int) (m : Nat) : Prop := v = -2 ^ (62 * (m / 62)) ∧ m % 62 ≠ 0

theorem neg_one_sub_ediv (c : Int) {k} (hk : 0 < k) : (-1 - c) / k = -1 - c / k := by
  have h1 := Int.emod_add_mul_ediv c k
  have h2 := Int.emod_nonneg c hk.ne'
  have h3 := Int.emod_lt_of_pos c hk
  refine ((Int.ediv_emod_unique hk (r := k - 1 - c % k)).mpr ⟨?_, by omega, by omega⟩).1
  rw [mul_sub]
  omega

theorem shift_split (m : Nat) : 62 * (m / 62) + m % 62 = m := by omega

def ShiftsRight (b : Bignum) (m : Nat) : Prop :=
  ∃ r, bignumShiftRight b m = .ok r ∧ r.WellFormed ∧ r.toInt = b.toInt / 2 ^ m ∧
    r.length ≤ bignumLengthMax

theorem bignumShiftRight_all {b} (h : b.WellFormed) {m} (hd : b.length ≤ m / 62) :
    ShiftsRight b m := by
  have hm := magnitude_lt_pow h (n := m) (by have := shift_split m; omega)
  unfold ShiftsRight bignumShiftRight
  simp only []
  rw [if_pos hd]
  cases hs : b.negative with
  | false =>
    have hv := nonnegative_toInt hs
    refine ⟨bignumMakeZero, rfl, wellFormed_zero, ?_, Nat.zero_le _⟩
    rw [hv, Int.ediv_eq_zero_of_lt h.magnitude_nonneg hm]
    rfl
  | true =>
    have hv := negative_toInt h hs
    refine ⟨bignumMakeOne true, rfl, wellFormed_one true, ?_, by decide⟩
    rw [hv.1, show -b.magnitude = -1 - (b.magnitude - 1) by ring,
      neg_one_sub_ediv _ (by positivity), Int.ediv_eq_zero_of_lt (by omega) (by omega)]
    decide

theorem bignumShiftRight_nonneg {b} (h : b.WellFormed) (ha : b.length < bignumLengthMax) {m}
    (hd : m / 62 < b.length) (hs : b.negative = false) : ShiftsRight b m := by
  obtain ⟨r, he, hw, -, hv, hl⟩ := bignumShiftRightUnsigned_ok h ha.le hd (Nat.mod_lt m (by omega))
  refine ⟨r, ?_, hw, ?_, by omega⟩
  · unfold bignumShiftRight
    simp only []
    rw [if_neg (by omega), if_neg (by rw [hs]; exact Bool.false_ne_true)]
    exact he
  · rw [hv, shift_split, nonnegative_toInt hs]

theorem bignumShiftRight_neg {b} (h : b.WellFormed) (ha : b.length < bignumLengthMax) {m}
    (hd : m / 62 < b.length) (hs : b.negative = true) :
    (¬ PastEnd b.toInt m → ShiftsRight b m) ∧
      (PastEnd b.toInt m → ∀ r, bignumShiftRight b m ≠ .ok r) := by
  obtain ⟨hv, hpos⟩ := negative_toInt h hs
  obtain ⟨c, hc, hcw, hcv⟩ := (bignumBitwiseNot_gives (N := bignumLengthMax) (by decide)
    ⟨h, ha⟩).ok fun _ => not_tooLong
  obtain ⟨⟨-, hcl⟩, hcn⟩ := small_not ⟨h, ha⟩ hs hcw hcv
  rw [nonnegative_toInt hcn] at hcv
  have hge := pow_le_magnitude h (n := 62 * (m / 62)) (by omega) (by omega)
  have heq : bignumShiftRight b m =
      (bignumShiftRightUnsigned c (m / 62) (m % 62) >>= bignumBitwiseNot) := by
    unfold bignumShiftRight
    simp only []
    rw [if_neg (by omega), if_pos hs, hc, ok_bind]
  -- what the second complement makes of a shifted complement
  have hback : ∀ {r : Bignum}, r.WellFormed → r.negative = false → r.length ≤ c.length →
      r.toInt = c.magnitude / 2 ^ m → bignumShiftRightUnsigned c (m / 62) (m % 62) = .ok r →
      ShiftsRight b m := by
    intro r hrw hrn hrl hrv hr
    obtain ⟨z, hz, hzw, hzv⟩ := (bignumBitwiseNot_gives (N := bignumLengthMax) (by decide)
      ⟨hrw, by omega⟩).ok fun _ => not_tooLong
    refine ⟨z, by rw [heq, hr, ok_bind, hz], hzw, ?_, ?_⟩
    · rw [hzv, hrv, ← neg_one_sub_ediv _ (by positivity), hcv]
      congr 1
      ring
    · refine length_le_of_magnitude_lt hzw ?_
      have h1 := Bignum.natAbs_toInt hzw
      have h2 := magnitude_lt_pow hrw (n := 62 * (bignumLengthMax - 1)) (by omega)
      have h3 := nonnegative_toInt hrn
      have h4 := hrw.magnitude_nonneg
      have hpow : (2 : Int) ^ (62 * (bignumLengthMax - 1)) < 2 ^ (62 * bignumLengthMax) :=
        pow_lt_pow_right₀ (by norm_num) (by unfold bignumLengthMax; norm_num)
      omega
  by_cases hedge : b.magnitude = 2 ^ (62 * (m / 62))
  · have hclen : c.length = m / 62 := by
      have h1 : c.length ≤ m / 62 := length_le_of_magnitude_lt hcw (by omega)
      by_contra hne
      have h2 := magnitude_lt_pow hcw (n := 62 * (m / 62 - 1)) (by omega)
      have h3 : (2 : Int) ^ (62 * (m / 62 - 1)) < 2 ^ (62 * (m / 62)) :=
        pow_lt_pow_right₀ (by norm_num) (by omega)
      omega
    by_cases hbits : m % 62 = 0
    · have hall := bignumShiftRightUnsigned_all hcw
      rw [hclen] at hall
      refine ⟨fun _ => hback (r := bignumMakeZero) wellFormed_zero rfl (Nat.zero_le _) ?_ ?_,
        fun hp => absurd hbits hp.2⟩
      · rw [Int.ediv_eq_zero_of_lt hcw.magnitude_nonneg]
        · rfl
        · have := shift_split m
          rw [show m = 62 * (m / 62) by omega]
          omega
      · rw [hbits]
        exact hall
    · refine ⟨fun hp => absurd ⟨by omega, hbits⟩ hp, fun _ z hz => ?_⟩
      rw [heq] at hz
      obtain ⟨r, hr, -⟩ := bind_eq_ok hz
      rw [← hclen] at hr
      exact bignumShiftRightUnsigned_past hbits r hr
  · have hclen : m / 62 < c.length := by
      by_contra hc
      have := magnitude_lt_pow hcw (n := 62 * (m / 62)) (by omega)
      omega
    obtain ⟨r, he, hw, hn, hrv, hl⟩ :=
      bignumShiftRightUnsigned_ok hcw hcl.le hclen (Nat.mod_lt m (by omega))
    rw [shift_split] at hrv
    refine ⟨fun _ => hback hw hn hl hrv he, fun hp => absurd ?_ hedge⟩
    have := hp.1
    omega

theorem bignumShiftRight_spec {b} (h : b.WellFormed) (ha : b.length < bignumLengthMax) (m : Nat) :
    (¬ PastEnd b.toInt m → ShiftsRight b m) ∧
      (PastEnd b.toInt m → ∀ r, bignumShiftRight b m ≠ .ok r) := by
  have hnat := Bignum.natAbs_toInt h
  have hpow : (0 : Int) < 2 ^ (62 * (m / 62)) := by positivity
  by_cases hd : b.length ≤ m / 62
  · refine ⟨fun _ => bignumShiftRight_all h hd, fun hp => ?_⟩
    have h1 := magnitude_lt_pow h (n := 62 * (m / 62)) (by omega)
    have h2 := hp.1
    omega
  · cases hs : b.negative with
    | false =>
      refine ⟨fun _ => bignumShiftRight_nonneg h ha (by omega) hs, fun hp => ?_⟩
      have h1 := nonnegative_toInt hs
      have h2 := hp.1
      omega
    | true => exact bignumShiftRight_neg h ha (by omega) hs

end MitScheme.Microcode
