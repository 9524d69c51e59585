import MitScheme.Runtime.Integer
import MitScheme.Runtime.IntegerBits

/-! # Bit fields of fixnums

The field procedures of `primitive-arithmetic.scm` over the fixnum primitives of the microcode.
A fixnum is the 58 bits of its datum. -/

namespace MitScheme.Runtime.Fixnum
open Lib.Outcome Lib.Checked Lib.TwosComplement
open Microcode Arith
open IntegerBits (InField rotated rotated_eq_emod)

/-! ## The primitives -/

def maxBitShift : Int := 58

def rightShift (source number : Int) : Int :=
  if number > maxBitShift then 0
  else if source < 0 then Int.lnot (Int.lnot source / 2 ^ number.toNat)
  else source / 2 ^ number.toNat

/-- `LEFT_SHIFT`, before the result is masked. -/
def leftShift (source number : Int) : Int :=
  if number > maxBitShift then 0 else source * 2 ^ number.toNat

/-- `fixnum-lsh`. -/
def fxarithmeticShift (n m : BitVec 58) : BitVec 58 :=
  let x := fixnumToLong n
  let y := fixnumToLong m
  longToFixnum (if y ≥ 0 then leftShift x y else rightShift x (-y))

/-- `minus-fixnum`. -/
def fxMinus (n m : BitVec 58) : BitVec 58 := longToFixnum (fixnumToLong n - fixnumToLong m)

def fxneg (n : BitVec 58) : BitVec 58 := fxMinus 0 n

def fxarithmeticShiftRight (n m : BitVec 58) : BitVec 58 := fxarithmeticShift n (fxMinus 0 m)

/-- `fx<?`. -/
def fxLess (n m : BitVec 58) : Bool := fixnumToLong n < fixnumToLong m

/-- `fx<=?`. -/
def fxLessEqual (n m : BitVec 58) : Bool := !fxLess m n

/-- `fx-width`, as its loop finds it. -/
def fxWidth : BitVec 58 := 58

/-! ## Fields -/

def checkField (start stop : BitVec 58) : Result Unit :=
  if !fxLessEqual stop fxWidth then .error .badRange
  else if !fxLessEqual start stop then .error .badRange
  else .ok ()

def fxbitField (i start stop : BitVec 58) : Result (BitVec 58) := do
  checkField start stop
  return ~~~(fxarithmeticShift (-1) (fxMinus stop start)) &&& fxarithmeticShift i (fxneg start)

def fxrotate (fieldWidth field mask count : BitVec 58) : Result (BitVec 58) := do
  let count := longToFixnum (← intModulo (fixnumToLong count) (fixnumToLong fieldWidth))
  return (mask &&& fxarithmeticShift field count) |||
    fxarithmeticShift field (fxMinus count fieldWidth)

def fxbitFieldRotate (i count start stop : BitVec 58) : Result (BitVec 58) := do
  checkField start stop
  let fieldWidth := fxMinus stop start
  let mask := ~~~(fxarithmeticShift (-1) fieldWidth)
  let field := mask &&& fxarithmeticShift i (fxneg start)
  return fxarithmeticShift (← fxrotate fieldWidth field mask count) start |||
    (~~~(fxarithmeticShift mask start) &&& i)

/-- The loop of `fxreverse`. -/
def fxreverseLoop (i : Int) (n m : BitVec 58) : BitVec 58 :=
  if i < 0 then m
  else fxreverseLoop (i - 1) (fxarithmeticShiftRight n 1) (fxarithmeticShift m 1 ||| (n &&& 1))
termination_by (i + 1).toNat

def fxreverse (fieldWidth field : BitVec 58) : BitVec 58 :=
  fxreverseLoop (fixnumToLong (fxMinus fieldWidth 1)) field 0

def fxbitFieldReverse (i start stop : BitVec 58) : Result (BitVec 58) := do
  checkField start stop
  let fieldWidth := fxMinus stop start
  let mask := ~~~(fxarithmeticShift (-1) fieldWidth)
  let field := mask &&& fxarithmeticShift i (fxneg start)
  return fxarithmeticShift (fxreverse fieldWidth field) start |||
    (~~~(fxarithmeticShift mask start) &&& i)

/-! ## What the shifts do to the bits -/

theorem long_small {n} (h : -58 ≤ n) (h' : n ≤ 58) : fixnumToLong (longToFixnum n) = n :=
  fixnumToLong_longToFixnum ⟨by norm_num; omega, by norm_num; omega⟩

theorem fxMinus_small {n m} (hn : -58 ≤ n ∧ n ≤ 58) (hm : -58 ≤ m ∧ m ≤ 58) :
    fxMinus (longToFixnum n) (longToFixnum m) = longToFixnum (n - m) := by
  rw [fxMinus, long_small hn.1 hn.2, long_small hm.1 hm.2]

theorem fxneg_small {n : Nat} (h : n ≤ 58) : fxneg (longToFixnum n) = longToFixnum (-n) := by
  have h0 : (0 : BitVec 58) = longToFixnum 0 := rfl
  rw [fxneg, h0, fxMinus_small (by omega) (by omega), Int.zero_sub]

theorem rightShift_eq {x : Int} {m : Nat} (h : m ≤ 58) : rightShift x m = x / 2 ^ m := by
  rw [rightShift, if_neg (by rw [maxBitShift]; omega), Int.toNat_natCast]
  split
  · refine eq_of_testBit_eq fun i => ?_
    rw [Int.testBit_lnot, testBit_ediv_pow, Int.testBit_lnot, testBit_ediv_pow, Bool.not_not]
  · rfl

theorem getLsbD_shift_left (x) {m : Nat} (h : m ≤ 58) (j) :
    (fxarithmeticShift x (longToFixnum m)).getLsbD j =
      (decide (j < 58) && !decide (j < m) && x.getLsbD (j - m)) := by
  have hshift : fxarithmeticShift x (longToFixnum m) = x <<< m := by
    have hpow : BitVec.ofInt 58 (2 ^ m) = BitVec.twoPow 58 m := by
      have hcast : (2 : Int) ^ m = ((2 ^ m : Nat) : Int) := by push_cast; rfl
      rw [hcast, BitVec.ofInt_natCast]
      exact BitVec.eq_of_toNat_eq (by rw [BitVec.toNat_ofNat, BitVec.toNat_twoPow])
    simp only [fxarithmeticShift, long_small (show (-58 : Int) ≤ m by omega) (by omega)]
    rw [if_pos (Int.natCast_nonneg m), leftShift, if_neg (by rw [maxBitShift]; omega),
      Int.toNat_natCast, longToFixnum, BitVec.ofInt_mul, fixnumToLong_eq, BitVec.ofInt_toInt, hpow,
      BitVec.shiftLeft_eq_mul_twoPow]
  rw [hshift, BitVec.getLsbD_shiftLeft]

theorem getLsbD_shift_right (x) {m : Nat} (h : m ≤ 58) (j) :
    (fxarithmeticShift x (longToFixnum (-m))).getLsbD j =
      (decide (j < 58) && if m + j < 58 then x.getLsbD (m + j) else x.msb) := by
  have hshift : fxarithmeticShift x (longToFixnum (-m)) = x.sshiftRight m := by
    simp only [fxarithmeticShift, long_small (show (-58 : Int) ≤ -m by omega) (by omega)]
    rcases Nat.eq_zero_or_pos m with rfl | hpos
    · rw [if_pos (by omega), leftShift, if_neg (by decide), Nat.cast_zero, neg_zero,
        Int.toNat_zero, pow_zero, mul_one, longToFixnum, fixnumToLong_eq, BitVec.ofInt_toInt,
        BitVec.sshiftRight_zero]
    · rw [if_neg (by omega), neg_neg, rightShift_eq h, fixnumToLong_eq, BitVec.sshiftRight,
        Int.shiftRight_eq_div_pow, longToFixnum]
      norm_cast
  rw [hshift, BitVec.getLsbD_sshiftRight]
  congr 1
  rw [← decide_not]
  simp

/-! ## The parts of a field -/

variable {w j start stop : Nat}

theorem getLsbD_mask (h : w ≤ 58) (hj : j < 58) :
    (~~~(fxarithmeticShift (-1) (longToFixnum w))).getLsbD j = decide (j < w) := by
  have hones : (-1 : BitVec 58) = BitVec.allOnes 58 := rfl
  rw [BitVec.getLsbD_not, getLsbD_shift_left _ h, hones, BitVec.getLsbD_allOnes,
    decide_eq_true hj, decide_eq_true (show j - w < 58 by omega)]
  simp

/-- The bits of `i` from `start` on, cut to `w` bits. -/
def fieldOf (w start : Nat) (i : BitVec 58) : BitVec 58 :=
  ~~~(fxarithmeticShift (-1) (longToFixnum w)) &&& fxarithmeticShift i (longToFixnum (-start))

theorem getLsbD_fieldOf (h : start + w ≤ 58) (i j) :
    (fieldOf w start i).getLsbD j = (decide (j < w) && i.getLsbD (start + j)) := by
  by_cases hj : j < 58
  · rw [fieldOf, BitVec.getLsbD_and, getLsbD_mask (by omega) hj, getLsbD_shift_right i (by omega),
      decide_eq_true hj, Bool.true_and]
    by_cases hw : j < w
    · rw [if_pos (by omega)]
    · rw [decide_eq_false hw, Bool.false_and, Bool.false_and]
  · rw [BitVec.getLsbD_of_ge _ _ (by omega), decide_eq_false (by omega), Bool.false_and]

/-- A field put back at `start` into `i`. -/
def replaced (w start : Nat) (i field : BitVec 58) : BitVec 58 :=
  fxarithmeticShift field (longToFixnum start) |||
    (~~~(fxarithmeticShift (~~~(fxarithmeticShift (-1) (longToFixnum w))) (longToFixnum start)) &&& i)

theorem getLsbD_replaced (h : start + w ≤ 58) (i field)
    (hfield : ∀ j, w ≤ j → start + j < 58 → field.getLsbD j = false) (hj : j < 58) :
    (replaced w start i field).getLsbD j =
      if InField w start j then field.getLsbD (j - start) else i.getLsbD j := by
  rw [replaced, BitVec.getLsbD_or, getLsbD_shift_left _ (by omega), BitVec.getLsbD_and,
    BitVec.getLsbD_not, getLsbD_shift_left _ (by omega), getLsbD_mask (by omega) (by omega),
    decide_eq_true hj, Bool.true_and, Bool.true_and]
  by_cases hstart : j < start
  · rw [if_neg fun hin => absurd hin.1 (by omega), decide_eq_true hstart]
    simp
  · by_cases hw : j - start < w
    · rw [if_pos ⟨by omega, by omega⟩, decide_eq_false hstart, decide_eq_true hw]
      simp
    · rw [if_neg fun hin => hw (by have := hin.2; omega), decide_eq_false hstart,
        decide_eq_false hw, hfield _ (by omega) (by omega)]
      simp

/-! ## The procedures -/

theorem checkField_ok {start stop : Nat} (h : start ≤ stop) (h' : stop ≤ 58) :
    checkField (longToFixnum start) (longToFixnum stop) = .ok () := by
  have hwidth : fixnumToLong fxWidth = 58 := by decide +kernel
  have hstop : fxLessEqual (longToFixnum stop) fxWidth = true := by
    rw [fxLessEqual, fxLess, hwidth, long_small (by omega) (by omega),
      decide_eq_false (by omega)]
    rfl
  have hstart : fxLessEqual (longToFixnum start) (longToFixnum stop) = true := by
    rw [fxLessEqual, fxLess, long_small (by omega) (by omega), long_small (by omega) (by omega),
      decide_eq_false (by omega)]
    rfl
  rw [checkField, hstop, hstart]
  rfl

theorem fieldWidth_eq {start stop : Nat} (h : start ≤ stop) (h' : stop ≤ 58) :
    fxMinus (longToFixnum stop) (longToFixnum start) = longToFixnum (stop - start : Nat) := by
  rw [fxMinus_small (by omega) (by omega)]
  congr 1
  omega

theorem fxbitField_eq (h : start ≤ stop) (h' : stop ≤ 58) (i) :
    fxbitField i (longToFixnum start) (longToFixnum stop) =
      .ok (fieldOf (stop - start) start i) := by
  rw [fxbitField, checkField_ok h h', fieldWidth_eq h h', fxneg_small (by omega)]
  rfl

theorem fxbitFieldReverse_eq (h : start ≤ stop) (h' : stop ≤ 58) (i) :
    fxbitFieldReverse i (longToFixnum start) (longToFixnum stop) =
      .ok (replaced (stop - start) start i
        (fxreverse (longToFixnum (stop - start : Nat)) (fieldOf (stop - start) start i))) := by
  rw [fxbitFieldReverse, checkField_ok h h', fieldWidth_eq h h', fxneg_small (by omega)]
  rfl

theorem fxbitFieldRotate_eq (h : start ≤ stop) (h' : stop ≤ 58) (i count) :
    fxbitFieldRotate i count (longToFixnum start) (longToFixnum stop) =
      (fxrotate (longToFixnum (stop - start : Nat)) (fieldOf (stop - start) start i)
        (~~~(fxarithmeticShift (-1) (longToFixnum (stop - start : Nat)))) count).map
        (replaced (stop - start) start i) := by
  rw [fxbitFieldRotate, checkField_ok h h', fieldWidth_eq h h', fxneg_small (by omega)]
  show (fxrotate _ (fieldOf (stop - start) start i) _ count >>= _) = _
  cases fxrotate (longToFixnum (stop - start : Nat)) (fieldOf (stop - start) start i)
        (~~~(fxarithmeticShift (-1) (longToFixnum (stop - start : Nat)))) count <;> rfl

/-! ## Reversing -/

theorem getLsbD_one_and (n : BitVec 58) (j) :
    (n &&& 1).getLsbD j = (decide (j = 0) && n.getLsbD 0) := by
  rw [BitVec.getLsbD_and, show (1 : BitVec 58) = 1#58 from rfl, BitVec.getLsbD_one]
  by_cases h : j = 0
  · subst h
    simp
  · simp [h]

theorem getLsbD_fxreverseLoop {k : Nat} (hk : k ≤ 58) (n m) (hj : j < 58) :
    (fxreverseLoop ((k : Int) - 1) n m).getLsbD j =
      if j < k then n.getLsbD (k - 1 - j) else m.getLsbD (j - k) := by
  induction k generalizing n m with
  | zero => rw [fxreverseLoop, if_pos (by omega), if_neg (by omega), Nat.sub_zero]
  | succ k ih =>
    have hright : fxMinus 0 1 = longToFixnum (-(1 : Nat)) := by decide +kernel
    have hleft : (1 : BitVec 58) = longToFixnum (1 : Nat) := rfl
    rw [fxreverseLoop, if_neg (by omega), show ((k + 1 : Nat) : Int) - 1 - 1 = k - 1 by omega,
      ih (by omega), fxarithmeticShiftRight, hright]
    by_cases h : j < k
    · rw [if_pos h, if_pos (by omega), getLsbD_shift_right _ (by omega),
        decide_eq_true (by omega), Bool.true_and, if_pos (by omega)]
      congr 1
      omega
    · rw [if_neg h, BitVec.getLsbD_or, getLsbD_one_and]
      nth_rewrite 1 [hleft]
      rw [getLsbD_shift_left _ (by omega), decide_eq_true (show j - k < 58 by omega)]
      by_cases hjk : j = k
      · subst hjk
        rw [if_pos (by omega), show j + 1 - 1 - j = 0 by omega]
        simp
      · rw [if_neg (by omega), decide_eq_false (show ¬ j - k = 0 by omega),
          decide_eq_false (show ¬ j - k < 1 by omega), Nat.sub_sub]
        simp

theorem getLsbD_fxreverse {w : Nat} (hw : w ≤ 58) (field : BitVec 58) {j : Nat} (hj : j < 58) :
    (fxreverse (longToFixnum w) field).getLsbD j = (decide (j < w) && field.getLsbD (w - 1 - j)) := by
  have hone : (1 : BitVec 58) = longToFixnum 1 := rfl
  rw [fxreverse, hone, fxMinus_small (by omega) (by omega), long_small (by omega) (by omega),
    getLsbD_fxreverseLoop hw _ _ hj]
  by_cases h : j < w
  · rw [if_pos h, decide_eq_true h, Bool.true_and]
  · rw [if_neg h, decide_eq_false h, Bool.false_and]
    exact BitVec.getLsbD_zero

/-! ## Rotating -/

theorem getLsbD_rotated {c : Nat} (h : start + w ≤ 58) (hc : c < w) (i) (hj : j < 58) :
    ((~~~(fxarithmeticShift (-1) (longToFixnum w)) &&&
        fxarithmeticShift (fieldOf w start i) (longToFixnum c)) |||
      fxarithmeticShift (fieldOf w start i) (longToFixnum (-(w - c : Nat)))).getLsbD j =
      if j < w then i.getLsbD (start + rotated w c j) ||
        (decide (c ≤ j ∧ w = 58) && i.msb)
      else false := by
  have hmsb : (fieldOf w start i).msb = (decide (w = 58) && i.msb) := by
    rw [BitVec.msb_eq_getLsbD_last, getLsbD_fieldOf h, BitVec.msb_eq_getLsbD_last]
    by_cases hw : w = 58
    · rw [show start = 0 by omega, Nat.zero_add, decide_eq_true (by omega), decide_eq_true hw]
    · rw [decide_eq_false (by omega), decide_eq_false hw]
      rfl
  rw [BitVec.getLsbD_or, BitVec.getLsbD_and, getLsbD_mask (by omega) hj,
    getLsbD_shift_left _ (by omega), getLsbD_shift_right _ (by omega), hmsb, getLsbD_fieldOf h,
    getLsbD_fieldOf h, decide_eq_true hj, Bool.true_and, Bool.true_and, rotated]
  by_cases hw : j < w
  · rw [if_pos hw, decide_eq_true hw, Bool.true_and]
    by_cases hcj : c ≤ j
    · rw [if_pos hcj, decide_eq_false (show ¬ j < c by omega),
        decide_eq_true (show j - c < w by omega)]
      by_cases hfull : w = 58
      · rw [if_neg (by omega), decide_eq_true hfull]
        simp [hcj, hfull]
      · have hlow : decide (c ≤ j ∧ w = 58) = false := decide_eq_false fun hx => hfull hx.2
        rw [hlow, decide_eq_false hfull, decide_eq_false (show ¬ w - c + j < w by omega)]
        simp
    · have hlow : decide (c ≤ j ∧ w = 58) = false := decide_eq_false fun hx => hcj hx.1
      rw [if_neg hcj, if_pos (by omega), hlow, decide_eq_true (show j < c by omega),
        decide_eq_true (show w - c + j < w by omega), show start + (w - c + j) =
          start + (j + w - c) by omega]
      simp
  · rw [if_neg hw, decide_eq_false hw, decide_eq_false (show ¬ w - c + j < w by omega),
      decide_eq_false (show ¬ w = 58 by omega)]
    simp

theorem fxrotate_eq {w : Nat} (hw : 0 < w) (hw' : w ≤ 58) (field mask count) :
    fxrotate (longToFixnum w) field mask count =
      .ok ((mask &&& fxarithmeticShift field (longToFixnum (fixnumToLong count % w).toNat)) |||
        fxarithmeticShift field (longToFixnum (-(w - (fixnumToLong count % w).toNat : Nat)))) := by
  have hnonneg := Int.emod_nonneg (fixnumToLong count) (show (w : Int) ≠ 0 by omega)
  have hlt := Int.emod_lt_of_pos (fixnumToLong count) (show (0 : Int) < w by omega)
  rw [fxrotate, long_small (by omega) (by omega), intModulo_pos (by omega), ok_bind]
  generalize fixnumToLong count % w = c at *
  obtain ⟨c, rfl⟩ := Int.eq_ofNat_of_zero_le hnonneg
  have hminus : fxMinus (longToFixnum c) (longToFixnum w) = longToFixnum (-(w - c : Nat)) := by
    rw [fxMinus_small (by omega) (by omega)]
    congr 1
    omega
  simp only [hminus, Int.toNat_natCast]
  rfl

theorem fxrotate_empty (field mask count) :
    fxrotate (longToFixnum (0 : Nat)) field mask count = .error .divideByZero := by
  rw [fxrotate, long_small (by omega) (by omega), Nat.cast_zero, intModulo, intRemainder,
    if_pos rfl]
  rfl

/-- `z` is `i` with the bits of a field of `w` bits at `start` replaced by those of `f`. -/
def ReplacesBits (w start : Nat) (i : BitVec 58) (f : Nat → Bool) (z : BitVec 58) : Prop :=
  ∀ j < 58, z.getLsbD j = if InField w start j then f (j - start) else i.getLsbD j

theorem replacesBits_iff (h : start + w ≤ 58) (i field)
    (hfield : ∀ j, w ≤ j → start + j < 58 → field.getLsbD j = false) (f) :
    ReplacesBits w start i f (replaced w start i field) ↔ ∀ j < w, field.getLsbD j = f j := by
  constructor
  · intro hall j hj
    have := hall (start + j) (by omega)
    rwa [getLsbD_replaced h i field hfield (by omega), if_pos ⟨by omega, by omega⟩,
      if_pos ⟨by omega, by omega⟩, Nat.add_sub_cancel_left] at this
  · intro hall j hj
    rw [getLsbD_replaced h i field hfield hj]
    split
    · next hin => exact hall _ (by have := hin.1; have := hin.2; omega)
    · rfl

theorem rotate_iff (h : start ≤ stop) (h' : stop ≤ 58) (i count) :
    (∃ z, fxbitFieldRotate i count (longToFixnum start) (longToFixnum stop) = .ok z ∧
        ReplacesBits (stop - start) start i (fun j => i.getLsbD
          (start + (((j : Int) - fixnumToLong count) % (stop - start : Nat)).toNat)) z) ↔
      start ≠ stop ∧ (stop - start < 58 ∨ 0 ≤ fixnumToLong i ∨
        ∀ j < 58 - (fixnumToLong count % 58).toNat, i.getLsbD j = true) := by
  obtain ⟨w, rfl⟩ := Nat.exists_eq_add_of_le h
  rw [fxbitFieldRotate_eq h h', Nat.add_sub_cancel_left]
  rcases Nat.eq_zero_or_pos w with rfl | hw
  · rw [fxrotate_empty]
    refine iff_of_false ?_ fun hc => hc.1 rfl
    rintro ⟨z, hz, -⟩
    cases hz
  · have hnonneg := Int.emod_nonneg (fixnumToLong count) (show (w : Int) ≠ 0 by omega)
    have hlt := Int.emod_lt_of_pos (fixnumToLong count) (show (0 : Int) < w by omega)
    have hc : (fixnumToLong count % w).toNat < w := by omega
    have hc' : fixnumToLong count % w = (fixnumToLong count % w).toNat := by omega
    have hbit {j : Nat} (hj : j < 58) := getLsbD_rotated h' hc i hj
    rw [fxrotate_eq hw (by omega)]
    have hfull : w = 58 → (fixnumToLong count % 58).toNat = (fixnumToLong count % w).toNat := by
      rintro rfl
      rfl
    generalize (fixnumToLong count % w).toNat = c at hc hc' hbit hfull
    generalize (~~~(fxarithmeticShift (-1) (longToFixnum w)) &&&
      fxarithmeticShift (fieldOf w start i) (longToFixnum c)) |||
        fxarithmeticShift (fieldOf w start i) (longToFixnum (-(w - c : Nat))) = field at hbit
    have hfield (j : Nat) (hj : w ≤ j) (hj' : start + j < 58) : field.getLsbD j = false := by
      rw [hbit (by omega), if_neg (by omega)]
    have hreturn : (∃ z, (Except.ok field).map (replaced w start i) = (Except.ok z : Result _) ∧
        ReplacesBits w start i (fun j => i.getLsbD (start + (((j : Int) - fixnumToLong count) %
          w).toNat)) z) ↔ ∀ j < w, field.getLsbD j = i.getLsbD (start + rotated w c j) := by
      have hok (z : BitVec 58) : (Except.ok field).map (replaced w start i) =
          (Except.ok z : Result _) ↔ replaced w start i field = z :=
        ⟨Except.ok.inj, congrArg Except.ok⟩
      simp only [hok, exists_eq_left']
      rw [replacesBits_iff h' i field hfield]
      refine forall₂_congr fun j hj => ?_
      rw [rotated_eq_emod hc' hc hj]
    rw [hreturn, and_iff_right (by omega)]
    have hmsb : 0 ≤ fixnumToLong i ↔ i.msb = false := by
      rw [fixnumToLong_eq, BitVec.msb_eq_toInt, decide_eq_false_iff_not, not_lt]
    rw [hmsb]
    by_cases hsmear : w = 58 ∧ i.msb = true
    · -- the sign is smeared over the bits from `c` on
      obtain ⟨rfl, hneg⟩ := hsmear
      have hstart : start = 0 := by omega
      subst hstart
      rw [hneg, hfull rfl, or_iff_right (by omega), or_iff_right Bool.false_ne_true.symm]
      constructor
      · intro hall k hk
        have := hall (k + c) (by omega)
        rw [hbit (by omega), if_pos (by omega), hneg, decide_eq_true ⟨by omega, rfl⟩,
          Bool.and_true, Bool.or_true, rotated, if_pos (by omega), Nat.zero_add,
          Nat.add_sub_cancel] at this
        exact this.symm
      · intro hall j hj
        rw [hbit (by omega), if_pos hj]
        by_cases hcj : c ≤ j
        · rw [rotated, if_pos hcj, Nat.zero_add, hall (j - c) (by omega), Bool.true_or]
        · rw [decide_eq_false fun hx => hcj hx.1, Bool.false_and, Bool.or_false]
    · refine iff_of_true (fun j hj => ?_) ?_
      · have hlow : (decide (c ≤ j ∧ w = 58) && i.msb) = false := by
          rw [← Bool.not_eq_true, Bool.and_eq_true, decide_eq_true_eq]
          exact fun hx => hsmear ⟨hx.1.2, hx.2⟩
        rw [hbit (by omega), if_pos hj, hlow, Bool.or_false]
      · rcases Nat.lt_or_ge w 58 with hlt | hge
        · exact .inl hlt
        · refine .inr (.inl ?_)
          rw [← Bool.not_eq_true]
          exact fun hx => hsmear ⟨by omega, hx⟩

/-- **When the field procedures on fixnums are right.** `fxbit-field` and `fxbit-field-reverse`
always are; `fxbit-field-rotate` fails on an empty field, and smears the sign of a negative fixnum
that is rotated as a whole. -/
theorem fixnum_fields_iff {start stop : Nat} (h : start ≤ stop) (h' : stop ≤ 58)
    (i count : BitVec 58) :
    ((∃ z, fxbitFieldRotate i count (longToFixnum start) (longToFixnum stop) = .ok z ∧
        ReplacesBits (stop - start) start i (fun j => i.getLsbD
          (start + (((j : Int) - fixnumToLong count) % (stop - start : Nat)).toNat)) z) ↔
      start ≠ stop ∧ (stop - start < 58 ∨ 0 ≤ fixnumToLong i ∨
        ∀ j < 58 - (fixnumToLong count % 58).toNat, i.getLsbD j = true)) ∧
      (∃ z, fxbitFieldReverse i (longToFixnum start) (longToFixnum stop) = .ok z ∧
        ReplacesBits (stop - start) start i
          (fun j => i.getLsbD (start + (stop - start - 1 - j))) z) ∧
      ∃ z, fxbitField i (longToFixnum start) (longToFixnum stop) = .ok z ∧
        (∀ j, z.getLsbD j = (decide (j < stop - start) && i.getLsbD (start + j))) ∧
        (stop < 58 → 0 ≤ fixnumToLong z) := by
  have hsum : start + (stop - start) ≤ 58 := by omega
  refine ⟨rotate_iff h h' i count, ⟨_, fxbitFieldReverse_eq h h' i, ?_⟩,
    ⟨_, fxbitField_eq h h' i, getLsbD_fieldOf hsum i, fun hstop => ?_⟩⟩
  · refine (replacesBits_iff hsum i _ (fun j hj hj' => ?_) _).mpr fun j hj => ?_
    · rw [getLsbD_fxreverse (by omega) _ (by omega), decide_eq_false (by omega), Bool.false_and]
    · rw [getLsbD_fxreverse (by omega) _ (by omega), decide_eq_true hj, Bool.true_and,
        getLsbD_fieldOf hsum, decide_eq_true (by omega), Bool.true_and]
  · rw [fixnumToLong_eq]
    have hmsb : (fieldOf (stop - start) start i).msb = false := by
      rw [BitVec.msb_eq_getLsbD_last, getLsbD_fieldOf hsum, decide_eq_false (by omega),
        Bool.false_and]
    rw [BitVec.msb_eq_toInt, decide_eq_false_iff_not, not_lt] at hmsb
    exact hmsb

/-- Bits 1 to 3 of 7, rotated to the right by one. -/
theorem fixnum_fields_seven :
    ∃ z, fxbitFieldRotate 7 (longToFixnum (-1)) (longToFixnum (1 : Nat)) (longToFixnum (4 : Nat)) =
        .ok z ∧
      ReplacesBits (4 - 1) 1 7 (fun j => (7 : BitVec 58).getLsbD
        (1 + (((j : Int) - fixnumToLong (longToFixnum (-1))) % (4 - 1 : Nat)).toNat)) z :=
  (fixnum_fields_iff (show 1 ≤ 4 by decide) (show 4 ≤ 58 by decide) 7 (longToFixnum (-1))).1.mpr
    ⟨by decide, .inl (by decide)⟩

/-- An empty field, and -2 rotated as a whole by one. -/
theorem fixnum_fields_faults :
    fxbitFieldRotate 5 1 2 2 = .error .divideByZero ∧
      fxbitFieldRotate (-2) 1 0 58 = .ok (-1) ∧
      ¬ReplacesBits 58 0 (-2) (fun j => (-2 : BitVec 58).getLsbD
        (0 + (((j : Int) - fixnumToLong 1) % (58 : Nat)).toNat)) (-1) := by
  refine ⟨by decide +kernel, by decide +kernel, fun h => ?_⟩
  have := h 1 (by decide)
  revert this
  decide +kernel

end MitScheme.Runtime.Fixnum
