import MitScheme.Lib.Rounding
import MitScheme.Microcode.IntegerShift

/-! # Bignums to doubles

`bignum_to_double` gathers the leading 53 bits of a bignum, looks at the bits
below them and rounds. Every double it computes is an integer, so doubles are
integers here: `double` stops the run at a result that a double does not hold
exactly, and a run that returns has made no rounding of its own. -/

namespace MitScheme.Microcode
open Lib.Checked Lib.Outcome Lib.Radix Lib.TwosComplement
open Lib.Rounding Bits

def dblMantDig : Nat := 53

def dblMaxExp : Nat := 1024

def double (v : Int) : Exec Int :=
  if v.natAbs % 2 ^ (v.natAbs.size - dblMantDig) = 0 ∧ v.natAbs.size ≤ dblMaxExp then .ok v
  else .error .overflow

def ldexp (value : Int) (exponent : Nat) : Exec Int := double (value * 2 ^ exponent)

/-! ## Gathering the significand -/

/-- The variables of the first loop after the digit at hand is added. -/
structure Turn where
  value : Int
  bitsToGet : Nat
  currentDigitBitCount : Nat
  guardBitMask : Int

/-- How the first loop ends: at `finished`, or with bits left to round by. -/
inductive Gathered
  | finished (value : Int)
  | cut (value : Int) (scaleWords index : Nat) (guardBitMask roundingCorrection : Int)

/-- The body of the first loop up to the assignment of `value`. -/
def gatherDigit (digits : List Int) (i : Nat) (turn : Turn) (mask : Int) : Exec Turn :=
  if turn.currentDigitBitCount > turn.bitsToGet then do
    let guardBitMask ← shiftedOne (turn.currentDigitBitCount - turn.bitsToGet - 1)
    let mask := Int.land mask (Int.lnot (guardBitMask * 2 - 1))
    let digit ← index digits i
    let scaled ← double (turn.value * bignumRadix)
    let part ← double (Int.land digit mask)
    let value ← double (scaled + part)
    return ⟨value, 0, turn.bitsToGet, guardBitMask⟩
  else do
    let digit ← index digits i
    let scaled ← double (turn.value * bignumRadix)
    let part ← double (Int.land digit mask)
    let value ← double (scaled + part)
    return ⟨value, turn.bitsToGet - turn.currentDigitBitCount, turn.currentDigitBitCount,
      turn.guardBitMask⟩

/-- The end of the body when all bits are gathered. A digit taken whole has
its guard bit in the next digit down. -/
def gathered (i : Nat) (turn : Turn) : Gathered :=
  if turn.currentDigitBitCount = 62 then
    match i with
    | 0 => .finished turn.value
    | below + 1 => .cut turn.value i below (2 ^ 61) 1
  else .cut turn.value i i turn.guardBitMask (turn.guardBitMask * 2)

/-- The first loop, from the digit `i` down. -/
def gatherLoop (digits : List Int) : Nat → Turn → Int → Exec Gathered
  | 0, turn, mask => do
    let turn ← gatherDigit digits 0 turn mask
    if turn.bitsToGet = 0 then return gathered 0 turn
    else return .finished turn.value
  | below + 1, turn, mask => do
    let turn ← gatherDigit digits (below + 1) turn mask
    if turn.bitsToGet = 0 then return gathered (below + 1) turn
    else gatherLoop digits below { turn with currentDigitBitCount := 62 } (bignumRadix - 1)

/-! ## Rounding -/

inductive RoundChoice
  | up
  | down
  | finished

/-- The last loop: is there a nonzero digit below `i`? -/
def scanDown (digits : List Int) : Nat → Exec Bool
  | 0 => return false
  | i + 1 => do
    let digit ← index digits i
    if digit ≠ 0 then return true else scanDown digits i

def oddP (digits : List Int) (i : Nat) (digit guardBitMask : Int) : Exec Bool :=
  if guardBitMask * 2 = bignumRadix then do
    let next ← index digits (i + 1)
    return decide (Int.land next 1 ≠ 0)
  else return decide (Int.land digit (guardBitMask * 2) ≠ 0)

/-- From the guard bit to `round_up`, `round_down` or `finished`. -/
def roundChoice (digits : List Int) (i : Nat) (guardBitMask : Int) : Exec RoundChoice := do
  let digit ← index digits i
  if Int.land digit guardBitMask = 0 then return .down
  else if Int.land digit (guardBitMask - 1) ≠ 0 then return .up
  else
    let odd ← oddP digits i digit guardBitMask
    if odd then return .up
    else if i = 0 then return .finished
    else
      let lower ← scanDown digits i
      return (if lower then .up else .down)

/-- `round_down`. -/
def scaleUp (value : Int) (scaleWords : Nat) : Exec Int :=
  if scaleWords > 0 then ldexp value (scaleWords * 62) else return value

def roundGathered (digits : List Int) : Gathered → Exec Int
  | .finished value => return value
  | .cut value scaleWords i guardBitMask roundingCorrection => do
    match ← roundChoice digits i guardBitMask with
    | .finished => return value
    | .down => scaleUp value scaleWords
    | .up =>
      let value ← double (value + roundingCorrection)
      scaleUp value scaleWords

def bignumToDouble (b : Bignum) : Exec Int :=
  if b.zeroP then return 0
  else do
    let msd ← index b.digits (b.length - 1)
    let currentDigitBitCount := ulongLengthInBits (BitVec.ofInt 64 msd)
    let found ← gatherLoop b.digits (b.length - 1) ⟨0, dblMantDig, currentDigitBitCount, 2 ^ 61⟩
      (2 ^ currentDigitBitCount - 1)
    let value ← roundGathered b.digits found
    return (if b.negative then -value else value)

/-! ## Doubles that are held -/

theorem double_ok {s e} (h0 : 0 ≤ s) (hs : s ≤ 2 ^ 53) (hb : s * 2 ^ e < 2 ^ dblMaxExp) :
    double (s * 2 ^ e) = .ok (s * 2 ^ e) := by
  obtain ⟨n, rfl⟩ := Int.eq_ofNat_of_zero_le h0
  have hn : n ≤ 2 ^ 53 := by exact_mod_cast hs
  have habs : ((n : Int) * 2 ^ e).natAbs = n * 2 ^ e := by
    rw [Int.natAbs_mul, Int.natAbs_natCast, Int.natAbs_pow]
    rfl
  have hb' : n * 2 ^ e < 2 ^ dblMaxExp := by exact_mod_cast hb
  unfold double
  rw [habs]
  refine if_pos ⟨?_, Nat.size_le.mpr hb'⟩
  refine Nat.mod_eq_zero_of_dvd ?_
  rcases Nat.eq_zero_or_pos n with rfl | hpos
  · rw [zero_mul]
    exact Nat.dvd_zero _
  rw [← Nat.shiftLeft_eq, Nat.size_shiftLeft hpos.ne', Nat.shiftLeft_eq]
  rcases Nat.eq_or_lt_of_le hn with rfl | hlt
  · rw [← pow_add, Nat.size_pow]
    exact Nat.pow_dvd_pow 2 (by unfold dblMantDig; omega)
  · have hsize : n.size ≤ 53 := Nat.size_le.mpr hlt
    exact Dvd.dvd.mul_left (Nat.pow_dvd_pow 2 (by unfold dblMantDig; omega)) n

theorem double_zero : double 0 = .ok 0 := by
  have := double_ok (s := 0) (e := 0) le_rfl (by norm_num) (by rw [zero_mul]; positivity)
  simpa using this

theorem double_small {s} (h0 : 0 ≤ s) (hs : s ≤ 2 ^ 53) : double s = .ok s := by
  have h : s * 2 ^ 0 < 2 ^ dblMaxExp := by
    rw [pow_zero, mul_one]
    exact lt_of_le_of_lt hs (pow_lt_pow_right₀ (by norm_num) (by decide))
  simpa using double_ok (e := 0) h0 hs h

/-! ## Masks -/

variable {d q : Int} {i t : Nat}

theorem land_high_mask {k} (h0 : 0 ≤ d) (hd : d < 2 ^ k) :
    Int.land d (Int.land (2 ^ k - 1) (Int.lnot (2 ^ t - 1))) = d / 2 ^ t * 2 ^ t := by
  have hmask : ∀ j : Nat, ∃ n : Nat, (2 : Int) ^ j - 1 = n ∧ n = 2 ^ j - 1 := fun j =>
    ⟨2 ^ j - 1, by push_cast [Nat.one_le_two_pow]; rfl, rfl⟩
  obtain ⟨n, rfl⟩ := Int.eq_ofNat_of_zero_le h0
  have hn : n < 2 ^ k := by exact_mod_cast hd
  obtain ⟨a, ha, rfl⟩ := hmask k
  obtain ⟨c, hc, rfl⟩ := hmask t
  have hr : (n : Int) / 2 ^ t * 2 ^ t = ((2 ^ t * (n / 2 ^ t) + 0 : Nat) : Int) := by
    push_cast
    ring
  rw [ha, hc, hr]
  refine eq_of_testBit_eq fun i => ?_
  rw [Int.testBit_land, Int.testBit_land, Int.testBit_lnot]
  simp only [testBit_natCast, Nat.testBit_two_pow_sub_one]
  rw [Nat.testBit_two_pow_mul_add _ (by positivity)]
  by_cases hi : i < t
  · simp [hi]
  · rw [if_neg hi, Nat.testBit_div_two_pow]
    simp only [hi, decide_false, Bool.not_false, Bool.and_true, show i - t + t = i by omega]
    by_cases hk : i < k
    · simp [hk]
    · have : n < 2 ^ i := lt_of_lt_of_le hn (Nat.pow_le_pow_right (by omega) (by omega))
      simp [Nat.testBit_lt_two_pow this]

theorem land_bit (h0 : 0 ≤ d) (k : Nat) : Int.land d (2 ^ k) = 0 ↔ d / 2 ^ k % 2 = 0 := by
  obtain ⟨n, rfl⟩ := Int.eq_ofNat_of_zero_le h0
  have he : Int.land n (2 ^ k) = ((n &&& 2 ^ k : Nat) : Int) := by
    rw [show (2 : Int) ^ k = ((2 ^ k : Nat) : Int) by push_cast; rfl]
    rfl
  have hq : (n : Int) / 2 ^ k % 2 = ((n / 2 ^ k % 2 : Nat) : Int) := by push_cast; rfl
  rw [he, hq, Nat.cast_eq_zero, Nat.cast_eq_zero, Nat.and_two_pow, Nat.testBit_eq_decide_div_mod_eq]
  have hpos : 0 < 2 ^ k := by positivity
  rcases Nat.mod_two_eq_zero_or_one (n / 2 ^ k) with h | h <;> simp [h]

theorem guard_split (t : Nat) : d % 2 ^ (t + 1) = d / 2 ^ t % 2 * 2 ^ t + d % 2 ^ t := by
  have h1 := Int.emod_add_mul_ediv d (2 ^ t)
  have h2 := Int.emod_add_mul_ediv (d / 2 ^ t) 2
  have h3 := Int.emod_add_mul_ediv d (2 ^ (t + 1))
  have h4 : d / 2 ^ (t + 1) = d / 2 ^ t / 2 := by
    rw [pow_succ, Int.ediv_ediv_of_nonneg (by positivity)]
  rw [h4, pow_succ] at h3
  rw [pow_succ]
  linear_combination h3 - h1 - 2 ^ t * h2

/-! ## The choice -/

theorem scanDown_ok {ds} (hd : Digits bignumRadix ds) (hi : i ≤ ds.length) :
    scanDown ds i = .ok (decide (value bignumRadix (ds.take i) ≠ 0)) := by
  induction i with
  | zero => rfl
  | succ i ih =>
    have hlt : i < ds.length := hi
    have hget : ds.take (i + 1) = ds.take i ++ [ds[i]] := List.take_succ_eq_append_getElem hlt
    have hdig := hd ds[i] (List.getElem_mem hlt)
    have hlow := value_nonneg bignumRadix_pos (hd.take i)
    have hindex : index ds i = .ok ds[i] := by
      unfold index
      rw [List.getElem?_eq_getElem hlt]
    have hval : value bignumRadix (ds.take (i + 1)) =
        value bignumRadix (ds.take i) + bignumRadix ^ i * ds[i] := by
      rw [hget, value_append, value_cons, value_nil, mul_zero, add_zero, List.length_take,
        Nat.min_eq_left hlt.le]
    have hprod : 0 ≤ bignumRadix ^ i * ds[i] := mul_nonneg (pow_pos bignumRadix_pos i).le hdig.1
    rw [scanDown, hindex, ok_bind, hval]
    by_cases h0 : ds[i] = 0
    · rw [if_neg (not_not.mpr h0), h0, mul_zero, add_zero]
      exact ih hlt.le
    · have hpos : 0 < bignumRadix ^ i * ds[i] :=
        mul_pos (pow_pos bignumRadix_pos i) (lt_of_le_of_ne hdig.1 (Ne.symm h0))
      rw [if_pos h0, decide_eq_true (by omega)]
      rfl

/-- The leading bits `q` of a magnitude are cut off in the digit `d`, above
`t` of its bits; `q` has 53 bits and its last one is the bit `t` of `d`. -/
structure CutAt (b : Bignum) (i t : Nat) (d q : Int) : Prop where
  place : i < b.length
  digit : index b.digits i = .ok d
  range : 0 ≤ d ∧ d < bignumRadix
  bits : 1 ≤ t ∧ t ≤ 61
  significand : 2 ^ 52 ≤ q ∧ q < 2 ^ 53
  parity : q % 2 = d / 2 ^ t % 2
  split : b.magnitude =
    q * 2 ^ (62 * i + t) + (d % 2 ^ t * bignumRadix ^ i + value bignumRadix (b.digits.take i))

theorem roundChoice_eq {b} (h : b.WellFormed) (hc : CutAt b i (t + 1) d q) :
    roundChoice b.digits i (2 ^ t) =
      (if d / 2 ^ t % 2 = 0 then (.ok .down : Exec RoundChoice)
        else if d % 2 ^ t ≠ 0 then .ok .up
        else if q % 2 ≠ 0 then .ok .up
        else if i = 0 then .ok .finished
        else .ok (if value bignumRadix (b.digits.take i) ≠ 0 then .up else .down)) := by
  have hbits := hc.bits
  have hodd : oddP b.digits i d (2 ^ t) = .ok (decide (q % 2 ≠ 0)) := by
    have hne : (2 : Int) ^ t * 2 ≠ bignumRadix := by
      have hlt : (2 : Int) ^ (t + 1) < 2 ^ 62 := pow_lt_pow_right₀ (by norm_num) (by omega)
      rw [← pow_succ]
      exact hlt.ne
    unfold oddP
    rw [if_neg hne, ← pow_succ, hc.parity]
    exact congrArg Except.ok (decide_eq_decide.mpr (not_congr (land_bit hc.range.1 (t + 1))))
  unfold roundChoice
  rw [hc.digit, ok_bind, land_mask t hc.range.1, hodd, scanDown_ok h.digits hc.place.le]
  simp only [ok_bind, decide_eq_true_eq, land_bit hc.range.1 t]
  rfl

theorem roundChoice_nearest {b : Bignum} (h : b.WellFormed) (hc : CutAt b i (t + 1) d q) :
    ∃ choice, roundChoice b.digits i (2 ^ t) = .ok choice ∧
      (choice = .finished → i = 0) ∧
      (choice = .up → NearestEven 53 b.magnitude ((q + 1) * 2 ^ (62 * i + (t + 1)))) ∧
      (choice ≠ .up → NearestEven 53 b.magnitude (q * 2 ^ (62 * i + (t + 1)))) := by
  obtain ⟨hq, hq'⟩ := hc.significand
  have hlow0 := value_nonneg bignumRadix_pos (h.digits.take i)
  have hlow1 := value_lt_pow bignumRadix_pos (h.digits.take i)
  rw [List.length_take, Nat.min_eq_left (show i ≤ b.digits.length from hc.place.le)] at hlow1
  have hpow : (2 : Int) ^ (62 * i + (t + 1)) = 2 * (2 ^ t * bignumRadix ^ i) := by
    rw [bignumRadix_pow]
    ring
  have hRpos : (0 : Int) < bignumRadix ^ i := pow_pos bignumRadix_pos i
  have hTpos : (0 : Int) < 2 ^ t := by positivity
  have hzero : i = 0 → value bignumRadix (b.digits.take i) = 0 := by rintro rfl; rfl
  have hrest0 : 0 ≤ d % 2 ^ t := Int.emod_nonneg _ hTpos.ne'
  have hrest1 : d % 2 ^ t < 2 ^ t := Int.emod_lt_of_pos _ hTpos
  have hbelow0 : 0 ≤ d % 2 ^ t * bignumRadix ^ i := mul_nonneg hrest0 hRpos.le
  have hbelow1 : d % 2 ^ t * bignumRadix ^ i + value bignumRadix (b.digits.take i) <
      2 ^ t * bignumRadix ^ i := by
    have := mul_le_mul_of_nonneg_right (show d % 2 ^ t + 1 ≤ 2 ^ t by omega) hRpos.le
    rw [add_mul, one_mul] at this
    omega
  have hsplit := hc.split
  rw [guard_split, add_mul, mul_assoc, add_assoc] at hsplit
  rw [roundChoice_eq h hc, hsplit]
  generalize value bignumRadix (b.digits.take i) = low at *
  have hdown : ∀ rem : Int, 0 ≤ rem → 2 * rem ≤ 2 ^ (62 * i + (t + 1)) →
      (2 * rem = 2 ^ (62 * i + (t + 1)) → Even q) →
      NearestEven 53 (q * 2 ^ (62 * i + (t + 1)) + rem) (q * 2 ^ (62 * i + (t + 1))) :=
    fun _ => nearestEven_down (by norm_num) hq hq'
  have hup : ∀ rem : Int, rem ≤ 2 ^ (62 * i + (t + 1)) → 2 ^ (62 * i + (t + 1)) ≤ 2 * rem →
      (2 * rem = 2 ^ (62 * i + (t + 1)) → Odd q) →
      NearestEven 53 (q * 2 ^ (62 * i + (t + 1)) + rem) ((q + 1) * 2 ^ (62 * i + (t + 1))) :=
    fun _ => nearestEven_up (by norm_num) hq hq'
  simp only [hpow] at hdown hup ⊢
  by_cases hg : d / 2 ^ t % 2 = 0
  · rw [if_pos hg, hg, zero_mul, zero_add]
    refine ⟨.down, rfl, by simp, by simp, fun _ => hdown _ (by omega) (by omega) (by omega)⟩
  have hg1 : d / 2 ^ t % 2 = 1 := by omega
  rw [if_neg hg, hg1, one_mul]
  by_cases hs : d % 2 ^ t ≠ 0
  · have hpos : 0 < d % 2 ^ t * bignumRadix ^ i := mul_pos (by omega) hRpos
    rw [if_pos hs]
    exact ⟨.up, rfl, by simp, fun _ => hup _ (by omega) (by omega) (by omega), by simp⟩
  rw [if_neg hs, not_not.mp hs, zero_mul, zero_add]
  by_cases ho : q % 2 ≠ 0
  · rw [if_pos ho]
    exact ⟨.up, rfl, by simp, fun _ => hup _ (by omega) (by omega)
      (fun _ => Int.odd_iff.mpr (by omega)), by simp⟩
  have heven : Even q := Int.even_iff.mpr (not_not.mp ho)
  rw [if_neg ho]
  by_cases hi : i = 0
  · rw [if_pos hi, hzero hi]
    exact ⟨.finished, rfl, fun _ => hi, by simp, fun _ => hdown _ (by omega) (by omega)
      (fun _ => heven)⟩
  rw [if_neg hi]
  by_cases hl : low ≠ 0
  · rw [if_pos hl]
    exact ⟨.up, rfl, by simp, fun _ => hup _ (by omega) (by omega) (by omega), by simp⟩
  · rw [if_neg hl, not_not.mp hl]
    exact ⟨.down, rfl, by simp, by simp, fun _ => hdown _ (by omega) (by omega) (fun _ => heven)⟩

/-! ## The rounded result -/

/-- The overflow threshold: from here on the nearest double is infinite. -/
def doubleThreshold : Int := 2 ^ dblMaxExp - 2 ^ (dblMaxExp - dblMantDig - 1)

theorem scaleUp_ok {v n} : scaleUp v n = if n > 0 then double (v * bignumRadix ^ n) else .ok v := by
  unfold scaleUp ldexp
  rw [bignumRadix_pow, mul_comm n 62]
  rfl

theorem roundGathered_cut {b} (h : b.WellFormed) (hb : b.magnitude < doubleThreshold)
    (hc : CutAt b i (t + 1) d q) :
    ∃ r, roundGathered b.digits (.cut (q * 2 ^ (t + 1)) i i (2 ^ t) (2 ^ t * 2)) = .ok r ∧
      NearestEven 53 b.magnitude r := by
  obtain ⟨choice, hchoice, hfin, hup, hdown⟩ := roundChoice_nearest h hc
  obtain ⟨hq, hq'⟩ := hc.significand
  have hbits := hc.bits
  -- the scaled result of a significand
  have hscale : ∀ s : Int, 0 ≤ s → s ≤ 2 ^ 53 →
      NearestEven 53 b.magnitude (s * 2 ^ (62 * i + (t + 1))) →
      scaleUp (s * 2 ^ (t + 1)) i = .ok (s * 2 ^ (62 * i + (t + 1))) := by
    intro s h0 hs hnear
    have hpow : s * 2 ^ (t + 1) * 2 ^ (62 * i) = s * 2 ^ (62 * i + (t + 1)) := by ring
    have hlt : s * 2 ^ (62 * i + (t + 1)) < 2 ^ dblMaxExp := hnear.lt_pow (n := 970) hb
    rw [scaleUp_ok, bignumRadix_pow, hpow, double_ok h0 hs hlt]
    by_cases hi : i > 0
    · rw [if_pos hi]
    · rw [if_neg hi, show i = 0 by omega, mul_zero, zero_add]
  unfold roundGathered
  simp only [hchoice, ok_bind]
  cases choice with
  | finished =>
    have hi := hfin rfl
    refine ⟨_, rfl, ?_⟩
    have := hdown (by simp)
    rwa [hi, mul_zero, zero_add] at this
  | down =>
    have hnear := hdown (by simp)
    exact ⟨_, hscale q (by omega) hq'.le hnear, hnear⟩
  | up =>
    have hnear := hup rfl
    have hsum : q * 2 ^ (t + 1) + 2 ^ t * 2 = (q + 1) * 2 ^ (t + 1) := by ring
    have hlt : (q + 1) * 2 ^ (t + 1) < 2 ^ dblMaxExp :=
      mul_pow_lt (i := 54) (by omega) (by unfold dblMaxExp; omega)
    refine ⟨_, ?_, hnear⟩
    simp only [hsum, double_ok (show 0 ≤ q + 1 by omega) (by omega) hlt, ok_bind]
    exact hscale (q + 1) (by omega) (by omega) hnear

/-! ## The gathered bits -/

/-- The leading digit of a bignum, of `c` bits, with `n` digits below it. -/
structure Leading (b : Bignum) (n : Nat) (top : Int) (c : Nat) : Prop where
  length : b.length = n + 1
  digit : index b.digits n = .ok top
  split : b.magnitude = top * bignumRadix ^ n + value bignumRadix (b.digits.take n)
  range : 0 ≤ top ∧ top < bignumRadix
  size : 1 ≤ c ∧ c ≤ 62
  bounds : 2 ^ (c - 1) ≤ top ∧ top < 2 ^ c
  count : ulongLengthInBits (BitVec.ofInt 64 top) = c

theorem exists_leading {b} (h : b.WellFormed) (hz : b.length ≠ 0) :
    ∃ n top c, Leading b n top c := by
  have hne : b.digits ≠ [] := fun h0 => hz (by simp [Bignum.length, h0])
  obtain ⟨init, top, he⟩ := (List.eq_nil_or_concat b.digits).resolve_left hne
  rw [List.concat_eq_append] at he
  have hrange : 0 ≤ top ∧ top < bignumRadix := h.digits top (by rw [he]; simp)
  have hsize : top.natAbs.size ≠ 0 := fun h0 => by
    have := Nat.size_eq_zero.mp h0
    exact h.lead (by rw [he]; simp; omega)
  have hle : top.natAbs.size ≤ 62 := by
    rw [Nat.size_le]
    have := hrange.2
    unfold bignumRadix at this
    omega
  have hbounds := size_bounds hrange.1
  refine ⟨init.length, top, top.natAbs.size, ?_, index_of_cut he rfl, ?_, hrange, ⟨by omega, hle⟩,
    ⟨hbounds.2 hsize, hbounds.1⟩,
    ulongLengthInBits_ofInt hrange.1 (lt_trans hrange.2 (by norm_num [bignumRadix]))⟩
  · rw [Bignum.length, he, List.length_append, List.length_singleton]
  · rw [Bignum.magnitude, he, List.take_left, value_append, value_cons, value_nil]
    ring

theorem gatherDigit_part {digits bits v w g} (hi : index digits i = .ok d) (h0 : 0 ≤ d)
    (hd : d < 2 ^ (bits + (t + 1))) (ht : t < 62) (hv : v * bignumRadix = w * 2 ^ (t + 1))
    (hw : 0 ≤ w) (hw' : w + d / 2 ^ (t + 1) < 2 ^ 53) :
    gatherDigit digits i ⟨v, bits, bits + (t + 1), g⟩ (2 ^ (bits + (t + 1)) - 1) =
      .ok ⟨(w + d / 2 ^ (t + 1)) * 2 ^ (t + 1), 0, bits, 2 ^ t⟩ := by
  have hq : 0 ≤ d / 2 ^ (t + 1) := Int.ediv_nonneg h0 (by positivity)
  have hlt : ∀ s : Int, s < 2 ^ 53 → s * 2 ^ (t + 1) < 2 ^ dblMaxExp := fun s hs =>
    mul_pow_lt hs (by unfold dblMaxExp; omega)
  have hone : shiftedOne (((bits + (t + 1) : Nat) : Int) - bits - 1) = .ok (2 ^ t) := by
    rw [show ((bits + (t + 1) : Nat) : Int) - bits - 1 = t by omega, shiftedOne,
      if_pos (by omega), Int.toNat_natCast]
  have hmask : Int.land d (Int.land (2 ^ (bits + (t + 1)) - 1) (Int.lnot (2 ^ t * 2 - 1))) =
      d / 2 ^ (t + 1) * 2 ^ (t + 1) := by
    rw [← pow_succ]
    exact land_high_mask h0 hd
  unfold gatherDigit
  rw [if_pos (by simp only []; omega)]
  simp only [hone, hi, ok_bind, hv, hmask]
  rw [double_ok hw (by omega) (hlt w (by omega)), ok_bind,
    double_ok hq (by omega) (hlt _ (by omega)), ok_bind, ← add_mul,
    double_ok (by omega) hw'.le (hlt _ hw'), ok_bind]
  rfl

theorem gatherDigit_whole {digits bits c g} (hi : index digits i = .ok d) (h0 : 0 ≤ d)
    (hd : d < 2 ^ c) (hc : c ≤ bits) (hb : bits ≤ 53) :
    gatherDigit digits i ⟨0, bits, c, g⟩ (2 ^ c - 1) = .ok ⟨d, bits - c, c, g⟩ := by
  have hsmall : d ≤ 2 ^ 53 := le_trans hd.le (pow_le_pow_right₀ (by norm_num) (by omega))
  unfold gatherDigit
  rw [if_neg (by simp only []; omega)]
  simp only [hi, ok_bind, zero_mul, double_zero, land_mask c h0, Int.emod_eq_of_lt h0 hd,
    double_small h0 hsmall, zero_add]
  rfl

theorem gatherLoop_wide {b n top} (hl : Leading b n top (53 + (t + 1))) :
    gatherLoop b.digits n ⟨0, dblMantDig, 53 + (t + 1), 2 ^ 61⟩ (2 ^ (53 + (t + 1)) - 1) =
        .ok (.cut (top / 2 ^ (t + 1) * 2 ^ (t + 1)) n n (2 ^ t) (2 ^ t * 2)) ∧
      CutAt b n (t + 1) top (top / 2 ^ (t + 1)) := by
  have hsize := hl.size
  have hq : 2 ^ 52 ≤ top / 2 ^ (t + 1) ∧ top / 2 ^ (t + 1) < 2 ^ 53 := by
    obtain ⟨h1, h2⟩ := hl.bounds
    refine ⟨(Int.le_ediv_iff_mul_le (by positivity)).mpr ?_,
      (Int.ediv_lt_iff_lt_mul (by positivity)).mpr ?_⟩
    · rw [← pow_add, show 52 + (t + 1) = 53 + (t + 1) - 1 by omega]
      exact h1
    · rwa [← pow_add]
  have hpart := gatherDigit_part (w := 0) (g := 2 ^ 61) hl.digit hl.range.1 hl.bounds.2 (by omega)
    (by rw [zero_mul, zero_mul]) le_rfl (by rw [zero_add]; exact hq.2)
  rw [zero_add] at hpart
  constructor
  · cases n <;>
      simp only [gatherLoop, dblMantDig, hpart, ok_bind, gathered] <;> rfl
  · refine ⟨by rw [hl.length]; omega, hl.digit, hl.range, by omega, hq, rfl, ?_⟩
    rw [hl.split, bignumRadix_pow]
    nth_rewrite 1 [← Int.emod_add_mul_ediv top (2 ^ (t + 1))]
    ring

theorem gatherLoop_two {b} (h : b.WellFormed) {n c top} (hl : Leading b (n + 1) top c)
    (hc : c + 9 = t + 1) (hc' : c < 53) :
    ∃ d q, gatherLoop b.digits (n + 1) ⟨0, dblMantDig, c, 2 ^ 61⟩ (2 ^ c - 1) =
        .ok (.cut (q * 2 ^ (t + 1)) n n (2 ^ t) (2 ^ t * 2)) ∧ CutAt b n (t + 1) d q := by
  have hsize := hl.size
  have hlen : n < b.digits.length := by
    have := hl.length
    unfold Bignum.length at this
    omega
  obtain ⟨d, hget⟩ : ∃ d, b.digits[n] = d := ⟨_, rfl⟩
  have hd : 0 ≤ d ∧ d < bignumRadix := h.digits d (by rw [← hget]; exact List.getElem_mem hlen)
  have hindex : index b.digits n = .ok d := by
    unfold index
    rw [List.getElem?_eq_getElem hlen, hget]
  have htake : value bignumRadix (b.digits.take (n + 1)) =
      value bignumRadix (b.digits.take n) + bignumRadix ^ n * d := by
    rw [List.take_succ_eq_append_getElem hlen, hget, value_append, value_cons, value_nil, mul_zero,
      add_zero, List.length_take, Nat.min_eq_left hlen.le]
  have hradix : bignumRadix = 2 ^ (53 - c) * 2 ^ (t + 1) := by
    rw [← pow_add, show 53 - c + (t + 1) = 62 by omega]
    norm_num [bignumRadix]
  have hdq : 0 ≤ d / 2 ^ (t + 1) ∧ d / 2 ^ (t + 1) < 2 ^ (53 - c) := by
    refine ⟨Int.ediv_nonneg hd.1 (by positivity), (Int.ediv_lt_iff_lt_mul (by positivity)).mpr ?_⟩
    rw [← hradix]
    exact hd.2
  have hq : 2 ^ 52 ≤ top * 2 ^ (53 - c) + d / 2 ^ (t + 1) ∧
      top * 2 ^ (53 - c) + d / 2 ^ (t + 1) < 2 ^ 53 := by
    obtain ⟨h1, h2⟩ := hl.bounds
    have h3 := pow_mul_pow_le (j := 53 - c) (k := 52) h1 (by omega)
    have h4 := mul_le_mul_of_nonneg_right (show top + 1 ≤ 2 ^ c by omega)
      (show (0 : Int) ≤ 2 ^ (53 - c) by positivity)
    rw [add_mul, one_mul, ← pow_add, show c + (53 - c) = 53 by omega] at h4
    omega
  have hwhole := gatherDigit_whole (g := 2 ^ 61) hl.digit hl.range.1 hl.bounds.2 hc'.le le_rfl
  have hpart : gatherDigit b.digits n ⟨top, 53 - c, 62, 2 ^ 61⟩ (bignumRadix - 1) =
      .ok ⟨(top * 2 ^ (53 - c) + d / 2 ^ (t + 1)) * 2 ^ (t + 1), 0, 53 - c, 2 ^ t⟩ := by
    have hwide : 53 - c + (t + 1) = 62 := by omega
    have hcount : (2 : Int) ^ (53 - c + (t + 1)) = bignumRadix := by rw [pow_add, hradix]
    have hd' : d < 2 ^ (53 - c + (t + 1)) := hcount ▸ hd.2
    have := gatherDigit_part (g := 2 ^ 61) hindex hd.1 hd' (by omega)
      (show top * bignumRadix = top * 2 ^ (53 - c) * 2 ^ (t + 1) by rw [hradix, mul_assoc])
      (mul_nonneg hl.range.1 (by positivity)) hq.2
    rwa [hcount, hwide] at this
  refine ⟨d, top * 2 ^ (53 - c) + d / 2 ^ (t + 1), ?_, ?_⟩
  · rw [gatherLoop, dblMantDig, hwhole, ok_bind, if_neg (by simp only []; omega)]
    have hne : 53 - c ≠ 62 := by omega
    cases n <;> simp only [gatherLoop, hpart, ok_bind, gathered, if_true, if_neg hne] <;> rfl
  · refine ⟨by rw [hl.length]; omega, hindex, hd, by omega, hq, ?_, ?_⟩
    · rw [show 53 - c = 52 - c + 1 by omega, pow_succ, ← mul_assoc]
      omega
    · have hdiv := Int.emod_add_mul_ediv d (2 ^ (t + 1))
      have hscale : (2 : Int) ^ (62 * n + (t + 1)) = 2 ^ (t + 1) * bignumRadix ^ n := by
        rw [bignumRadix_pow]
        ring
      rw [hl.split, htake, hscale, pow_succ]
      nth_rewrite 2 [hradix]
      linear_combination (- bignumRadix ^ n) * hdiv

theorem gatherLoop_short {b c top} (hl : Leading b 0 top c) (hc : c < 53) :
    gatherLoop b.digits 0 ⟨0, dblMantDig, c, 2 ^ 61⟩ (2 ^ c - 1) = .ok (.finished top) := by
  have hwhole := gatherDigit_whole (g := 2 ^ 61) hl.digit hl.range.1 hl.bounds.2 hc.le le_rfl
  rw [gatherLoop, dblMantDig, hwhole, ok_bind, if_neg (by simp only []; omega)]
  rfl

/-- **A leading digit of 53 bits keeps the initial guard bit**, bit 61 of the
leading digit itself, where it should be bit 61 of the next digit. -/
theorem gatherLoop_even {b n top} (hl : Leading b n top 53) :
    gatherLoop b.digits n ⟨0, dblMantDig, 53, 2 ^ 61⟩ (2 ^ 53 - 1) =
      .ok (.cut top n n (2 ^ 61) (2 ^ 61 * 2)) := by
  have hwhole := gatherDigit_whole (g := 2 ^ 61) hl.digit hl.range.1 hl.bounds.2 le_rfl le_rfl
  cases n <;> simp only [gatherLoop, dblMantDig, hwhole, ok_bind, gathered] <;> rfl

/-! ## Rounding to the nearest double -/

/-- The leading digit has exactly 53 bits and the digits below it call for
rounding up: they are more than half of a unit of that digit, or half of one
and the digit is odd. -/
def GuardBitMissed (b : Bignum) : Prop :=
  let unit := bignumRadix ^ (b.length - 1)
  let top := b.magnitude / unit
  let low := b.magnitude % unit
  top.natAbs.size = dblMantDig ∧ (unit < 2 * low ∨ (2 * low = unit ∧ Odd top))

/-- The conversion returns the integer with a significand of 53 bits that is
nearest, ties to even. -/
def RoundsCorrectly (b : Bignum) : Prop :=
  ∃ r, bignumToDouble b = .ok r ∧ NearestEven dblMantDig b.toInt r

namespace Leading
variable {b : Bignum} {n c : Nat} {top : Int}

section
variable (hl : Leading b n top c)
include hl

theorem low_lt (h : b.WellFormed) : value bignumRadix (b.digits.take n) < bignumRadix ^ n := by
  have hlow := value_lt_pow bignumRadix_pos (h.digits.take n)
  have hlen : (b.digits.take n).length = n := by
    have := hl.length
    unfold Bignum.length at this
    rw [List.length_take]
    omega
  rwa [hlen] at hlow

theorem parts (h : b.WellFormed) :
    b.magnitude / bignumRadix ^ n = top ∧
      b.magnitude % bignumRadix ^ n = value bignumRadix (b.digits.take n) := by
  have hpos : (0 : Int) < bignumRadix ^ n := pow_pos bignumRadix_pos n
  have hlow0 := value_nonneg bignumRadix_pos (h.digits.take n)
  have hlow1 := hl.low_lt h
  have hs := hl.split
  rw [mul_comm, add_comm] at hs
  rw [hs, Int.add_mul_ediv_left _ _ hpos.ne', Int.ediv_eq_zero_of_lt hlow0 hlow1, zero_add,
    Int.add_mul_emod_self_left, Int.emod_eq_of_lt hlow0 hlow1]
  exact ⟨rfl, rfl⟩

theorem size_eq : top.natAbs.size = c := by
  rw [← hl.count, ulongLengthInBits_ofInt hl.range.1
    (lt_trans hl.range.2 (by norm_num [bignumRadix]))]

theorem roundsCorrectly_iff {found}
    (hg : gatherLoop b.digits n ⟨0, dblMantDig, c, 2 ^ 61⟩ (2 ^ c - 1) = .ok found) :
    RoundsCorrectly b ↔
      ∃ r, roundGathered b.digits found = .ok r ∧ NearestEven dblMantDig b.magnitude r := by
  have hz : ¬ b.zeroP = true := by
    rw [Bignum.zeroP, hl.length]
    simp
  have hrun : bignumToDouble b =
      (roundGathered b.digits found >>= fun v => .ok (if b.negative then -v else v)) := by
    unfold bignumToDouble
    rw [if_neg hz, hl.length, Nat.add_sub_cancel, hl.digit, ok_bind]
    simp only [hl.count, hg, ok_bind]
    rfl
  unfold RoundsCorrectly
  rw [hrun, Bignum.toInt]
  constructor
  · rintro ⟨r, hr, hnear⟩
    obtain ⟨v, hv, he⟩ := bind_eq_ok hr
    refine ⟨v, hv, ?_⟩
    cases he
    split at hnear
    · simpa using hnear.neg
    · exact hnear
  · rintro ⟨v, hv, hnear⟩
    refine ⟨_, by rw [hv, ok_bind], ?_⟩
    split
    · exact hnear.neg
    · exact hnear

theorem guardBitMissed_iff (h : b.WellFormed) : GuardBitMissed b ↔
    c = 53 ∧ (bignumRadix ^ n < 2 * value bignumRadix (b.digits.take n) ∨
      (2 * value bignumRadix (b.digits.take n) = bignumRadix ^ n ∧ Odd top)) := by
  obtain ⟨h1, h2⟩ := hl.parts h
  unfold GuardBitMissed
  simp only [hl.length, Nat.add_sub_cancel, h1, h2, hl.size_eq, dblMantDig]

end

theorem roundGathered_even (hl : Leading b n top 53) (hb : b.magnitude < doubleThreshold)
    (h : b.WellFormed) :
    roundGathered b.digits (.cut top n n (2 ^ 61) (2 ^ 61 * 2)) = .ok (top * bignumRadix ^ n) := by
  have hland : Int.land top (2 ^ 61) = 0 := by
    rw [land_bit hl.range.1, Int.ediv_eq_zero_of_lt hl.range.1
      (lt_trans hl.bounds.2 (by norm_num))]
    rfl
  have hchoice : roundChoice b.digits n (2 ^ 61) = .ok .down := by
    unfold roundChoice
    rw [hl.digit, ok_bind, if_pos hland]
    rfl
  have hlow0 := value_nonneg bignumRadix_pos (h.digits.take n)
  have hlt : top * 2 ^ (62 * n) < 2 ^ dblMaxExp := by
    have hs := hl.split
    have hpos : (0 : Int) < 2 ^ (dblMaxExp - dblMantDig - 1) := by positivity
    rw [bignumRadix_pow] at hs
    unfold doubleThreshold at hb
    omega
  unfold roundGathered
  simp only [hchoice, ok_bind]
  rw [scaleUp_ok, bignumRadix_pow, double_ok hl.range.1 hl.bounds.2.le hlt]
  by_cases hn : n > 0
  · rw [if_pos hn]
  · rw [if_neg hn, show n = 0 by omega, mul_zero, pow_zero, mul_one]

end Leading

/-- **A bignum below the overflow threshold is converted to the nearest double
exactly when the guard bit is not missed.** -/
theorem bignum_to_double_nearest_iff {b : Bignum} (h : b.WellFormed)
    (hb : b.magnitude < doubleThreshold) : RoundsCorrectly b ↔ ¬ GuardBitMissed b := by
  by_cases hz : b.length = 0
  · have hnil : b.digits = [] := List.length_eq_zero_iff.mp hz
    have hmiss : ¬ GuardBitMissed b := by
      unfold GuardBitMissed Bignum.magnitude
      simp [hnil, dblMantDig]
    have hrun : bignumToDouble b = .ok 0 := if_pos (Bignum.zeroP_iff.mpr hnil)
    refine iff_of_true ⟨0, hrun, ?_⟩ hmiss
    rw [Bignum.toInt_of_nil hnil]
    exact nearestEven_self ⟨0, 0, by norm_num, by norm_num⟩
  obtain ⟨n, top, c, hl⟩ := exists_leading h hz
  rw [hl.guardBitMissed_iff h]
  rcases Nat.lt_trichotomy c 53 with hlt | rfl | hgt
  · refine iff_of_true ?_ (by omega)
    cases n with
    | zero =>
      refine (hl.roundsCorrectly_iff (gatherLoop_short hl hlt)).mpr ⟨top, rfl, ?_⟩
      have hs := hl.split
      rw [pow_zero, mul_one, List.take_zero, value_nil, add_zero] at hs
      rw [hs]
      refine nearestEven_self ⟨top, 0, by ring, ?_⟩
      rw [abs_of_nonneg hl.range.1]
      exact lt_of_lt_of_le hl.bounds.2 (pow_le_pow_right₀ (by norm_num) hlt.le)
    | succ n =>
      obtain ⟨d, q, hg, hc⟩ := gatherLoop_two h hl (t := c + 8) rfl hlt
      exact (hl.roundsCorrectly_iff hg).mpr (roundGathered_cut h hb hc)
  · have hq := hl.bounds
    rw [hl.roundsCorrectly_iff (gatherLoop_even hl), hl.roundGathered_even hb h]
    have hlow := hl.low_lt h
    have hcut := nearestEven_cut_iff (p := 53) (e := 62 * n) (by norm_num) hq.1 hq.2
      (value_nonneg bignumRadix_pos (h.digits.take n)) (bignumRadix_pow n ▸ hlow)
    rw [← bignumRadix_pow, ← hl.split] at hcut
    constructor
    · rintro ⟨r, hr, hnear⟩ ⟨-, hmiss⟩
      cases hr
      obtain ⟨hle, hodd⟩ := hcut.mp hnear
      rcases hmiss with hmiss | ⟨hmiss, hodd'⟩
      · omega
      · exact Int.not_even_iff_odd.mpr hodd' (hodd hmiss)
    · intro hmiss
      refine ⟨_, rfl, hcut.mpr ⟨?_, fun he => ?_⟩⟩
      · by_contra hgt
        exact hmiss ⟨rfl, .inl (by omega)⟩
      · by_contra hodd
        exact hmiss ⟨rfl, .inr ⟨he, Int.not_even_iff_odd.mp hodd⟩⟩
  · obtain ⟨t, rfl⟩ := Nat.exists_eq_add_of_lt hgt
    obtain ⟨hg, hc⟩ := gatherLoop_wide hl
    exact iff_of_true ((hl.roundsCorrectly_iff hg).mpr (roundGathered_cut h hb hc)) (by omega)

/-- A tie of two digits with an even significand. -/
theorem bignum_to_double_nearest_tie :
    RoundsCorrectly ⟨true, [2305843009213693952, 4503599627370496]⟩ := by
  have hwf : Bignum.WellFormed ⟨true, [2305843009213693952, 4503599627370496]⟩ :=
    ⟨by simp [bignumRadix], by decide, by decide⟩
  have hb : Bignum.magnitude ⟨true, [2305843009213693952, 4503599627370496]⟩ <
      doubleThreshold := by
    decide +kernel
  refine (bignum_to_double_nearest_iff hwf hb).mpr ?_
  rintro ⟨-, h | h⟩
  · exact absurd h (by decide)
  · exact absurd h.2 (by decide)

/-- The largest bignum of two digits with a leading digit of 53 bits is one
below a power of two; the conversion drops the second digit. -/
theorem bignum_to_double_drops_digit : ¬ ∀ b : Bignum, b.WellFormed →
    b.magnitude < doubleThreshold → RoundsCorrectly b := by
  intro hall
  have hwf : Bignum.WellFormed ⟨false, [4611686018427387903, 9007199254740991]⟩ :=
    ⟨by simp [bignumRadix], by decide, by decide⟩
  obtain ⟨r, hr, hnear⟩ := hall _ hwf (by decide +kernel)
  have hrun : bignumToDouble ⟨false, [4611686018427387903, 9007199254740991]⟩ =
      .ok 41538374868278616416557952206372864 := by
    decide +kernel
  rw [hrun] at hr
  cases hr
  have hpow : HasSignificand dblMantDig (2 ^ 115) := ⟨1, 115, by norm_num, by norm_num [dblMantDig]⟩
  exact absurd (hnear.nearest _ hpow) (by decide +kernel)

end MitScheme.Microcode
