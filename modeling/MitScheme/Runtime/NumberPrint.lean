import MitScheme.Runtime.Integer
import MitScheme.Microcode.BignumConvert
import MitScheme.Lib.Numeral

/-! # Printing exact integers

`int:->string` of `arith.scm`. A fixnum is printed digit by digit; a bignum of a
few words loses a group of digits at a time; a larger one is divided by a stack
of powers of the radix, each the square of the one below it. -/

namespace MitScheme.Runtime.Arith
open Lib.Numeral Lib.Outcome Microcode

structure Radix where
  val : Nat
  two_le : 2 ≤ val
  le_max : val ≤ 36

/-- `fix:fixnum?` of an integer that is not negative. -/
def fixnumP (n : Nat) : Bool := n < 2 ^ fixnumLength

/-- `system-vector-length` of a bignum: its internal header and its digits. -/
def systemVectorLength (n : Nat) : Nat := 1 + (n.size + 61) / 62

def digitChars : List Char := "0123456789abcdefghijklmnopqrstuvwxyz".toList

/-- `digit->char`. The digits that are printed are all below the radix. -/
def digitToChar (digit : Nat) : Char := digitChars.getD digit '0'

/-- A power of the radix with its exponent, an entry of
`*maximum-fixnum-radix-powers*`. -/
structure RadixPower (r : Radix) where
  digits : Nat
  factor : Nat
  factor_eq : factor = r.val ^ digits
  fixnum : factor < 2 ^ fixnumLength

/-- The loop of `initialize-*maximum-fixnum-radix-powers*!`. -/
def maximumRadixPower {r : Radix} (p : RadixPower r) : RadixPower r :=
  if h : p.factor * r.val < 2 ^ fixnumLength then
    maximumRadixPower ⟨p.digits + 1, p.factor * r.val, by rw [p.factor_eq, pow_succ], h⟩
  else p
termination_by 2 ^ fixnumLength - p.factor
decreasing_by
  have hpos : 0 < p.factor := p.factor_eq ▸ Nat.pow_pos (Nat.lt_of_lt_of_le two_pos r.two_le)
  have : p.factor * 2 ≤ p.factor * r.val := Nat.mul_le_mul_left _ r.two_le
  have := p.fixnum
  omega

/-- The entry of `*maximum-fixnum-radix-powers*` for a radix. -/
def splitInfo (r : Radix) : RadixPower r :=
  maximumRadixPower ⟨0, 1, (pow_zero _).symm, Nat.one_lt_two_pow (by decide)⟩

/-- `print-fixnum`, its loop entered with `nDigits` digits counted. -/
def printFixnum (r : Radix) (n nDigits minDigits : Nat) (tail : List Char) : List Char :=
  if n ≠ 0 then
    printFixnum r (n / r.val) (nDigits + 1) minDigits (digitToChar (n % r.val) :: tail)
  else if nDigits < minDigits then printFixnum r n (nDigits + 1) minDigits ('0' :: tail)
  else tail
termination_by n + (minDigits - nDigits)
decreasing_by
  · have := Nat.div_lt_self (Nat.pos_of_ne_zero ‹n ≠ 0›) r.two_le
    omega
  · omega

def printMedium {r : Radix} (split : RadixPower r) (hsplit : 2 ≤ split.factor) (n : Nat)
    (tail : List Char) : List Char :=
  if fixnumP n then printFixnum r n 0 0 tail
  else
    printMedium split hsplit (n / split.factor)
      (printFixnum r (n % split.factor) 0 split.digits tail)
termination_by n
decreasing_by
  rename_i hfix
  refine Nat.div_lt_self (Nat.pos_of_ne_zero fun h0 => ?_) hsplit
  rw [h0] at hfix
  exact hfix (by decide)

def fastTestToAvoidUltimateMultiply (quantum value : Nat) : Bool :=
  let bignumDigits (n : Nat) : Int := -1 + systemVectorLength n
  !fixnumP quantum && bignumDigits quantum * 2 - 1 > bignumDigits value

/-- `separate` of `use-power-stack`. -/
def separate (r : Radix) (leftmost : Bool) (value : Nat) (stack : List Nat) (nDigits : Nat)
    (tail : List Char) : Result (List Char) :=
  if fixnumP value then .ok (printFixnum r value 0 (if leftmost then 0 else nDigits) tail)
  else
    match stack with
    | [] => .error .wrongType
    | power :: rest =>
      if power = 0 then .error .divideByZero
      else if leftmost ∧ value / power = 0 then
        separate r true (value % power) rest (nDigits / 2) tail
      else do
        let tail ← separate r false (value % power) rest (nDigits / 2) tail
        separate r leftmost (value / power) rest (nDigits / 2) tail

def usePowerStack (r : Radix) (value : Nat) (stack : List Nat) (digits : Nat) :
    Result (List Char) :=
  separate r true value stack digits []

def makePowerStack (r : Radix) (value quantum : Nat) (hquantum : 2 ≤ quantum) (stack : List Nat)
    (nDigits : Nat) : Result (List Char) :=
  if quantum > value then usePowerStack r value stack nDigits
  else if fastTestToAvoidUltimateMultiply quantum value then
    usePowerStack r value (quantum :: stack) (2 * nDigits)
  else
    makePowerStack r value (quantum * quantum) (Nat.le_trans hquantum (Nat.le_mul_self quantum))
      (quantum :: stack) (2 * nDigits)
termination_by value + 1 - quantum
decreasing_by
  have : quantum * 2 ≤ quantum * quantum := Nat.mul_le_mul_left _ hquantum
  omega

/-! ## The radix powers -/

theorem maximumRadixPower_digits {r} (p : RadixPower r) :
    p.digits ≤ (maximumRadixPower p).digits := by
  fun_induction maximumRadixPower p with
  | case1 p h ih => exact Nat.le_trans (Nat.le_succ _) ih
  | case2 p h => exact Nat.le_refl _

variable (r : Radix)

theorem splitInfo_two_le : 2 ≤ (splitInfo r).factor := by
  have hfirst : 1 * r.val < 2 ^ fixnumLength := by
    have := r.le_max
    have : 37 ≤ 2 ^ fixnumLength := by decide
    omega
  have hdigits : 1 ≤ (splitInfo r).digits := by
    rw [splitInfo, maximumRadixPower, dif_pos hfirst]
    refine Nat.le_trans ?_ (maximumRadixPower_digits _)
    exact Nat.le_refl 1
  rw [(splitInfo r).factor_eq]
  exact Nat.le_trans r.two_le (Nat.le_self_pow (by omega) _)

/-- `n>0`, entered with any integer that is not negative. -/
def printPositive (r : Radix) (value : Nat) : Result (List Char) :=
  if fixnumP value then .ok (printFixnum r value 0 1 [])
  else
    if systemVectorLength value < 10 then
      .ok (printMedium (splitInfo r) (splitInfo_two_le r) value [])
    else
      makePowerStack r value (splitInfo r).factor (splitInfo_two_le r) [] (splitInfo r).digits

def intToString (number : Int) (r : Radix) : Result (List Char) :=
  if number < 0 then do return '-' :: (← printPositive r (-number).toNat)
  else printPositive r number.toNat

/-! ## The strategies print numerals -/

def paddedChars (r : Radix) (k n : Nat) : List Char := (padded r.val k n).map digitToChar

theorem paddedChars_add {r j s} (hs : s < r.val ^ j) (k q) :
    paddedChars r (k + j) (q * r.val ^ j + s) = paddedChars r k q ++ paddedChars r j s := by
  rw [paddedChars, padded_add r.two_le hs, List.map_append]
  rfl

theorem printFixnum_eq (n nDigits minDigits tail) :
    printFixnum r n nDigits minDigits tail = paddedChars r (minDigits - nDigits) n ++ tail := by
  fun_induction printFixnum r n nDigits minDigits tail with
  | case1 n nDigits tail hn ih =>
    rw [ih, paddedChars, paddedChars, padded_last r.two_le (Nat.pos_of_ne_zero hn), Nat.sub_sub]
    simp
  | case2 n nDigits tail hn hlt ih =>
    obtain rfl : n = 0 := not_not.mp hn
    have hwidth : minDigits - nDigits = minDigits - (nDigits + 1) + 1 := by omega
    have hzero : digitToChar 0 = '0' := by decide
    rw [ih, hwidth]
    simp [paddedChars, padded, List.replicate_succ', hzero]
  | case3 n nDigits tail hn hlt =>
    obtain rfl : n = 0 := not_not.mp hn
    rw [Nat.sub_eq_zero_of_le (by omega), paddedChars, padded_zero_zero]
    rfl

theorem printMedium_eq {r} (split : RadixPower r) (hsplit : 2 ≤ split.factor) (n tail) :
    printMedium split hsplit n tail = paddedChars r 0 n ++ tail := by
  fun_induction printMedium split hsplit n tail with
  | case1 n tail hfix => rw [printFixnum_eq, Nat.zero_sub]
  | case2 n tail hfix ih =>
    have hpos : 0 < split.factor := by omega
    have hmod : n % split.factor < r.val ^ split.digits := split.factor_eq ▸ Nat.mod_lt n hpos
    have hn : 2 ^ fixnumLength ≤ n := by simpa only [fixnumP, decide_eq_true_eq, not_lt] using hfix
    have hle : r.val ^ split.digits ≤ n := split.factor_eq ▸ Nat.le_trans split.fixnum.le hn
    have hcut := paddedChars_add hmod 0 (n / split.factor)
    rw [← split.factor_eq, Nat.div_add_mod', Nat.zero_add, paddedChars,
      padded_of_le r.two_le hle (Nat.le_succ _)] at hcut
    rw [ih, printFixnum_eq, Nat.sub_zero, ← List.append_assoc, ← hcut]
    rfl

/-- The powers that split a number of `k` digits: each is the power for half the
digits, and what the last halves is a fixnum. -/
def PowerStack (r : Radix) : List Nat → Nat → Prop
  | [], k => r.val ^ k ≤ 2 ^ fixnumLength
  | power :: rest, k => power = r.val ^ (k / 2) ∧ 2 * (k / 2) = k ∧ PowerStack r rest (k / 2)

theorem separate_ok {r stack nDigits} (hstack : PowerStack r stack nDigits) (leftmost) {value}
    (hvalue : value < r.val ^ nDigits) (tail) :
    separate r leftmost value stack nDigits tail =
      .ok (paddedChars r (if leftmost then 0 else nDigits) value ++ tail) := by
  induction stack generalizing leftmost value nDigits tail with
  | nil =>
    have hfix : fixnumP value := decide_eq_true (Nat.lt_of_lt_of_le hvalue hstack)
    rw [separate, if_pos hfix, printFixnum_eq, Nat.sub_zero]
  | cons power rest ih =>
    obtain ⟨hpower, hhalf, hrest⟩ := hstack
    have hpos : 0 < power := hpower ▸ Nat.pow_pos (Nat.lt_of_lt_of_le two_pos r.two_le)
    have hmod : value % power < r.val ^ (nDigits / 2) := hpower ▸ Nat.mod_lt value hpos
    have hdiv : value / power < r.val ^ (nDigits / 2) := by
      rw [Nat.div_lt_iff_lt_mul hpos, hpower, ← pow_add]
      exact hvalue.trans_eq (by congr 1; omega)
    have hvalue' : value / power * power + value % power = value := Nat.div_add_mod' value power
    rw [separate]
    by_cases hfix : fixnumP value
    · rw [if_pos hfix, printFixnum_eq, Nat.sub_zero]
    rw [if_neg hfix, if_neg (by omega)]
    by_cases hleft : leftmost ∧ value / power = 0
    · obtain ⟨rfl, hzero⟩ := hleft
      rw [if_pos ⟨rfl, hzero⟩, ih hrest true hmod]
      rw [hzero, Nat.zero_mul, Nat.zero_add] at hvalue'
      rw [hvalue']
      rfl
    · rw [if_neg hleft, ih hrest false hmod, ok_bind, ih hrest leftmost hdiv, ← List.append_assoc]
      congr 2
      have hcut := paddedChars_add hmod (if leftmost then 0 else nDigits / 2) (value / power)
      rw [← hpower, hvalue'] at hcut
      rw [if_neg Bool.false_ne_true, ← hcut]
      cases leftmost with
      | false =>
        rw [if_neg Bool.false_ne_true, if_neg Bool.false_ne_true]
        congr 1
        omega
      | true =>
        have hle : r.val ^ (nDigits / 2) ≤ value := by
          rw [← hpower]
          by_contra hlt
          exact hleft ⟨rfl, Nat.div_eq_of_lt (by omega)⟩
        rw [if_pos rfl, if_pos rfl, Nat.zero_add, paddedChars, paddedChars,
          padded_of_le r.two_le hle (Nat.le_succ _)]

theorem usePowerStack_ok {r value stack nDigits} (hstack : PowerStack r stack nDigits)
    (hvalue : value < r.val ^ nDigits) :
    usePowerStack r value stack nDigits = .ok (paddedChars r 0 value) := by
  rw [usePowerStack, separate_ok hstack true hvalue, List.append_nil]
  rfl

theorem PowerStack.push {r stack nDigits} (h : PowerStack r stack nDigits) :
    PowerStack r (r.val ^ nDigits :: stack) (2 * nDigits) := by
  rw [PowerStack, Nat.mul_div_cancel_left _ two_pos]
  exact ⟨rfl, rfl, h⟩

theorem lt_of_fastTest {quantum value} (h : fastTestToAvoidUltimateMultiply quantum value) :
    value < quantum * quantum := by
  have hlen : ((value.size + 61) / 62 : Nat) <
      ((quantum.size + 61) / 62 : Nat) * 2 - (1 : Int) := by
    have := of_decide_eq_true (Bool.and_eq_true_iff.mp h).2
    simp only [systemVectorLength] at this
    omega
  have hsquare : 2 ^ (quantum.size - 1) ≤ quantum := by
    rw [← Nat.lt_size]
    omega
  calc value < 2 ^ value.size := Nat.lt_size_self value
    _ ≤ 2 ^ ((quantum.size - 1) + (quantum.size - 1)) := Nat.pow_le_pow_right two_pos (by omega)
    _ ≤ quantum * quantum := by
      rw [pow_add]
      exact Nat.mul_le_mul hsquare hsquare

theorem makePowerStack_ok {r value quantum} (hquantum : 2 ≤ quantum) {stack nDigits}
    (hpower : quantum = r.val ^ nDigits) (hstack : PowerStack r stack nDigits) :
    makePowerStack r value quantum hquantum stack nDigits = .ok (paddedChars r 0 value) := by
  have hsquare (k : Nat) : r.val ^ (2 * k) = r.val ^ k * r.val ^ k := by rw [← pow_add, two_mul]
  fun_induction makePowerStack r value quantum hquantum stack nDigits with
  | case1 quantum hquantum stack nDigits hgt => exact usePowerStack_ok hstack (hpower ▸ hgt)
  | case2 quantum hquantum stack nDigits hle hfast =>
    have hvalue := lt_of_fastTest hfast
    subst hpower
    exact usePowerStack_ok hstack.push (hsquare nDigits ▸ hvalue)
  | case3 quantum hquantum stack nDigits hle hslow ih =>
    subst hpower
    exact ih (hsquare nDigits).symm hstack.push

theorem largePrint_ok (value) :
    makePowerStack r value (splitInfo r).factor (splitInfo_two_le r) [] (splitInfo r).digits =
      .ok (paddedChars r 0 value) := by
  refine makePowerStack_ok _ (splitInfo r).factor_eq ?_
  rw [PowerStack, ← (splitInfo r).factor_eq]
  exact (splitInfo r).fixnum.le

def IsNumeral (r : Radix) (n : Nat) (chars : List Char) : Prop :=
  ∃ digits, chars = digits.map digitToChar ∧ (∀ d ∈ digits, d < r.val) ∧
    read r.val 0 digits = n ∧ digits ≠ [] ∧ (digits.head? = some 0 → digits = [0])

theorem isNumeral_paddedChars (n) : IsNumeral r n (paddedChars r 1 n) := by
  refine ⟨padded r.val 1 n, rfl, fun d => padded_lt r.two_le, read_padded n, ?_⟩
  rcases Nat.eq_zero_or_pos n with rfl | hn
  · simp [padded]
  · rw [padded_of_le r.two_le (by rwa [pow_zero] : r.val ^ 0 ≤ n) (Nat.le_refl 1)]
    refine ⟨fun h0 => ?_, fun h0 => absurd h0 (head_padded hn)⟩
    have := read_padded (b := r.val) (k := 0) n
    rw [h0] at this
    exact hn.ne this

theorem paddedChars_leftmost {r value} (hbig : ¬fixnumP value) :
    paddedChars r 0 value = paddedChars r 1 value := by
  have hn : 2 ^ fixnumLength ≤ value := by
    simpa only [fixnumP, decide_eq_true_eq, not_lt] using hbig
  have hpos : r.val ^ 0 ≤ value := Nat.le_trans (Nat.one_le_two_pow) hn
  rw [paddedChars, paddedChars, padded_of_le r.two_le hpos (Nat.le_refl 1)]

theorem printPositive_eq (value) : printPositive r value = .ok (paddedChars r 1 value) := by
  rw [printPositive]
  by_cases hfix : fixnumP value
  · rw [if_pos hfix, printFixnum_eq, List.append_nil]
  · rw [if_neg hfix, printMedium_eq, List.append_nil, largePrint_ok, ite_self,
      paddedChars_leftmost hfix]

theorem intToString_eq (n r) :
    intToString n r = .ok ((if n < 0 then ['-'] else []) ++ paddedChars r 1 n.natAbs) := by
  rw [intToString]
  by_cases hn : n < 0
  · rw [if_pos hn, if_pos hn, printPositive_eq, show (-n).toNat = n.natAbs by omega]
    rfl
  · rw [if_neg hn, if_neg hn, printPositive_eq, show n.toNat = n.natAbs by omega]
    rfl

end MitScheme.Runtime.Arith
