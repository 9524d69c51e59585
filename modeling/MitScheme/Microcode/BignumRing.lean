import MitScheme.Microcode.BignumRepr
import Mathlib.Tactic.LinearCombination

/-! # Bignum addition, subtraction and multiplication

The loops of `bignum.c` over digit arrays are recursions over digit lists:
each scanning pointer is the list of the digits it has not passed yet. -/

namespace MitScheme.Microcode
open Lib.Checked Lib.Outcome Lib.Radix

/-! ## Addition -/

/-- The second and third loops of `bignum_add_unsigned`, entered with a carry:
it ripples until a digit absorbs it, then the rest of `x` is copied. -/
def addCarryLoop : List Int → Exec (List Int × Int)
  | [] => return ([], 1)
  | x :: xs => do
    let sum ← long (x + 1)
    if sum < bignumRadix then return (sum :: xs, 0)
    else do
      let digit ← long (sum - bignumRadix)
      let (r, carry) ← addCarryLoop xs
      return (digit :: r, carry)

/-- The loops of `bignum_add_unsigned`: the digits written to `r` and the
final carry. -/
def addLoop : List Int → List Int → Int → Exec (List Int × Int)
  | xs, [], carry => if carry ≠ 0 then addCarryLoop xs else return (xs, carry)
  | [], _ :: _, _ => .error .outOfBounds
  | x :: xs, y :: ys, carry => do
    let sum ← long ((← long (x + y)) + carry)
    if sum < bignumRadix then do
      let (r, carry) ← addLoop xs ys 0
      return (sum :: r, carry)
    else do
      let digit ← long (sum - bignumRadix)
      let (r, carry) ← addLoop xs ys 1
      return (digit :: r, carry)

/-- `bignum_add_unsigned` once the operands are ordered by length. -/
def addOrdered (x y : Bignum) (negative : Bool) : Exec Bignum := do
  bignumAllocate (x.length + 1)
  let (r, carry) ← addLoop x.digits y.digits 0
  if carry ≠ 0 then return ⟨negative, r ++ [1]⟩
  -- the last cell of the block was never written; it is cut off
  else bignumShortenLength ⟨negative, r ++ [0]⟩ x.length

def bignumAddUnsigned (x y : Bignum) (negative : Bool) : Exec Bignum :=
  if y.length > x.length then addOrdered y x negative else addOrdered x y negative

/-- The condition on the result of an addition loop over `n` places. -/
def Carries (n : Nat) (total : Int) (out : List Int × Int) : Prop :=
  Digits bignumRadix out.1 ∧ out.1.length = n ∧ (out.2 = 0 ∨ out.2 = 1) ∧
    value bignumRadix out.1 + bignumRadix ^ n * out.2 = total

theorem addCarryLoop_spec : ∀ {xs : List Int}, Digits bignumRadix xs →
    ∃ out, addCarryLoop xs = .ok out ∧ Carries xs.length (value bignumRadix xs + 1) out
  | [], _ => ⟨([], 1), rfl, by simp [Carries]⟩
  | x :: xs, h => by
    obtain ⟨⟨hx, hx'⟩, hxs⟩ := digits_cons.mp h
    have hr : bignumRadix = 4611686018427387904 := rfl
    simp only [addCarryLoop]
    rw [long_ok (by omega) (by omega), ok_bind]
    split
    · refine ⟨_, rfl, ?_, rfl, .inl rfl, ?_⟩
      · exact digits_cons.mpr ⟨⟨by omega, by omega⟩, hxs⟩
      · simp only [value_cons]; ring
    · rw [long_ok (by omega) (by omega), ok_bind]
      obtain ⟨⟨r, c⟩, he, hd, hl, hc, hv⟩ := addCarryLoop_spec hxs
      rw [he]
      refine ⟨_, rfl, ?_, by simpa using hl, hc, ?_⟩
      · exact digits_cons.mpr ⟨⟨by omega, by omega⟩, hd⟩
      · have : bignumRadix * (value bignumRadix r + bignumRadix ^ xs.length * c) =
            bignumRadix * (value bignumRadix xs + 1) := by rw [hv]
        simp only [value_cons, List.length_cons, pow_succ]
        linarith

theorem addLoop_spec : ∀ {xs ys : List Int} {carry : Int}, ys.length ≤ xs.length →
    Digits bignumRadix xs → Digits bignumRadix ys → (carry = 0 ∨ carry = 1) →
    ∃ out, addLoop xs ys carry = .ok out ∧
      Carries xs.length (value bignumRadix xs + value bignumRadix ys + carry) out
  | xs, [], carry, _, hx, _, hc => by
    rcases hc with rfl | rfl
    · exact ⟨(xs, 0), by simp [addLoop, pure, Except.pure], hx, rfl, .inl rfl, by simp⟩
    · obtain ⟨out, he, h⟩ := addCarryLoop_spec hx
      exact ⟨out, by simpa [addLoop] using he, by simpa using h⟩
  | [], _ :: _, _, h, _, _, _ => by simp at h
  | x :: xs, y :: ys, carry, hl, hx, hy, hc => by
    obtain ⟨⟨hx0, hx1⟩, hxs⟩ := digits_cons.mp hx
    obtain ⟨⟨hy0, hy1⟩, hys⟩ := digits_cons.mp hy
    have hr : bignumRadix = 4611686018427387904 := rfl
    have hl' : ys.length ≤ xs.length := by simpa using hl
    simp only [addLoop]
    rw [long_ok (by omega) (by omega), ok_bind, long_ok (by omega) (by omega), ok_bind]
    split
    · obtain ⟨⟨r, c⟩, he, hd, hlr, hc', hv⟩ := addLoop_spec hl' hxs hys (.inl rfl)
      rw [he]
      refine ⟨_, rfl, digits_cons.mpr ⟨⟨by omega, by omega⟩, hd⟩, by simpa using hlr, hc', ?_⟩
      have : bignumRadix * (value bignumRadix r + bignumRadix ^ xs.length * c) =
          bignumRadix * (value bignumRadix xs + value bignumRadix ys + 0) := by rw [hv]
      simp only [value_cons, List.length_cons, pow_succ]
      linarith
    · rw [long_ok (by omega) (by omega), ok_bind]
      obtain ⟨⟨r, c⟩, he, hd, hlr, hc', hv⟩ := addLoop_spec hl' hxs hys (.inr rfl)
      rw [he]
      refine ⟨_, rfl, digits_cons.mpr ⟨⟨by omega, by omega⟩, hd⟩, by simpa using hlr, hc', ?_⟩
      have : bignumRadix * (value bignumRadix r + bignumRadix ^ xs.length * c) =
          bignumRadix * (value bignumRadix xs + value bignumRadix ys + 1) := by rw [hv]
      simp only [value_cons, List.length_cons, pow_succ]
      linarith

variable {b x y : Bignum}

theorem Bignum.WellFormed.pow_le (h : b.WellFormed) (hz : b.digits ≠ []) :
    bignumRadix ^ (b.length - 1) ≤ b.magnitude := by
  obtain ⟨init, top, he⟩ := (List.eq_nil_or_concat b.digits).resolve_left hz
  rw [List.concat_eq_append] at he
  have hd := h.digits
  rw [he] at hd
  obtain ⟨hi, ht⟩ := digits_append.mp hd
  have hpos : 0 < top := by
    have := (digits_cons.mp ht).1
    rcases eq_or_lt_of_le this.1 with h0 | h0
    · exact absurd (by simp [he, ← h0]) h.lead
    · exact h0
  have := pow_le_value bignumRadix_pos hi hpos
  simpa [Bignum.magnitude, Bignum.length, he] using this

theorem Bignum.WellFormed.magnitude_nonneg (h : b.WellFormed) : 0 ≤ b.magnitude :=
  value_nonneg bignumRadix_pos h.digits

def signedValue (negative : Bool) (m : Int) : Int := if negative then -m else m

theorem Bignum.toInt_eq (b : Bignum) : b.toInt = signedValue b.negative b.magnitude := rfl

theorem addOrdered_gives (hx : x.WellFormed) (hy : y.WellFormed) (hz : x.digits ≠ [])
    (hl : y.length ≤ x.length) (s) {n} (hn : x.length + 1 ≤ n) :
    Gives (TooLong n) (addOrdered x y s)
      (fun z => z.WellFormed ∧ z.toInt = signedValue s (x.magnitude + y.magnitude)) := by
  refine (bignumAllocate_gives hn).bind fun _ _ => ?_
  obtain ⟨⟨r, c⟩, he, hd, hlen, hc, hv⟩ := addLoop_spec hl hx.digits hy.digits (.inl rfl)
  simp only [he, ok_bind]
  have hy0 := value_nonneg bignumRadix_pos hy.digits
  rcases hc with rfl | rfl
  · -- no carry: the sum fills exactly the places of `x`
    have hsum : value bignumRadix r = x.magnitude + y.magnitude := by
      simp only [mul_zero, add_zero] at hv
      rw [hv]; rfl
    have e : bignumShortenLength ⟨s, r ++ [0]⟩ x.length = .ok ⟨s, r⟩ := by
      have h0 : x.length ≠ 0 := fun h => hz (List.eq_nil_of_length_eq_zero h)
      have h1 : (Bignum.mk s (r ++ [0])).length = x.length + 1 := by
        simp [Bignum.length, hlen]
      have h2 : (r ++ [0]).take x.length = r := List.take_left' hlen
      have h3 : (x.length != 0 && s) = s := by simp [h0]
      unfold bignumShortenLength
      rw [check, if_pos (by omega), ok_bind, if_pos (by omega)]
      simp only [h2, h3]; rfl
    simp only [ne_eq, not_true, if_false, e]
    refine Gives.pure ⟨⟨hd, ?_, fun h0 => ?_⟩, ?_⟩
    · apply lead_ne_zero bignumRadix_pos hd
      have := hx.pow_le hz
      rw [hsum, show r.length = x.length from hlen]
      unfold Bignum.magnitude at *
      omega
    · exact absurd (List.eq_nil_of_length_eq_zero (by rw [← hlen]; exact congrArg List.length h0)) hz
    · rw [Bignum.toInt_mk, hsum]; rfl
  · simp only [ne_eq, one_ne_zero, not_false_eq_true, if_true]
    refine Gives.pure ⟨⟨?_, by simp, by simp⟩, ?_⟩
    · exact digits_append.mpr ⟨hd, by simp [bignumRadix]⟩
    · rw [Bignum.toInt_mk, value_append, show r.length = x.digits.length from hlen]
      simp only [value_cons, value_nil, mul_zero, add_zero]
      rw [hv]
      simp [signedValue, Bignum.magnitude]

theorem bignumAddUnsigned_gives (hx : x.WellFormed) (hy : y.WellFormed) (hzx : x.digits ≠ [])
    (hzy : y.digits ≠ []) (s) {n} (hn : max x.length y.length + 1 ≤ n) :
    Gives (TooLong n) (bignumAddUnsigned x y s)
      (fun z => z.WellFormed ∧ z.toInt = signedValue s (x.magnitude + y.magnitude)) := by
  unfold bignumAddUnsigned
  split
  · rw [add_comm x.magnitude]
    exact addOrdered_gives hy hx hzy (by omega) s (by omega)
  · exact addOrdered_gives hx hy hzx (by omega) s (by omega)

/-! ## Subtraction -/

/-- The second and third loops of `bignum_subtract_unsigned`, entered with a
borrow. -/
def subtractBorrowLoop : List Int → Exec (List Int × Int)
  | [] => return ([], 1)
  | x :: xs => do
    let difference ← long (x - 1)
    if difference < 0 then do
      let digit ← long (difference + bignumRadix)
      let (r, borrow) ← subtractBorrowLoop xs
      return (digit :: r, borrow)
    else return (difference :: xs, 0)

/-- The loops of `bignum_subtract_unsigned`. -/
def subtractLoop : List Int → List Int → Int → Exec (List Int × Int)
  | xs, [], borrow => if borrow ≠ 0 then subtractBorrowLoop xs else return (xs, borrow)
  | [], _ :: _, _ => .error .outOfBounds
  | x :: xs, y :: ys, borrow => do
    let difference ← long ((← long (x - y)) - borrow)
    if difference < 0 then do
      let digit ← long (difference + bignumRadix)
      let (r, borrow) ← subtractLoop xs ys 1
      return (digit :: r, borrow)
    else do
      let (r, borrow) ← subtractLoop xs ys 0
      return (difference :: r, borrow)

/-- `bignum_subtract_unsigned` once the operands are ordered by magnitude. -/
def subtractOrdered (x y : Bignum) (negative : Bool) : Exec Bignum := do
  bignumAllocate x.length
  let (r, borrow) ← subtractLoop x.digits y.digits 0
  check (borrow = 0)
  return bignumTrim ⟨negative, r⟩

def bignumSubtractUnsigned (x y : Bignum) : Exec Bignum :=
  match bignumCompareUnsigned x y with
  | .equal => return bignumMakeZero
  | .less => subtractOrdered y x true
  | .greater => subtractOrdered x y false

/-- The condition on the result of a subtraction loop over `n` places. -/
def Borrows (n : Nat) (total : Int) (out : List Int × Int) : Prop :=
  Digits bignumRadix out.1 ∧ out.1.length = n ∧ (out.2 = 0 ∨ out.2 = 1) ∧
    value bignumRadix out.1 = total + bignumRadix ^ n * out.2

theorem subtractBorrowLoop_spec : ∀ {xs : List Int}, Digits bignumRadix xs →
    ∃ out, subtractBorrowLoop xs = .ok out ∧ Borrows xs.length (value bignumRadix xs - 1) out
  | [], _ => ⟨([], 1), rfl, by simp [Borrows]⟩
  | x :: xs, h => by
    obtain ⟨⟨hx, hx'⟩, hxs⟩ := digits_cons.mp h
    have hr : bignumRadix = 4611686018427387904 := rfl
    simp only [subtractBorrowLoop]
    rw [long_ok (by omega) (by omega), ok_bind]
    split
    · rw [long_ok (by omega) (by omega), ok_bind]
      obtain ⟨⟨r, c⟩, he, hd, hl, hc, hv⟩ := subtractBorrowLoop_spec hxs
      rw [he]
      refine ⟨_, rfl, digits_cons.mpr ⟨⟨by omega, by omega⟩, hd⟩, by simpa using hl, hc, ?_⟩
      have : bignumRadix * value bignumRadix r =
          bignumRadix * (value bignumRadix xs - 1 + bignumRadix ^ xs.length * c) := by rw [hv]
      simp only [value_cons, List.length_cons, pow_succ]
      linarith
    · refine ⟨_, rfl, digits_cons.mpr ⟨⟨by omega, by omega⟩, hxs⟩, rfl, .inl rfl, ?_⟩
      simp only [value_cons]; ring

theorem subtractLoop_spec : ∀ {xs ys : List Int} {borrow : Int}, ys.length ≤ xs.length →
    Digits bignumRadix xs → Digits bignumRadix ys → (borrow = 0 ∨ borrow = 1) →
    ∃ out, subtractLoop xs ys borrow = .ok out ∧
      Borrows xs.length (value bignumRadix xs - value bignumRadix ys - borrow) out
  | xs, [], borrow, _, hx, _, hc => by
    rcases hc with rfl | rfl
    · exact ⟨(xs, 0), by simp [subtractLoop, pure, Except.pure], hx, rfl, .inl rfl, by simp⟩
    · obtain ⟨out, he, h⟩ := subtractBorrowLoop_spec hx
      exact ⟨out, by simpa [subtractLoop] using he, by simpa using h⟩
  | [], _ :: _, _, h, _, _, _ => by simp at h
  | x :: xs, y :: ys, borrow, hl, hx, hy, hc => by
    obtain ⟨⟨hx0, hx1⟩, hxs⟩ := digits_cons.mp hx
    obtain ⟨⟨hy0, hy1⟩, hys⟩ := digits_cons.mp hy
    have hr : bignumRadix = 4611686018427387904 := rfl
    have hl' : ys.length ≤ xs.length := by simpa using hl
    simp only [subtractLoop]
    rw [long_ok (by omega) (by omega), ok_bind, long_ok (by omega) (by omega), ok_bind]
    split
    · rw [long_ok (by omega) (by omega), ok_bind]
      obtain ⟨⟨r, c⟩, he, hd, hlr, hc', hv⟩ := subtractLoop_spec hl' hxs hys (.inr rfl)
      rw [he]
      refine ⟨_, rfl, digits_cons.mpr ⟨⟨by omega, by omega⟩, hd⟩, by simpa using hlr, hc', ?_⟩
      have : bignumRadix * value bignumRadix r = bignumRadix *
          (value bignumRadix xs - value bignumRadix ys - 1 + bignumRadix ^ xs.length * c) := by
        rw [hv]
      simp only [value_cons, List.length_cons, pow_succ]
      linarith
    · obtain ⟨⟨r, c⟩, he, hd, hlr, hc', hv⟩ := subtractLoop_spec hl' hxs hys (.inl rfl)
      rw [he]
      refine ⟨_, rfl, digits_cons.mpr ⟨⟨by omega, by omega⟩, hd⟩, by simpa using hlr, hc', ?_⟩
      have : bignumRadix * value bignumRadix r = bignumRadix *
          (value bignumRadix xs - value bignumRadix ys - 0 + bignumRadix ^ xs.length * c) := by
        rw [hv]
      simp only [value_cons, List.length_cons, pow_succ]
      linarith

theorem subtractOrdered_gives (hx : x.WellFormed) (hy : y.WellFormed)
    (h : y.magnitude < x.magnitude) (s) {n} (hn : x.length ≤ n) :
    Gives (TooLong n) (subtractOrdered x y s)
      (fun z => z.WellFormed ∧ z.toInt = signedValue s (x.magnitude - y.magnitude)) := by
  refine (bignumAllocate_gives hn).bind fun _ _ => ?_
  have hl : y.length ≤ x.length := by
    by_contra hc
    have := hx.length_le hy (by omega)
    omega
  obtain ⟨⟨r, c⟩, he, hd, hlen, hc, hv⟩ := subtractLoop_spec hl hx.digits hy.digits (.inl rfl)
  have hlt := value_lt_pow bignumRadix_pos hd
  rw [hlen] at hlt
  unfold Bignum.magnitude at h
  -- a last borrow would make the difference negative
  have hc0 : c = 0 := by
    rcases hc with h0 | rfl
    · exact h0
    · simp only at hv hlt; rw [hv] at hlt; omega
  subst hc0
  simp only [he, ok_bind, check, if_true]
  have hne : r ≠ [] := by
    rintro rfl
    simp only [List.length_nil] at hlen
    have h0 : x.digits = [] := List.eq_nil_of_length_eq_zero hlen.symm
    have := value_nonneg bignumRadix_pos hy.digits
    rw [h0, value_nil] at h
    omega
  obtain ⟨hw, hval⟩ := bignumTrim_spec (s := s) hd hne
  refine Gives.pure ⟨hw, ?_⟩
  simp only at hv
  rw [hval, Bignum.toInt_mk, hv]
  simp [signedValue, Bignum.magnitude]

theorem bignumSubtractUnsigned_gives (hx : x.WellFormed) (hy : y.WellFormed) {n}
    (hn : max x.length y.length ≤ n) :
    Gives (TooLong n) (bignumSubtractUnsigned x y)
      (fun z => z.WellFormed ∧ z.toInt = x.magnitude - y.magnitude) := by
  have hcmp := bignumCompareUnsigned_spec hx hy
  unfold bignumSubtractUnsigned
  cases hc : bignumCompareUnsigned x y with rw [hc] at hcmp
  | equal =>
    exact Gives.pure ⟨wellFormed_zero, by
      rw [show x.magnitude = y.magnitude from hcmp, sub_self]; rfl⟩
  | less =>
    refine (subtractOrdered_gives hy hx hcmp true (by omega)).mono fun z hz => ⟨hz.1, ?_⟩
    rw [hz.2]; simp [signedValue]
  | greater =>
    exact (subtractOrdered_gives hx hy hcmp false (by omega)).mono fun z hz => ⟨hz.1, hz.2⟩

/-! ## Multiplication -/

/-- One pass of the inner loop of `bignum_multiply_unsigned`: the digit stored
back at `scan_r` and the new carry. -/
def multiplyStep (xLow xHigh y r carry : Int) : Exec (Int × Int) := do
  let yLow := hdLow y
  let yHigh := hdHigh y
  let productLow ← long ((← long (r + (← long (xLow * yLow)))) + hdLow carry)
  let productHigh ← long ((← long ((← long ((← long (xHigh * yLow)) + (← long (xLow * yHigh))))
    + hdHigh productLow)) + hdHigh carry)
  let digit ← hdCons (hdLow productHigh) (hdLow productLow)
  let carry ← long ((← long (xHigh * yHigh)) + hdHigh productHigh)
  return (digit, carry)

/-- The inner loop of `bignum_multiply_unsigned`, `scan_y` and `scan_r` moving
together; the last carry is added to the digit after the row. -/
def multiplyRow (xLow xHigh : Int) : List Int → List Int → Int → Exec (List Int)
  | _, [], _ => .error .outOfBounds
  | [], r :: rs, carry => do return (← long (r + carry)) :: rs
  | y :: ys, r :: rs, carry => do
    let (digit, carry) ← multiplyStep xLow xHigh y r carry
    return digit :: (← multiplyRow xLow xHigh ys rs carry)

/-- The outer loop: `start_r` advances by one digit for each digit of `x`. -/
def multiplyRows (ys : List Int) : List Int → List Int → Exec (List Int)
  | [], rs => return rs
  | x :: xs, rs => do
    match ← multiplyRow (hdLow x) (hdHigh x) ys rs 0 with
    | [] => .error .outOfBounds
    | r :: rs => return r :: (← multiplyRows ys xs rs)

def multiplyOrdered (x y : Bignum) (negative : Bool) : Exec Bignum := do
  -- `bignum_allocate_zeroed`
  bignumAllocate (x.length + y.length)
  let r ← multiplyRows y.digits x.digits (List.replicate (x.length + y.length) 0)
  return bignumTrim ⟨negative, r⟩

def bignumMultiplyUnsigned (x y : Bignum) (negative : Bool) : Exec Bignum :=
  if y.length > x.length then multiplyOrdered y x negative else multiplyOrdered x y negative

/-- The loop of `bignum_destructive_scale_up`: the scaled digits and the last
carry. -/
def scaleUpLoop (factor : Int) : List Int → Int → Exec (List Int × Int)
  | [], carry => return ([], carry)
  | twoDigits :: ds, carry => do
    let productLow ← long ((← long (factor * hdLow twoDigits)) + hdLow carry)
    let productHigh ← long ((← long ((← long (factor * hdHigh twoDigits)) + hdHigh productLow))
      + hdHigh carry)
    let digit ← hdCons (hdLow productHigh) (hdLow productLow)
    let (r, carry) ← scaleUpLoop factor ds (hdHigh productHigh)
    return (digit :: r, carry)

def bignumDestructiveScaleUp (digits : List Int) (factor : Int) : Exec (List Int) := do
  check (1 < factor ∧ factor < bignumRadixRoot)
  let (r, carry) ← scaleUpLoop factor digits 0
  check (carry = 0)
  return r

def bignumMultiplyUnsignedSmallFactor (x : Bignum) (y : Int) (negative : Bool) : Exec Bignum := do
  bignumAllocate (x.length + 1)
  let p ← bignumDestructiveScaleUp (x.digits ++ [0]) y
  return bignumTrim ⟨negative, p⟩

theorem half_split {d} (h : 0 ≤ d) (h' : d < bignumRadix) :
    0 ≤ hdLow d ∧ hdLow d < 2147483648 ∧ 0 ≤ hdHigh d ∧ hdHigh d < 2147483648 ∧
      d = hdHigh d * 2147483648 + hdLow d := by
  unfold bignumRadix at h'
  rw [hdLow_eq h, hdHigh_eq]
  omega

theorem multiplyStep_spec {x y r carry} (hx : 0 ≤ x ∧ x < bignumRadix)
    (hy : 0 ≤ y ∧ y < bignumRadix) (hr : 0 ≤ r ∧ r < bignumRadix)
    (hc : 0 ≤ carry ∧ carry < bignumRadix) :
    ∃ digit carry', multiplyStep (hdLow x) (hdHigh x) y r carry = .ok (digit, carry') ∧
      (0 ≤ digit ∧ digit < bignumRadix) ∧ (0 ≤ carry' ∧ carry' < bignumRadix) ∧
      digit + bignumRadix * carry' = r + x * y + carry := by
  obtain ⟨xl0, xl1, xh0, xh1, ex⟩ := half_split hx.1 hx.2
  obtain ⟨yl0, yl1, yh0, yh1, ey⟩ := half_split hy.1 hy.2
  have exy : x * y = hdHigh x * hdHigh y * 4611686018427387904 +
      (hdHigh x * hdLow y + hdLow x * hdHigh y) * 2147483648 + hdLow x * hdLow y := by
    nth_rewrite 1 [ex, ey]; ring
  have bxy := mul_le_mul (show x ≤ 4611686018427387903 by unfold bignumRadix at hx; omega)
    (show y ≤ 4611686018427387903 by unfold bignumRadix at hy; omega) hy.1 (by norm_num)
  unfold multiplyStep
  generalize hdLow x = xl at *
  generalize hdHigh x = xh at *
  generalize hdLow y = yl at *
  generalize hdHigh y = yh at *
  obtain ⟨p1, p1'⟩ := half_mul xl0 xl1 yl0 yl1
  obtain ⟨p2, p2'⟩ := half_mul xh0 xh1 yl0 yl1
  obtain ⟨p3, p3'⟩ := half_mul xl0 xl1 yh0 yh1
  obtain ⟨p4, p4'⟩ := half_mul xh0 xh1 yh0 yh1
  have hR : bignumRadix = 4611686018427387904 := rfl
  rw [hR] at hr hc
  rw [hdLow_eq hc.1, hdHigh_eq carry]
  simp (disch := omega) only [long_ok, ok_bind]
  set pl := r + xl * yl + carry % 2147483648 with hpl
  rw [hdLow_eq (d := pl) (by omega), hdHigh_eq pl]
  simp (disch := omega) only [long_ok, ok_bind]
  set ph := xh * yl + xl * yh + pl / 2147483648 + carry / 2147483648 with hph
  rw [hdLow_eq (d := ph) (by omega), hdHigh_eq ph, hdCons_ok (by omega) (by omega) (by omega)
    (by omega)]
  simp (disch := omega) only [long_ok, ok_bind]
  have he : ph % 2147483648 * 2147483648 + pl % 2147483648 +
      4611686018427387904 * (xh * yh + ph / 2147483648) = r + x * y + carry := by
    rw [exy]; omega
  refine ⟨_, _, rfl, ?_, ?_, ?_⟩
  · rw [hR]; omega
  · rw [hR]; omega
  · rw [hR]; exact he

theorem multiplyRow_spec {x} (hx : 0 ≤ x ∧ x < bignumRadix) :
    ∀ (ys low rest : List Int) (carry : Int), low.length = ys.length → Digits bignumRadix ys →
      Digits bignumRadix low → (0 ≤ carry ∧ carry < bignumRadix) →
      ∃ low', multiplyRow (hdLow x) (hdHigh x) ys (low ++ 0 :: rest) carry = .ok (low' ++ rest) ∧
        Digits bignumRadix low' ∧ low'.length = ys.length + 1 ∧
        value bignumRadix low' = value bignumRadix low + x * value bignumRadix ys + carry
  | [], [], rest, carry, _, _, _, hc => by
    have hR : bignumRadix = 4611686018427387904 := rfl
    refine ⟨[carry], ?_, by simpa using hc, rfl, by simp⟩
    simp only [List.nil_append, multiplyRow]
    rw [long_ok (by omega) (by omega)]
    simp [pure, Except.pure]
  | [], _ :: _, _, _, h, _, _, _ => by simp at h
  | _ :: _, [], _, _, h, _, _, _ => by simp at h
  | y :: ys, r :: low, rest, carry, hl, hy, hlow, hc => by
    obtain ⟨hy0, hys⟩ := digits_cons.mp hy
    obtain ⟨hr0, hlow'⟩ := digits_cons.mp hlow
    obtain ⟨digit, carry', hstep, hdig, hcar, heq⟩ := multiplyStep_spec hx hy0 hr0 hc
    obtain ⟨out, hout, hod, hol, hov⟩ :=
      multiplyRow_spec hx ys low rest carry' (by simpa using hl) hys hlow' hcar
    refine ⟨digit :: out, ?_, digits_cons.mpr ⟨hdig, hod⟩, by simp [hol], ?_⟩
    · simp only [List.cons_append, multiplyRow, hstep, ok_bind, hout]; rfl
    · simp only [value_cons, hov]
      linear_combination heq

theorem multiplyRows_spec {ys} (hy : Digits bignumRadix ys) :
    ∀ {xs low : List Int}, Digits bignumRadix xs → Digits bignumRadix low →
      low.length = ys.length →
      ∃ out, multiplyRows ys xs (low ++ List.replicate xs.length 0) = .ok out ∧
        Digits bignumRadix out ∧ out.length = xs.length + ys.length ∧
        value bignumRadix out = value bignumRadix low + value bignumRadix xs * value bignumRadix ys
  | [], low, _, hlow, hl =>
    ⟨low, by simp [multiplyRows, pure, Except.pure], hlow, by simp [hl], by simp⟩
  | x :: xs, low, hx, hlow, hl => by
    obtain ⟨hx0, hxs⟩ := digits_cons.mp hx
    obtain ⟨row, hrow, hrd, hrl, hrv⟩ := multiplyRow_spec hx0 ys low
      (List.replicate xs.length 0) 0 hl hy hlow ⟨le_refl 0, bignumRadix_pos⟩
    cases row with
    | nil => simp at hrl
    | cons r row =>
      obtain ⟨hr0, hrd'⟩ := digits_cons.mp hrd
      obtain ⟨out, hout, hod, hol, hov⟩ := multiplyRows_spec hy hxs hrd' (by simpa using hrl)
      refine ⟨r :: out, ?_, digits_cons.mpr ⟨hr0, hod⟩, by simp [hol]; omega, ?_⟩
      · simp only [List.length_cons, List.replicate_succ, multiplyRows, hrow, ok_bind,
          List.cons_append, hout]
        rfl
      · simp only [value_cons] at hrv ⊢
        rw [hov]
        linear_combination hrv

theorem multiplyOrdered_gives (hx : x.WellFormed) (hy : y.WellFormed) (hz : x.digits ≠ []) (s) {n}
    (hn : x.length + y.length ≤ n) :
    Gives (TooLong n) (multiplyOrdered x y s)
      (fun z => z.WellFormed ∧ z.toInt = signedValue s (x.magnitude * y.magnitude)) := by
  refine (bignumAllocate_gives hn).bind fun _ _ => ?_
  obtain ⟨out, hout, hod, hol, hov⟩ := multiplyRows_spec hy.digits
    hx.digits (digits_replicate_zero bignumRadix_pos y.length)
    (by simp [Bignum.length])
  have e : List.replicate (x.length + y.length) (0 : Int) =
      List.replicate y.length 0 ++ List.replicate x.digits.length 0 := by
    rw [List.replicate_append_replicate, add_comm]; rfl
  rw [e, hout, ok_bind]
  have hne : out ≠ [] := by
    rintro rfl
    simp only [List.length_nil] at hol
    exact hz (List.eq_nil_of_length_eq_zero (by omega))
  obtain ⟨hw, hval⟩ := bignumTrim_spec (s := s) hod hne
  refine Gives.pure ⟨hw, ?_⟩
  rw [hval, Bignum.toInt_mk, hov]
  simp [signedValue, Bignum.magnitude]

theorem bignumMultiplyUnsigned_gives (hx : x.WellFormed) (hy : y.WellFormed) (hzx : x.digits ≠ [])
    (hzy : y.digits ≠ []) (s) {n} (hn : x.length + y.length ≤ n) :
    Gives (TooLong n) (bignumMultiplyUnsigned x y s)
      (fun z => z.WellFormed ∧ z.toInt = signedValue s (x.magnitude * y.magnitude)) := by
  unfold bignumMultiplyUnsigned
  split
  · rw [mul_comm x.magnitude]
    exact multiplyOrdered_gives hy hx hzy s (by omega)
  · exact multiplyOrdered_gives hx hy hzx s hn

theorem scaleUpLoop_spec {factor} (hf : 1 < factor ∧ factor < bignumRadixRoot) :
    ∀ (ds : List Int) (carry : Int), Digits bignumRadix ds →
      (0 ≤ carry ∧ carry < 2147483648) →
      ∃ r c, scaleUpLoop factor ds carry = .ok (r, c) ∧ Digits bignumRadix r ∧
        r.length = ds.length ∧ (0 ≤ c ∧ c < 2147483648) ∧
        value bignumRadix r + bignumRadix ^ ds.length * c =
          factor * value bignumRadix ds + carry
  | [], carry, _, hc => ⟨[], carry, rfl, by simp, rfl, hc, by simp⟩
  | d :: ds, carry, h, hc => by
    obtain ⟨hd, hds⟩ := digits_cons.mp h
    obtain ⟨l0, l1, h0, h1, ed⟩ := half_split hd.1 hd.2
    have hf0 : 0 ≤ factor ∧ factor < 2147483648 := by unfold bignumRadixRoot at hf; omega
    have efd : factor * d = factor * hdHigh d * 2147483648 + factor * hdLow d := by
      nth_rewrite 1 [ed]; ring
    have hR : bignumRadix = 4611686018427387904 := rfl
    simp only [scaleUpLoop]
    generalize hdLow d = dl at *
    generalize hdHigh d = dh at *
    obtain ⟨p1, p1'⟩ := half_mul hf0.1 hf0.2 l0 l1
    obtain ⟨p2, p2'⟩ := half_mul hf0.1 hf0.2 h0 h1
    rw [hdLow_eq hc.1, hdHigh_eq carry]
    simp (disch := omega) only [long_ok, ok_bind]
    set pl := factor * dl + carry % 2147483648 with hpl
    rw [hdLow_eq (d := pl) (by omega), hdHigh_eq pl]
    simp (disch := omega) only [long_ok, ok_bind]
    set ph := factor * dh + pl / 2147483648 + carry / 2147483648 with hph
    rw [hdLow_eq (d := ph) (by omega), hdHigh_eq ph, hdCons_ok (by omega) (by omega) (by omega)
      (by omega), ok_bind]
    obtain ⟨r, c, hr, hrd, hrl, hrc, hrv⟩ := scaleUpLoop_spec hf ds (ph / 2147483648) hds
      (by constructor <;> omega)
    refine ⟨_, c, by rw [hr]; rfl, digits_cons.mpr ⟨by rw [hR]; omega, hrd⟩, by simp [hrl], hrc, ?_⟩
    have he : ph % 2147483648 * 2147483648 + pl % 2147483648 +
        4611686018427387904 * (ph / 2147483648) = factor * d + carry := by
      rw [efd]; omega
    simp only [value_cons, List.length_cons, pow_succ]
    rw [← hR] at he
    linear_combination he + bignumRadix * hrv

theorem bignumMultiplyUnsignedSmallFactor_gives {x} (hx : x.WellFormed) {y}
    (hy : 1 < y ∧ y < bignumRadixRoot) (s) {n} (hn : x.length + 1 ≤ n) :
    Gives (TooLong n) (bignumMultiplyUnsignedSmallFactor x y s)
      (fun z => z.WellFormed ∧ z.toInt = signedValue s (y * x.magnitude)) := by
  refine (bignumAllocate_gives hn).bind fun _ _ => ?_
  have hd : Digits bignumRadix (x.digits ++ [0]) :=
    digits_append.mpr ⟨hx.digits, by simp [bignumRadix]⟩
  have hv0 : value bignumRadix (x.digits ++ [0]) = x.magnitude := by
    simp [value_append, Bignum.magnitude]
  obtain ⟨r, c, hr, hrd, hrl, hrc, hrv⟩ :=
    scaleUpLoop_spec hy (x.digits ++ [0]) 0 hd ⟨le_refl 0, by norm_num⟩
  -- the extra digit leaves no room for a carry out of the array
  have hc0 : c = 0 := by
    have h1 : x.magnitude < bignumRadix ^ x.digits.length := value_lt_pow bignumRadix_pos hx.digits
    have h2 := value_nonneg bignumRadix_pos hrd
    have h3 : y * x.magnitude < bignumRadix ^ (x.digits ++ [0]).length := by
      have hb : y < bignumRadix := by unfold bignumRadix; unfold bignumRadixRoot at hy; omega
      have h4 : 0 ≤ x.magnitude := value_nonneg bignumRadix_pos hx.digits
      calc y * x.magnitude ≤ bignumRadix * x.magnitude := mul_le_mul_of_nonneg_right hb.le h4
        _ < bignumRadix * bignumRadix ^ x.digits.length := mul_lt_mul_of_pos_left h1 bignumRadix_pos
        _ = _ := by rw [List.length_append, List.length_singleton, pow_succ, mul_comm]
    have h5 := pow_pos bignumRadix_pos (x.digits ++ [0]).length
    rw [hv0] at hrv
    by_contra hne
    have h6 : bignumRadix ^ (x.digits ++ [0]).length * 1 ≤
        bignumRadix ^ (x.digits ++ [0]).length * c :=
      mul_le_mul_of_nonneg_left (by omega) h5.le
    omega
  subst hc0
  rw [bignumDestructiveScaleUp, check, if_pos hy, ok_bind, hr]
  simp only [ok_bind, check, if_true, pure, Except.pure]
  have hne : r ≠ [] := by rintro rfl; simp at hrl
  obtain ⟨hw, hval⟩ := bignumTrim_spec (s := s) hrd hne
  refine ⟨hw, ?_⟩
  rw [hv0] at hrv
  rw [hval, Bignum.toInt_mk]
  simp only [signedValue, mul_zero, add_zero] at hrv ⊢
  rw [hrv]

/-! ## The exported operations -/

def bignumAdd (x y : Bignum) : Exec Bignum :=
  if x.zeroP then return y
  else if y.zeroP then return x
  else if x.negative then
    if y.negative then bignumAddUnsigned x y true else bignumSubtractUnsigned y x
  else
    if y.negative then bignumSubtractUnsigned x y else bignumAddUnsigned x y false

def bignumSubtract (x y : Bignum) : Exec Bignum :=
  if x.zeroP then
    if y.zeroP then return y else bignumNewSign y (!y.negative)
  else if y.zeroP then return x
  else if x.negative then
    if y.negative then bignumSubtractUnsigned y x else bignumAddUnsigned x y true
  else
    if y.negative then bignumAddUnsigned x y false else bignumSubtractUnsigned x y

def bignumNegate (x : Bignum) : Exec Bignum :=
  if x.zeroP then return x else bignumNewSign x (!x.negative)

/-- The test `bignum_multiply` makes of an operand of one digit: by 1, by a
half digit, or neither. -/
def multiplyByDigit (x y : Bignum) (negative : Bool) : Option (Exec Bignum) :=
  match x.digits with
  | [digit] =>
    if digit = 1 then some (bignumMaybeNewSign y negative)
    else if digit < bignumRadixRoot then some (bignumMultiplyUnsignedSmallFactor y digit negative)
    else none
  | _ => none

def bignumMultiply (x y : Bignum) : Exec Bignum :=
  let negative := if x.negative then !y.negative else y.negative
  if x.zeroP then return x
  else if y.zeroP then return y
  else
    match multiplyByDigit x y negative with
    | some r => r
    | none =>
      match multiplyByDigit y x negative with
      | some r => r
      | none => bignumMultiplyUnsigned x y negative

@[simp] theorem Bignum.zeroP_iff : b.zeroP = true ↔ b.digits = [] := by
  simp [Bignum.zeroP, Bignum.length]

theorem Bignum.toInt_of_nil (h : b.digits = []) : b.toInt = 0 := by
  simp [Bignum.toInt, Bignum.magnitude, h]

theorem Bignum.toInt_flip (b : Bignum) : (Bignum.mk (!b.negative) b.digits).toInt = -b.toInt := by
  cases h : b.negative <;> simp [Bignum.toInt, Bignum.magnitude, h]

theorem bignumAdd_gives (hx : x.WellFormed) (hy : y.WellFormed) :
    Gives (TooLong (max x.length y.length + 1)) (bignumAdd x y)
      (fun z => z.WellFormed ∧ z.toInt = x.toInt + y.toInt) := by
  unfold bignumAdd
  by_cases hzx : x.digits = []
  · rw [if_pos (Bignum.zeroP_iff.mpr hzx)]
    exact Gives.pure ⟨hy, by rw [Bignum.toInt_of_nil hzx, zero_add]⟩
  rw [if_neg (by simpa using hzx)]
  by_cases hzy : y.digits = []
  · rw [if_pos (Bignum.zeroP_iff.mpr hzy)]
    exact Gives.pure ⟨hx, by rw [Bignum.toInt_of_nil hzy, add_zero]⟩
  rw [if_neg (by simpa using hzy)]
  cases hsx : x.negative <;> cases hsy : y.negative <;>
    simp only [hsx, hsy, Bool.false_eq_true, if_true, if_false, Bignum.toInt_eq, signedValue]
  · exact bignumAddUnsigned_gives hx hy hzx hzy false le_rfl
  · refine (bignumSubtractUnsigned_gives hx hy (by omega)).mono fun z hz => ⟨hz.1, ?_⟩
    rw [← signedValue, ← Bignum.toInt_eq, hz.2]; ring
  · refine (bignumSubtractUnsigned_gives hy hx (by omega)).mono fun z hz => ⟨hz.1, ?_⟩
    rw [← signedValue, ← Bignum.toInt_eq, hz.2]; ring
  · refine (bignumAddUnsigned_gives hx hy hzx hzy true le_rfl).mono fun z hz => ⟨hz.1, ?_⟩
    rw [← signedValue, ← Bignum.toInt_eq, hz.2]; simp [signedValue]; ring

theorem bignumNewSign_flip (hx : x.WellFormed) (hz : x.digits ≠ []) {n} (hn : x.length ≤ n) :
    Gives (TooLong n) (bignumNewSign x (!x.negative))
      (fun z => z.WellFormed ∧ z.toInt = -x.toInt) :=
  (bignumNewSign_gives _ hn).mono fun z hz' => by
    rw [hz']
    exact ⟨hx.withSign hz _, x.toInt_flip⟩

theorem bignumSubtract_gives (hx : x.WellFormed) (hy : y.WellFormed) :
    Gives (TooLong (max x.length y.length + 1)) (bignumSubtract x y)
      (fun z => z.WellFormed ∧ z.toInt = x.toInt - y.toInt) := by
  unfold bignumSubtract
  by_cases hzx : x.digits = []
  · rw [if_pos (Bignum.zeroP_iff.mpr hzx), Bignum.toInt_of_nil hzx]
    by_cases hzy : y.digits = []
    · rw [if_pos (Bignum.zeroP_iff.mpr hzy)]
      exact Gives.pure ⟨hy, by rw [Bignum.toInt_of_nil hzy]; rfl⟩
    · rw [if_neg (by simpa using hzy)]
      simpa using bignumNewSign_flip hy hzy (show y.length ≤ max x.length y.length + 1 by omega)
  rw [if_neg (by simpa using hzx)]
  by_cases hzy : y.digits = []
  · rw [if_pos (Bignum.zeroP_iff.mpr hzy)]
    exact Gives.pure ⟨hx, by rw [Bignum.toInt_of_nil hzy, sub_zero]⟩
  rw [if_neg (by simpa using hzy)]
  cases hsx : x.negative <;> cases hsy : y.negative <;>
    simp only [hsx, hsy, Bool.false_eq_true, if_true, if_false, Bignum.toInt_eq x,
      Bignum.toInt_eq y, signedValue]
  · exact bignumSubtractUnsigned_gives hx hy (by omega)
  · refine (bignumAddUnsigned_gives hx hy hzx hzy false le_rfl).mono fun z hz => ⟨hz.1, ?_⟩
    rw [hz.2]; simp [signedValue]
  · refine (bignumAddUnsigned_gives hx hy hzx hzy true le_rfl).mono fun z hz => ⟨hz.1, ?_⟩
    rw [hz.2]; simp [signedValue]; ring
  · refine (bignumSubtractUnsigned_gives hy hx (by omega)).mono fun z hz => ⟨hz.1, ?_⟩
    rw [hz.2]; ring

theorem bignumNegate_gives (hx : x.WellFormed) :
    Gives (TooLong x.length) (bignumNegate x) (fun z => z.WellFormed ∧ z.toInt = -x.toInt) := by
  unfold bignumNegate
  by_cases hz : x.digits = []
  · rw [if_pos (Bignum.zeroP_iff.mpr hz)]
    exact Gives.pure ⟨hx, by rw [Bignum.toInt_of_nil hz]; rfl⟩
  · rw [if_neg (by simpa using hz)]
    exact bignumNewSign_flip hx hz le_rfl

theorem multiplyByDigit_gives {x y} (hx : x.WellFormed) (hy : y.WellFormed) (hz : y.digits ≠ [])
    (s) {r} (h : multiplyByDigit x y s = some r) :
    Gives (TooLong (x.length + y.length)) r
      (fun z => z.WellFormed ∧ z.toInt = signedValue s (x.magnitude * y.magnitude)) := by
  unfold multiplyByDigit at h
  split at h
  · rename_i digit he
    have hl : x.length = 1 := by simp [Bignum.length, he]
    have hm : x.magnitude = digit := by simp [Bignum.magnitude, he]
    have hd : 0 ≤ digit := (hx.digits digit (by simp [he])).1
    have h0 : digit ≠ 0 := by intro h0; exact hx.lead (by simp [he, h0])
    split at h
    · rename_i h1
      cases h
      refine (bignumMaybeNewSign_gives s (by omega)).mono fun z hz' => ?_
      rw [hz', hm, h1, one_mul]
      exact ⟨hy.withSign hz s, rfl⟩
    · split at h
      · cases h
        rw [hm]
        exact bignumMultiplyUnsignedSmallFactor_gives hy ⟨by omega, ‹_›⟩ s (by omega)
      · cases h
  · cases h

theorem signedValue_mul (a b m n) :
    signedValue (if a then !b else b) (m * n) = signedValue a m * signedValue b n := by
  cases a <;> cases b <;> simp [signedValue]

theorem bignumMultiply_gives (hx : x.WellFormed) (hy : y.WellFormed) :
    Gives (TooLong (x.length + y.length)) (bignumMultiply x y)
      (fun z => z.WellFormed ∧ z.toInt = x.toInt * y.toInt) := by
  unfold bignumMultiply
  by_cases hzx : x.digits = []
  · rw [if_pos (Bignum.zeroP_iff.mpr hzx)]
    exact Gives.pure ⟨hx, by rw [Bignum.toInt_of_nil hzx, zero_mul]⟩
  rw [if_neg (by simpa using hzx)]
  by_cases hzy : y.digits = []
  · rw [if_pos (Bignum.zeroP_iff.mpr hzy)]
    exact Gives.pure ⟨hy, by rw [Bignum.toInt_of_nil hzy, mul_zero]⟩
  rw [if_neg (by simpa using hzy), x.toInt_eq, y.toInt_eq, ← signedValue_mul]
  split
  · exact multiplyByDigit_gives hx hy hzy _ ‹_›
  · split
    · rw [mul_comm x.magnitude, add_comm x.length]
      exact multiplyByDigit_gives hy hx hzx _ ‹_›
    · exact bignumMultiplyUnsigned_gives hx hy hzx hzy _ le_rfl

/-- **The ring operations are exact and keep the representation.** Each one
returns a well-formed bignum of the exact value: no operand pattern makes an
intermediate value leave the range of a long, runs off a digit array or trips
an assertion, except the assertion that bounds the length of the allocated
block by `BIGNUM_LENGTH_MAX`. -/
theorem bignum_ring_exact (x y : WFBignum) :
    Gives (TooLong (max x.1.length y.1.length + 1)) (bignumAdd x.1 y.1)
        (fun z => z.WellFormed ∧ z.toInt = x.1.toInt + y.1.toInt) ∧
      Gives (TooLong (max x.1.length y.1.length + 1)) (bignumSubtract x.1 y.1)
        (fun z => z.WellFormed ∧ z.toInt = x.1.toInt - y.1.toInt) ∧
      Gives (TooLong x.1.length) (bignumNegate x.1)
        (fun z => z.WellFormed ∧ z.toInt = -x.1.toInt) ∧
      Gives (TooLong (x.1.length + y.1.length)) (bignumMultiply x.1 y.1)
        (fun z => z.WellFormed ∧ z.toInt = x.1.toInt * y.1.toInt) :=
  ⟨bignumAdd_gives x.2 y.2, bignumSubtract_gives x.2 y.2, bignumNegate_gives x.2,
    bignumMultiply_gives x.2 y.2⟩

end MitScheme.Microcode
