import MitScheme.Runtime.Integer
import MitScheme.Lib.BinaryFormat
import Mathlib.Data.Nat.Size

/-! # Ratios to flonums

`ratio->flonum` of `arith.scm`. The quotient is rounded to the digits of a flonum and
then scaled, and a scaling to a subnormal number rounds once more. A flonum is the
rational number that it stands for, or an infinity. -/

namespace MitScheme.Runtime.Arith
open Lib.BinaryFormat Lib.Quotient

def flonumFormat : Format where
  digits := 53
  least := -1074
  limit := 1024
  digits_pos := by decide
  least_le := by decide

/-- `flo:significand-digits-base-2`. -/
def floSignificandDigits : Nat := 53

def intFlonumIntegerLimit : Int := 2 ^ floSignificandDigits

/-- `flo:denormalize`, a correctly rounded scaling by a power of two. -/
def floDenormalize (x : ℚ) (e : Int) : Value := flonumFormat.round (x * 2 ^ e)

def Representable (n : Int) : Prop := flonumFormat.Holds n ∧ |n| < 2 ^ 1024

/-- The test of `integer->flonum` with an odd control: a fixnum that is the same after a
conversion to a double, or a bignum of few bits. -/
def lossless (n : Int) : Bool :=
  if -2 ^ 57 ≤ n ∧ n < 2 ^ 57 then n.natAbs % 2 ^ (n.natAbs.size - 53) = 0
  else n.natAbs < 2 ^ 53 ∨ n = -2 ^ 53

/-- `(integer->flonum n #b11)`. -/
def integerToFlonum (n : Int) : Result ℚ := if lossless n then .ok n else .error .badRange

/-! ## `n>0` -/

def step4 (n e : Int) : Result Value := do return floDenormalize (← integerToFlonum n) e

def step3 (n d e : Int) : Result Value := do
  let n ← intRound (n <<< floSignificandDigits) d
  if n = intFlonumIntegerLimit then step4 (← intQuotient n 2) (e + 1) else step4 n e

def step2 (k n d : Int) : Result Value :=
  if n < d then step3 n d (k - floSignificandDigits)
  else step3 n (2 * d) (k + 1 - floSignificandDigits)

def step1 (k n d : Int) : Result Value :=
  if k < 0 then step2 k (n <<< (-k).toNat) d else step2 k n (d <<< k.toNat)

/-- `n>0`. -/
def nPositive (n d : Int) : Result Value := step1 (n.natAbs.size - d.natAbs.size) n d

def slowMethod (n d : Int) : Result Value :=
  if n > 0 then nPositive n d else do return (← nPositive (-n) d).neg

def ratioToFlonum (n d : Int) : Result Value :=
  if n = 0 then .ok (.finite 0)
  else if lossless n then
    if lossless d then .ok (flonumFormat.round (n / d)) else slowMethod n d
  else slowMethod n d

/-! ## The digits are rounded first -/

theorem shiftLeft_eq (n : Int) (k : Nat) : n <<< k = n * 2 ^ k := by
  rw [Int.shiftLeft_eq]

theorem integerToFlonum_ok {n} (h0 : 0 ≤ n) (hlt : n < 2 ^ 53) : integerToFlonum n = .ok n := by
  have hsize : n.natAbs.size ≤ 53 := Nat.size_le.mpr (by omega)
  have hmod : n.natAbs % 2 ^ (n.natAbs.size - 53) = 0 := by
    rw [Nat.sub_eq_zero_of_le hsize, pow_zero, Nat.mod_one]
  have hlossless : lossless n = true := by
    rw [lossless, if_pos (by omega), decide_eq_true hmod]
  rw [integerToFlonum, if_pos hlossless]

theorem step4_ok {n e} (h0 : 0 ≤ n) (hlt : n < 2 ^ 53) :
    step4 n e = .ok (flonumFormat.round (n * 2 ^ e)) := by
  rw [step4, integerToFlonum_ok h0 hlt]
  rfl

theorem step3_ok {n d e} (hd : 0 < d) (hlo : d ≤ 2 * n) (hhi : n < d) :
    step3 n d e = .ok (flonumFormat.round
      (roundDigits 53 ((n : ℚ) / d * 2 ^ (e + floSignificandDigits)))) := by
  have hdq : (0 : ℚ) < d := by exact_mod_cast hd
  have hlo' : (d : ℚ) ≤ 2 * n := by exact_mod_cast hlo
  have hhi' : (n : ℚ) < d := by exact_mod_cast hhi
  have hpos := two_zpow_pos e
  obtain ⟨q, hq, hspec⟩ := intRound_ok (n := n <<< floSignificandDigits) hd.ne'
  have hx : (n : ℚ) / d * 2 ^ (e + floSignificandDigits) =
      ((n <<< floSignificandDigits : Int) : ℚ) / d * 2 ^ e := by
    rw [shiftLeft_eq, zpow_add₀ two_ne_zero, zpow_natCast]
    push_cast
    ring
  generalize hX : ((n <<< floSignificandDigits : Int) : ℚ) / d = X at hspec hx
  have hXeq : X = n / d * 2 ^ 53 := by
    rw [← hX, shiftLeft_eq, floSignificandDigits]
    push_cast
    ring
  have hXlo : 2 ^ 52 ≤ X := by
    have : (1 : ℚ) / 2 ≤ n / d := by
      rw [div_le_div_iff₀ two_pos hdq]
      linarith
    rw [hXeq]
    linarith
  have hXhi : X < 2 ^ 53 := by
    have : (n : ℚ) / d < 1 := (div_lt_one hdq).mpr hhi'
    rw [hXeq]
    linarith
  have hlast : lastDigit 53 (X * 2 ^ e) = e :=
    lastDigit_eq (mul_le_mul_of_nonneg_right hXlo hpos.le) (mul_lt_mul_of_pos_right hXhi hpos)
      (by decide)
  have hround : roundDigits 53 (X * 2 ^ e) = q * 2 ^ e := by
    rw [roundDigits, hlast, roundAt, mul_div_cancel_right₀ _ hpos.ne',
      (nearestInt_spec X).unique hspec]
  have hqlo : 0 ≤ q := le_nearest hspec (by push_cast; linarith)
  have hqhi : q ≤ 2 ^ 53 := nearest_le hspec (by push_cast; exact hXhi.le)
  rw [hx, hround, step3, hq]
  change (if q = intFlonumIntegerLimit then _ else _) = _
  split
  · rename_i hcarry
    have hhalf : intQuotient q 2 = .ok (2 ^ 52) := by rw [hcarry]; decide
    rw [hhalf]
    change step4 (2 ^ 52) (e + 1) = _
    rw [step4_ok (by decide) (by decide), hcarry, zpow_add₀ two_ne_zero]
    congr 2
    rw [intFlonumIntegerLimit, floSignificandDigits]
    push_cast
    ring
  · rename_i hne
    have hne' : q ≠ 2 ^ 53 := hne
    exact step4_ok hqlo (by omega)

theorem step2_ok {k n d} (hd : 0 < d) (hlo : d ≤ 2 * n) (hhi : n < 2 * d) :
    step2 k n d = .ok (flonumFormat.round (roundDigits 53 ((n : ℚ) / d * 2 ^ k))) := by
  rw [step2]
  split
  · rename_i hlt
    rw [step3_ok hd hlo hlt, sub_add_cancel]
  · rename_i hge
    rw [step3_ok (by omega) (by omega) hhi, sub_add_cancel]
    have heq : (n : ℚ) / ((2 * d : Int) : ℚ) * 2 ^ (k + 1) = n / d * 2 ^ k := by
      have hdq : (d : ℚ) ≠ 0 := by exact_mod_cast hd.ne'
      rw [zpow_add₀ two_ne_zero, zpow_one]
      push_cast
      field_simp
    rw [heq]

theorem nPositive_ok {n d} (hn : 0 < n) (hd : 0 < d) :
    nPositive n d = .ok (flonumFormat.round (roundDigits 53 ((n : ℚ) / d))) := by
  have hdq : (d : ℚ) ≠ 0 := by exact_mod_cast hd.ne'
  -- the bits of the two integers
  have hbits : ∀ m : Int, 0 < m → 2 ^ m.natAbs.size ≤ 2 * m ∧ m < 2 ^ m.natAbs.size := by
    intro m hm
    have hlt := Nat.lt_size_self m.natAbs
    have hpos : 0 < m.natAbs.size := Nat.size_pos.mpr (by omega)
    have hle : 2 ^ (m.natAbs.size - 1) ≤ m.natAbs := Nat.lt_size.mp (by omega)
    obtain ⟨b, hb⟩ := Nat.exists_eq_add_of_lt hpos
    have hb' : m.natAbs.size = b + 1 := by omega
    rw [hb'] at hlt hle ⊢
    rw [Nat.add_sub_cancel] at hle
    have hle' : (2 : Int) ^ b ≤ m := by
      have : ((2 ^ b : Nat) : Int) ≤ m.natAbs := by exact_mod_cast hle
      push_cast at this
      rwa [abs_of_pos hm] at this
    have hlt' : m < 2 ^ (b + 1) := by
      have : (m.natAbs : Int) < ((2 ^ (b + 1) : Nat) : Int) := by exact_mod_cast hlt
      push_cast at this
      rwa [abs_of_pos hm] at this
    rw [pow_succ] at hlt' ⊢
    exact ⟨by linarith, hlt'⟩
  obtain ⟨hnlo, hnhi⟩ := hbits n hn
  obtain ⟨hdlo, hdhi⟩ := hbits d hd
  rw [nPositive, step1]
  generalize n.natAbs.size = a at *
  generalize d.natAbs.size = b at *
  split
  · rename_i hk
    obtain ⟨j, rfl⟩ : ∃ j, b = a + j := ⟨b - a, by omega⟩
    have hj : (-((a : Int) - ((a + j : Nat) : Int))).toNat = j := by omega
    rw [hj, shiftLeft_eq]
    have hpow : (0 : Int) < 2 ^ j := by positivity
    rw [pow_add] at hdlo hdhi
    have hscale : ((n * 2 ^ j : Int) : ℚ) / d * 2 ^ ((a : Int) - ((a + j : Nat) : Int)) =
        n / d := by
      have hexp : (a : Int) - ((a + j : Nat) : Int) = -j := by omega
      rw [hexp, zpow_neg, zpow_natCast]
      push_cast
      field_simp
    rw [step2_ok hd (by nlinarith) (by nlinarith), hscale]
  · rename_i hk
    obtain ⟨j, rfl⟩ : ∃ j, a = b + j := ⟨a - b, by omega⟩
    have hj : (((b + j : Nat) : Int) - (b : Int)).toNat = j := by omega
    rw [hj, shiftLeft_eq]
    have hpow : (0 : Int) < 2 ^ j := by positivity
    rw [pow_add] at hnlo hnhi
    have hscale : (n : ℚ) / ((d * 2 ^ j : Int) : ℚ) * 2 ^ (((b + j : Nat) : Int) - (b : Int)) =
        n / d := by
      have hexp : ((b + j : Nat) : Int) - (b : Int) = j := by omega
      rw [hexp, zpow_natCast]
      push_cast
      field_simp
    rw [step2_ok (by positivity) (by nlinarith) (by nlinarith), hscale]

/-! ## The nearest flonum -/

theorem lossless_representable {n} (h : lossless n = true) : Representable n := by
  rw [lossless] at h
  have hfix : -2 ^ 57 ≤ n ∧ n < 2 ^ 57 := by
    by_contra hbig
    rw [if_neg hbig, decide_eq_true_eq] at h
    omega
  rw [if_pos hfix, decide_eq_true_eq] at h
  obtain ⟨m, hm⟩ := Nat.dvd_of_mod_eq_zero h
  have hlt := Nat.lt_size_self n.natAbs
  have hm53 : m < 2 ^ 53 := by
    rcases Nat.lt_or_ge 53 n.natAbs.size with hgt | hle
    · obtain ⟨j, hj⟩ := Nat.exists_eq_add_of_lt hgt
      have hj' : n.natAbs.size = 53 + (j + 1) := by omega
      rw [hj', Nat.add_sub_cancel_left] at hm
      rw [hj', hm, pow_add _ 53, mul_comm (2 ^ 53)] at hlt
      exact Nat.lt_of_mul_lt_mul_left hlt
    · rw [Nat.sub_eq_zero_of_le hle, pow_zero, one_mul] at hm
      rw [← hm]
      exact hlt.trans_le (Nat.pow_le_pow_right two_pos hle)
  have hholds : ∀ k : Int, |k| = m → n = k * 2 ^ (n.natAbs.size - 53) → flonumFormat.Holds n := by
    intro k hk hn
    refine ⟨k, (n.natAbs.size - 53 : Nat), ?_, ?_, by
      have : flonumFormat.least = -1074 := rfl
      omega⟩
    · rw [zpow_natCast]
      exact_mod_cast hn
    · rw [hk]
      exact_mod_cast hm53
  have habs : |n| < 2 ^ 58 := abs_lt.mpr ⟨by omega, by omega⟩
  refine ⟨?_, habs.trans (pow_lt_pow_right₀ one_lt_two (by decide))⟩
  have hcast : ((n.natAbs : Nat) : Int) = m * 2 ^ (n.natAbs.size - 53) := by
    rw [mul_comm]
    exact_mod_cast hm
  rcases Int.natAbs_eq n with hn | hn
  · exact hholds m (abs_of_nonneg (Int.natCast_nonneg m)) (hn.trans hcast)
  · refine hholds (-m) (by rw [abs_neg, abs_of_nonneg (Int.natCast_nonneg m)]) ?_
    rw [neg_mul, ← hcast]
    exact hn

theorem neg_inj {v w : Value} : v.neg = w.neg ↔ v = w := by
  cases v <;> cases w <;> simp [Value.neg]

theorem round_pos {x} (hx : 0 < x) : flonumFormat.round x = flonumFormat.roundPos x := by
  rw [Format.round, if_neg hx.ne', if_neg hx.not_gt]

theorem round_neg {x} (hx : 0 < x) : flonumFormat.round (-x) = (flonumFormat.roundPos x).neg := by
  rw [Format.round, if_neg (by linarith), if_pos (by linarith), neg_neg]

theorem roundDigits_pos {x} (hx : 0 < x) : 0 < roundDigits 53 x :=
  mul_pos (by
    have := (digits_bounds (p := 53) (by decide) hx).1
    exact_mod_cast lt_of_lt_of_le (by norm_num) this) (two_zpow_pos _)

/-- **A ratio that is not a quotient of two flonums is converted to the nearest flonum, ties
to even, if and only if its digits are not rounded to the middle of two flonums where it is
nearer to the odd one.** -/
theorem ratioToFlonum_iff {n d : Int} (hn : n ≠ 0) (hd : 0 < d)
    (h : ¬ (Representable n ∧ Representable d)) :
    ratioToFlonum n d = .ok (flonumFormat.round (n / d)) ↔
      ¬ flonumFormat.Slips (|(n : ℚ)| / d) := by
  have hslow : ratioToFlonum n d = slowMethod n d := by
    rw [ratioToFlonum, if_neg hn]
    split
    · rename_i hln
      split
      · rename_i hld
        exact absurd ⟨lossless_representable hln, lossless_representable hld⟩ h
      · rfl
    · rfl
  have hdq : (0 : ℚ) < d := by exact_mod_cast hd
  rw [hslow, slowMethod]
  split
  · rename_i hpos
    have hnq : (0 : ℚ) < n := by exact_mod_cast hpos
    have hx : (0 : ℚ) < n / d := div_pos hnq hdq
    rw [nPositive_ok hpos hd, abs_of_pos hnq, Except.ok.injEq, round_pos hx,
      round_pos (roundDigits_pos hx)]
    exact roundPos_twice_iff (F := flonumFormat) hx
  · rename_i hneg
    have hpos : 0 < -n := by omega
    have hnq : (n : ℚ) < 0 := by exact_mod_cast (by omega : n < 0)
    have hx : (0 : ℚ) < -n / d := div_pos (by linarith) hdq
    have hround : flonumFormat.round ((n : ℚ) / d) = (flonumFormat.roundPos (-n / d)).neg := by
      rw [← round_neg hx, neg_div, neg_neg]
    rw [nPositive_ok hpos hd, abs_of_neg hnq, hround]
    push_cast
    change Except.ok (Value.neg _) = Except.ok _ ↔ _
    rw [Except.ok.injEq, neg_inj, round_pos (roundDigits_pos hx)]
    exact roundPos_twice_iff (F := flonumFormat) hx

theorem not_representable {n} (hodd : Odd n) (hbig : 2 ^ 53 ≤ n) : ¬ Representable n := by
  rintro ⟨⟨m, e, hn, hm, -⟩, -⟩
  rcases le_or_gt e 0 with he | he
  · have hle : (n : ℚ) ≤ |(m : ℚ)| := by
      have h1 : (2 : ℚ) ^ e ≤ 1 := zpow_le_one_of_nonpos₀ one_le_two he
      have h2 := mul_le_mul_of_nonneg_left h1 (abs_nonneg (m : ℚ))
      have h3 := mul_le_mul_of_nonneg_right (le_abs_self (m : ℚ)) (two_zpow_pos e).le
      rw [hn]
      linarith
    have hle' : n ≤ |m| := by exact_mod_cast hle
    have hm' : |m| < 2 ^ 53 := hm
    omega
  · obtain ⟨j, rfl⟩ := Int.eq_ofNat_of_zero_le he.le
    obtain ⟨i, rfl⟩ := Nat.exists_eq_succ_of_ne_zero (show j ≠ 0 by omega)
    have heq : n = m * 2 ^ (i + 1) := by
      rw [zpow_natCast] at hn
      exact_mod_cast hn
    rw [heq, pow_succ] at hodd
    have hparity := Int.odd_iff.mp hodd
    have hdouble : m * (2 ^ i * 2) = 2 * (m * 2 ^ i) := by ring
    omega

/-- An integer below a denominator of many digits. -/
theorem ratioToFlonum_five :
    ratioToFlonum 5 (3 * 2 ^ 60 + 1) =
      .ok (flonumFormat.round (((5 : Int) : ℚ) / ((3 * 2 ^ 60 + 1 : Int) : ℚ))) :=
  (ratioToFlonum_iff (by decide) (by decide)
    fun h => not_representable (by decide) (by decide) h.2).mpr
    (not_slips (by decide +kernel))

/-- Just above half the least flonum the digits are those of the half, and zero is taken. -/
theorem ratioToFlonum_slip :
    ratioToFlonum (2 ^ 60 + 1) (2 ^ 1135) = .ok (.finite 0) ∧
      flonumFormat.round (((2 ^ 60 + 1 : Int) : ℚ) / ((2 ^ 1135 : Int) : ℚ)) =
        .finite (2 ^ (-1074 : Int)) := by
  decide +kernel

end MitScheme.Runtime.Arith
