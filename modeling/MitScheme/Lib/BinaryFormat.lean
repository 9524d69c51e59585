import MitScheme.Lib.Quotient
import Mathlib.Data.Int.Log
import Mathlib.Tactic.Positivity

/-! # Binary floating-point formats

A format has a number of digits, a least exponent and an overflow limit. A number is
rounded to the multiples of the power of two that is the spacing around it, the closest
one, and the even one of two. Rounding to the digits first and to the format after it
gives something else where the least exponent cuts the digits. -/

namespace MitScheme.Lib.BinaryFormat
open Lib.Quotient

/-! ## Rounding to an integer -/

/-- The integer closest to `x`, the even one of two. -/
def nearestInt (x : ℚ) : Int :=
  if x - ⌊x⌋ < 1 / 2 ∨ x - ⌊x⌋ = 1 / 2 ∧ ⌊x⌋ % 2 = 0 then ⌊x⌋ else ⌊x⌋ + 1

theorem nearestInt_eq {x : ℚ} {q : Int} (hlo : (q : ℚ) - 1 / 2 < x) (hhi : x < q + 1 / 2) :
    nearestInt x = q := by
  rw [nearestInt]
  rcases le_or_gt (q : ℚ) x with hle | hlt
  · have hfloor : ⌊x⌋ = q := Int.floor_eq_iff.mpr ⟨hle, by linarith⟩
    rw [hfloor, if_pos (.inl (by linarith))]
  · have hfloor : ⌊x⌋ = q - 1 :=
      Int.floor_eq_iff.mpr ⟨by push_cast; linarith, by push_cast; linarith⟩
    rw [hfloor, if_neg]
    · omega
    · push_cast
      rintro (h | ⟨h, -⟩) <;> linarith

theorem nearestInt_int (q : Int) : nearestInt q = q :=
  nearestInt_eq (by linarith) (by linarith)

theorem nearestInt_half (k : Int) :
    nearestInt (k + 1 / 2) = if Odd k then k + 1 else k := by
  have hfloor : ⌊(k : ℚ) + 1 / 2⌋ = k := Int.floor_eq_iff.mpr ⟨by linarith, by linarith⟩
  rw [nearestInt, hfloor]
  by_cases hodd : Odd k
  · rw [if_pos hodd, if_neg]
    have := Int.odd_iff.mp hodd
    rintro (h | ⟨-, h⟩)
    · linarith
    · omega
  · rw [if_neg hodd, if_pos]
    exact .inr ⟨by ring, Int.even_iff.mp (Int.not_odd_iff_even.mp hodd)⟩

theorem nearestInt_spec (x : ℚ) : NearestEven x (nearestInt x) := by
  have hle := Int.floor_le x
  have hlt := Int.lt_floor_add_one x
  refine nearestEven_of_dist ?_
  rw [nearestInt]
  split
  · rename_i h
    rw [abs_of_nonneg (by linarith)]
    rcases h with h | ⟨h, heven⟩
    · exact .inl h
    · exact .inr ⟨h, Int.even_iff.mpr heven⟩
  · rename_i h
    push_cast
    rw [abs_of_nonpos (by linarith)]
    obtain ⟨hhalf, hodd⟩ := not_or.mp h
    rcases eq_or_lt_of_le (not_lt.mp hhalf) with heq | hgt
    · refine .inr ⟨by linarith, Int.even_add_one.mpr fun heven => hodd ⟨heq.symm, ?_⟩⟩
      exact Int.even_iff.mp heven
    · exact .inl (by linarith)

theorem nearest_le {x q} {k : Int} (h : NearestEven x q) (hx : x ≤ k) : q ≤ k := by
  by_contra hlt
  have hk : (k : ℚ) + 1 ≤ q := by exact_mod_cast Int.add_one_le_of_lt (not_le.mp hlt)
  have hnear := h.nearest k
  rw [abs_of_nonpos (by linarith), abs_of_nonpos (by linarith)] at hnear
  linarith

theorem le_nearest {x q} {k : Int} (h : NearestEven x q) (hx : k ≤ x) : k ≤ q := by
  have := nearest_le (k := -k) h.neg (by push_cast; linarith)
  omega

theorem nearestInt_twice {x y : ℚ} (hle : ∀ k : Int, x ≤ k / 2 → y ≤ k / 2)
    (hge : ∀ k : Int, k / 2 ≤ x → k / 2 ≤ y) :
    nearestInt y = nearestInt x ↔ ¬ (y ≠ x ∧ ∃ k : Int, y = k + 1 / 2 ∧ (x < y ↔ Odd k)) := by
  obtain ⟨q, hq⟩ : ∃ q, q = ⌊x⌋ := ⟨_, rfl⟩
  have hqx : (q : ℚ) ≤ x := hq ▸ Int.floor_le x
  have hxq : x < q + 1 := hq ▸ Int.lt_floor_add_one x
  have hqy : (q : ℚ) ≤ y := by
    have := hge (2 * q) (by push_cast; linarith)
    push_cast at this
    linarith
  have hyq : y ≤ q + 1 := by
    have := hle (2 * q + 2) (by push_cast; linarith)
    push_cast at this
    linarith
  -- the only half between `q` and its successor
  have hhalf : ∀ k : Int, y = k + 1 / 2 → k = q := by
    intro k hk
    have h1 : (q : ℚ) < k + 1 := by linarith
    have h2 : (k : ℚ) < q + 1 := by linarith
    have h1' : q < k + 1 := by exact_mod_cast h1
    have h2' : k < q + 1 := by exact_mod_cast h2
    omega
  by_cases hy : y = q + 1 / 2
  · have hslip : (y ≠ x ∧ ∃ k : Int, y = k + 1 / 2 ∧ (x < y ↔ Odd k)) ↔
        y ≠ x ∧ (x < y ↔ Odd q) := by
      refine and_congr_right fun _ => ⟨?_, fun h => ⟨q, hy, h⟩⟩
      rintro ⟨k, hk, h⟩
      rwa [hhalf k hk] at h
    have hny : nearestInt y = if Odd q then q + 1 else q := by rw [hy, nearestInt_half]
    rw [hslip, hny]
    rcases lt_trichotomy x y with hxy | hxy | hxy
    · have hnx : nearestInt x = q := nearestInt_eq (by linarith) (by linarith)
      rw [hnx]
      by_cases hodd : Odd q
      · rw [if_pos hodd]
        exact iff_of_false (by omega) fun h => h ⟨hxy.ne', iff_of_true hxy hodd⟩
      · rw [if_neg hodd]
        exact iff_of_true rfl fun h => hodd (h.2.mp hxy)
    · rw [← hny, hxy]
      exact iff_of_true rfl fun h => h.1 rfl
    · have hnx : nearestInt x = q + 1 :=
        nearestInt_eq (by push_cast; linarith) (by push_cast; linarith)
      rw [hnx]
      by_cases hodd : Odd q
      · rw [if_pos hodd]
        exact iff_of_true rfl fun h => absurd (h.2.mpr hodd) hxy.not_gt
      · rw [if_neg hodd]
        exact iff_of_false (by omega) fun h =>
          h ⟨hxy.ne, iff_of_false hxy.not_gt hodd⟩
  · have hslip : ¬ (y ≠ x ∧ ∃ k : Int, y = k + 1 / 2 ∧ (x < y ↔ Odd k)) := by
      rintro ⟨-, k, hk, -⟩
      exact hy (by rw [hk, hhalf k hk])
    refine iff_of_true ?_ hslip
    rcases lt_or_gt_of_ne hy with hlt | hgt
    · have hx : x < q + 1 / 2 := by
        by_contra hle
        have := hge (2 * q + 1) (by push_cast; linarith)
        push_cast at this
        linarith
      rw [nearestInt_eq (x := x) (q := q) (by linarith) hx,
        nearestInt_eq (x := y) (q := q) (by linarith) hlt]
    · have hx : (q : ℚ) + 1 / 2 < x := by
        by_contra hge
        have := hle (2 * q + 1) (by push_cast; linarith)
        push_cast at this
        linarith
      rw [nearestInt_eq (x := x) (q := q + 1) (by push_cast; linarith) (by push_cast; linarith),
        nearestInt_eq (x := y) (q := q + 1) (by push_cast; linarith) (by push_cast; linarith)]

/-! ## Formats -/

/-- Numbers of so many binary digits, whose last digit weighs at least `2 ^ least`, and
which are below `2 ^ limit`. -/
structure Format where
  digits : Nat
  least : Int
  limit : Int
  digits_pos : 1 ≤ digits
  least_le : least + digits ≤ limit

inductive Value
  | finite (v : ℚ)
  | infinite (negative : Bool)
  deriving DecidableEq

def Value.neg : Value → Value
  | finite v => finite (-v)
  | infinite negative => infinite (!negative)

/-- The multiple of `2 ^ e` closest to `x`, the even one of two. -/
def roundAt (e : Int) (x : ℚ) : ℚ := nearestInt (x / 2 ^ e) * 2 ^ e

/-- The weight of the last of `p` digits of a positive number. -/
def lastDigit (p : Nat) (x : ℚ) : Int := Int.log 2 x - (p - 1)

/-- A positive number rounded to `p` digits. -/
def roundDigits (p : Nat) (x : ℚ) : ℚ := roundAt (lastDigit p x) x

namespace Format

variable (F : Format)

/-- The spacing of the format around a positive number is `2` to this power. -/
def exponent (x : ℚ) : Int := max F.least (lastDigit F.digits x)

def roundPos (x : ℚ) : Value :=
  if roundAt (F.exponent x) x < 2 ^ F.limit then .finite (roundAt (F.exponent x) x)
  else .infinite false

def round (x : ℚ) : Value :=
  if x = 0 then .finite 0 else if x < 0 then (F.roundPos (-x)).neg else F.roundPos x

def Holds (v : ℚ) : Prop :=
  ∃ m e : Int, v = m * 2 ^ e ∧ |m| < 2 ^ F.digits ∧ F.least ≤ e

/-- A number whose digits are rounded to the middle between two neighbours of the format,
and whose own nearest neighbour is not the even one. -/
def Slips (x : ℚ) : Prop :=
  roundDigits F.digits x ≠ x ∧ ∃ k : Int,
    roundDigits F.digits x = (k + 1 / 2) * 2 ^ F.least ∧ (x < roundDigits F.digits x ↔ Odd k)

end Format

section Digits

variable {p : Nat} {x : ℚ}

theorem two_zpow_pos (e : Int) : (0 : ℚ) < 2 ^ e := zpow_pos two_pos e

theorem two_pow_pred (hp : 1 ≤ p) : (2 : ℚ) ^ p = 2 ^ (p - 1) * 2 := by
  rw [← pow_succ]
  congr 1
  omega

theorem significand_bounds (hp : 1 ≤ p) (hx : 0 < x) :
    2 ^ (p - 1) ≤ x / 2 ^ lastDigit p x ∧ x / 2 ^ lastDigit p x < 2 ^ p := by
  have hlo := Int.zpow_log_le_self (b := 2) (by omega) hx
  have hhi := Int.lt_zpow_succ_log_self (b := 2) (by omega) x
  push_cast at hlo hhi
  have hpos := two_zpow_pos (lastDigit p x)
  have hsplit : (2 : ℚ) ^ Int.log 2 x = 2 ^ (p - 1) * 2 ^ lastDigit p x := by
    rw [← zpow_natCast, ← zpow_add₀ two_ne_zero, lastDigit]
    congr 1
    omega
  rw [zpow_add₀ two_ne_zero, zpow_one, hsplit] at hhi
  rw [hsplit] at hlo
  refine ⟨(le_div_iff₀ hpos).mpr hlo, (div_lt_iff₀ hpos).mpr ?_⟩
  rw [two_pow_pred hp]
  linarith

theorem digits_bounds (hp : 1 ≤ p) (hx : 0 < x) :
    2 ^ (p - 1) ≤ nearestInt (x / 2 ^ lastDigit p x) ∧
      nearestInt (x / 2 ^ lastDigit p x) ≤ 2 ^ p := by
  obtain ⟨hlo, hhi⟩ := significand_bounds hp hx
  exact ⟨le_nearest (nearestInt_spec _) (by exact_mod_cast hlo),
    nearest_le (nearestInt_spec _) (by exact_mod_cast hhi.le)⟩

theorem lastDigit_eq {e} (hlo : 2 ^ (p - 1) * 2 ^ e ≤ x) (hhi : x < 2 ^ p * 2 ^ e) (hp : 1 ≤ p) :
    lastDigit p x = e := by
  have hx : 0 < x := lt_of_lt_of_le (mul_pos (by positivity) (two_zpow_pos e)) hlo
  have h1 : e + (p - 1) ≤ Int.log 2 x := by
    refine (Int.zpow_le_iff_le_log (by omega) hx).mp (le_of_eq_of_le ?_ hlo)
    rw [← zpow_natCast, ← zpow_add₀ two_ne_zero]
    push_cast [hp]
    congr 1
    ring
  have h2 : Int.log 2 x < e + p := by
    refine (Int.lt_zpow_iff_log_lt (by omega) hx).mp (lt_of_lt_of_eq hhi ?_)
    rw [← zpow_natCast, ← zpow_add₀ two_ne_zero]
    push_cast
    congr 1
    ring
  rw [lastDigit]
  omega

theorem roundAt_self (m e : Int) : roundAt e (m * 2 ^ e) = m * 2 ^ e := by
  rw [roundAt, mul_div_cancel_right₀ _ (two_zpow_pos e).ne', nearestInt_int]

theorem roundDigits_cases (hp : 1 ≤ p) (hx : 0 < x) :
    (∃ m : Int, roundDigits p x = m * 2 ^ lastDigit p x ∧
      lastDigit p (roundDigits p x) = lastDigit p x) ∨
    ∃ m : Int, roundDigits p x = m * 2 ^ (lastDigit p x + 1) ∧
      lastDigit p (roundDigits p x) = lastDigit p x + 1 := by
  obtain ⟨hlo, hhi⟩ := digits_bounds hp hx
  have hdef : roundDigits p x = nearestInt (x / 2 ^ lastDigit p x) * 2 ^ lastDigit p x := rfl
  generalize nearestInt (x / 2 ^ lastDigit p x) = m at hlo hhi hdef
  have hpos := two_zpow_pos (lastDigit p x)
  have hlo' : (2 : ℚ) ^ (p - 1) ≤ m := by exact_mod_cast hlo
  rcases eq_or_lt_of_le hhi with heq | hlt
  · right
    have hpow : roundDigits p x = 2 ^ (p - 1) * 2 ^ (lastDigit p x + 1) := by
      rw [hdef, heq, zpow_add₀ two_ne_zero, zpow_one]
      push_cast
      rw [two_pow_pred hp]
      ring
    refine ⟨2 ^ (p - 1), by rw [hpow]; push_cast; rfl, lastDigit_eq hpow.ge ?_ hp⟩
    rw [hpow]
    exact mul_lt_mul_of_pos_right (pow_lt_pow_right₀ one_lt_two (by omega)) (two_zpow_pos _)
  · left
    refine ⟨m, hdef, lastDigit_eq ?_ ?_ hp⟩
    · rw [hdef]
      exact mul_le_mul_of_nonneg_right hlo' hpos.le
    · rw [hdef]
      exact mul_lt_mul_of_pos_right (by exact_mod_cast hlt) hpos

end Digits

/-! ## Rounding the digits and then to the format -/

section Twice

variable {F : Format} {x : ℚ}

theorem roundPos_fine (hx : 0 < x) (he : F.least ≤ lastDigit F.digits x) :
    F.roundPos (roundDigits F.digits x) = F.roundPos x := by
  have hdef : roundAt (F.exponent x) x = roundDigits F.digits x := by
    rw [Format.exponent, max_eq_right he, roundDigits]
  have hself : roundAt (F.exponent (roundDigits F.digits x)) (roundDigits F.digits x) =
      roundDigits F.digits x := by
    obtain ⟨m, hm, hlast⟩ | ⟨m, hm, hlast⟩ := roundDigits_cases F.digits_pos hx
    · rw [Format.exponent, hlast, max_eq_right he, hm, roundAt_self]
    · rw [Format.exponent, hlast, max_eq_right (by omega), hm, roundAt_self]
  rw [Format.roundPos, Format.roundPos, hself, hdef]

theorem not_slips (he : F.least ≤ lastDigit F.digits x) : ¬ F.Slips x := by
  rintro ⟨-, k, hk, -⟩
  obtain ⟨j, hj⟩ := Int.eq_ofNat_of_zero_le (sub_nonneg.mpr he)
  obtain ⟨m, hm⟩ : ∃ m : Int, roundDigits F.digits x = m * 2 ^ lastDigit F.digits x := ⟨_, rfl⟩
  have hsplit : (2 : ℚ) ^ lastDigit F.digits x = 2 ^ j * 2 ^ F.least := by
    rw [← zpow_natCast, ← zpow_add₀ two_ne_zero]
    congr 1
    omega
  rw [hm, hsplit, ← mul_assoc] at hk
  have heq := mul_right_cancel₀ (two_zpow_pos F.least).ne' hk
  have hodd : (2 * (m * 2 ^ j) : ℚ) = 2 * k + 1 := by linarith
  have hodd' : 2 * (m * 2 ^ j) = 2 * k + 1 := by exact_mod_cast hodd
  omega

theorem exponent_coarse (hx : 0 < x) (he : lastDigit F.digits x < F.least) :
    F.exponent x = F.least ∧ F.exponent (roundDigits F.digits x) = F.least := by
  refine ⟨max_eq_left he.le, ?_⟩
  obtain ⟨m, hm, hlast⟩ | ⟨m, hm, hlast⟩ := roundDigits_cases F.digits_pos hx
  · rw [Format.exponent, hlast, max_eq_left he.le]
  · rw [Format.exponent, hlast, max_eq_left (by omega)]

theorem roundDigits_halves (he : lastDigit F.digits x < F.least) (k : Int) :
    (x / 2 ^ F.least ≤ k / 2 → roundDigits F.digits x / 2 ^ F.least ≤ k / 2) ∧
      (k / 2 ≤ x / 2 ^ F.least → k / 2 ≤ roundDigits F.digits x / 2 ^ F.least) := by
  obtain ⟨j, hj⟩ := Int.eq_ofNat_of_zero_le (sub_nonneg.mpr (Int.le_sub_one_of_lt he))
  have hleast : (2 : ℚ) ^ F.least = 2 * 2 ^ j * 2 ^ lastDigit F.digits x := by
    rw [mul_assoc, ← zpow_natCast, ← zpow_add₀ two_ne_zero, ← zpow_one_add₀ two_ne_zero]
    congr 1
    omega
  have hpos := two_zpow_pos (lastDigit F.digits x)
  have hj0 : (0 : ℚ) < 2 * 2 ^ j := by positivity
  have hspec := nearestInt_spec (x / 2 ^ lastDigit F.digits x)
  have hy : roundDigits F.digits x / 2 ^ F.least =
      nearestInt (x / 2 ^ lastDigit F.digits x) / (2 * 2 ^ j) := by
    rw [roundDigits, roundAt, hleast, mul_div_mul_right _ _ hpos.ne']
  have hx : x / 2 ^ F.least = x / 2 ^ lastDigit F.digits x / (2 * 2 ^ j) := by
    rw [hleast, div_div, mul_comm]
  have hk : (k : ℚ) / 2 = (k * 2 ^ j : Int) / (2 * 2 ^ j) := by
    push_cast
    rw [mul_div_mul_right _ _ (by positivity : (2 : ℚ) ^ j ≠ 0)]
  rw [hx, hy, hk]
  constructor
  · intro h
    have := nearest_le hspec ((div_le_div_iff_of_pos_right hj0).mp h)
    exact (div_le_div_iff_of_pos_right hj0).mpr (by exact_mod_cast this)
  · intro h
    have := le_nearest hspec ((div_le_div_iff_of_pos_right hj0).mp h)
    exact (div_le_div_iff_of_pos_right hj0).mpr (by exact_mod_cast this)

theorem roundAt_least_lt (h : x / 2 ^ F.least ≤ 2 ^ (F.digits - 1)) :
    roundAt F.least x < 2 ^ F.limit := by
  have hle : nearestInt (x / 2 ^ F.least) ≤ 2 ^ (F.digits - 1) :=
    nearest_le (nearestInt_spec _) (by exact_mod_cast h)
  have hle' : (nearestInt (x / 2 ^ F.least) : ℚ) ≤ 2 ^ (F.digits - 1) := by exact_mod_cast hle
  have hpos := two_zpow_pos F.least
  calc roundAt F.least x ≤ 2 ^ (F.digits - 1) * 2 ^ F.least :=
        mul_le_mul_of_nonneg_right hle' hpos.le
    _ < 2 ^ F.digits * 2 ^ F.least :=
        mul_lt_mul_of_pos_right (pow_lt_pow_right₀ one_lt_two (by have := F.digits_pos; omega)) hpos
    _ = 2 ^ (F.least + F.digits) := by
        rw [← zpow_natCast, ← zpow_add₀ two_ne_zero, add_comm]
    _ ≤ 2 ^ F.limit := zpow_le_zpow_right₀ one_le_two F.least_le

theorem roundPos_coarse (hx : 0 < x) (he : lastDigit F.digits x < F.least) :
    F.roundPos (roundDigits F.digits x) = F.roundPos x ↔ ¬ F.Slips x := by
  obtain ⟨hex, hey⟩ := exponent_coarse hx he
  have hpos := two_zpow_pos F.least
  have hhalf : (((2 ^ F.digits : Int) : ℚ) / 2) = 2 ^ (F.digits - 1) := by
    push_cast
    rw [two_pow_pred F.digits_pos, mul_div_cancel_right₀ _ two_ne_zero]
  have hbound : x / 2 ^ F.least ≤ ((2 ^ F.digits : Int) : ℚ) / 2 := by
    have hlt := (div_lt_iff₀ (two_zpow_pos _)).mp (significand_bounds F.digits_pos hx).2
    have hstep : (2 : ℚ) ^ lastDigit F.digits x ≤ 2 ^ (F.least - 1) :=
      zpow_le_zpow_right₀ one_le_two (Int.le_sub_one_of_lt he)
    rw [zpow_sub_one₀ two_ne_zero] at hstep
    rw [div_le_iff₀ hpos]
    have hmul := mul_le_mul_of_nonneg_left hstep (by positivity : (0 : ℚ) ≤ 2 ^ F.digits)
    push_cast
    linarith
  have hlx := roundAt_least_lt (hhalf ▸ hbound)
  have hly := roundAt_least_lt (hhalf ▸ (roundDigits_halves he _).1 hbound)
  rw [Format.roundPos, Format.roundPos, hex, hey, if_pos hlx, if_pos hly]
  have htwice := nearestInt_twice (fun k => (roundDigits_halves he k).1)
    (fun k => (roundDigits_halves he k).2)
  rw [Value.finite.injEq, roundAt, roundAt, mul_left_inj' hpos.ne', Int.cast_inj, htwice,
    Format.Slips]
  have hy : ∀ k : Int, roundDigits F.digits x / 2 ^ F.least = k + 1 / 2 ↔
      roundDigits F.digits x = (k + 1 / 2) * 2 ^ F.least := fun k => div_eq_iff hpos.ne'
  simp only [hy, div_lt_div_iff_of_pos_right hpos, ne_eq, div_left_inj' hpos.ne']

/-- **Rounding a number to the digits of the format and then to the format is rounding it
once, if and only if it does not slip.** -/
theorem roundPos_twice_iff (hx : 0 < x) :
    F.roundPos (roundDigits F.digits x) = F.roundPos x ↔ ¬ F.Slips x := by
  rcases lt_or_ge (lastDigit F.digits x) F.least with he | he
  · exact roundPos_coarse hx he
  · exact iff_of_true (roundPos_fine hx he) (not_slips he)

end Twice

end MitScheme.Lib.BinaryFormat
