import MitScheme.Microcode.BignumRing

/-! # Division of bignum digits

`bignum_digit_divide` divides two digits by one: Algorithm D in base
`BIGNUM_RADIX_ROOT`, unrolled into two steps on an array of four half digits.
The small- and medium-denominator divisions and the shifts that normalise a
denominator are loops over it. -/

namespace MitScheme.Microcode
open Lib.Checked Lib.Outcome Lib.Radix

/-! ## Two digits by one -/

/-- The correction loop of `BDD_STEP`. -/
def bddCorrect (v1 v2 : Int) : Nat → Int → Int → Exec Int
  | 0, _, _ => .error .outOfFuel
  | fuel + 1, guess, comparand => do
    if (← long (guess * v2)) > comparand then do
      let guess ← long (guess - 1)
      let comparand ← long (comparand + (← long (v1 <<< (31 : Nat))))
      if comparand ≥ bignumRadix then return guess
      else bddCorrect v1 v2 fuel guess comparand
    else return guess

/-- The guess of `BDD_STEP` for the quotient half digit, after its correction. -/
def bddGuess (v1 v2 uj uj1 uj2 : Int) : Exec Int := do
  if uj ≠ v1 then do
    let uj_uj1 ← hdCons uj uj1
    let guess := uj_uj1 / v1
    let comparand ← hdCons (uj_uj1 % v1) uj2
    bddCorrect v1 v2 (guess.toNat + 1) guess comparand
  else do
    let guess ← long (bignumRadixRoot - 1)
    let comparand ← hdCons (← long (uj1 + v1)) uj2
    bddCorrect v1 v2 (guess.toNat + 1) guess comparand

/-- `BDDS_MULSUB`: the new half digit and the carry. -/
def bddsMulsub (vn un guess carryIn : Int) : Exec (Int × Int) := do
  let product ← long ((← long (vn * guess)) + carryIn)
  let diff ← long (un - hdLow product)
  if diff < 0 then
    return (← long (diff + bignumRadixRoot), ← long (hdHigh product + 1))
  else return (diff, hdHigh product)

def bddsAdd (vn un carryIn : Int) : Exec (Int × Int) := do
  let sum ← long ((← long (vn + un)) + carryIn)
  if sum < bignumRadixRoot then return (sum, 0)
  else return (← long (sum - bignumRadixRoot), 1)

/-- `bignum_digit_divide_subtract` on `u[0]`, `u[1]`, `u[2]`: the quotient half
digit and the three cells afterwards. -/
def bignumDigitDivideSubtract (v1 v2 guess u0 u1 u2 : Int) : Exec (Int × Int × Int × Int) := do
  let (u2, carry) ← bddsMulsub v2 u2 guess 0
  let (u1, carry) ← bddsMulsub v1 u1 guess carry
  if carry = 0 then return (guess, u0, u1, u2)
  else do
    let diff ← long (u0 - carry)
    if diff < 0 then do
      let u0 ← long (diff + bignumRadix)
      let (u2, carry) ← bddsAdd v2 u2 0
      let (u1, carry) ← bddsAdd v1 u1 carry
      let u0 ← if carry = 1 then long (u0 + 1) else pure u0
      return (← long (guess - 1), u0, u1, u2)
    else return (guess, diff, u1, u2)

def bddStep (v1 v2 uj uj1 uj2 : Int) : Exec (Int × Int × Int × Int) := do
  let guess ← bddGuess v1 v2 uj uj1 uj2
  bignumDigitDivideSubtract v1 v2 guess uj uj1 uj2

/-- `bignum_digit_divide`: quotient and remainder. -/
def bignumDigitDivide (uh ul v : Int) : Exec (Int × Int) :=
  if uh = 0 ∧ ul < v then return (0, ul)
  else if uh = 0 ∧ ul = v then return (1, 0)
  else do
    let v1 := hdHigh v
    let v2 := hdLow v
    let (q1, _, u1, u2) ← bddStep v1 v2 (hdHigh uh) (hdLow uh) (hdHigh ul)
    let (q2, _, u2, u3) ← bddStep v1 v2 u1 u2 (hdLow ul)
    return (← hdCons q1 q2, ← hdCons u2 u3)

section Step
variable {v1 v2 u0 u1 u2 : Int}

theorem bddCorrect_spec (hv1 : 0 ≤ v1 ∧ v1 < 2147483648) (hv2 : 0 ≤ v2 ∧ v2 < 2147483648)
    (U3 : Int) : ∀ (fuel : Nat) (guess comparand : Int), guess < fuel →
      (0 ≤ guess ∧ guess < 2147483648) →
      (0 ≤ comparand ∧ comparand < 9223372036854775808) →
      guess * (v1 * 2147483648) + comparand = U3 →
      ∃ g, bddCorrect v1 v2 fuel guess comparand = .ok g ∧ (0 ≤ g ∧ g ≤ guess) ∧
        g * (v1 * 2147483648 + v2) ≤ U3 ∧
        ∀ q, q ≤ guess → q * (v1 * 2147483648 + v2) ≤ U3 → q ≤ g
  | 0, _, _, hf, hg, _, _ => by push_cast at hf; omega
  | fuel + 1, guess, comparand, hf, hg, hc, he => by
    obtain ⟨p0, p1⟩ := half_mul hg.1 hg.2 hv2.1 hv2.2
    have hR : bignumRadix = 4611686018427387904 := rfl
    have hs : v1 <<< (31 : Nat) = v1 * 2147483648 := by simpa using shiftLeft_eq v1 31
    have hval : guess * (v1 * 2147483648 + v2) = U3 - comparand + guess * v2 := by
      rw [← he]; ring
    simp only [bddCorrect]
    rw [long_ok (by omega) (by omega), ok_bind]
    split
    · -- the guess fails the test, so no digit that passes it is lost
      rename_i hgt
      have hpos : 0 < guess := by
        rcases eq_or_lt_of_le hg.1 with h0 | h0
        · rw [← h0] at hgt; omega
        · exact h0
      have hval' : (guess - 1) * (v1 * 2147483648) + (comparand + v1 * 2147483648) = U3 := by
        rw [← he]; ring
      have hmax : ∀ q, q ≤ guess → q * (v1 * 2147483648 + v2) ≤ U3 → q ≤ guess - 1 := by
        intro q hq hle
        by_contra hcon
        obtain rfl : q = guess := by omega
        omega
      rw [hs, long_ok (by omega) (by omega), ok_bind, long_ok (by omega) (by omega), ok_bind,
        long_ok (by omega) (by omega), ok_bind]
      split
      · rename_i hbr
        obtain ⟨r0, r1⟩ := half_mul (show 0 ≤ guess - 1 by omega) (by omega) hv2.1 hv2.2
        have hval'' : (guess - 1) * (v1 * 2147483648 + v2) =
            U3 - (comparand + v1 * 2147483648) + (guess - 1) * v2 := by rw [← hval']; ring
        exact ⟨_, rfl, ⟨by omega, by omega⟩, by omega, hmax⟩
      · rename_i hbr
        obtain ⟨g, hr, hgb, hle, hm⟩ := bddCorrect_spec hv1 hv2 U3 fuel
          (guess - 1) (comparand + v1 * 2147483648)
          (by push_cast at hf; omega) ⟨by omega, by omega⟩ ⟨by omega, by omega⟩ hval'
        exact ⟨g, hr, ⟨hgb.1, by omega⟩, hle, fun q hq hq' => hm q (hmax q hq hq') hq'⟩
    · rename_i hle
      exact ⟨guess, rfl, ⟨hg.1, le_refl _⟩, by omega, fun q hq _ => hq⟩

def window (u0 u1 u2 : Int) : Int := (u0 * 2147483648 + u1) * 2147483648 + u2

theorem bddGuess_spec (hv1 : 1073741824 ≤ v1 ∧ v1 < 2147483648) (hv2 : 0 ≤ v2 ∧ v2 < 2147483648)
    (hu0 : 0 ≤ u0 ∧ u0 ≤ v1) (hu1 : 0 ≤ u1 ∧ u1 < 2147483648) (hu2 : 0 ≤ u2 ∧ u2 < 2147483648)
    (hlt : window u0 u1 u2 < (v1 * 2147483648 + v2) * 2147483648) :
    ∃ g, bddGuess v1 v2 u0 u1 u2 = .ok g ∧ (0 ≤ g ∧ g < 2147483648) ∧
      g * (v1 * 2147483648 + v2) ≤ window u0 u1 u2 ∧
      ∀ q, q * (v1 * 2147483648 + v2) ≤ window u0 u1 u2 → q ≤ g := by
  have hV : 0 < v1 * 2147483648 + v2 := by omega
  -- no digit reaches the radix
  have hroot : ∀ q, q * (v1 * 2147483648 + v2) ≤ window u0 u1 u2 → q < 2147483648 := by
    intro q hq
    have : q * (v1 * 2147483648 + v2) < 2147483648 * (v1 * 2147483648 + v2) := by
      rw [mul_comm 2147483648]; omega
    exact lt_of_mul_lt_mul_right this hV.le
  unfold bddGuess
  split
  · rename_i hne
    rw [hdCons_ok (by omega) (by omega) hu1.1 hu1.2, ok_bind]
    set n := u0 * 2147483648 + u1 with hn
    have hmod := Int.emod_lt_of_pos n (show 0 < v1 by omega)
    have hmod0 := Int.emod_nonneg n (show v1 ≠ 0 by omega)
    have hdm := Int.mul_ediv_add_emod n v1
    have hn0 : 0 ≤ n := by omega
    have hdiv0 : 0 ≤ n / v1 := Int.ediv_nonneg hn0 (by omega)
    have hdivlt : n / v1 < 2147483648 := by
      apply Int.ediv_lt_of_lt_mul (by omega)
      have : (u0 + 1) * 2147483648 ≤ v1 * 2147483648 := by omega
      rw [mul_comm]; omega
    rw [hdCons_ok hmod0 (by omega) hu2.1 hu2.2]
    obtain ⟨g, hg, hb, hle, hm⟩ := bddCorrect_spec ⟨by omega, hv1.2⟩ hv2
      (window u0 u1 u2) ((n / v1).toNat + 1) (n / v1) (n % v1 * 2147483648 + u2)
      (by push_cast; omega) ⟨hdiv0, hdivlt⟩
      ⟨by omega, by omega⟩ (by unfold window; rw [← hn]; linear_combination 2147483648 * hdm)
    refine ⟨g, hg, ⟨hb.1, by omega⟩, hle, fun q hq => hm q ?_ hq⟩
    -- a digit that passes the test is at most the quotient of the leading half digits
    by_contra hcon
    have hq0 : 0 ≤ q := by omega
    have h1 : q * v2 ≥ 0 := mul_nonneg hq0 hv2.1
    have h2 : q * v1 * 2147483648 ≤ n * 2147483648 + u2 := by
      unfold window at hq
      rw [← hn] at hq
      have e : q * (v1 * 2147483648 + v2) = q * v1 * 2147483648 + q * v2 := by ring
      omega
    have h3 : (n / v1 + 1) * v1 ≤ q * v1 := mul_le_mul_of_nonneg_right (by omega) (by omega)
    have h4 : (n / v1 + 1) * v1 = v1 * (n / v1) + v1 := by ring
    omega
  · rename_i heq
    have heq : u0 = v1 := by simpa using heq
    have hrr : bignumRadixRoot = 2147483648 := rfl
    rw [hrr, long_ok (by omega) (by omega), ok_bind, long_ok (by omega) (by omega), ok_bind,
      hdCons_ok (by omega) (by omega) hu2.1 hu2.2, ok_bind]
    obtain ⟨g, hg, hb, hle, hm⟩ := bddCorrect_spec ⟨by omega, hv1.2⟩ hv2
      (window u0 u1 u2) ((2147483648 - 1 : Int).toNat + 1) (2147483648 - 1)
      ((u1 + v1) * 2147483648 + u2) (by omega) ⟨by omega, by omega⟩
      ⟨by omega, by omega⟩ (by unfold window; rw [heq]; ring)
    refine ⟨g, hg, ⟨hb.1, by omega⟩, hle, fun q hq => hm q ?_ hq⟩
    have := hroot q hq
    omega

theorem bddGuess_eq_div (hv1 : 1073741824 ≤ v1 ∧ v1 < 2147483648)
    (hv2 : 0 ≤ v2 ∧ v2 < 2147483648)
    (hu0 : 0 ≤ u0 ∧ u0 ≤ v1) (hu1 : 0 ≤ u1 ∧ u1 < 2147483648) (hu2 : 0 ≤ u2 ∧ u2 < 2147483648)
    (hlt : window u0 u1 u2 < (v1 * 2147483648 + v2) * 2147483648) :
    bddGuess v1 v2 u0 u1 u2 = .ok (window u0 u1 u2 / (v1 * 2147483648 + v2)) := by
  obtain ⟨g, hg, hb, hle, hm⟩ := bddGuess_spec hv1 hv2 hu0 hu1 hu2 hlt
  have hV : 0 < v1 * 2147483648 + v2 := by omega
  rw [hg]
  congr 1
  apply le_antisymm
  · exact (Int.le_ediv_iff_mul_le hV).mpr hle
  · exact hm _ (Int.ediv_mul_le _ hV.ne')

theorem bddsMulsub_spec {vn un g c} (hv : 0 ≤ vn ∧ vn < 2147483648)
    (hu : 0 ≤ un ∧ un < 2147483648) (hg : 0 ≤ g ∧ g < 2147483648) (hc : 0 ≤ c ∧ c < 2147483648) :
    ∃ un' c', bddsMulsub vn un g c = .ok (un', c') ∧ (0 ≤ un' ∧ un' < 2147483648) ∧
      (0 ≤ c' ∧ c' < 2147483648) ∧ un' - 2147483648 * c' = un - (vn * g + c) := by
  obtain ⟨p0, p1⟩ := half_mul hv.1 hv.2 hg.1 hg.2
  have hrr : bignumRadixRoot = 2147483648 := rfl
  unfold bddsMulsub
  rw [long_ok (by omega) (by omega), ok_bind, long_ok (by omega) (by omega), ok_bind,
    hdLow_eq (by omega), hdHigh_eq, long_ok (by omega) (by omega), ok_bind]
  split
  · rw [hrr, long_ok (by omega) (by omega), ok_bind, long_ok (by omega) (by omega), ok_bind]
    exact ⟨_, _, rfl, ⟨by omega, by omega⟩, ⟨by omega, by omega⟩, by omega⟩
  · exact ⟨_, _, rfl, ⟨by omega, by omega⟩, ⟨by omega, by omega⟩, by omega⟩

theorem bddsAdd_spec {vn un c} (hv : 0 ≤ vn ∧ vn < 2147483648) (hu : 0 ≤ un ∧ un < 2147483648)
    (hc : c = 0 ∨ c = 1) :
    ∃ un' c', bddsAdd vn un c = .ok (un', c') ∧ (0 ≤ un' ∧ un' < 2147483648) ∧
      (c' = 0 ∨ c' = 1) ∧ un' + 2147483648 * c' = vn + un + c := by
  have hrr : bignumRadixRoot = 2147483648 := rfl
  unfold bddsAdd
  rw [long_ok (by omega) (by omega), ok_bind, long_ok (by omega) (by omega), ok_bind]
  split
  · exact ⟨_, _, rfl, ⟨by omega, by omega⟩, .inl rfl, by omega⟩
  · rw [hrr, long_ok (by omega) (by omega), ok_bind]
    exact ⟨_, _, rfl, ⟨by omega, by omega⟩, .inr rfl, by omega⟩

theorem bignumDigitDivideSubtract_spec {q guess} (hv1 : 0 ≤ v1 ∧ v1 < 2147483648)
    (hv2 : 0 ≤ v2 ∧ v2 < 2147483648) (hu0 : 0 ≤ u0 ∧ u0 < 2147483648)
    (hu1 : 0 ≤ u1 ∧ u1 < 2147483648) (hu2 : 0 ≤ u2 ∧ u2 < 2147483648)
    (hg : 0 ≤ guess ∧ guess < 2147483648) (hq : q * (v1 * 2147483648 + v2) ≤ window u0 u1 u2)
    (hq' : window u0 u1 u2 < (q + 1) * (v1 * 2147483648 + v2)) (hgq : guess = q ∨ guess = q + 1) :
    ∃ a b c, bignumDigitDivideSubtract v1 v2 guess u0 u1 u2 = .ok (q, a, b, c) ∧
      (0 ≤ b ∧ b < 2147483648) ∧ (0 ≤ c ∧ c < 2147483648) ∧
      b * 2147483648 + c = window u0 u1 u2 - q * (v1 * 2147483648 + v2) := by
  obtain ⟨x2, c2, e2, hx2, hc2, eq2⟩ := bddsMulsub_spec hv2 hu2 hg ⟨le_refl 0, by norm_num⟩
  obtain ⟨x1, c1, e1, hx1, hc1, eq1⟩ := bddsMulsub_spec hv1 hu1 hg hc2
  have hR : bignumRadix = 4611686018427387904 := rfl
  have hw : window u0 u1 u2 - guess * (v1 * 2147483648 + v2) =
      x1 * 2147483648 + x2 + 4611686018427387904 * (u0 - c1) := by
    have e : guess * (v1 * 2147483648 + v2) = v1 * guess * 2147483648 + v2 * guess := by ring
    rw [e]; unfold window; omega
  have e1q : (q + 1) * (v1 * 2147483648 + v2) =
      q * (v1 * 2147483648 + v2) + (v1 * 2147483648 + v2) := by ring
  unfold bignumDigitDivideSubtract
  simp only [e2, e1, ok_bind]
  rcases hgq with rfl | rfl
  · have h0 : u0 - c1 = 0 := by omega
    split
    · exact ⟨u0, x1, x2, rfl, hx1, hx2, by omega⟩
    · rw [long_ok (by omega) (by omega), ok_bind, if_neg (by omega)]
      exact ⟨_, x1, x2, rfl, hx1, hx2, by omega⟩
  · -- one too large: the leading cell goes negative and the divisor is added back
    have h0 : u0 - c1 = -1 := by omega
    rw [if_neg (by omega), long_ok (by omega) (by omega), ok_bind, if_pos (by omega),
      long_ok (by omega) (by omega), ok_bind]
    obtain ⟨y2, d2, f2, hy2, hd2, fq2⟩ := bddsAdd_spec hv2 hx2 (.inl rfl)
    obtain ⟨y1, d1, f1, hy1, hd1, fq1⟩ := bddsAdd_spec hv1 hx1 hd2
    have hd : d1 = 1 := by omega
    simp only [f2, f1, ok_bind, hd, if_true]
    rw [long_ok (by omega) (by omega), ok_bind, long_ok (by omega) (by omega), ok_bind]
    refine ⟨_, y1, y2, by rw [add_sub_cancel_right]; rfl, hy1, hy2, by omega⟩

theorem bddStep_spec (hv1 : 1073741824 ≤ v1 ∧ v1 < 2147483648)
    (hv2 : 0 ≤ v2 ∧ v2 < 2147483648)
    (hu0 : 0 ≤ u0 ∧ u0 ≤ v1) (hu1 : 0 ≤ u1 ∧ u1 < 2147483648) (hu2 : 0 ≤ u2 ∧ u2 < 2147483648)
    (hlt : window u0 u1 u2 < (v1 * 2147483648 + v2) * 2147483648) :
    ∃ q a b c, bddStep v1 v2 u0 u1 u2 = .ok (q, a, b, c) ∧ (0 ≤ q ∧ q < 2147483648) ∧
      (0 ≤ b ∧ b < 2147483648) ∧ (0 ≤ c ∧ c < 2147483648) ∧
      window u0 u1 u2 = q * (v1 * 2147483648 + v2) + (b * 2147483648 + c) ∧
      b * 2147483648 + c < v1 * 2147483648 + v2 := by
  have hV : 0 < v1 * 2147483648 + v2 := by omega
  obtain ⟨g, hg, hb, hle, hm⟩ := bddGuess_spec hv1 hv2 hu0 hu1 hu2 hlt
  have hlt' : window u0 u1 u2 < (g + 1) * (v1 * 2147483648 + v2) := by
    by_contra hc
    have := hm (g + 1) (by omega)
    omega
  obtain ⟨a, b, c, hr, hb', hc', hv⟩ := bignumDigitDivideSubtract_spec ⟨by omega, hv1.2⟩ hv2
    ⟨hu0.1, by omega⟩ hu1 hu2 hb hle hlt' (.inl rfl)
  refine ⟨g, a, b, c, by rw [bddStep, hg, ok_bind, hr], hb, hb', hc', by omega, ?_⟩
  have : (g + 1) * (v1 * 2147483648 + v2) =
      g * (v1 * 2147483648 + v2) + (v1 * 2147483648 + v2) := by ring
  omega

end Step

theorem bignumDigitDivide_spec {uh ul v} (hv : 2305843009213693952 ≤ v ∧ v < bignumRadix)
    (huh : 0 ≤ uh ∧ uh < v) (hul : 0 ≤ ul ∧ ul < bignumRadix) :
    ∃ q r, bignumDigitDivide uh ul v = .ok (q, r) ∧ (0 ≤ q ∧ q < bignumRadix) ∧
      (0 ≤ r ∧ r < v) ∧ uh * bignumRadix + ul = q * v + r := by
  have hR : bignumRadix = 4611686018427387904 := rfl
  unfold bignumDigitDivide
  split
  · rename_i h
    exact ⟨0, ul, rfl, ⟨le_refl 0, by omega⟩, ⟨hul.1, h.2⟩, by rw [h.1]; ring⟩
  split
  · rename_i h
    exact ⟨1, 0, rfl, ⟨by omega, by omega⟩, ⟨le_refl 0, by omega⟩, by rw [h.1, h.2]; ring⟩
  obtain ⟨vl0, vl1, vh0, vh1, ev⟩ := half_split (d := v) (by omega) hv.2
  obtain ⟨al0, al1, ah0, ah1, ea⟩ := half_split (d := uh) huh.1 (by omega)
  obtain ⟨bl0, bl1, bh0, bh1, eb⟩ := half_split (d := ul) hul.1 hul.2
  dsimp only
  generalize hdHigh v = v1 at *
  generalize hdLow v = v2 at *
  generalize hdHigh uh = u0 at *
  generalize hdLow uh = u1 at *
  generalize hdHigh ul = u2 at *
  generalize hdLow ul = u3 at *
  have hv1 : 1073741824 ≤ v1 := by omega
  obtain ⟨q1, a, b, c, e1, hq1, hb, hc, hw1, hlt1⟩ := bddStep_spec ⟨hv1, vh1⟩ ⟨vl0, vl1⟩
    ⟨ah0, by omega⟩ ⟨al0, al1⟩ ⟨bh0, bh1⟩
    (by unfold window; omega)
  obtain ⟨q2, a', b', c', e2, hq2, hb', hc', hw2, hlt2⟩ := bddStep_spec ⟨hv1, vh1⟩ ⟨vl0, vl1⟩
    ⟨hb.1, by omega⟩ hc ⟨bl0, bl1⟩ (by unfold window; omega)
  simp only [e1, e2, ok_bind]
  rw [hdCons_ok hq1.1 (by omega) hq2.1 hq2.2, ok_bind, hdCons_ok hb'.1 (by omega) hc'.1 hc'.2,
    ok_bind]
  refine ⟨_, _, rfl, ⟨by omega, by omega⟩, ⟨by omega, by omega⟩, ?_⟩
  rw [hR, ea, eb, ev]
  unfold window at hw1 hw2
  linear_combination 2147483648 * hw1 + hw2

/-! ## Small and medium denominators

The scans go from the leading digit down, so the recursion works on the tail
of the digit list first. -/

/-- The loop of `bignum_destructive_scale_down`. -/
def scaleDownLoop (denominator : Int) : List Int → Exec (List Int × Int)
  | [] => return ([], 0)
  | twoDigits :: ds => do
    let (q, remainder) ← scaleDownLoop denominator ds
    let numerator ← hdCons remainder (hdHigh twoDigits)
    let quotientHigh := numerator / denominator
    let numerator ← hdCons (numerator % denominator) (hdLow twoDigits)
    return ((← hdCons quotientHigh (numerator / denominator)) :: q, numerator % denominator)

/-- The loop of `bignum_remainder_unsigned_small_denominator`. -/
def remainderSmallLoop (d : Int) : List Int → Exec Int
  | [] => return 0
  | twoDigits :: ds => do
    let r ← remainderSmallLoop d ds
    let high ← hdCons r (hdHigh twoDigits)
    return (← hdCons (high % d) (hdLow twoDigits)) % d

/-- The division loop of `bignum_divide_unsigned_medium_denominator`. -/
def mediumLoop (denominator : Int) : List Int → Exec (List Int × Int)
  | [] => return ([], 0)
  | digit :: ds => do
    let (q, r) ← mediumLoop denominator ds
    let (qj, r) ← bignumDigitDivide r digit denominator
    return (qj :: q, r)

/-- The condition on the quotient digits and remainder of a digit string. -/
def Divides (den : Int) (ds : List Int) (q : List Int) (r : Int) : Prop :=
  Digits bignumRadix q ∧ q.length = ds.length ∧ (0 ≤ r ∧ r < den) ∧
    value bignumRadix ds = value bignumRadix q * den + r

theorem scaleDownLoop_spec {den} (hden : 1 < den ∧ den < bignumRadixRoot) :
    ∀ {ds : List Int}, Digits bignumRadix ds →
      ∃ q r, scaleDownLoop den ds = .ok (q, r) ∧ Divides den ds q r
  | [], _ => ⟨[], 0, rfl, by simp, rfl, ⟨le_refl 0, by omega⟩, by simp⟩
  | d :: ds, h => by
    obtain ⟨hd, hds⟩ := digits_cons.mp h
    obtain ⟨q, r, he, hq, hl, hr, hv⟩ := scaleDownLoop_spec hden hds
    obtain ⟨l0, l1, h0, h1, ed⟩ := half_split hd.1 hd.2
    have hR : bignumRadix = 4611686018427387904 := rfl
    unfold bignumRadixRoot at hden
    simp only [scaleDownLoop, he, ok_bind]
    generalize hdHigh d = dh at *
    generalize hdLow d = dl at *
    rw [hdCons_ok hr.1 (by omega) h0 h1, ok_bind]
    set n1 := r * 2147483648 + dh with hn1
    have m1 := Int.emod_lt_of_pos n1 (show 0 < den by omega)
    have m1' := Int.emod_nonneg n1 (show den ≠ 0 by omega)
    have e1 := Int.mul_ediv_add_emod n1 den
    have q1 : n1 / den < 2147483648 := by
      apply Int.ediv_lt_of_lt_mul (by omega)
      have : (r + 1) * 2147483648 ≤ den * 2147483648 := by omega
      rw [mul_comm]; omega
    have q1' : 0 ≤ n1 / den := Int.ediv_nonneg (by omega) (by omega)
    rw [hdCons_ok m1' (by omega) l0 l1, ok_bind]
    set n2 := n1 % den * 2147483648 + dl with hn2
    have m2 := Int.emod_lt_of_pos n2 (show 0 < den by omega)
    have m2' := Int.emod_nonneg n2 (show den ≠ 0 by omega)
    have e2 := Int.mul_ediv_add_emod n2 den
    have q2 : n2 / den < 2147483648 := by
      apply Int.ediv_lt_of_lt_mul (by omega)
      have : (n1 % den + 1) * 2147483648 ≤ den * 2147483648 := by omega
      rw [mul_comm]; omega
    have q2' : 0 ≤ n2 / den := Int.ediv_nonneg (by omega) (by omega)
    rw [hdCons_ok q1' (by omega) q2' q2, ok_bind]
    refine ⟨_, _, rfl, digits_cons.mpr ⟨⟨by omega, by rw [hR]; omega⟩, hq⟩, by simp [hl],
      ⟨m2', m2⟩, ?_⟩
    simp only [value_cons, hv]
    rw [ed]
    linear_combination (-2147483648) * e1 - e2 + r * hR

theorem remainderSmallLoop_spec {den} (hden : 1 < den ∧ den < bignumRadixRoot) {ds}
    (h : Digits bignumRadix ds) : remainderSmallLoop den ds = .ok (value bignumRadix ds % den) := by
  suffices H : ∃ q r, scaleDownLoop den ds = .ok (q, r) ∧
      remainderSmallLoop den ds = .ok r by
    obtain ⟨q, r, he, hr⟩ := H
    obtain ⟨q', r', he', _, _, hr', hv⟩ := scaleDownLoop_spec hden h
    rw [he] at he'
    obtain ⟨rfl, rfl⟩ : q = q' ∧ r = r' := by simpa using he'
    rw [hr, hv, mul_comm, Int.mul_add_emod_self_left, Int.emod_eq_of_lt hr'.1 hr'.2]
  -- the remainder-only loop runs the other one without storing the quotient
  induction ds with
  | nil => exact ⟨[], 0, rfl, rfl⟩
  | cons d ds ih =>
    obtain ⟨q, r, he, hr⟩ := ih (digits_cons.mp h).2
    obtain ⟨q', r', he', _⟩ := scaleDownLoop_spec hden h
    refine ⟨q', r', he', ?_⟩
    simp only [scaleDownLoop, he, ok_bind] at he'
    simp only [remainderSmallLoop, hr, ok_bind]
    obtain ⟨n1, h1, he'⟩ := bind_eq_ok he'
    obtain ⟨n2, h2, he'⟩ := bind_eq_ok he'
    obtain ⟨n3, h3, he'⟩ := bind_eq_ok he'
    cases he'
    rw [h1, ok_bind, h2]
    rfl

theorem mediumLoop_spec {den} (hden : 2305843009213693952 ≤ den ∧ den < bignumRadix) :
    ∀ {ds : List Int}, Digits bignumRadix ds →
      ∃ q r, mediumLoop den ds = .ok (q, r) ∧ Divides den ds q r
  | [], _ => ⟨[], 0, rfl, by simp, rfl, ⟨le_refl 0, by omega⟩, by simp⟩
  | d :: ds, h => by
    obtain ⟨hd, hds⟩ := digits_cons.mp h
    obtain ⟨q, r, he, hq, hl, hr, hv⟩ := mediumLoop_spec hden hds
    obtain ⟨qj, r', he', hqj, hr', hv'⟩ := bignumDigitDivide_spec hden hr hd
    refine ⟨qj :: q, r', by simp only [mediumLoop, he, he', ok_bind]; rfl,
      digits_cons.mpr ⟨hqj, hq⟩, by simp [hl], hr', ?_⟩
    simp only [value_cons, hv]
    linear_combination hv'

end MitScheme.Microcode
