import MitScheme.Lib.Outcome
import MitScheme.Lib.Quotient
import Mathlib.Algebra.GCDMonoid.Nat

/-! # Exact integers

The integer procedures at the bottom of `arith.scm` and of
`primitive-arithmetic.scm`. An exact integer is an `Int`; the primitive
`integer-divide` truncates, and signals an error for a zero divisor. -/

namespace MitScheme.Runtime.Arith
open Lib.Quotient Lib.Outcome

inductive Fault
  | divideByZero
  | badRange
  | notFixnum
  | outOfFuel
  | wrongType
  deriving DecidableEq

abbrev Result (α : Type) := Except Fault α

def intQuotient (n d : Int) : Result Int := if d = 0 then .error .divideByZero else .ok (n.tdiv d)

def intRemainder (n d : Int) : Result Int := if d = 0 then .error .divideByZero else .ok (n.tmod d)

def intDivide (n d : Int) : Result (Int × Int) :=
  if d = 0 then .error .divideByZero else .ok (n.tdiv d, n.tmod d)

def intModulo (n d : Int) : Result Int := do
  let r ← intRemainder n d
  return if r = 0 ∨ (if n < 0 then d < 0 else ¬ d < 0) then r else r + d

/-- The loop of `int:gcd`. -/
def intGcd (n m : Int) : Int :=
  if m ≠ 0 then intGcd m (n.tmod m)
  else if n < 0 then -n else n
termination_by m.natAbs
decreasing_by
  rw [Int.natAbs_tmod]
  exact Nat.mod_lt _ (by omega)

def intFloor (n d : Int) : Result Int := do
  let (q, r) ← intDivide n d
  return if r = 0 ∨ (if n < 0 then d < 0 else ¬ d < 0) then q else q - 1

def intCeiling (n d : Int) : Result Int := do
  let (q, r) ← intDivide n d
  return if r = 0 ∨ (if n < 0 then ¬ d < 0 else d < 0) then q else q + 1

/-- `positive-case` of `int:round`. -/
def roundPositiveCase (n d : Int) : Result Int := do
  let (q, r) ← intDivide n d
  let odd ← intRemainder q 2
  return if 2 * r > d ∨ 2 * r = d ∧ odd ≠ 0 then q + 1 else q

def intRound (n d : Int) : Result Int :=
  if n < 0 then
    if d < 0 then roundPositiveCase (-n) (-d)
    else do return -(← roundPositiveCase (-n) d)
  else
    if d < 0 then do return -(← roundPositiveCase n (-d))
    else roundPositiveCase n d

/-- The loop that `int:expt` and `rat:expt` have in common, entered with an
exponent above one. -/
def exptLoop {α : Type} (mul : α → α → Result α) (b : α) (e : Int) (answer : α) (he : 2 ≤ e) :
    Result α := do
  let b' ← mul b b
  let answer' ← (if e.tmod 2 = 0 then .ok answer else mul answer b : Result α)
  if h : e.tdiv 2 = 1 then mul answer' b'
  else exptLoop mul b' (e.tdiv 2) answer' (by
    rw [Int.tdiv_eq_ediv_of_nonneg (by omega)] at h ⊢
    omega)
termination_by e.toNat
decreasing_by
  rw [Int.tdiv_eq_ediv_of_nonneg (by omega)]
  omega

def intExpt (b e : Int) : Result Int :=
  if hp : e > 0 then
    if h1 : 1 = e then .ok b
    else if b = 0 ∨ 1 = b then .ok b
    else if 2 = b then .ok (1 <<< e.toNat)
    else exptLoop (fun x y => .ok (x * y)) b e 1 (by omega)
  else if e = 0 then .ok 1
  else .error .badRange

/-! ## Division -/

section Division
variable {n d : Int}

theorem intQuotient_ok (hd : d ≠ 0) : intQuotient n d = .ok (n.tdiv d) := if_neg hd

theorem intRemainder_ok (hd : d ≠ 0) : intRemainder n d = .ok (n.tmod d) := if_neg hd

theorem intDivide_ok (hd : d ≠ 0) : intDivide n d = .ok (n.tdiv d, n.tmod d) := if_neg hd

theorem tdiv_parts (n : Int) (hd : d ≠ 0) : n = d * n.tdiv d + n.tmod d ∧
    (-d < n.tmod d ∧ n.tmod d < d ∨ d < n.tmod d ∧ n.tmod d < -d) ∧
    (0 ≤ n → 0 ≤ n.tmod d) ∧ (n ≤ 0 → n.tmod d ≤ 0) := by
  refine ⟨(Int.mul_tdiv_add_tmod n d).symm, ?_, fun h => Int.tmod_nonneg d h, fun h => ?_⟩
  · have h : (n.tmod d).natAbs < d.natAbs := by
      rw [Int.natAbs_tmod]
      exact Nat.mod_lt _ (by omega)
    omega
  · have := Int.tmod_nonneg d (show 0 ≤ -n by omega)
    rw [Int.neg_tmod] at this
    omega

theorem same_sign {p q : Prop} [Decidable p] : (if p then q else ¬ q) ↔ (p ↔ q) := by
  by_cases hp : p <;> simp [hp]

theorem other_sign {p q : Prop} [Decidable p] : (if p then ¬ q else q) ↔ ¬ (p ↔ q) := by
  by_cases hp : p <;> simp [hp]

theorem intModulo_ok (hd : d ≠ 0) : intModulo n d = .ok (n - d * ⌊(n : ℚ) / d⌋) := by
  obtain ⟨hn, hr, hp, hm⟩ := tdiv_parts n hd
  rw [intModulo, intRemainder_ok hd]
  generalize n.tdiv d = q at *
  generalize n.tmod d = r at *
  show Except.ok _ = _
  congr 1
  simp only [same_sign]
  split
  · rw [floor_eq hd hn (by omega)]
    omega
  · have hn' : n = d * (q - 1) + (r + d) := by rw [hn]; ring
    rw [floor_eq hd hn' (by omega)]
    omega

theorem intModulo_pos (hd : 0 < d) : intModulo n d = .ok (n % d) := by
  have hq : ⌊(n : ℚ) / d⌋ = n / d := floor_eq (by omega) (Int.mul_ediv_add_emod n d).symm
    (.inl ⟨Int.emod_nonneg n (by omega), Int.emod_lt_of_pos n hd⟩)
  rw [intModulo_ok (by omega), hq, ← Int.emod_def]

theorem intFloor_ok (hd : d ≠ 0) : intFloor n d = .ok ⌊(n : ℚ) / d⌋ := by
  obtain ⟨hn, hr, hp, hm⟩ := tdiv_parts n hd
  rw [intFloor, intDivide_ok hd]
  generalize n.tdiv d = q at *
  generalize n.tmod d = r at *
  show Except.ok _ = _
  congr 1
  simp only [same_sign]
  split
  · exact (floor_eq hd hn (by omega)).symm
  · have hn' : n = d * (q - 1) + (r + d) := by rw [hn]; ring
    exact (floor_eq hd hn' (by omega)).symm

theorem intCeiling_ok (hd : d ≠ 0) : intCeiling n d = .ok ⌈(n : ℚ) / d⌉ := by
  obtain ⟨hn, hr, hp, hm⟩ := tdiv_parts n hd
  rw [intCeiling, intDivide_ok hd]
  generalize n.tdiv d = q at *
  generalize n.tmod d = r at *
  show Except.ok _ = _
  congr 1
  simp only [other_sign]
  split
  · exact (ceil_eq hd hn (by omega)).symm
  · have hn' : n = d * (q + 1) + (r - d) := by rw [hn]; ring
    exact (ceil_eq hd hn' (by omega)).symm

theorem intQuotient_truncates (hd : d ≠ 0) :
    intQuotient n d = .ok (truncation ((n : ℚ) / d)) := by
  obtain ⟨hn, hr, hp, hm⟩ := tdiv_parts n hd
  rw [intQuotient_ok hd, truncation_eq hd hn]
  · rw [Int.abs_eq_natAbs, Int.abs_eq_natAbs]
    omega
  · omega

theorem roundPositiveCase_ok (hn : 0 ≤ n) (hd : 0 < d) :
    ∃ q, roundPositiveCase n d = .ok q ∧ NearestEven ((n : ℚ) / d) q := by
  have hd' : d ≠ 0 := by omega
  obtain ⟨hq, hr, hp, -⟩ := tdiv_parts n hd'
  have h0 := hp hn
  rw [roundPositiveCase, intDivide_ok hd']
  generalize n.tdiv d = q at *
  generalize n.tmod d = r at *
  refine ⟨_, rfl, ?_⟩
  have hodd : q.tmod 2 = 0 ↔ Even q := by
    rw [even_iff_two_dvd]
    exact ⟨Int.dvd_of_tmod_eq_zero, Int.tmod_eq_zero_of_dvd⟩
  simp only [ne_eq, hodd]
  split
  · rename_i h
    refine nearestEven_of_rem hd' (show n = d * (q + 1) + (r - d) by rw [hq]; ring) ?_
    rw [abs_of_pos hd, abs_of_nonpos (by omega)]
    rcases h with h | ⟨h, hodd⟩
    · left
      omega
    · right
      exact ⟨by omega, Int.even_add_one.mpr hodd⟩
  · rename_i h
    refine nearestEven_of_rem hd' hq ?_
    rw [abs_of_pos hd, abs_of_nonneg h0]
    by_cases ht : 2 * r = d
    · exact .inr ⟨ht, not_not.mp fun hodd => h (.inr ⟨ht, hodd⟩)⟩
    · left
      omega

theorem intRound_ok (hd : d ≠ 0) :
    ∃ q, intRound n d = .ok q ∧ NearestEven ((n : ℚ) / d) q := by
  rw [intRound]
  split
  · rename_i hn
    split
    · rename_i hneg
      obtain ⟨q, hq, hs⟩ := roundPositiveCase_ok (n := -n) (d := -d) (by omega) (by omega)
      refine ⟨q, hq, ?_⟩
      rwa [Int.cast_neg, Int.cast_neg, neg_div_neg_eq] at hs
    · obtain ⟨q, hq, hs⟩ := roundPositiveCase_ok (n := -n) (d := d) (by omega) (by omega)
      refine ⟨-q, by rw [hq]; rfl, ?_⟩
      rw [Int.cast_neg, neg_div] at hs
      exact neg_neg ((n : ℚ) / d) ▸ hs.neg
  · rename_i hn
    split
    · obtain ⟨q, hq, hs⟩ := roundPositiveCase_ok (n := n) (d := -d) (by omega) (by omega)
      refine ⟨-q, by rw [hq]; rfl, ?_⟩
      rw [Int.cast_neg, div_neg] at hs
      exact neg_neg ((n : ℚ) / d) ▸ hs.neg
    · exact roundPositiveCase_ok (by omega) (by omega)

end Division

/-! ## Powers -/

theorem exptLoop_ok {α M : Type} [Monoid M] {R : α → M → Prop} {m : α → α → Result α}
    (hmul : ∀ a b x y, R a x → R b y → ∃ c, m a b = .ok c ∧ R c (x * y))
    (k : Nat) {b answer : α} {x y : M} {e : Int} (hk : e = k) (he : 2 ≤ e) (hb : R b x)
    (ha : R answer y) : ∃ c, exptLoop m b e answer he = .ok c ∧ R c (y * x ^ k) := by
  induction k using Nat.strong_induction_on generalizing b answer x y e with
  | _ k ih =>
    obtain ⟨b2, hb2, hrep2⟩ := hmul b b x x hb hb
    obtain ⟨ab, hab, hrepab⟩ := hmul answer b y x ha hb
    have hdiv : e.tdiv 2 = (k / 2 : Nat) := by
      rw [Int.tdiv_eq_ediv_of_nonneg (by omega)]
      omega
    have hmod : e.tmod 2 = (k % 2 : Nat) := by
      rw [Int.tmod_eq_emod_of_nonneg (by omega)]
      omega
    -- the answer after the turn, with the power that it still lacks
    obtain ⟨ans, y', hans, hrepa, hpow⟩ : ∃ ans y', (if e.tmod 2 = 0 then .ok answer
        else m answer b : Result α) = .ok ans ∧ R ans y' ∧
        y' * (x * x) ^ (k / 2) = y * x ^ k := by
      by_cases heven : k % 2 = 0
      · refine ⟨answer, y, if_pos (by omega), ha, ?_⟩
        rw [← pow_two, ← pow_mul]
        congr 2
        omega
      · refine ⟨ab, y * x, by rw [if_neg (by omega), hab], hrepab, ?_⟩
        rw [mul_assoc, ← pow_two, ← pow_mul, ← pow_succ']
        congr 2
        omega
    rw [exptLoop]
    simp only [hb2, ok_bind, hans]
    split
    · rename_i hone
      obtain ⟨c, hc, hrep⟩ := hmul ans b2 y' (x * x) hrepa hrep2
      refine ⟨c, hc, ?_⟩
      rwa [← hpow, show k / 2 = 1 by omega, pow_one]
    · rename_i hne
      obtain ⟨c, hc, hrep⟩ := ih (k / 2) (by omega) hdiv (by omega) hrep2 hrepa
      exact ⟨c, hc, hpow ▸ hrep⟩

theorem intExpt_ok (b : Int) (e : Nat) : intExpt b e = .ok (b ^ e) := by
  rw [intExpt]
  by_cases hp : (e : Int) > 0
  · rw [dif_pos hp]
    by_cases h1 : 1 = (e : Int)
    · rw [dif_pos h1, show e = 1 by omega, pow_one]
    rw [dif_neg h1]
    by_cases h01 : b = 0 ∨ 1 = b
    · rw [if_pos h01]
      rcases h01 with rfl | rfl
      · rw [zero_pow (by omega)]
      · rw [one_pow]
    rw [if_neg h01]
    by_cases h2 : 2 = b
    · rw [if_pos h2, ← h2, Int.toNat_natCast, Nat.one_shiftLeft]
      norm_cast
    rw [if_neg h2]
    obtain ⟨c, hc, hrep⟩ := exptLoop_ok (R := fun a (x : Int) => a = x)
      (m := fun x y => .ok (x * y)) (fun a b x y ha hb => ⟨_, rfl, by rw [ha, hb]⟩) e rfl
      (show (2 : Int) ≤ e by omega) (rfl : b = b) (rfl : (1 : Int) = 1)
    rw [hc, hrep, one_mul]
  · rw [dif_neg hp, if_pos (by omega), show e = 0 by omega, pow_zero]

end MitScheme.Runtime.Arith
