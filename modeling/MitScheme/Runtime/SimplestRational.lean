import MitScheme.Lib.SimplestFraction
import MitScheme.Runtime.RatnumArith

/-! # The simplest rational between two others

`rat:simplest-rational` and `rat:rationalize` of `arith.scm`. The loop expands
the bounds as continued fractions as long as their terms agree; it is not tail
recursive, and counts its calls down from `fuel`. -/

namespace MitScheme.Runtime.Arith
open Rational Lib.SimplestFraction Lib.Outcome

/-- `loop` of `rat:simplest-rational`. -/
def simplestLoop : Nat → Rational → Rational → Result Rational
  | 0, _, _ => .error .outOfFuel
  | _ + 1, .int n, _ => .ok (.int n)
  | fuel + 1, .ratnum n d, y => do
    let x := .ratnum n d
    let fx := .int (← ratFloor x)
    let fy := .int (← ratFloor y)
    if ratEqual fx fy then
      let z ← simplestLoop fuel (← ratInvert (← ratMinus y fy)) (← ratInvert (← ratMinus x fx))
      ratPlus fx (← ratInvert z)
    else return ratAddOne fx

/-- `x<y` of `rat:simplest-rational`. -/
def simplestBetween (fuel : Nat) (x y : Rational) : Result Rational :=
  if ratPositive x then simplestLoop fuel x y
  else if ratNegative y then do return ratNegate (← simplestLoop fuel (ratNegate y) (ratNegate x))
  else .ok (.int 0)

def ratSimplestRational (fuel : Nat) (x y : Rational) : Result Rational :=
  if ratLess x y then simplestBetween fuel x y
  else if ratLess y x then simplestBetween fuel y x
  else .ok x

def ratRationalize (fuel : Nat) (q e : Rational) : Result Rational := do
  ratSimplestRational fuel (← ratMinus q e) (← ratPlus q e)

/-! ## The loop -/

theorem den_inv_fract {x : ℚ} {n : Int} (h0 : 0 < x - n) (h1 : x - n < 1) :
    (x - n)⁻¹.den < x.den := by
  have hden := den_inv_of_pos h0
  have hlt : (x - n).num < (x - n).den := by
    have h : ((x - n).num : ℚ) < (x - n).den := by
      rw [num_eq]
      nlinarith [one_le_den (x - n)]
    exact_mod_cast h
  rw [Rat.sub_intCast_den] at hlt
  omega

theorem simplestLoop_ok (fuel : Nat) {x y : ℚ} (h0 : 0 < x) (hxy : x < y)
    (hfuel : x.den + y.den ≤ fuel) :
    ∃ z, simplestLoop fuel (canon x) (canon y) = .ok (canon z) ∧ LeastFraction x y z := by
  induction fuel generalizing x y with
  | zero =>
    have := x.den_pos
    omega
  | succ fuel ih =>
    by_cases hint : x.den = 1
    · refine ⟨x, ?_, leastFraction_int h0 hxy.le hint⟩
      rw [canon, if_pos hint, simplestLoop]
    have hx : canon x = .ratnum x.num x.den := if_neg hint
    have hfx : (⌊x⌋ : ℚ) < x := by
      refine lt_of_le_of_ne (Int.floor_le x) fun he => hint ?_
      rw [← he, Rat.den_intCast]
    have hfx1 := Int.lt_floor_add_one x
    have hfy := Int.floor_le y
    have hfy1 := Int.lt_floor_add_one y
    have hn : 0 ≤ ⌊x⌋ := Int.floor_nonneg.mpr h0.le
    rw [hx, simplestLoop, ← hx]
    simp only [ratFloor_ok (canonical_canon _), toRat_canon, ok_bind]
    by_cases heq : ⌊x⌋ = ⌊y⌋
    · -- the same integer part: the next term comes from the inverses of what is left
      have hxpos : 0 < x - ⌊x⌋ := by linarith
      have hypos : 0 < y - ⌊x⌋ := by linarith
      rw [← heq] at hfy1
      have hdx := den_inv_fract hxpos (by linarith)
      have hdy := den_inv_fract hypos (by linarith)
      obtain ⟨z, hz, hleast⟩ := ih (x := (y - ⌊x⌋)⁻¹) (y := (x - ⌊x⌋)⁻¹) (inv_pos.mpr hypos)
        ((inv_lt_inv₀ hypos hxpos).mpr (by linarith)) (by omega)
      have hzpos : 0 < z := lt_of_lt_of_le (inv_pos.mpr hypos) hleast.lower
      refine ⟨⌊x⌋ + z⁻¹, ?_, hleast.step hn hfx hxy.le⟩
      have hminus : ∀ w : ℚ, ratMinus (canon w) (.int ⌊x⌋) = .ok (canon (w - ⌊x⌋)) := fun w => by
        rw [ratMinus_ok (canonical_canon w) (canonical_int _), toRat_canon, toRat]
      have hinv : ∀ w : ℚ, 0 < w → ratInvert (canon w) = .ok (canon w⁻¹) := fun w hw => by
        rw [ratInvert_ok (canonical_canon w) (by rw [toRat_canon]; exact hw.ne'), toRat_canon]
      have hsame : ratEqual (.int ⌊x⌋) (.int ⌊y⌋) = true := by
        rw [ratEqual, decide_eq_true_eq]
        exact heq
      rw [if_pos hsame, ← heq]
      simp only [hminus, ok_bind, hinv _ hxpos, hinv _ hypos, hz, hinv _ hzpos]
      rw [ratPlus_ok (canonical_int _) (canonical_canon _), toRat, toRat_canon]
    · -- an integer lies between the bounds
      have hlt : (⌊x⌋ : ℚ) + 1 ≤ ⌊y⌋ := by
        have h := Int.floor_mono hxy.le
        exact_mod_cast (by omega : ⌊x⌋ + 1 ≤ ⌊y⌋)
      refine ⟨⌊x⌋ + 1, ?_, leastFraction_floor hn hfx hfx1.le (by linarith)⟩
      have hother : ¬ ratEqual (.int ⌊x⌋) (.int ⌊y⌋) = true := by
        rw [ratEqual, decide_eq_true_eq]
        exact heq
      rw [if_neg hother, ratAddOne_ok (canonical_int _), toRat]
      rfl

theorem simplestBetween_ok {x y} (hxy : x < y) (fuel : Nat) (hfuel : x.den + y.den ≤ fuel) :
    ∃ z, simplestBetween fuel (canon x) (canon y) = .ok (canon z) ∧ Simplest x y z := by
  have hpos := ratPositive_iff (canonical_canon x)
  have hneg := ratNegative_iff (canonical_canon y)
  rw [toRat_canon] at hpos hneg
  unfold simplestBetween
  simp only [hpos, hneg]
  by_cases h0 : 0 < x
  · obtain ⟨z, hz, hleast⟩ := simplestLoop_ok fuel h0 hxy hfuel
    exact ⟨z, by rw [if_pos h0, hz], hleast.simplest h0⟩
  rw [if_neg h0]
  by_cases h1 : y < 0
  · obtain ⟨z, hz, hleast⟩ := simplestLoop_ok fuel (x := -y) (y := -x) (by linarith) (by linarith)
      (by rw [Rat.neg_den, Rat.neg_den]; omega)
    have hs := (hleast.simplest (by linarith)).neg
    rw [neg_neg, neg_neg] at hs
    refine ⟨-z, ?_, hs⟩
    rw [if_pos h1, ratNegate_ok (canonical_canon _), ratNegate_ok (canonical_canon _), toRat_canon,
      toRat_canon, hz, ok_bind, ratNegate_ok (canonical_canon _), toRat_canon]
    rfl
  · refine ⟨0, ?_, simplest_zero (not_lt.mp h0) (not_lt.mp h1)⟩
    rw [if_neg h1, canon_zero]

theorem ratSimplestRational_ok {x y} (fuel : Nat) (hfuel : x.den + y.den ≤ fuel) :
    ∃ z, ratSimplestRational fuel (canon x) (canon y) = .ok (canon z) ∧
      Simplest (min x y) (max x y) z := by
  have hxy := ratLess_iff (canonical_canon x) (canonical_canon y)
  have hyx := ratLess_iff (canonical_canon y) (canonical_canon x)
  rw [toRat_canon, toRat_canon] at hxy hyx
  unfold ratSimplestRational
  simp only [hxy, hyx]
  rcases lt_trichotomy x y with h | h | h
  · obtain ⟨z, hz, hs⟩ := simplestBetween_ok h fuel hfuel
    rw [if_pos h, min_eq_left h.le, max_eq_right h.le]
    exact ⟨z, hz, hs⟩
  · subst h
    rw [if_neg (lt_irrefl x), if_neg (lt_irrefl x), min_self, max_self]
    exact ⟨x, rfl, simplest_self x⟩
  · obtain ⟨z, hz, hs⟩ := simplestBetween_ok h fuel (by omega)
    rw [if_neg h.le.not_gt, if_pos h, min_eq_right h.le, max_eq_left h.le]
    exact ⟨z, hz, hs⟩

/-- **The simplest rational**: on canonical bounds `rat:simplest-rational` ends, and
returns the one simplest rational of the closed interval between them; so
`rat:rationalize` returns the simplest rational within the tolerance. -/
theorem simplest_rational (x y : Rational) (hx : x.Canonical) (hy : y.Canonical) :
    (∃ z : ℚ, (∃ enough, ∀ fuel ≥ enough, ratSimplestRational fuel x y = .ok (canon z)) ∧
      Simplest (min x.toRat y.toRat) (max x.toRat y.toRat) z ∧
      ∀ w, Simplest (min x.toRat y.toRat) (max x.toRat y.toRat) w → w = z) ∧
    (0 ≤ y.toRat → ∃ z : ℚ, (∃ enough, ∀ fuel ≥ enough, ratRationalize fuel x y = .ok (canon z)) ∧
      Simplest (x.toRat - y.toRat) (x.toRat + y.toRat) z) := by
  -- more fuel than enough changes nothing: the simplest rational is unique
  have hends : ∀ x y : ℚ, ∃ z : ℚ, (∃ enough, ∀ fuel ≥ enough,
      ratSimplestRational fuel (canon x) (canon y) = .ok (canon z)) ∧
      Simplest (min x y) (max x y) z := fun x y => by
    obtain ⟨z, -, hs⟩ := ratSimplestRational_ok (x := x) (y := y) _ le_rfl
    refine ⟨z, ⟨x.den + y.den, fun fuel hfuel => ?_⟩, hs⟩
    obtain ⟨z', hz', hs'⟩ := ratSimplestRational_ok fuel hfuel
    rw [hz', hs.unique hs']
  constructor
  · obtain ⟨z, hz, hs⟩ := hends x.toRat y.toRat
    rw [canon_toRat hx, canon_toRat hy] at hz
    exact ⟨z, hz, hs, fun w hw => hw.unique hs⟩
  · intro h0
    obtain ⟨z, hz, hs⟩ := hends (x.toRat - y.toRat) (x.toRat + y.toRat)
    rw [min_eq_left (by linarith), max_eq_right (by linarith)] at hs
    refine ⟨z, ?_, hs⟩
    unfold ratRationalize
    simpa only [ratMinus_ok hx hy, ratPlus_ok hx hy, ok_bind] using hz

/-- The simplest rational between 1/3 and 1/2 is 1/2, and 22/7 is the simplest
within 1/100 of 333/106. -/
theorem simplest_rational_third :
    (∃ z, canon z = ratnum 1 2 ∧ (∃ enough, ∀ fuel ≥ enough,
        ratSimplestRational fuel (ratnum 1 3) (ratnum 1 2) = .ok (canon z)) ∧
      Simplest (min (ratnum 1 3).toRat (ratnum 1 2).toRat)
        (max (ratnum 1 3).toRat (ratnum 1 2).toRat) z) ∧
    ∃ z, canon z = ratnum 22 7 ∧ (∃ enough, ∀ fuel ≥ enough,
        ratRationalize fuel (ratnum 333 106) (ratnum 1 100) = .ok (canon z)) ∧
      Simplest ((ratnum 333 106).toRat - (ratnum 1 100).toRat)
        ((ratnum 333 106).toRat + (ratnum 1 100).toRat) z := by
  obtain ⟨⟨z, ⟨enough, hz⟩, hs, -⟩, -⟩ :=
    simplest_rational (ratnum 1 3) (ratnum 1 2) (by decide) (by decide)
  obtain ⟨-, h⟩ := simplest_rational (ratnum 333 106) (ratnum 1 100) (by decide) (by decide)
  obtain ⟨w, ⟨enough', hw⟩, hs'⟩ := h (by norm_num [toRat])
  have hhalf : ratSimplestRational (enough + 9) (ratnum 1 3) (ratnum 1 2) = .ok (ratnum 1 2) := rfl
  have hsevenths : ratRationalize (enough' + 9) (ratnum 333 106) (ratnum 1 100) =
      .ok (ratnum 22 7) := by
    rw [ratRationalize, show ratMinus _ _ = .ok (ratnum 16597 5300) by decide +kernel,
      show ratPlus _ _ = .ok (ratnum 16703 5300) by decide +kernel]
    rfl
  rw [hz _ (by omega), Except.ok.injEq] at hhalf
  rw [hw _ (by omega), Except.ok.injEq] at hsevenths
  exact ⟨⟨z, hhalf, ⟨enough, hz⟩, hs⟩, w, hsevenths, ⟨enough', hw⟩, hs'⟩

end MitScheme.Runtime.Arith
