import Mathlib.Data.Rat.Floor
import Mathlib.Tactic.Positivity

/-! # The simplest fraction of an interval

`Simplest lo hi z` says that `z` has the smallest denominator of the rationals
from `lo` to `hi`, and the smallest numerator among those. In an interval of
positive rationals the simplest fraction is the least one in both at once; this
stronger property follows the continued fraction of the bounds: it passes from
the inverses of the fractional parts to the interval itself. -/

namespace MitScheme.Lib.SimplestFraction

structure Simplest (lo hi z : ℚ) : Prop where
  lower : lo ≤ z
  upper : z ≤ hi
  least : ∀ w, lo ≤ w → w ≤ hi → z.den < w.den ∨ z.den = w.den ∧ |z.num| ≤ |w.num|

structure LeastFraction (lo hi z : ℚ) : Prop where
  lower : lo ≤ z
  upper : z ≤ hi
  den : ∀ w, lo ≤ w → w ≤ hi → z.den ≤ w.den
  num : ∀ w, lo ≤ w → w ≤ hi → z.num ≤ w.num

/-! ## Numerators and denominators -/

theorem num_eq (w : ℚ) : (w.num : ℚ) = w * w.den := (Rat.mul_den_eq_num w).symm

theorem one_le_den (w : ℚ) : (1 : ℚ) ≤ w.den := by exact_mod_cast w.den_pos

theorem num_intCast_add (n : Int) (t : ℚ) : (n + t).num = n * t.den + t.num := by
  have h := num_eq (n + t)
  rw [Rat.intCast_add_den, add_mul, ← num_eq t] at h
  exact_mod_cast h

theorem num_inv_of_pos {t : ℚ} (ht : 0 < t) : t⁻¹.num = t.den := by
  rw [Rat.num_inv, Int.sign_eq_one_of_pos (Rat.num_pos.mpr ht), one_mul]

theorem den_inv_of_pos {t : ℚ} (ht : 0 < t) : (t⁻¹.den : Int) = t.num := by
  have := Rat.num_pos.mpr ht
  rw [Rat.den_inv_of_ne_zero ht.ne']
  omega

variable {n : Int} {w lo hi z : ℚ}

theorem le_num (hn : 0 ≤ n) (h : (n : ℚ) ≤ w) : n ≤ w.num := by
  have hn' : (0 : ℚ) ≤ n := by exact_mod_cast hn
  have hw : (n : ℚ) ≤ w.num := by
    rw [num_eq w]
    nlinarith [one_le_den w]
  exact_mod_cast hw

theorem lt_num (hn : 0 ≤ n) (h : (n : ℚ) < w) : n < w.num := by
  have hn' : (0 : ℚ) ≤ n := by exact_mod_cast hn
  have hw : (n : ℚ) < w.num := by
    rw [num_eq w]
    nlinarith [one_le_den w]
  exact_mod_cast hw

/-! ## The cases of the continued fraction -/

theorem leastFraction_int (h0 : 0 < lo) (h : lo ≤ hi) (hden : lo.den = 1) :
    LeastFraction lo hi lo := by
  have hlo : (lo.num : ℚ) = lo := Rat.coe_int_num_of_den_eq_one hden
  refine ⟨le_refl lo, h, fun w _ _ => ?_, fun w hw _ => ?_⟩
  · rw [hden]
    exact w.den_pos
  · exact le_num (Rat.num_pos.mpr h0).le (hlo.trans_le hw)

theorem leastFraction_floor (hn : 0 ≤ n) (h1 : (n : ℚ) < lo) (h2 : lo ≤ n + 1)
    (h3 : (n : ℚ) + 1 ≤ hi) : LeastFraction lo hi (n + 1) := by
  have hz : (n : ℚ) + 1 = ((n + 1 : Int) : ℚ) := by push_cast; ring
  refine ⟨h2, h3, fun w _ _ => ?_, fun w hw _ => ?_⟩
  · rw [hz, Rat.den_intCast]
    exact w.den_pos
  · rw [hz, Rat.num_intCast]
    exact lt_num hn (h1.trans_le hw)

theorem LeastFraction.step (hn : 0 ≤ n) (h1 : (n : ℚ) < lo) (h2 : lo ≤ hi)
    (h : LeastFraction (hi - n)⁻¹ (lo - n)⁻¹ z) : LeastFraction lo hi (n + z⁻¹) := by
  have hlo : 0 < lo - n := by linarith
  have hhi : 0 < hi - n := by linarith
  have hz : 0 < z := lt_of_lt_of_le (inv_pos.mpr hhi) h.lower
  have hz1 : lo - n ≤ z⁻¹ := (le_inv_comm₀ hz hlo).mp h.upper
  have hz2 : z⁻¹ ≤ hi - n := (inv_le_comm₀ hhi hz).mp h.lower
  have hinv : ∀ w, lo ≤ w → w ≤ hi → 0 < w - n ∧ (hi - n)⁻¹ ≤ (w - n)⁻¹ ∧
      (w - n)⁻¹ ≤ (lo - n)⁻¹ := fun w hw1 hw2 => by
    have hpos : 0 < w - n := by linarith
    exact ⟨hpos, inv_anti₀ hpos (by linarith), inv_anti₀ hlo (by linarith)⟩
  refine ⟨by linarith, by linarith, fun w hw1 hw2 => ?_, fun w hw1 hw2 => ?_⟩
  · obtain ⟨hpos, hl, hu⟩ := hinv w hw1 hw2
    have hnum := h.num _ hl hu
    rw [num_inv_of_pos hpos, Rat.sub_intCast_den] at hnum
    rw [Rat.intCast_add_den]
    have := den_inv_of_pos hz
    omega
  · obtain ⟨hpos, hl, hu⟩ := hinv w hw1 hw2
    have hnum := h.num _ hl hu
    have hden := h.den _ hl hu
    rw [num_inv_of_pos hpos, Rat.sub_intCast_den] at hnum
    have hden' : (z.den : Int) ≤ (w - n).num := by
      rw [← den_inv_of_pos hpos]
      exact_mod_cast hden
    have hw : w.num = n * w.den + (w - n).num := by
      have := num_intCast_add n (w - n)
      rwa [Rat.sub_intCast_den, add_sub_cancel] at this
    rw [num_intCast_add, num_inv_of_pos hz, den_inv_of_pos hz, hw]
    nlinarith

/-! ## From the least fraction to the simplest -/

theorem LeastFraction.simplest (h0 : 0 < lo) (h : LeastFraction lo hi z) : Simplest lo hi z := by
  refine ⟨h.lower, h.upper, fun w hw1 hw2 => ?_⟩
  rcases (h.den w hw1 hw2).lt_or_eq with hlt | heq
  · exact .inl hlt
  · refine .inr ⟨heq, ?_⟩
    have hz : 0 < z.num := Rat.num_pos.mpr (lt_of_lt_of_le h0 h.lower)
    have hw : 0 < w.num := Rat.num_pos.mpr (lt_of_lt_of_le h0 hw1)
    rw [abs_of_pos hz, abs_of_pos hw]
    exact h.num w hw1 hw2

theorem Simplest.neg (h : Simplest lo hi z) : Simplest (-hi) (-lo) (-z) := by
  refine ⟨neg_le_neg h.upper, neg_le_neg h.lower, fun w hw1 hw2 => ?_⟩
  have := h.least (-w) (by linarith) (by linarith)
  rw [Rat.neg_den, Rat.neg_num, abs_neg] at this
  rwa [Rat.neg_den, Rat.neg_num, abs_neg]

theorem simplest_zero (h1 : lo ≤ 0) (h2 : 0 ≤ hi) : Simplest lo hi 0 := by
  refine ⟨h1, h2, fun w _ _ => ?_⟩
  rw [Rat.num_zero, Rat.den_zero, abs_zero]
  have := w.den_pos
  have := abs_nonneg w.num
  omega

theorem simplest_self (x : ℚ) : Simplest x x x := by
  refine ⟨le_refl x, le_refl x, fun w hw1 hw2 => .inr ?_⟩
  rw [le_antisymm hw1 hw2]
  exact ⟨rfl, le_refl _⟩

theorem Simplest.unique (hz : Simplest lo hi z) (hw : Simplest lo hi w) : z = w := by
  have h1 := hz.least w hw.lower hw.upper
  have h2 := hw.least z hz.lower hz.upper
  have hden : z.den = w.den := by omega
  have habs : |z.num| = |w.num| := by
    rcases h1 with h | ⟨-, h1⟩
    · omega
    rcases h2 with h | ⟨-, h2⟩
    · omega
    exact le_antisymm h1 h2
  rcases abs_eq_abs.mp habs with hnum | hnum
  · exact Rat.ext hnum hden
  · have hopp : z = -w := Rat.ext (by rw [Rat.neg_num, hnum]) (by rw [Rat.neg_den, hden])
    have hzero : lo ≤ 0 ∧ 0 ≤ hi := by
      have a1 := hz.lower
      have a2 := hz.upper
      have a3 := hw.lower
      have a4 := hw.upper
      constructor <;> linarith
    have h0 := hw.least 0 hzero.1 hzero.2
    rw [Rat.num_zero, Rat.den_zero, abs_zero, abs_nonpos_iff] at h0
    have hpos := w.den_pos
    have hw0 : w = 0 := Rat.num_eq_zero.mp (by omega)
    rw [hopp, hw0, neg_zero]

end MitScheme.Lib.SimplestFraction
