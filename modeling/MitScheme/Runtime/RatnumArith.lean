import MitScheme.Runtime.Ratnum
import Mathlib.RingTheory.Int.Basic

/-! # Arithmetic on canonical rationals

Every rational number has one canonical representation. On canonical operands
the procedures return the canonical representation of the exact result: the
greatest common divisors they take leave coprime factors, and the products of
these need no further reduction. -/

namespace MitScheme.Runtime.Arith
open Rational Lib.Quotient Lib.Outcome

/-! ## The canonical representation -/

def canon (x : ℚ) : Rational := if x.den = 1 then .int x.num else .ratnum x.num x.den

@[simp] theorem canon_int (n : Int) : canon n = .int n := by simp [canon]

theorem canon_zero : canon 0 = .int 0 := by simpa using canon_int 0

theorem canonical_int (n) : (int n).Canonical := trivial

theorem canonical_canon (x) : (canon x).Canonical := by
  unfold canon
  split
  · trivial
  · refine ⟨?_, ?_⟩
    · have := x.den_pos
      omega
    · exact x.reduced

theorem toRat_canon (x) : (canon x).toRat = x := by
  unfold canon
  split
  · rename_i h
    rw [toRat]
    exact Rat.coe_int_num_of_den_eq_one h
  · rw [toRat, Int.cast_natCast]
    exact Rat.num_div_den x

theorem ratnum_eq_canon {n d} (hd : 1 < d) (h : IsCoprime n d) :
    ratnum n d = canon ((n : ℚ) / d) := by
  have hc : Nat.Coprime n.natAbs d.natAbs := Int.isCoprime_iff_gcd_eq_one.mp h
  have hnum := Rat.num_div_eq_of_coprime (by omega) hc
  have hden := Rat.den_div_eq_of_coprime (by omega) hc
  rw [canon, if_neg (by omega), hnum, hden]

theorem makeRational_eq_canon {n d} (hd : 0 < d) (h : IsCoprime n d) :
    makeRational n d = canon ((n : ℚ) / d) := by
  unfold makeRational
  split
  · rename_i hc
    rcases hc with rfl | rfl
    · simpa using canon_zero.symm
    · simp
  · rename_i hc
    exact ratnum_eq_canon (by omega) h

variable {q r : Rational}

theorem canon_toRat (h : q.Canonical) : canon q.toRat = q := by
  cases q with
  | int n => exact canon_int n
  | ratnum n d => exact (ratnum_eq_canon h.1 (Int.isCoprime_iff_gcd_eq_one.mpr h.2)).symm

theorem toRat_inj (hq : q.Canonical) (hr : r.Canonical) : q.toRat = r.toRat ↔ q = r := by
  constructor
  · intro h
    rw [← canon_toRat hq, ← canon_toRat hr, h]
  · intro h
    rw [h]

/-! ## Greatest common divisors -/

theorem intGcd_eq (n m) : intGcd n m = Int.gcd n m := by
  induction n, m using intGcd.induct with
  | case1 n m hm ih =>
    rw [intGcd, if_pos hm, ih, Int.gcd, Int.gcd, Int.natAbs_tmod, Nat.gcd_comm n.natAbs]
    rw [Nat.gcd_rec m.natAbs n.natAbs, Nat.gcd_comm]
  | case2 n m hm hn =>
    obtain rfl : m = 0 := not_not.mp hm
    rw [intGcd, if_neg hm, if_pos hn, Int.gcd_zero_right]
    omega
  | case3 n m hm hn =>
    obtain rfl : m = 0 := not_not.mp hm
    rw [intGcd, if_neg hm, if_neg hn, Int.gcd_zero_right]
    omega

theorem intQuotient_mul {g k} (hg : g ≠ 0) : intQuotient (g * k) g = .ok k := by
  rw [intQuotient_ok hg, Int.mul_tdiv_cancel_left k hg]

theorem gcd_parts (n) {m} (hm : m ≠ 0) : ∃ g a b, intGcd n m = g ∧ 0 < g ∧
    n = g * a ∧ m = g * b ∧ IsCoprime a b := by
  obtain ⟨a, b, hab, ha, hb⟩ := Int.exists_gcd_one (Int.gcd_pos_of_ne_zero_right n hm)
  refine ⟨Int.gcd n m, a, b, intGcd_eq n m, ?_, by rw [mul_comm]; exact ha,
    by rw [mul_comm]; exact hb, Int.isCoprime_iff_gcd_eq_one.mpr hab⟩
  exact_mod_cast Int.gcd_pos_of_ne_zero_right n hm

/-! ## Sums and differences -/

theorem isCoprime_cross {u a v b s : Int} (hua : IsCoprime u a) (hvb : IsCoprime v b)
    (hab : IsCoprime a b) (hs : IsUnit s) : IsCoprime (u * b + s * (v * a)) (a * b) := by
  refine IsCoprime.mul_right ?_ ?_
  · have h : IsCoprime (u * b) a := hua.mul_left hab.symm
    have := h.add_mul_left_left (s * v)
    rwa [show u * b + a * (s * v) = u * b + s * (v * a) by ring] at this
  · have h : IsCoprime (s * (v * a)) b :=
      (isCoprime_mul_unit_left_left hs _ _).mpr (hvb.mul_left hab)
    have := h.add_mul_left_left u
    rwa [show s * (v * a) + b * u = u * b + s * (v * a) by ring] at this

theorem additionOperator_ok {op : Int → Int → Int} {s : Int} (hs : IsUnit s)
    (hop : ∀ a b, op a b = a + s * b) (hq : q.Canonical) (hr : r.Canonical) :
    additionOperator op q r = .ok (canon (q.toRat + s * r.toRat)) := by
  cases q with
  | int u =>
    cases r with
    | int v =>
      simp only [additionOperator, ratBinaryOperator, hop, toRat]
      rw [← canon_int]
      push_cast
      rfl
    | ratnum v v' =>
      obtain ⟨hv, hc⟩ := hr
      have hc := Int.isCoprime_iff_gcd_eq_one.mpr hc
      have hv' : (v' : ℚ) ≠ 0 := by exact_mod_cast (by omega : v' ≠ 0)
      simp only [additionOperator, ratBinaryOperator, hop, toRat]
      rw [makeRational_eq_canon (by omega)]
      · push_cast
        congr 2
        field_simp
      · have h := isCoprime_cross (u := u) (a := 1) (b := v') isCoprime_one_right hc
          isCoprime_one_left hs
        simpa using h
  | ratnum u u' =>
    obtain ⟨hu, hcu⟩ := hq
    have hcu := Int.isCoprime_iff_gcd_eq_one.mpr hcu
    have hu' : (u' : ℚ) ≠ 0 := by exact_mod_cast (by omega : u' ≠ 0)
    cases r with
    | int v =>
      simp only [additionOperator, ratBinaryOperator, hop, toRat]
      rw [makeRational_eq_canon (by omega)]
      · push_cast
        congr 2
        field_simp
      · have h := isCoprime_cross (v := v) (a := u') (b := 1) hcu isCoprime_one_right
          isCoprime_one_right hs
        simpa using h
    | ratnum v v' =>
      obtain ⟨hv, hcv⟩ := hr
      have hcv := Int.isCoprime_iff_gcd_eq_one.mpr hcv
      obtain ⟨g, a, b, hg, hg0, rfl, rfl, hab⟩ := gcd_parts u' (show v' ≠ 0 by omega)
      have ha0 : 0 < a := by nlinarith
      have hb0 : 0 < b := by nlinarith
      have hua : IsCoprime u a := hcu.of_mul_right_right
      have hvb : IsCoprime v b := hcv.of_mul_right_right
      have hcross := isCoprime_cross hua hvb hab hs
      have hga : (g : ℚ) ≠ 0 := by exact_mod_cast hg0.ne'
      have haa : (a : ℚ) ≠ 0 := by exact_mod_cast ha0.ne'
      have hba : (b : ℚ) ≠ 0 := by exact_mod_cast hb0.ne'
      have hval : (u : ℚ) / ((g * a : Int) : ℚ) + s * (v / ((g * b : Int) : ℚ)) =
          ((u * b + s * (v * a) : Int) : ℚ) / ((g * (a * b) : Int) : ℚ) := by
        push_cast
        field_simp
      simp only [additionOperator, ratBinaryOperator, hop, toRat, hg,
        intQuotient_mul hg0.ne', ok_bind, hval]
      by_cases hone : g = 1
      · subst hone
        rw [if_pos rfl, one_mul, one_mul, one_mul]
        simp only [pure, Except.pure]
        rw [makeRational_eq_canon (by positivity) hcross]
      rw [if_neg hone]
      generalize u * b + s * (v * a) = t at *
      by_cases ht : t = 0
      · subst ht
        rw [if_pos rfl, Int.cast_zero, zero_div]
        exact congrArg Except.ok canon_zero.symm
      rw [if_neg ht]
      obtain ⟨d, t', e, hd, hd0, rfl, rfl, hte⟩ := gcd_parts t hg0.ne'
      have he0 : 0 < e := by nlinarith
      have hea : (e : ℚ) ≠ 0 := by exact_mod_cast he0.ne'
      have hda : (d : ℚ) ≠ 0 := by exact_mod_cast hd0.ne'
      rw [hd, mul_assoc d e b, intQuotient_mul hd0.ne', intQuotient_mul hd0.ne']
      simp only [ok_bind, pure, Except.pure]
      rw [makeRational_eq_canon (by positivity)]
      · congr 2
        push_cast
        field_simp
      · have hcross' : IsCoprime t' (a * b) := hcross.of_mul_left_right
        have h : IsCoprime t' (a * b * e) := hcross'.mul_right hte
        rwa [show a * b * e = a * (e * b) by ring] at h

section
variable (hq : q.Canonical)
include hq

theorem ratPlus_ok (hr : r.Canonical) : ratPlus q r = .ok (canon (q.toRat + r.toRat)) := by
  rw [ratPlus, additionOperator_ok isUnit_one (fun a b => by rw [one_mul]) hq hr, Int.cast_one,
    one_mul]

theorem ratMinus_ok (hr : r.Canonical) : ratMinus q r = .ok (canon (q.toRat - r.toRat)) := by
  rw [ratMinus, additionOperator_ok isUnit_one.neg (fun a b => by ring) hq hr]
  push_cast
  congr 2
  ring

/-! ## Steps, signs, squares and cubes -/

theorem ratAddOne_ok : ratAddOne q = canon (q.toRat + 1) := by
  cases q with
  | int n =>
    rw [ratAddOne, ← canon_int]
    push_cast
    rfl
  | ratnum n d =>
    have hc := Int.isCoprime_iff_gcd_eq_one.mpr hq.2
    have hd : (d : ℚ) ≠ 0 := by exact_mod_cast (by have := hq.1; omega : d ≠ 0)
    have h : IsCoprime (n + d) d := by simpa using hc.add_mul_left_left 1
    rw [ratAddOne, ratnum_eq_canon hq.1 h, toRat]
    push_cast
    congr 1
    field_simp

theorem ratSubtractOne_ok : ratSubtractOne q = canon (q.toRat - 1) := by
  cases q with
  | int n =>
    rw [ratSubtractOne, ← canon_int]
    push_cast
    rfl
  | ratnum n d =>
    have hc := Int.isCoprime_iff_gcd_eq_one.mpr hq.2
    have hd : (d : ℚ) ≠ 0 := by exact_mod_cast (by have := hq.1; omega : d ≠ 0)
    have h : IsCoprime (n - d) d := by simpa [sub_eq_add_neg] using hc.add_mul_left_left (-1)
    rw [ratSubtractOne, ratnum_eq_canon hq.1 h, toRat]
    push_cast
    congr 1
    field_simp

theorem ratNegate_ok : ratNegate q = canon (-q.toRat) := by
  cases q with
  | int n =>
    rw [ratNegate, ← canon_int]
    push_cast
    rfl
  | ratnum n d =>
    have hc := Int.isCoprime_iff_gcd_eq_one.mpr hq.2
    rw [ratNegate, ratnum_eq_canon hq.1 hc.neg_left, toRat]
    push_cast
    rw [neg_div]

theorem ratSquare_ok : ratSquare q = canon (q.toRat ^ 2) := by
  cases q with
  | int n =>
    rw [ratSquare, ← canon_int, toRat, pow_two]
    push_cast
    rfl
  | ratnum n d =>
    have hc := Int.isCoprime_iff_gcd_eq_one.mpr hq.2
    have h : IsCoprime (n * n) (d * d) := (hc.mul_left hc).mul_right (hc.mul_left hc)
    rw [ratSquare, ratnum_eq_canon (by nlinarith [hq.1]) h, toRat, div_pow, pow_two, pow_two]
    push_cast
    rfl

theorem ratCube_ok : ratCube q = canon (q.toRat ^ 3) := by
  cases q with
  | int n =>
    rw [ratCube, ← canon_int, toRat]
    push_cast
    congr 1
    ring
  | ratnum n d =>
    have hc := Int.isCoprime_iff_gcd_eq_one.mpr hq.2
    have hn : IsCoprime (n * (n * n)) d := hc.mul_left (hc.mul_left hc)
    have h : IsCoprime (n * (n * n)) (d * (d * d)) := hn.mul_right (hn.mul_right hn)
    have hd := hq.1
    rw [ratCube, ratnum_eq_canon (by nlinarith [mul_pos (show 0 < d by omega) (show 0 < d by omega)])
      h, toRat]
    push_cast
    congr 1
    rw [div_pow]
    congr 1 <;> ring

theorem ratNegative_iff : ratNegative q = true ↔ q.toRat < 0 := by
  cases q with
  | int n => simp [ratNegative, toRat]
  | ratnum n d =>
    have hd : (0 : ℚ) < d := by exact_mod_cast (by have := hq.1; omega : 0 < d)
    simp [ratNegative, toRat, div_lt_iff₀ hd]

theorem ratPositive_iff : ratPositive q = true ↔ 0 < q.toRat := by
  cases q with
  | int n => simp [ratPositive, toRat]
  | ratnum n d =>
    have hd : (0 : ℚ) < d := by exact_mod_cast (by have := hq.1; omega : 0 < d)
    simp [ratPositive, toRat, lt_div_iff₀ hd]

theorem ratAbs_ok : ratAbs q = canon |q.toRat| := by
  have habs : ratAbs q = if ratNegative q then ratNegate q else q := by
    cases q with
    | int n => simp [ratAbs, ratNegative, ratNegate]
    | ratnum n d => simp [ratAbs, ratNegative, ratNegate]
  rw [habs]
  simp only [ratNegative_iff hq]
  split
  · rename_i h
    rw [ratNegate_ok hq, abs_of_neg h]
  · rename_i h
    rw [abs_of_nonneg (not_lt.mp h), canon_toRat hq]

/-! ## Products -/

theorem ratTimes_ok (hr : r.Canonical) : ratTimes q r = .ok (canon (q.toRat * r.toRat)) := by
  cases q with
  | int u =>
    cases r with
    | int v =>
      simp only [ratTimes, ratBinaryOperator, toRat]
      rw [← canon_int]
      push_cast
      rfl
    | ratnum v v' =>
      obtain ⟨hv, hc⟩ := hr
      have hc := Int.isCoprime_iff_gcd_eq_one.mpr hc
      obtain ⟨g, a, b, hg, hg0, rfl, rfl, hab⟩ := gcd_parts u (show v' ≠ 0 by omega)
      have hb0 : 0 < b := by nlinarith
      simp only [ratTimes, ratBinaryOperator, toRat, hg, intQuotient_mul hg0.ne', ok_bind, pure,
        Except.pure]
      rw [makeRational_eq_canon hb0 (hab.mul_left hc.of_mul_right_right)]
      congr 2
      push_cast
      field_simp
  | ratnum u u' =>
    obtain ⟨hu, hcu⟩ := hq
    have hcu := Int.isCoprime_iff_gcd_eq_one.mpr hcu
    cases r with
    | int v =>
      obtain ⟨g, a, b, hg, hg0, rfl, rfl, hab⟩ := gcd_parts v (show u' ≠ 0 by omega)
      have hb0 : 0 < b := by nlinarith
      simp only [ratTimes, ratBinaryOperator, toRat, hg, intQuotient_mul hg0.ne', ok_bind, pure,
        Except.pure]
      rw [makeRational_eq_canon hb0 (hcu.of_mul_right_right.mul_left hab)]
      congr 2
      push_cast
      field_simp
    | ratnum v v' =>
      obtain ⟨hv, hcv⟩ := hr
      have hcv := Int.isCoprime_iff_gcd_eq_one.mpr hcv
      obtain ⟨g, a, b, hg, hg0, rfl, rfl, hab⟩ := gcd_parts u (show v' ≠ 0 by omega)
      obtain ⟨k, c, d, hk, hk0, rfl, rfl, hcd⟩ := gcd_parts v (show u' ≠ 0 by omega)
      have hb0 : 0 < b := by nlinarith
      have hd0 : 0 < d := by nlinarith
      have had : IsCoprime a d := hcu.of_mul_left_right.of_mul_right_right
      have hcb : IsCoprime c b := hcv.of_mul_left_right.of_mul_right_right
      simp only [ratTimes, ratBinaryOperator, toRat, hg, hk, intQuotient_mul hg0.ne',
        intQuotient_mul hk0.ne', ok_bind, pure, Except.pure]
      rw [makeRational_eq_canon (by positivity)
        ((had.mul_left hcd).mul_right (hab.mul_left hcb))]
      congr 2
      push_cast
      field_simp

/-! ## Quotients -/

theorem ratInvert_ok (h0 : q.toRat ≠ 0) : ratInvert q = .ok (canon q.toRat⁻¹) := by
  cases q with
  | int n =>
    rw [toRat, Int.cast_ne_zero] at h0
    rw [ratInvert, toRat]
    by_cases hp : n > 0
    · rw [if_pos hp, makeRational_eq_canon hp isCoprime_one_left, Int.cast_one, one_div]
    · rw [if_neg hp, if_pos (by omega), makeRational_eq_canon (by omega)
        isCoprime_one_left.neg_left]
      push_cast
      rw [neg_div_neg_eq, one_div]
  | ratnum n d =>
    have hc := Int.isCoprime_iff_gcd_eq_one.mpr hq.2
    have hn : n ≠ 0 := by
      rintro rfl
      simp [toRat] at h0
    rw [ratInvert, toRat, inv_div]
    by_cases hp : n > 0
    · rw [if_pos hp, makeRational_eq_canon hp hc.symm]
    · rw [if_neg hp, if_pos (by omega), makeRational_eq_canon (by omega) hc.symm.neg_neg]
      push_cast
      rw [neg_div_neg_eq]

end

theorem ratSignCorrection_eq (u) {v} (hv : v ≠ 0) (cont) :
    ∃ s : Int, IsUnit s ∧ 0 < s * v ∧ ratSignCorrection u v cont = cont (s * u) (s * v) := by
  unfold ratSignCorrection
  by_cases hneg : v < 0
  · exact ⟨-1, isUnit_one.neg, by omega, by rw [if_pos hneg, neg_one_mul, neg_one_mul]⟩
  · exact ⟨1, isUnit_one, by omega, by rw [if_neg hneg, one_mul, one_mul]⟩

theorem ratDivide_ok (hq : q.Canonical) (hr : r.Canonical) (h0 : r.toRat ≠ 0) :
    ratDivide q r = .ok (canon (q.toRat / r.toRat)) := by
  have hcancel : ∀ {s : Int}, IsUnit s → ∀ u v : Int, ((s * u : Int) : ℚ) / ((s * v : Int) : ℚ) =
      u / v := fun hs u v => by
    have : ((_ : Int) : ℚ) ≠ 0 := Int.cast_ne_zero.mpr hs.ne_zero
    push_cast
    rw [mul_div_mul_left _ _ this]
  cases r with
  | int v =>
    have hv : v ≠ 0 := by
      rw [toRat, Int.cast_ne_zero] at h0
      exact h0
    cases q with
    | int u =>
      simp only [ratDivide, ratBinaryOperator, if_neg hv, toRat]
      obtain ⟨s, hs, hpos, hcont⟩ := ratSignCorrection_eq u hv (fun u v => do
        let d := intGcd u v
        return makeRational (← intQuotient u d) (← intQuotient v d))
      obtain ⟨g, a, b, hg, hg0, ha, hb, hab⟩ := gcd_parts (s * u) hpos.ne'
      rw [ha, hb] at hg
      have hb0 : 0 < b := by nlinarith
      have hga : (g : ℚ) ≠ 0 := by exact_mod_cast hg0.ne'
      rw [hcont, ← hcancel hs]
      simp only [hg, ha, hb, intQuotient_mul hg0.ne', ok_bind, pure, Except.pure]
      rw [makeRational_eq_canon hb0 hab]
      congr 2
      push_cast
      rw [mul_div_mul_left _ _ hga]
    | ratnum u u' =>
      obtain ⟨hu, hcu⟩ := hq
      have hcu := Int.isCoprime_iff_gcd_eq_one.mpr hcu
      simp only [ratDivide, ratBinaryOperator, if_neg hv, toRat]
      obtain ⟨s, hs, hpos, hcont⟩ := ratSignCorrection_eq u hv (fun u v => do
        let d := intGcd u v
        return makeRational (← intQuotient u d) (u' * (← intQuotient v d)))
      obtain ⟨g, a, b, hg, hg0, ha, hb, hab⟩ := gcd_parts (s * u) hpos.ne'
      rw [ha, hb] at hg
      have hb0 : 0 < b := by nlinarith
      have hga : (g : ℚ) ≠ 0 := by exact_mod_cast hg0.ne'
      have hua : IsCoprime a u' := by
        have h : IsCoprime (s * u) u' := (isCoprime_mul_unit_left_left hs _ _).mpr hcu
        rw [ha] at h
        exact h.of_mul_left_right
      rw [hcont, div_right_comm, ← hcancel hs]
      simp only [hg, ha, hb, intQuotient_mul hg0.ne', ok_bind, pure, Except.pure]
      rw [makeRational_eq_canon (by positivity) (hua.mul_right hab)]
      congr 2
      push_cast
      rw [mul_div_mul_left _ _ hga, mul_comm, ← div_div]
  | ratnum v v' =>
    obtain ⟨hv', hcv⟩ := hr
    have hcv := Int.isCoprime_iff_gcd_eq_one.mpr hcv
    have hv : v ≠ 0 := by
      rintro rfl
      simp [toRat] at h0
    cases q with
    | int u =>
      simp only [ratDivide, ratBinaryOperator, toRat]
      obtain ⟨s, hs, hpos, hcont⟩ := ratSignCorrection_eq u hv (fun u v => do
        let d := intGcd u v
        return makeRational ((← intQuotient u d) * v') (← intQuotient v d))
      obtain ⟨g, a, b, hg, hg0, ha, hb, hab⟩ := gcd_parts (s * u) hpos.ne'
      rw [ha, hb] at hg
      have hb0 : 0 < b := by nlinarith
      have hga : (g : ℚ) ≠ 0 := by exact_mod_cast hg0.ne'
      have hvb : IsCoprime v' b := by
        have h : IsCoprime (s * v) v' := (isCoprime_mul_unit_left_left hs _ _).mpr hcv
        rw [hb] at h
        exact h.of_mul_left_right.symm
      rw [hcont, div_div_eq_mul_div, mul_div_right_comm, ← hcancel hs]
      simp only [hg, ha, hb, intQuotient_mul hg0.ne', ok_bind, pure, Except.pure]
      rw [makeRational_eq_canon hb0 (hab.mul_left hvb)]
      congr 2
      push_cast
      rw [mul_div_mul_left _ _ hga, mul_div_right_comm]
    | ratnum u u' =>
      obtain ⟨hu', hcu⟩ := hq
      have hcu := Int.isCoprime_iff_gcd_eq_one.mpr hcu
      obtain ⟨g, a, b, hg, hg0, rfl, rfl, hab⟩ := gcd_parts u hv
      obtain ⟨k, c, d, hk, hk0, rfl, rfl, hcd⟩ := gcd_parts v' (show u' ≠ 0 by omega)
      have hc0 : 0 < c := by nlinarith
      have hd0 : 0 < d := by nlinarith
      have hb0 : b ≠ 0 := right_ne_zero_of_mul hv
      have hga : (g : ℚ) ≠ 0 := by exact_mod_cast hg0.ne'
      have hka : (k : ℚ) ≠ 0 := by exact_mod_cast hk0.ne'
      have hba : (b : ℚ) ≠ 0 := by exact_mod_cast hb0
      have hca : (c : ℚ) ≠ 0 := by exact_mod_cast hc0.ne'
      have hda : (d : ℚ) ≠ 0 := by exact_mod_cast hd0.ne'
      have had : IsCoprime a d := hcu.of_mul_left_right.of_mul_right_right
      have hbc : IsCoprime b c := hcv.of_mul_left_right.of_mul_right_right
      have hall : IsCoprime (a * c) (d * b) :=
        (had.mul_left hcd).mul_right (hab.mul_left hbc.symm)
      simp only [ratDivide, ratBinaryOperator, toRat, hg, hk, intQuotient_mul hg0.ne', ok_bind]
      by_cases hneg : g * b < 0
      · -- the sign of the divisor goes into the second gcd, and so into both products
        have hq1 : ∀ x, intQuotient (k * x) (-k) = .ok (-x) := fun x => by
          rw [show k * x = -k * -x by ring, intQuotient_mul (by omega)]
        have hb1 : b < 0 := by nlinarith
        simp only [if_pos hneg, hq1, ok_bind, pure, Except.pure]
        rw [makeRational_eq_canon (by nlinarith)]
        · congr 2
          push_cast
          field_simp
        · simpa using hall.neg_neg
      · have hb1 : 0 < b := by
          rcases lt_or_gt_of_ne hb0 with h | h
          · nlinarith
          · exact h
        simp only [if_neg hneg, intQuotient_mul hk0.ne', ok_bind, pure, Except.pure]
        rw [makeRational_eq_canon (by positivity) hall]
        congr 2
        push_cast
        field_simp

/-! ## Powers -/

theorem ratExptExact_ok {b : Rational} (hb : b.Canonical) {e : Int} (k : Nat) (hk : e = k)
    (he : 0 < e) : ratExptExact b e he = .ok (canon (b.toRat ^ k)) := by
  rw [ratExptExact]
  by_cases h1 : 1 = e
  · rw [dif_pos h1, show k = 1 by omega, pow_one, canon_toRat hb]
  · rw [dif_neg h1]
    obtain ⟨c, hc, hrep⟩ := exptLoop_ok (R := fun a x => a = canon x) (m := ratTimes)
      (fun a b x y ha hb => ⟨_, ratTimes_ok (ha ▸ canonical_canon x) (hb ▸ canonical_canon y),
        by rw [ha, hb, toRat_canon, toRat_canon]⟩) k hk (show 2 ≤ e by omega)
      (canon_toRat hb).symm (show Rational.int 1 = canon 1 by simpa using (canon_int 1).symm)
    rw [hc, hrep, one_mul]

theorem ratExpt_ok {b : Rational} (hb : b.Canonical) (e) (h0 : e < 0 → b.toRat ≠ 0) :
    ratExpt b e = .ok (canon (b.toRat ^ e)) := by
  cases b with
  | int n =>
    rw [ratExpt]
    by_cases hneg : e < 0
    · obtain ⟨k, rfl⟩ : ∃ k : Nat, e = -k := ⟨(-e).toNat, by omega⟩
      have hn := h0 hneg
      rw [if_pos hneg, neg_neg, intExpt_ok, ok_bind, ratInvert_ok (canonical_int _)]
      · simp [toRat]
      · simpa [toRat] using pow_ne_zero k hn
    · obtain ⟨k, rfl⟩ : ∃ k : Nat, e = k := ⟨e.toNat, by omega⟩
      rw [if_neg hneg, intExpt_ok, ok_bind, ← canon_int]
      simp [toRat, pure, Except.pure]
  | ratnum n d =>
    rw [ratExpt]
    by_cases hneg : e < 0
    · obtain ⟨k, rfl⟩ : ∃ k : Nat, e = -k := ⟨(-e).toNat, by omega⟩
      rw [dif_pos hneg, ratExptExact_ok hb k (neg_neg _), ok_bind,
        ratInvert_ok (canonical_canon _), toRat_canon, zpow_neg, zpow_natCast]
      rw [toRat_canon]
      exact pow_ne_zero k (h0 hneg)
    · rw [dif_neg hneg]
      by_cases hp : e > 0
      · obtain ⟨k, rfl⟩ : ∃ k : Nat, e = k := ⟨e.toNat, by omega⟩
        rw [dif_pos hp, ratExptExact_ok hb k rfl, zpow_natCast]
      · obtain rfl : e = 0 := by omega
        rw [dif_neg hp, zpow_zero]
        exact congrArg Except.ok (by simpa using (canon_int 1).symm)

/-! ## Comparisons and integer roundings -/

theorem ratEqual_iff (hq : q.Canonical) (hr : r.Canonical) :
    ratEqual q r = true ↔ q.toRat = r.toRat := by
  rw [toRat_inj hq hr]
  cases q <;> cases r <;> simp [ratEqual]

theorem ratLess_iff (hq : q.Canonical) (hr : r.Canonical) :
    ratLess q r = true ↔ q.toRat < r.toRat := by
  cases q with
  | int u =>
    cases r with
    | int v => simp [ratLess, toRat]
    | ratnum v v' =>
      have hv : (0 : ℚ) < v' := by exact_mod_cast (by have := hr.1; omega : 0 < v')
      rw [ratLess, toRat, toRat, lt_div_iff₀ hv, decide_eq_true_eq]
      exact_mod_cast Iff.rfl
  | ratnum u u' =>
    have hu : (0 : ℚ) < u' := by exact_mod_cast (by have := hq.1; omega : 0 < u')
    cases r with
    | int v =>
      rw [ratLess, toRat, toRat, div_lt_iff₀ hu, decide_eq_true_eq]
      exact_mod_cast Iff.rfl
    | ratnum v v' =>
      have hv : (0 : ℚ) < v' := by exact_mod_cast (by have := hr.1; omega : 0 < v')
      rw [ratLess, toRat, toRat, div_lt_div_iff₀ hu hv, decide_eq_true_eq]
      exact_mod_cast Iff.rfl

theorem integerCoercion_ok {coerce : Int → Int → Result Int} {P : ℚ → Int → Prop}
    (hint : ∀ n : Int, P n n)
    (hcoerce : ∀ n d : Int, d ≠ 0 → ∃ k, coerce n d = .ok k ∧ P ((n : ℚ) / d) k)
    (hq : q.Canonical) : ∃ k, integerCoercion coerce q = .ok k ∧ P q.toRat k := by
  cases q with
  | int n => exact ⟨n, rfl, hint n⟩
  | ratnum n d => exact hcoerce n d (by have := hq.1; omega)

theorem ratFloor_ok (hq : q.Canonical) : ratFloor q = .ok ⌊q.toRat⌋ := by
  obtain ⟨k, hk, rfl⟩ := integerCoercion_ok (P := fun x k => k = ⌊x⌋)
    (fun n => (Int.floor_intCast n).symm) (fun n d hd => ⟨_, intFloor_ok hd, rfl⟩) hq
  exact hk

theorem ratCeiling_ok (hq : q.Canonical) : ratCeiling q = .ok ⌈q.toRat⌉ := by
  obtain ⟨k, hk, rfl⟩ := integerCoercion_ok (P := fun x k => k = ⌈x⌉)
    (fun n => (Int.ceil_intCast n).symm) (fun n d hd => ⟨_, intCeiling_ok hd, rfl⟩) hq
  exact hk

theorem ratTruncate_ok (hq : q.Canonical) : ratTruncate q = .ok (truncation q.toRat) := by
  obtain ⟨k, hk, rfl⟩ := integerCoercion_ok (P := fun x k => k = truncation x)
    (fun n => by simp [truncation]) (fun n d hd => ⟨_, intQuotient_truncates hd, rfl⟩) hq
  exact hk

theorem ratRound_ok (hq : q.Canonical) : ∃ k, ratRound q = .ok k ∧ NearestEven q.toRat k :=
  integerCoercion_ok nearestEven_int (fun _ _ hd => intRound_ok hd) hq

/-- **Exact rational arithmetic**: on canonical operands every operator returns the
canonical representation of the exact result, equality of representations is
equality of numbers, and the order and the roundings are those of the rationals. -/
theorem rational_arithmetic (q r : Rational) (hq : q.Canonical) (hr : r.Canonical) (e : Int) :
    (ratPlus q r = .ok (canon (q.toRat + r.toRat)) ∧
      ratMinus q r = .ok (canon (q.toRat - r.toRat)) ∧
      ratTimes q r = .ok (canon (q.toRat * r.toRat)) ∧
      (r.toRat ≠ 0 → ratDivide q r = .ok (canon (q.toRat / r.toRat)))) ∧
    (ratAddOne q = canon (q.toRat + 1) ∧ ratSubtractOne q = canon (q.toRat - 1) ∧
      ratNegate q = canon (-q.toRat) ∧ (q.toRat ≠ 0 → ratInvert q = .ok (canon q.toRat⁻¹)) ∧
      ratSquare q = canon (q.toRat ^ 2) ∧ ratCube q = canon (q.toRat ^ 3) ∧
      ratAbs q = canon |q.toRat| ∧
      ((e < 0 → q.toRat ≠ 0) → ratExpt q e = .ok (canon (q.toRat ^ e)))) ∧
    (∀ x : ℚ, (canon x).Canonical ∧ (canon x).toRat = x ∧
      ∀ p : Rational, p.Canonical → p.toRat = x → p = canon x) ∧
    ((ratEqual q r = true ↔ q.toRat = r.toRat) ∧ (ratLess q r = true ↔ q.toRat < r.toRat) ∧
      ratFloor q = .ok ⌊q.toRat⌋ ∧ ratCeiling q = .ok ⌈q.toRat⌉ ∧
      ratTruncate q = .ok (truncation q.toRat) ∧
      ∃ k, ratRound q = .ok k ∧ NearestEven q.toRat k) := by
  refine ⟨⟨ratPlus_ok hq hr, ratMinus_ok hq hr, ratTimes_ok hq hr, ratDivide_ok hq hr⟩,
    ⟨ratAddOne_ok hq, ratSubtractOne_ok hq, ratNegate_ok hq, ratInvert_ok hq, ratSquare_ok hq,
      ratCube_ok hq, ratAbs_ok hq, ratExpt_ok hq e⟩, fun x => ?_,
    ⟨ratEqual_iff hq hr, ratLess_iff hq hr, ratFloor_ok hq, ratCeiling_ok hq, ratTruncate_ok hq,
      ratRound_ok hq⟩⟩
  exact ⟨canonical_canon x, toRat_canon x, fun p hp hx => by rw [← hx, canon_toRat hp]⟩

/-- A sum of sixths in which both gcds are taken, and a negative power. -/
theorem rational_arithmetic_sixths :
    ratPlus (ratnum 1 6) (ratnum (-5) 6) = .ok (canon (1 / 6 + -5 / 6)) ∧
      ratExpt (ratnum 1 6) (-2) = .ok (canon ((1 / 6) ^ (-2 : Int))) := by
  obtain ⟨⟨hplus, -⟩, ⟨-, -, -, -, -, -, -, hexpt⟩, -⟩ :=
    rational_arithmetic (ratnum 1 6) (ratnum (-5) 6) (by decide) (by decide) (-2)
  refine ⟨by simpa [toRat] using hplus, ?_⟩
  have h := hexpt (fun _ => by norm_num [toRat])
  simpa [toRat] using h

end MitScheme.Runtime.Arith
