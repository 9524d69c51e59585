import Mathlib.Data.Rat.Floor

/-! # Roundings of a quotient of integers

What the remainder of a division says about its quotient: the rounding that the
quotient is of the exact rational follows from where the remainder lies. -/

namespace MitScheme.Lib.Quotient

/-- `q` is the integer closest to `x`, the even one where two are equally close. -/
structure NearestEven (x : ℚ) (q : Int) : Prop where
  nearest : ∀ k : Int, |x - q| ≤ |x - k|
  ties : ∀ k : Int, |x - k| = |x - q| → k = q ∨ Even q

/-- The integer part of `x`: towards zero. -/
def truncation (x : ℚ) : Int := if 0 ≤ x then ⌊x⌋ else ⌈x⌉

variable {n d q r : Int}

theorem div_eq_add (hd : d ≠ 0) (h : n = d * q + r) : (n : ℚ) / d = q + r / d := by
  have hd' : (d : ℚ) ≠ 0 := by exact_mod_cast hd
  rw [h]
  push_cast
  field_simp

theorem floor_eq (hd : d ≠ 0) (h : n = d * q + r) (hr : 0 ≤ r ∧ r < d ∨ d < r ∧ r ≤ 0) :
    ⌊(n : ℚ) / d⌋ = q := by
  rw [div_eq_add hd h, Int.floor_intCast_add]
  suffices hz : ⌊(r : ℚ) / d⌋ = 0 by omega
  rw [Int.floor_eq_zero_iff]
  rcases hr with ⟨h0, h1⟩ | ⟨h1, h0⟩
  · have hpos : (0 : ℚ) < d := by exact_mod_cast (by omega : 0 < d)
    refine ⟨div_nonneg (by exact_mod_cast h0) hpos.le, ?_⟩
    rw [div_lt_one hpos]
    exact_mod_cast h1
  · have hneg : (d : ℚ) < 0 := by exact_mod_cast (by omega : d < 0)
    refine ⟨div_nonneg_of_nonpos (by exact_mod_cast h0) hneg.le, ?_⟩
    rw [div_lt_one_of_neg hneg]
    exact_mod_cast h1

theorem ceil_eq (hd : d ≠ 0) (h : n = d * q + r) (hr : -d < r ∧ r ≤ 0 ∨ 0 ≤ r ∧ r < -d) :
    ⌈(n : ℚ) / d⌉ = q := by
  have hf : ⌊((-n : Int) : ℚ) / d⌋ = -q :=
    floor_eq (r := -r) hd (by rw [h]; ring) (by omega)
  have hn : ((-n : Int) : ℚ) / d = -((n : ℚ) / d) := by
    push_cast
    ring
  rw [hn, Int.floor_neg] at hf
  omega

theorem rem_eq_zero (h : 0 = d * q + r) (hr : |r| < |d|) : r = 0 := by
  refine Int.eq_zero_of_abs_lt_dvd ?_ hr
  exact (abs_dvd d r).mpr ⟨-q, by rw [mul_neg]; omega⟩

theorem truncation_eq (hd : d ≠ 0) (h : n = d * q + r) (hr : |r| < |d|)
    (hs : 0 ≤ n ∧ 0 ≤ r ∨ n ≤ 0 ∧ r ≤ 0) : truncation ((n : ℚ) / d) = q := by
  rcases lt_or_gt_of_ne hd with hneg | hpos
  · have hd' : (d : ℚ) < 0 := by exact_mod_cast hneg
    have hsgn : 0 ≤ (n : ℚ) / d ↔ n ≤ 0 := by
      rw [le_div_iff_of_neg hd', zero_mul]
      exact_mod_cast Iff.rfl
    rw [truncation]
    split
    · rename_i h0
      have hn := hsgn.mp h0
      refine floor_eq hd h ?_
      rcases hs with hs | hs
      · have := rem_eq_zero (show 0 = d * q + r by omega) hr
        omega
      · rw [abs_of_neg hneg, abs_lt] at hr
        omega
    · rename_i h0
      have hn : ¬ n ≤ 0 := fun hle => h0 (hsgn.mpr hle)
      rw [abs_of_neg hneg, abs_lt] at hr
      exact ceil_eq hd h (by omega)
  · have hd' : (0 : ℚ) < d := by exact_mod_cast hpos
    have hsgn : 0 ≤ (n : ℚ) / d ↔ 0 ≤ n := by
      rw [le_div_iff₀ hd', zero_mul]
      exact_mod_cast Iff.rfl
    rw [truncation]
    split
    · rename_i h0
      have hn := hsgn.mp h0
      refine floor_eq hd h ?_
      rcases hs with hs | hs
      · rw [abs_of_pos hpos, abs_lt] at hr
        omega
      · have := rem_eq_zero (show 0 = d * q + r by omega) hr
        omega
    · rename_i h0
      have hn : ¬ 0 ≤ n := fun hle => h0 (hsgn.mpr hle)
      rw [abs_of_pos hpos, abs_lt] at hr
      exact ceil_eq hd h (by omega)

theorem nearestEven_of_dist {x : ℚ} {q : Int}
    (h : |x - q| < 1 / 2 ∨ |x - q| = 1 / 2 ∧ Even q) : NearestEven x q := by
  have hhalf : |x - q| ≤ 1 / 2 := by
    rcases h with h | ⟨h, -⟩
    · exact h.le
    · exact h.le
  -- another integer is at least one away from `q`
  have hfar : ∀ k : Int, k ≠ q → 1 - |x - q| ≤ |x - k| := by
    intro k hk
    have h1 : (1 : ℚ) ≤ |(q : ℚ) - k| := by
      exact_mod_cast Int.one_le_abs (sub_ne_zero.mpr (Ne.symm hk))
    have h2 := abs_sub_le (q : ℚ) x k
    rw [abs_sub_comm (q : ℚ) x] at h2
    linarith
  refine ⟨fun k => ?_, fun k ht => ?_⟩
  · by_cases hk : k = q
    · rw [hk]
    · have := hfar k hk
      linarith
  · by_cases hk : k = q
    · exact .inl hk
    · rcases h with h | ⟨-, heven⟩
      · have := hfar k hk
        linarith
      · exact .inr heven

theorem nearestEven_of_rem (hd : d ≠ 0) (h : n = d * q + r)
    (hr : 2 * |r| < |d| ∨ 2 * |r| = |d| ∧ Even q) : NearestEven ((n : ℚ) / d) q := by
  have hpos : (0 : ℚ) < |(d : ℚ)| := abs_pos.mpr (by exact_mod_cast hd)
  have hx : (n : ℚ) / d - q = r / d := by rw [div_eq_add hd h]; ring
  have hq : |(n : ℚ) / d - q| = |(r : ℚ)| / |(d : ℚ)| := by rw [hx, abs_div]
  refine nearestEven_of_dist ?_
  rw [hq, div_lt_iff₀ hpos, div_eq_iff hpos.ne']
  rcases hr with hlt | ⟨heq, heven⟩
  · have : (2 : ℚ) * |(r : ℚ)| < |(d : ℚ)| := by exact_mod_cast hlt
    exact .inl (by linarith)
  · have : (2 : ℚ) * |(r : ℚ)| = |(d : ℚ)| := by exact_mod_cast heq
    exact .inr ⟨by linarith, heven⟩

theorem nearestEven_int (n : Int) : NearestEven n n := by
  refine ⟨fun k => by rw [sub_self, abs_zero]; exact abs_nonneg _, fun k ht => .inl ?_⟩
  rw [sub_self, abs_zero, abs_eq_zero, sub_eq_zero] at ht
  exact_mod_cast ht.symm

theorem NearestEven.neg {x q} (h : NearestEven x q) : NearestEven (-x) (-q) := by
  have hd : ∀ k : Int, |-x - (k : ℚ)| = |x - ((-k : Int) : ℚ)| := fun k => by
    rw [← abs_neg]
    congr 1
    push_cast
    ring
  constructor
  · intro k
    rw [hd, hd, neg_neg]
    exact h.nearest _
  · intro k ht
    rw [hd, hd, neg_neg] at ht
    rcases h.ties _ ht with he | he
    · exact .inl (by omega)
    · exact .inr he.neg

theorem NearestEven.unique {x q k} (hq : NearestEven x q) (hk : NearestEven x k) : q = k := by
  by_contra hne
  have heq : |x - q| = |x - k| := le_antisymm (hq.nearest k) (hk.nearest q)
  have he : Even q := (hq.ties k heq.symm).resolve_left (Ne.symm hne)
  have he' : Even k := (hk.ties q heq).resolve_left hne
  -- equally far on the two sides, an even distance apart, with an integer between them
  have hsum : (q : ℚ) + k = 2 * x := by
    rcases abs_eq_abs.mp heq with h | h
    · exact absurd (by exact_mod_cast (by linarith : (q : ℚ) = k)) hne
    · linarith
  obtain ⟨m, hm⟩ := he.add he'
  have hx : x = m := by
    have : (q : ℚ) + k = m + m := by exact_mod_cast hm
    linarith
  have hzero := hq.nearest m
  rw [hx, sub_self, abs_zero, abs_nonpos_iff] at hzero
  have hqm : (m : ℚ) = q := by linarith
  have : m = q := by exact_mod_cast hqm
  omega

end MitScheme.Lib.Quotient
