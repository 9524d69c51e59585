import Mathlib.Tactic.Linarith
import Mathlib.Tactic.Ring
import Mathlib.Tactic.Positivity

/-! # Rounding integers to a significand

`HasSignificand p` are the integers that a floating-point format with a
significand of `p` bits holds exactly. `NearestEven p x r` says that `r` is
the closest of them to `x`, and that it has the even significand when two are
equally close. An integer is cut at the weight of its last significand bit;
the part below that decides which neighbour is taken. -/

namespace MitScheme.Lib.Rounding

variable {p : Nat}

def HasSignificand (p : Nat) (v : Int) : Prop := ∃ (s : Int) (e : Nat), v = s * 2 ^ e ∧ |s| < 2 ^ p

/-- The significand that fills all `p` bits is even. -/
def EvenSignificand (p : Nat) (v : Int) : Prop :=
  ∃ (s : Int) (e : Nat), v = s * 2 ^ e ∧ 2 ^ (p - 1) ≤ |s| ∧ |s| < 2 ^ p ∧ Even s

structure NearestEven (p : Nat) (x r : Int) : Prop where
  held : HasSignificand p r
  nearest : ∀ r', HasSignificand p r' → |x - r| ≤ |x - r'|
  ties : ∀ r', HasSignificand p r' → |x - r'| = |x - r| → r' = r ∨ EvenSignificand p r

theorem HasSignificand.neg {v} (h : HasSignificand p v) : HasSignificand p (-v) := by
  obtain ⟨s, e, rfl, hs⟩ := h
  exact ⟨-s, e, by ring, by rwa [abs_neg]⟩

theorem EvenSignificand.neg {v} (h : EvenSignificand p v) : EvenSignificand p (-v) := by
  obtain ⟨s, e, rfl, h1, h2, h3⟩ := h
  exact ⟨-s, e, by ring, by rwa [abs_neg], by rwa [abs_neg], h3.neg⟩

theorem NearestEven.neg {x r} (h : NearestEven p x r) : NearestEven p (-x) (-r) := by
  have hd : ∀ r' : Int, |(-x) - r'| = |x - -r'| := fun r' => by
    rw [← abs_neg]
    congr 1
    ring
  refine ⟨h.held.neg, fun r' hr' => ?_, fun r' hr' ht => ?_⟩
  · rw [hd, hd, neg_neg]
    exact h.nearest _ hr'.neg
  · rw [hd, hd, neg_neg] at ht
    rcases h.ties _ hr'.neg ht with he | he
    · exact .inl (by rw [← he, neg_neg])
    · exact .inr he.neg

theorem nearestEven_self {x} (h : HasSignificand p x) : NearestEven p x x := by
  refine ⟨h, fun r' _ => by rw [sub_self, abs_zero]; exact abs_nonneg _, fun r' _ ht => .inl ?_⟩
  rw [sub_self, abs_zero, abs_eq_zero] at ht
  omega

theorem NearestEven.lt_pow {x r n} (h : NearestEven p x r) (hx : x < 2 ^ (p + n + 1) - 2 ^ n) :
    r < 2 ^ (p + n + 1) := by
  have hheld : HasSignificand p ((2 ^ p - 1) * 2 ^ (n + 1)) := by
    refine ⟨2 ^ p - 1, n + 1, rfl, ?_⟩
    have : (1 : Int) ≤ 2 ^ p := one_le_pow₀ (by norm_num)
    rw [abs_of_nonneg (by omega)]
    omega
  have hlargest : ((2 : Int) ^ p - 1) * 2 ^ (n + 1) = 2 ^ (p + n + 1) - 2 * 2 ^ n := by ring
  have hnear := h.nearest _ hheld
  rw [hlargest] at hnear
  have hn : (0 : Int) < 2 ^ n := by positivity
  generalize (2 : Int) ^ (p + n + 1) = top at *
  generalize (2 : Int) ^ n = half at *
  by_contra hr
  rw [abs_of_nonpos (show x - r ≤ 0 by omega)] at hnear
  rcases le_total x (top - 2 * half) with hle | hle
  · rw [abs_of_nonpos (by omega)] at hnear
    omega
  · rw [abs_of_nonneg (by omega)] at hnear
    omega

/-! ## Between two neighbours -/

section Cut
variable {q rem : Int} {e : Nat}

theorem HasSignificand.gap {r} (h : HasSignificand p r) (hp : 1 ≤ p) (hq : 2 ^ (p - 1) ≤ q) :
    r ≤ q * 2 ^ e ∨ (q + 1) * 2 ^ e ≤ r := by
  obtain ⟨s, f, rfl, hs⟩ := h
  have he : (0 : Int) < 2 ^ e := by positivity
  have hf : (0 : Int) < 2 ^ f := by positivity
  rcases Nat.lt_or_ge f e with hlt | hge
  · left
    have h1 : s * 2 ^ f ≤ 2 ^ p * 2 ^ f :=
      mul_le_mul_of_nonneg_right (le_trans (le_abs_self s) hs.le) hf.le
    have h2 : (2 : Int) ^ p * 2 ^ f ≤ 2 ^ (p - 1) * 2 ^ e := by
      rw [← pow_add, ← pow_add]
      exact pow_le_pow_right₀ (by norm_num) (by omega)
    have h3 : 2 ^ (p - 1) * 2 ^ e ≤ q * 2 ^ e := mul_le_mul_of_nonneg_right hq he.le
    omega
  · obtain ⟨d, rfl⟩ := Nat.exists_eq_add_of_le hge
    have hs' : s * 2 ^ (e + d) = s * 2 ^ d * 2 ^ e := by ring
    rw [hs']
    rcases le_or_gt (s * 2 ^ d) q with h | h
    · exact .inl (mul_le_mul_of_nonneg_right h he.le)
    · exact .inr (mul_le_mul_of_nonneg_right (by omega) he.le)

theorem hasSignificand_cut (hq : 2 ^ (p - 1) ≤ q) (hq' : q < 2 ^ p) :
    HasSignificand p (q * 2 ^ e) := by
  have h0 : (0 : Int) ≤ q := le_trans (by positivity) hq
  exact ⟨q, e, rfl, by rwa [abs_of_nonneg h0]⟩

theorem hasSignificand_succ (hp : 1 ≤ p) (hq : 2 ^ (p - 1) ≤ q) (hq' : q < 2 ^ p) :
    HasSignificand p ((q + 1) * 2 ^ e) := by
  have h0 : (0 : Int) ≤ q := le_trans (by positivity) hq
  rcases eq_or_lt_of_le (show q + 1 ≤ 2 ^ p by omega) with h | h
  · refine ⟨2 ^ (p - 1), e + 1, ?_, ?_⟩
    · rw [h, ← pow_add, ← pow_add]
      congr 1
      omega
    · rw [abs_of_nonneg (by positivity)]
      exact pow_lt_pow_right₀ (by norm_num) (by omega)
  · exact ⟨q + 1, e, rfl, by rwa [abs_of_nonneg (by omega)]⟩

theorem evenSignificand_succ (hp : 2 ≤ p) (hq : 2 ^ (p - 1) ≤ q) (hq' : q < 2 ^ p)
    (hodd : Odd q) : EvenSignificand p ((q + 1) * 2 ^ e) := by
  have h0 : (0 : Int) ≤ q := le_trans (by positivity) hq
  rcases eq_or_lt_of_le (show q + 1 ≤ 2 ^ p by omega) with h | h
  · refine ⟨2 ^ (p - 1), e + 1, ?_, ?_, ?_, ?_⟩
    · rw [h, ← pow_add, ← pow_add]
      congr 1
      omega
    · rw [abs_of_nonneg (by positivity)]
    · rw [abs_of_nonneg (by positivity)]
      exact pow_lt_pow_right₀ (by norm_num) (by omega)
    · exact Even.pow_of_ne_zero even_two (by omega)
  · exact ⟨q + 1, e, rfl, by rw [abs_of_nonneg (by omega)]; omega,
      by rwa [abs_of_nonneg (by omega)], hodd.add_one⟩

theorem EvenSignificand.even (hq : 2 ^ (p - 1) ≤ q) (hq' : q < 2 ^ p)
    (h : EvenSignificand p (q * 2 ^ e)) : Even q := by
  obtain ⟨s, f, he, hs1, hs2, hs3⟩ := h
  have hq0 : (0 : Int) < q := lt_of_lt_of_le (by positivity) hq
  have hs0 : 0 < s := by
    have hpos : 0 < s * 2 ^ f := he ▸ mul_pos hq0 (by positivity)
    exact pos_of_mul_pos_left hpos (by positivity)
  rw [abs_of_pos hs0] at hs1 hs2
  have hp : p ≠ 0 := by
    rintro rfl
    norm_num at hq hq'
    omega
  -- a larger exponent would need a significand of more than `p` bits
  have key : ∀ {a b : Int} {i j : Nat}, 2 ^ (p - 1) ≤ a → b < 2 ^ p → a * 2 ^ i = b * 2 ^ j →
      i ≤ j := by
    intro a b i j ha hb hab
    by_contra hlt
    obtain ⟨d, rfl⟩ := Nat.exists_eq_add_of_lt (Nat.lt_of_not_le hlt)
    have h1 : a * 2 ^ (d + 1) = b := by
      have h2 : a * 2 ^ (d + 1) * 2 ^ j = b * 2 ^ j := by rw [← hab]; ring
      exact mul_right_cancel₀ (by positivity) h2
    have h3 : (2 : Int) ^ p ≤ a * 2 ^ (d + 1) := by
      calc (2 : Int) ^ p ≤ 2 ^ (p - 1 + (d + 1)) := pow_le_pow_right₀ (by norm_num) (by omega)
        _ = 2 ^ (p - 1) * 2 ^ (d + 1) := pow_add 2 _ _
        _ ≤ a * 2 ^ (d + 1) := mul_le_mul_of_nonneg_right ha (by positivity)
    omega
  have hfe : f = e := le_antisymm (key hs1 hq' he.symm) (key hq hs2 he)
  subst hfe
  have hsq : q = s := mul_right_cancel₀ (by positivity) he
  rwa [hsq]

theorem nearestEven_down (hp : 1 ≤ p) (hq : 2 ^ (p - 1) ≤ q) (hq' : q < 2 ^ p) (h0 : 0 ≤ rem)
    (hr : 2 * rem ≤ 2 ^ e) (ht : 2 * rem = 2 ^ e → Even q) :
    NearestEven p (q * 2 ^ e + rem) (q * 2 ^ e) := by
  have hx : |q * 2 ^ e + rem - q * 2 ^ e| = rem := by rw [add_sub_cancel_left, abs_of_nonneg h0]
  have hstep : (q + 1) * 2 ^ e = q * 2 ^ e + 2 ^ e := by ring
  refine ⟨hasSignificand_cut hq hq', fun r' hr' => ?_, fun r' hr' he => ?_⟩
  · rw [hx]
    rcases hr'.gap (e := e) hp hq with h | h
    · rw [abs_of_nonneg (by omega)]
      omega
    · rw [abs_of_nonpos (by omega)]
      omega
  · rw [hx] at he
    rcases hr'.gap (e := e) hp hq with h | h
    · rw [abs_of_nonneg (by omega)] at he
      exact .inl (by omega)
    · rw [abs_of_nonpos (by omega)] at he
      have hq0 : (0 : Int) ≤ q := le_trans (by positivity) hq
      exact .inr ⟨q, e, rfl, by rwa [abs_of_nonneg hq0], by rwa [abs_of_nonneg hq0],
        ht (by omega)⟩

theorem nearestEven_up (hp : 2 ≤ p) (hq : 2 ^ (p - 1) ≤ q) (hq' : q < 2 ^ p) (h0 : rem ≤ 2 ^ e)
    (hr : 2 ^ e ≤ 2 * rem) (ht : 2 * rem = 2 ^ e → Odd q) :
    NearestEven p (q * 2 ^ e + rem) ((q + 1) * 2 ^ e) := by
  have hstep : (q + 1) * 2 ^ e = q * 2 ^ e + 2 ^ e := by ring
  have hx : |q * 2 ^ e + rem - (q + 1) * 2 ^ e| = 2 ^ e - rem := by
    rw [hstep, abs_of_nonpos (by omega)]
    ring
  refine ⟨hasSignificand_succ (by omega) hq hq', fun r' hr' => ?_, fun r' hr' he => ?_⟩
  · rw [hx]
    rcases hr'.gap (e := e) (by omega) hq with h | h
    · rw [abs_of_nonneg (by omega)]
      omega
    · rw [abs_of_nonpos (by omega)]
      omega
  · rw [hx] at he
    rcases hr'.gap (e := e) (by omega) hq with h | h
    · rw [abs_of_nonneg (by omega)] at he
      exact .inr (evenSignificand_succ hp hq hq' (ht (by omega)))
    · rw [abs_of_nonpos (by omega)] at he
      exact .inl (by omega)

theorem nearestEven_cut_iff (hp : 1 ≤ p) (hq : 2 ^ (p - 1) ≤ q) (hq' : q < 2 ^ p) (h0 : 0 ≤ rem)
    (h1 : rem < 2 ^ e) : NearestEven p (q * 2 ^ e + rem) (q * 2 ^ e) ↔
      2 * rem ≤ 2 ^ e ∧ (2 * rem = 2 ^ e → Even q) := by
  refine ⟨fun h => ?_, fun h => nearestEven_down hp hq hq' h0 h.1 h.2⟩
  have hstep : (q + 1) * 2 ^ e = q * 2 ^ e + 2 ^ e := by ring
  have hup := hasSignificand_succ (e := e) hp hq hq'
  have hx : |q * 2 ^ e + rem - q * 2 ^ e| = rem := by rw [add_sub_cancel_left, abs_of_nonneg h0]
  have hy : |q * 2 ^ e + rem - (q + 1) * 2 ^ e| = 2 ^ e - rem := by
    rw [hstep, abs_of_nonpos (by omega)]
    ring
  have hnear := h.nearest _ hup
  rw [hx, hy] at hnear
  refine ⟨by omega, fun ht => ?_⟩
  rcases h.ties _ hup (by rw [hx, hy]; omega) with he | he
  · omega
  · exact he.even hq hq'

end Cut

end MitScheme.Lib.Rounding
