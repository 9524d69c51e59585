import MitScheme.Lib.BitCount

/-! # Rotated runs of ones

Bit patterns that repeat with a period, and the ones whose period is a run of ones turned by some
places. A number is such a period exactly when its ones or its zeros are contiguous. -/

namespace MitScheme.Lib.RotatedRun
open Lib.BitCount

variable {b : Nat → Bool} {n p r c x : Nat}

/-! ## Periods -/

/-- The bits below `n` repeat with period `p`. -/
def Periodic (b : Nat → Bool) (n p : Nat) : Prop := ∀ i, i + p < n → b (i + p) = b i

theorem periodic_iff (hp : 0 < p) : Periodic b n p ↔ ∀ i < n, b i = b (i % p) := by
  constructor
  · intro h i hi
    induction i using Nat.strong_induction_on with
    | _ i ih =>
      rcases Nat.lt_or_ge i p with hlt | hge
      · rw [Nat.mod_eq_of_lt hlt]
      · have hstep := h (i - p) (by omega)
        rw [Nat.sub_add_cancel hge] at hstep
        rw [hstep, ih (i - p) (by omega) (by omega), Nat.mod_eq_sub_mod hge]
  · intro h i hi
    rw [h (i + p) hi, Nat.add_mod_right, ← h i (by omega)]

theorem Periodic.of_dvd (h : Periodic b n p) {q} (hp : 0 < p) (hq : 0 < q) (hdvd : p ∣ q) :
    Periodic b n q := by
  rw [periodic_iff hq]
  intro i hi
  have hmod := (periodic_iff hp).mp h
  rw [hmod i hi, hmod (i % q) (Nat.lt_of_le_of_lt (Nat.mod_le i q) hi), Nat.mod_mod_of_dvd i hdvd]

theorem Periodic.congr {b' : Nat → Bool} (h : Periodic b n p) (heq : ∀ i < n, b i = b' i) :
    Periodic b' n p := fun i hi => by
  rw [← heq _ hi, ← heq i (Nat.lt_of_le_of_lt (Nat.le_add_right i p) hi), h i hi]

theorem periodic_half_iff (h : Periodic b n (2 * p)) (hp : 0 < p) (hle : 2 * p ≤ n) :
    Periodic b n p ↔ ∀ i < p, b i = b (p + i) := by
  constructor
  · intro hhalf i hi
    rw [Nat.add_comm, hhalf i (by omega)]
  · intro hhalf
    have hmod := (periodic_iff (by omega)).mp h
    rw [periodic_iff hp]
    intro i hi
    have hlt := Nat.mod_lt i (show 0 < 2 * p by omega)
    rw [hmod i hi, ← Nat.mod_mod_of_dvd i (Nat.dvd_mul_left p 2)]
    rcases Nat.lt_or_ge (i % (2 * p)) p with hlow | hhigh
    · rw [Nat.mod_eq_of_lt hlow]
    · rw [Nat.mod_eq_sub_mod hhigh, Nat.mod_eq_of_lt (show i % (2 * p) - p < p by omega),
        hhalf (i % (2 * p) - p) (by omega), Nat.add_sub_cancel' hhigh]

/-! ## Runs -/

/-- The bits of a run of `c` ones that is turned to the right by `r` places. -/
def run (p r c i : Nat) : Bool := (i + r) % p < c

theorem run_mod (p r c i : Nat) : run p (r % p) c i = run p r c i := by
  rw [run, run, Nat.add_mod_mod]

theorem run_periodic (p r c n : Nat) : Periodic (run p r c) n p := fun i _ => by
  rw [run, run, Nat.add_right_comm, Nat.add_mod_right]

theorem exists_turned (r : Nat) {j} (hj : j < p) : ∃ i < p, (i + r) % p = j := by
  refine ⟨(j + (p - r % p)) % p, Nat.mod_lt _ (by omega), ?_⟩
  have hr := Nat.mod_lt r (show 0 < p by omega)
  rw [Nat.mod_add_mod, ← Nat.add_mod_mod, Nat.add_assoc, Nat.sub_add_cancel hr.le,
    Nat.add_mod_right, Nat.mod_eq_of_lt hj]

theorem run_not_periodic_half (hc : 0 < c) (hcp : c < 2 * p) (hn : 2 * p ≤ n) :
    ¬Periodic (run (2 * p) r c) n p := by
  intro h
  have hall (i : Nat) (hi : i < 2 * p) :
      run (2 * p) r c i = decide (((i + r) % (2 * p) + p) % (2 * p) < c) := by
    rw [Nat.mod_add_mod, Nat.add_right_comm]
    show _ = run (2 * p) r c (i + p)
    rcases Nat.lt_or_ge i p with hlow | hhigh
    · exact (h i (by omega)).symm
    · have hprev := h (i - p) (by omega)
      have hturn := run_periodic (2 * p) r c (i + p + 1) (i - p) (by omega)
      rw [Nat.sub_add_cancel hhigh] at hprev
      rw [show i - p + 2 * p = i + p by omega] at hturn
      rw [hprev, hturn]
  rcases Nat.lt_or_ge p c with hlong | hshort
  · obtain ⟨i, hi, hturned⟩ := exists_turned r (show p - 1 < 2 * p by omega)
    have hbit := hall i hi
    rw [run, hturned, Nat.mod_eq_of_lt (by omega), decide_eq_decide] at hbit
    omega
  · obtain ⟨i, hi, hturned⟩ := exists_turned r (show 0 < 2 * p by omega)
    have hbit := hall i hi
    rw [run, hturned, Nat.mod_eq_of_lt (by omega), decide_eq_decide] at hbit
    omega

/-! ## Contiguous ones -/

theorem land_succ_eq_zero_iff (q : Nat) : q &&& (q + 1) = 0 ↔ ∃ s, q + 1 = 2 ^ s := by
  constructor
  · intro h
    obtain ⟨k, m, hm⟩ := exists_odd_part (show q + 1 ≠ 0 by omega)
    have hpos : 0 < 2 ^ k := Nat.two_pow_pos k
    have hq : q = (2 ^ k - 1) + 2 ^ k * (2 * m) := by
      rw [Nat.mul_add, Nat.mul_one] at hm
      omega
    have hq' : q + 1 = 0 + 2 ^ k * (2 * m + 1) := by rw [hm, Nat.zero_add]
    have hzero : 2 ^ k * (2 * m) = 0 := by
      rw [hq', hq, land_append (by omega) hpos, Nat.and_zero, Nat.zero_add] at h
      have hodd : 2 * m &&& (2 * m + 1) = 2 * m := by
        refine Nat.eq_of_testBit_eq fun i => ?_
        rw [Nat.testBit_and]
        cases i with
        | zero => simp
        | succ i => simp [Nat.testBit_succ, Nat.mul_add_div]
      rwa [hodd] at h
    refine ⟨k, ?_⟩
    rw [hm, Nat.mul_add, hzero, Nat.zero_add, Nat.mul_one]
  · rintro ⟨s, hs⟩
    obtain rfl : q = 2 ^ s - 1 := by omega
    rw [hs]
    have hland := land_append (show 2 ^ s - 1 < 2 ^ s by omega) (Nat.two_pow_pos s) 0 1
    simpa using hland

theorem not_lt_of_odd_part {i j a b} (h : 2 ^ i * (2 * a + 1) = 2 ^ j * (2 * b + 1)) : ¬i < j := by
  intro hij
  obtain ⟨d, rfl⟩ := Nat.exists_eq_add_of_lt hij
  have hpow : 2 ^ (i + d + 1) * (2 * b + 1) = 2 ^ i * (2 * (2 ^ d * (2 * b + 1))) := by
    rw [Nat.add_assoc, pow_add, pow_succ]
    ring
  rw [hpow] at h
  have := Nat.eq_of_mul_eq_mul_left (Nat.two_pow_pos i) h
  omega

def Contiguous (x : Nat) : Prop := ∃ k s, x = 2 ^ k * (2 ^ (s + 1) - 1)

theorem contiguous_iff (hx : x ≠ 0) :
    ((x - 1) ||| x) &&& (((x - 1) ||| x) + 1) = 0 ↔ Contiguous x := by
  obtain ⟨k, q, rfl⟩ := exists_odd_part hx
  have hpos : 0 < 2 ^ k := Nat.two_pow_pos k
  have hfill : (2 ^ k * (2 * q + 1) - 1) ||| 2 ^ k * (2 * q + 1) =
      (2 ^ (k + 1) - 1) + 2 ^ (k + 1) * q := by
    refine Nat.eq_of_testBit_eq fun i => ?_
    have hpred : 2 ^ k * (2 * q + 1) - 1 = 2 ^ k * (2 * q) + (2 ^ k - 1) := by
      rw [Nat.mul_add, Nat.mul_one]
      omega
    have hpow : 0 < 2 ^ (k + 1) := Nat.two_pow_pos _
    rw [Nat.testBit_or, hpred, Nat.testBit_two_pow_mul_add _ (by omega), Nat.testBit_two_pow_mul,
      Nat.add_comm (2 ^ (k + 1) - 1), Nat.testBit_two_pow_mul_add _ (by omega)]
    simp only [Nat.testBit_two_pow_sub_one]
    rcases Nat.lt_trichotomy i k with hlt | heq | hgt
    · rw [if_pos hlt, if_pos (by omega), decide_eq_true hlt,
        decide_eq_true (show i < k + 1 by omega), Bool.true_or]
    · subst heq
      rw [if_neg (by omega), if_pos (by omega), Nat.sub_self, decide_eq_true (Nat.lt_succ_self i)]
      simp
    · obtain ⟨j, rfl⟩ := Nat.exists_eq_add_of_le hgt
      rw [if_neg (by omega), if_neg (by omega), decide_eq_true (show k.succ + j ≥ k by omega),
        show k.succ + j - k = j + 1 by omega, show k.succ + j - (k + 1) = j by omega]
      simp [Nat.testBit_succ, Nat.mul_add_div]
  have hsucc : (2 ^ (k + 1) - 1) + 2 ^ (k + 1) * q + 1 = 0 + 2 ^ (k + 1) * (q + 1) := by
    have := Nat.two_pow_pos (k + 1)
    rw [Nat.mul_add]
    omega
  rw [hfill, hsucc, land_append (by have := Nat.two_pow_pos (k + 1); omega) (Nat.two_pow_pos _),
    Nat.and_zero, Nat.zero_add, Nat.mul_eq_zero, or_iff_right (Nat.two_pow_pos _).ne',
    land_succ_eq_zero_iff]
  constructor
  · rintro ⟨s, hs⟩
    refine ⟨k, s, ?_⟩
    rw [pow_succ, ← hs]
    congr 1
    omega
  · rintro ⟨k', s, heq⟩
    have hodd : 2 ^ (s + 1) - 1 = 2 * (2 ^ s - 1) + 1 := by
      have := Nat.two_pow_pos s
      rw [pow_succ]
      omega
    rw [hodd] at heq
    obtain rfl : k = k' := Nat.le_antisymm (Nat.not_lt.mp (not_lt_of_odd_part heq.symm))
      (Nat.not_lt.mp (not_lt_of_odd_part heq))
    have := Nat.eq_of_mul_eq_mul_left hpos heq
    refine ⟨s, ?_⟩
    have := Nat.two_pow_pos s
    omega

theorem testBit_contiguous (k s i : Nat) :
    (2 ^ k * (2 ^ s - 1)).testBit i = decide (k ≤ i ∧ i < k + s) := by
  rw [Nat.testBit_two_pow_mul, Nat.testBit_two_pow_sub_one, Bool.decide_and]
  by_cases hk : k ≤ i
  · rw [decide_eq_true hk]
    congr 1
    rw [decide_eq_decide]
    omega
  · rw [decide_eq_false hk, Bool.false_and, Bool.false_and]

/-! ## One period -/

theorem run_of_contiguous {k s i} (hks : k + s ≤ p) (hi : i < p) :
    run p (p - k) s i = decide (k ≤ i ∧ i < k + s) := by
  rw [run, decide_eq_decide]
  rcases Nat.lt_or_ge i k with hlt | hge
  · rw [Nat.mod_eq_of_lt (by omega)]
    omega
  · rw [show i + (p - k) = i - k + p by omega, Nat.add_mod_right, Nat.mod_eq_of_lt (by omega)]
    omega

theorem run_of_complement {k s i} (hks : k + s ≤ p) (hi : i < p) :
    run p (p - (k + s)) (p - s) i = !decide (k ≤ i ∧ i < k + s) := by
  rw [run, ← decide_not, decide_eq_decide]
  rcases Nat.lt_or_ge i (k + s) with hlt | hge
  · rw [Nat.mod_eq_of_lt (by omega)]
    omega
  · rw [show i + (p - (k + s)) = i - (k + s) + p by omega, Nat.add_mod_right,
      Nat.mod_eq_of_lt (by omega)]
    omega

theorem contiguous_or_of_run (hx : x < 2 ^ p) (hc : 0 < c) (hcp : c < p)
    (h : ∀ i < p, x.testBit i = run p r c i) : Contiguous x ∨ Contiguous (2 ^ p - 1 - x) := by
  have hhigh {y i : Nat} (hy : y < 2 ^ p) (hi : p ≤ i) : y.testBit i = false :=
    Nat.testBit_lt_two_pow (Nat.lt_of_lt_of_le hy (Nat.pow_le_pow_right (by omega) hi))
  have hr := Nat.mod_lt r (show 0 < p by omega)
  have hturned (i : Nat) : run p r c i = run p (p - (p - r % p)) c i := by
    rw [← run_mod, Nat.sub_sub_self hr.le]
  rcases Nat.lt_or_ge p (p - r % p + c) with hwrap | hfits
  · right
    refine ⟨c - r % p, p - c - 1, Nat.eq_of_testBit_eq fun i => ?_⟩
    rw [show 2 ^ p - 1 - x = 2 ^ p - (x + 1) by omega, Nat.testBit_two_pow_sub_succ hx,
      testBit_contiguous, show p - c - 1 + 1 = p - c by omega]
    by_cases hi : i < p
    · have hrun := run_of_complement (show c - r % p + (p - c) ≤ p by omega) hi
      rw [show p - (c - r % p + (p - c)) = p - (p - r % p) by omega,
        show p - (p - c) = c by omega, ← hturned, ← h i hi] at hrun
      rw [hrun, decide_eq_true hi, Bool.true_and, Bool.not_not]
    · rw [decide_eq_false hi, Bool.false_and, eq_comm, decide_eq_false_iff_not]
      omega
  · left
    rcases Nat.eq_zero_or_pos (r % p) with hzero | hpos
    · omega
    · refine ⟨p - r % p, c - 1, Nat.eq_of_testBit_eq fun i => ?_⟩
      rw [testBit_contiguous, Nat.sub_add_cancel hc]
      by_cases hi : i < p
      · rw [h i hi, hturned, run_of_contiguous hfits hi]
      · rw [hhigh hx (Nat.not_lt.mp hi), eq_comm, decide_eq_false_iff_not]
        omega

end MitScheme.Lib.RotatedRun
