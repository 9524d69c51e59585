import Mathlib.Algebra.BigOperators.Intervals
import Mathlib.Data.Int.Bitwise
import Mathlib.Tactic.Positivity
import Mathlib.Tactic.Ring

/-! # Counting bits

The set bits of a natural number, as a finite set and as a count, and how the count goes over the
parts of a number that is cut at a bit. -/

namespace MitScheme.Lib.BitCount

def setBits (n : Nat) : Finset Nat := (Finset.range n.size).filter fun i => n.testBit i

def bitCount (n : Nat) : Nat := (setBits n).card

theorem mem_setBits {n i} : i ∈ setBits n ↔ n.testBit i = true := by
  rw [setBits, Finset.mem_filter, Finset.mem_range, and_iff_right_iff_imp, Nat.lt_size]
  exact Nat.ge_two_pow_of_testBit

theorem bitCount_eq_sum {n k} (h : n < 2 ^ k) :
    bitCount n = ∑ i ∈ Finset.range k, (n.testBit i).toNat := by
  have hset : setBits n = (Finset.range k).filter fun i => n.testBit i = true := by
    ext i
    rw [mem_setBits, Finset.mem_filter, Finset.mem_range, iff_and_self]
    intro hi
    exact (Nat.pow_lt_pow_iff_right (by omega)).mp (lt_of_le_of_lt (Nat.ge_two_pow_of_testBit hi) h)
  rw [bitCount, hset, Finset.card_filter]
  refine Finset.sum_congr rfl fun i _ => ?_
  cases n.testBit i <;> rfl

@[simp] theorem bitCount_zero : bitCount 0 = 0 := by simp [bitCount, setBits]

theorem bitCount_le {n k} (h : n < 2 ^ k) : bitCount n ≤ k := by
  rw [bitCount_eq_sum h]
  calc ∑ i ∈ Finset.range k, (n.testBit i).toNat ≤ ∑ _i ∈ Finset.range k, 1 :=
        Finset.sum_le_sum fun i _ => Bool.toNat_le _
    _ = k := by simp

theorem bitCount_append {a k} (ha : a < 2 ^ k) (b : Nat) :
    bitCount (a + 2 ^ k * b) = bitCount a + bitCount b := by
  have hb : b < 2 ^ b.size := Nat.lt_size_self b
  have hlt : a + 2 ^ k * b < 2 ^ (k + b.size) := by
    have := Nat.mul_le_mul_left (2 ^ k) (Nat.succ_le_of_lt hb)
    rw [pow_add]
    rw [Nat.mul_succ] at this
    omega
  rw [bitCount_eq_sum hlt, bitCount_eq_sum ha, bitCount_eq_sum hb, Finset.sum_range_add]
  congr 1
  · refine Finset.sum_congr rfl fun i hi => ?_
    rw [add_comm a, Nat.testBit_two_pow_mul_add b ha, if_pos (Finset.mem_range.mp hi)]
  · refine Finset.sum_congr rfl fun i _ => ?_
    rw [add_comm a, Nat.testBit_two_pow_mul_add b ha, if_neg (by omega), Nat.add_sub_cancel_left]

theorem bitCount_two_pow_sub_one (k : Nat) : bitCount (2 ^ k - 1) = k := by
  have hlt : 2 ^ k - 1 < 2 ^ k := Nat.sub_lt (Nat.two_pow_pos k) one_pos
  rw [bitCount_eq_sum hlt]
  calc ∑ i ∈ Finset.range k, ((2 ^ k - 1).testBit i).toNat = ∑ _i ∈ Finset.range k, 1 := by
        refine Finset.sum_congr rfl fun i hi => ?_
        rw [Nat.testBit_two_pow_sub_one, decide_eq_true (Finset.mem_range.mp hi)]
        rfl
    _ = k := by simp

theorem xor_append {a c k} (ha : a < 2 ^ k) (hc : c < 2 ^ k) (b d : Nat) :
    (a + 2 ^ k * b) ^^^ (c + 2 ^ k * d) = (a ^^^ c) + 2 ^ k * (b ^^^ d) := by
  refine Nat.eq_of_testBit_eq fun i => ?_
  rw [Nat.testBit_xor, add_comm a, add_comm c, add_comm (a ^^^ c),
    Nat.testBit_two_pow_mul_add b ha, Nat.testBit_two_pow_mul_add d hc,
    Nat.testBit_two_pow_mul_add _ (Nat.xor_lt_two_pow ha hc)]
  split <;> rw [Nat.testBit_xor]

theorem land_append {a c k} (ha : a < 2 ^ k) (hc : c < 2 ^ k) (b d : Nat) :
    (a + 2 ^ k * b) &&& (c + 2 ^ k * d) = (a &&& c) + 2 ^ k * (b &&& d) := by
  refine Nat.eq_of_testBit_eq fun i => ?_
  rw [Nat.testBit_and, add_comm a, add_comm c, add_comm (a &&& c),
    Nat.testBit_two_pow_mul_add b ha, Nat.testBit_two_pow_mul_add d hc,
    Nat.testBit_two_pow_mul_add _ (Nat.and_lt_two_pow a hc)]
  split <;> rw [Nat.testBit_and]

theorem xor_pred {k q} : (2 ^ k * (2 * q + 1)) ^^^ (2 ^ k * (2 * q + 1) - 1) = 2 ^ (k + 1) - 1 := by
  have hk : 0 < 2 ^ k := by positivity
  have hpred : 2 ^ k * (2 * q + 1) - 1 = (2 ^ k - 1) + 2 ^ k * (2 * q) := by
    rw [Nat.mul_add, mul_one]
    omega
  have hodd : (2 * q + 1) ^^^ (2 * q) = 1 := by
    have := xor_append (k := 1) (a := 1) (c := 0) (by norm_num) (by norm_num) q q
    rw [Nat.xor_self] at this
    simpa [add_comm] using this
  have := xor_append (k := k) (a := 0) (c := 2 ^ k - 1) hk (by omega) (2 * q + 1) (2 * q)
  rw [zero_add] at this
  rw [hpred, this, hodd, Nat.zero_xor, pow_succ]
  omega

/-! ## The last set bit -/

theorem exists_odd_part {n} (h : n ≠ 0) : ∃ k q, n = 2 ^ k * (2 * q + 1) := by
  induction n using Nat.strong_induction_on with
  | _ n ih =>
  rcases Nat.even_or_odd' n with ⟨c, rfl | rfl⟩
  · obtain ⟨k, q, hc⟩ := ih c (by omega) (by omega)
    refine ⟨k + 1, q, ?_⟩
    conv_lhs => rw [hc]
    rw [pow_succ]
    ring
  · exact ⟨0, c, by simp⟩

theorem size_append {a k b} (ha : a < 2 ^ k) (hb : b ≠ 0) : (a + 2 ^ k * b).size = k + b.size := by
  have hiff : ∀ n, n < (a + 2 ^ k * b).size ↔ n < k + b.size := by
    intro n
    rw [Nat.lt_size]
    rcases Nat.lt_or_ge n k with hn | hn
    · have h1 : 2 ^ n ≤ 2 ^ k * 1 := by
        rw [mul_one]
        exact Nat.pow_le_pow_right (by omega) hn.le
      have h2 := Nat.mul_le_mul_left (2 ^ k) (Nat.one_le_iff_ne_zero.mpr hb)
      exact iff_of_true (by omega) (by omega)
    · obtain ⟨j, rfl⟩ := Nat.exists_eq_add_of_le hn
      rw [Nat.add_lt_add_iff_left, Nat.lt_size, pow_add]
      constructor
      · intro h
        by_contra hc
        have := Nat.mul_le_mul_left (2 ^ k) (Nat.succ_le_of_lt (not_le.mp hc))
        rw [Nat.mul_succ] at this
        omega
      · intro h
        have := Nat.mul_le_mul_left (2 ^ k) h
        omega
  have h1 := hiff ((a + 2 ^ k * b).size)
  have h2 := hiff (k + b.size)
  omega

theorem size_two_pow_sub_one (k : Nat) : (2 ^ k - 1).size = k := by
  rcases Nat.eq_zero_or_pos k with rfl | hk
  · rfl
  · have hpos := Nat.two_pow_pos (k - 1)
    have hsplit : 2 ^ k - 1 = (2 ^ (k - 1) - 1) + 2 ^ (k - 1) * 1 := by
      have : 2 ^ k = 2 * 2 ^ (k - 1) := by rw [← pow_succ', Nat.sub_add_cancel hk]
      omega
    rw [hsplit, size_append (by omega) one_ne_zero, Nat.size_one]
    omega

theorem size_pred {n} (h : n ≠ 0) : (n - 1).size = n.size - if n &&& (n - 1) = 0 then 1 else 0 := by
  obtain ⟨k, q, rfl⟩ := exists_odd_part h
  have hk := Nat.two_pow_pos k
  have hpred : 2 ^ k * (2 * q + 1) - 1 = (2 ^ k - 1) + 2 ^ k * (2 * q) := by
    rw [Nat.mul_add, mul_one]
    omega
  have hand : 2 ^ k * (2 * q + 1) &&& ((2 ^ k - 1) + 2 ^ k * (2 * q)) = 2 ^ k * (2 * q) := by
    have h1 := land_append (k := k) (a := 0) (c := 2 ^ k - 1) hk (by omega) (2 * q + 1) (2 * q)
    have h2 := land_append (k := 1) (a := 1) (c := 0) (by norm_num) (by norm_num) q q
    rw [Nat.and_zero, Nat.and_self, zero_add, pow_one, add_comm 1] at h2
    rw [zero_add, Nat.zero_and, zero_add] at h1
    rw [h1, h2]
  have hsize : (2 ^ k * (2 * q + 1)).size = k + (2 * q + 1).size := by
    have := size_append (k := k) (a := 0) hk (b := 2 * q + 1) (by omega)
    rwa [zero_add] at this
  rw [hpred, hand, hsize]
  rcases Nat.eq_zero_or_pos q with rfl | hq
  · rw [mul_zero, mul_zero, add_zero, zero_add, if_pos rfl, size_two_pow_sub_one, Nat.size_one]
    omega
  · have h2 := size_append (k := 1) (a := 0) (by norm_num) (b := q) (by omega)
    have h3 := size_append (k := 1) (a := 1) (by norm_num) (b := q) (by omega)
    rw [zero_add, pow_one] at h2
    rw [pow_one, add_comm 1] at h3
    rw [size_append (by omega) (by omega), h2, h3, if_neg (by positivity), Nat.sub_zero]

theorem testBit_size_sub_one {n : Nat} (h : 0 < n.size) : n.testBit (n.size - 1) = true := by
  by_contra hc
  have hlt : n < 2 ^ (n.size - 1) := Nat.lt_pow_two_of_testBit n fun i hi => by
    rcases Nat.eq_or_lt_of_le hi with rfl | hlt
    · exact Bool.not_eq_true _ ▸ hc
    · exact Nat.testBit_lt_two_pow (Nat.size_le.mp (by omega))
  have := Nat.size_le.mpr hlt
  omega

/-! ## Integers -/

/-- The number whose set bits are the bits of `v` that differ from the sign. -/
def offSign : Int → Nat
  | .ofNat n => n
  | .negSucc n => n

theorem testBit_offSign (v : Int) (i : Nat) :
    (offSign v).testBit i = (v.testBit i ^^ decide (v < 0)) := by
  cases v with
  | ofNat n =>
    have h : ¬ Int.ofNat n < 0 := Int.not_lt.mpr (Int.natCast_nonneg n)
    rw [decide_eq_false h, Bool.xor_false]
    rfl
  | negSucc n =>
    rw [decide_eq_true (Int.negSucc_lt_zero n), Bool.xor_true]
    exact (Bool.not_not _).symm

theorem mem_setBits_offSign {v i} : i ∈ setBits (offSign v) ↔ v.testBit i ≠ decide (v < 0) := by
  rw [mem_setBits, testBit_offSign]
  simp

theorem mem_setBits_xor {v w} (h : v < 0 ↔ w < 0) {i} :
    i ∈ setBits (offSign v ^^^ offSign w) ↔ v.testBit i ≠ w.testBit i := by
  have hs : decide (v < 0) = decide (w < 0) := decide_eq_decide.mpr h
  rw [mem_setBits, Nat.testBit_xor, testBit_offSign, testBit_offSign, hs]
  cases v.testBit i <;> cases w.testBit i <;> simp

theorem offSign_lt {v k} : offSign v < 2 ^ k ↔ -2 ^ k ≤ v ∧ v < 2 ^ k := by
  have hk : (0 : Int) < 2 ^ k := by positivity
  cases v with
  | ofNat n =>
    rw [offSign, Int.ofNat_eq_natCast, ← Nat.cast_lt (α := Int)]
    push_cast
    omega
  | negSucc n =>
    rw [offSign, Int.negSucc_eq, ← Nat.cast_lt (α := Int)]
    push_cast
    omega

theorem isLeast_size_offSign (v : Int) :
    IsLeast {k : Nat | -2 ^ k ≤ v ∧ v < 2 ^ k} (offSign v).size :=
  ⟨offSign_lt.mp (Nat.lt_size_self _), fun _ hk => Nat.size_le.mpr (offSign_lt.mpr hk)⟩

theorem offSign_of_nonneg {v} (h : 0 ≤ v) : offSign v = v.natAbs := by
  obtain ⟨n, rfl⟩ := Int.eq_ofNat_of_zero_le h
  rfl

theorem offSign_of_neg {v} (h : v < 0) : offSign v = v.natAbs - 1 := by
  obtain ⟨n, rfl⟩ := Int.eq_negSucc_of_lt_zero h
  rfl

theorem isGreatest_two_pow_dvd_int {v k q} (h : v = 2 ^ k * (2 * q + 1)) :
    IsGreatest {j : Nat | (2 : Int) ^ j ∣ v} k := by
  refine ⟨⟨_, h⟩, fun j hj => ?_⟩
  by_contra hlt
  rw [not_le] at hlt
  have h1 : (2 : Int) ^ (k + 1) ∣ 2 ^ k * (2 * q + 1) :=
    h ▸ dvd_trans (pow_dvd_pow 2 (Nat.succ_le_of_lt hlt)) hj
  rw [pow_succ, mul_dvd_mul_iff_left (by positivity)] at h1
  omega

end MitScheme.Lib.BitCount
