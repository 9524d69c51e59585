import MitScheme.Runtime.IntegerBits

/-! # Bit counts and lists of bits

The rest of `integer-bits.scm`: the counts of trailing and leading zeros by way of the primitives,
the lists of bits and the reversal of a number of a given size. -/

namespace MitScheme.Runtime.IntegerBits
open Lib.TwosComplement Lib.BitCount Lib.Outcome

/-! ## The counts of the microcode -/

theorem firstSetBit_makes {n} (hn : n.Canonical) :
    Microcode.Makes (Microcode.integerFirstSetBit n) (firstSetBit n.toInt) := by
  by_cases h : n.toInt = 0
  · rw [firstSetBit, if_pos h]
    exact (Microcode.integerFirstSetBit_makes hn).1 h
  · obtain ⟨k, q, hk, hv⟩ := (Microcode.integerFirstSetBit_makes hn).2 h
    rwa [hv, firstSetBit_two_pow_mul]

/-! ## Trailing zeros and the length -/

/-- The number of clear bits below the lowest set bit, zero for zero. -/
def IsTrailingZeros (x t : Nat) : Prop :=
  if x = 0 then t = 0 else IsLeast {i | x.testBit i = true} t

theorem firstSetBit_eq {x t} (hx : x ≠ 0) (ht : IsTrailingZeros x t) : firstSetBit x = t := by
  rw [IsTrailingZeros, if_neg hx] at ht
  obtain ⟨k, q, hk⟩ := exists_odd_part hx
  have hleast : IsLeast {i | x.testBit i = true} k := by
    refine ⟨?_, fun i hi => ?_⟩
    · show x.testBit k = true
      rw [hk, Nat.testBit_two_pow_mul, decide_eq_true le_rfl, Nat.sub_self, Nat.testBit_zero]
      exact decide_eq_true (by omega)
    · by_contra hlt
      have : x.testBit i = true := hi
      rw [hk, Nat.testBit_two_pow_mul, decide_eq_false hlt, Bool.false_and] at this
      exact Bool.false_ne_true this
  have hcast : (x : Int) = 2 ^ k * (2 * (q : Int) + 1) := by exact_mod_cast hk
  rw [hcast, firstSetBit_two_pow_mul, ht.unique hleast]

theorem ctz_iff {x t} (ht : IsTrailingZeros x t) : ctz x = t ↔ x = 0 := by
  by_cases hx : x = 0
  · subst hx
    rw [IsTrailingZeros, if_pos rfl] at ht
    exact iff_of_true (by rw [ht]; decide) rfl
  · rw [ctz, ffs, firstSetBit_eq hx ht]
    exact iff_of_false (by omega) hx

theorem ffs_eq {x t} (ht : IsTrailingZeros x t) : ffs x = if x = 0 then 0 else (t : Int) + 1 := by
  by_cases hx : x = 0
  · subst hx
    rw [if_pos rfl]
    decide
  · rw [if_neg hx, ffs, firstSetBit_eq hx ht, add_comm]

theorem fls_eq (x : Nat) : fls x = x.size := rfl

/-! ## Leading zeros -/

/-- `z` has the bits of `x`, each of them also in the `w` places below it. -/
def Smeared (w : Nat) (x : Nat) (z : Int) : Prop :=
  ∀ j, z.testBit j = true ↔ ∃ d < w, x.testBit (j + d) = true

theorem Smeared.one (x) : Smeared 1 x x := fun j =>
  ⟨fun h => ⟨0, Nat.one_pos, h⟩, fun ⟨d, hd, h⟩ => by
    rwa [Nat.lt_one_iff.mp hd] at h⟩

theorem Smeared.double {i x z} (hi : i < 2 ^ 57) (h : Smeared i x z) :
    Smeared (i * 2) x (Int.lor z (shiftedRight z i)) := by
  intro j
  rw [Int.testBit_lor, testBit_shiftedRight, decide_eq_true hi, Bool.true_and, Bool.or_eq_true,
    h j, h (i + j)]
  constructor
  · rintro (⟨d, hd, hx⟩ | ⟨d, hd, hx⟩)
    · exact ⟨d, by omega, hx⟩
    · exact ⟨i + d, by omega, by rwa [← Nat.add_assoc, Nat.add_comm j]⟩
  · rintro ⟨d, hd, hx⟩
    rcases Nat.lt_or_ge d i with hlt | hge
    · exact .inl ⟨d, hlt, hx⟩
    · refine .inr ⟨d - i, by omega, ?_⟩
      rwa [show i + j + (d - i) = j + d by omega]

theorem lor_shiftedRight_of_le {i} (hi : ¬ i < 2 ^ 57) (z) : Int.lor z (shiftedRight z i) = z := by
  refine eq_of_testBit_eq fun j => ?_
  rw [Int.testBit_lor, testBit_shiftedRight, decide_eq_false hi, Bool.false_and, Bool.or_false]

theorem two_pow_lt_iff {k} : 2 ^ k < 2 ^ 57 ↔ k < 57 :=
  Nat.pow_lt_pow_iff_right (by norm_num)

theorem clzLoop_eq (n k x z) (hi : 0 < 2 ^ k) (h : Smeared (2 ^ min k 57) x z) :
    ∃ w y, Smeared w x y ∧ w ≤ 2 ^ 57 ∧ (n ≤ w ∨ w = 2 ^ 57) ∧
      clzLoop n (2 ^ k) z hi = n - integerBitCount y := by
  induction hm : n - 2 ^ k using Nat.strong_induction_on generalizing k z with
  | _ m ih =>
  rw [clzLoop]
  by_cases hlt : ((2 ^ k : Nat) : Int) < n
  · have hlt' : 2 ^ k < n := by exact_mod_cast hlt
    rw [if_pos hlt]
    have hstep : Smeared (2 ^ min (k + 1) 57) x (Int.lor z (shiftedRight z (2 ^ k))) := by
      by_cases hk : k < 57
      · rw [min_eq_left (by omega)] at h ⊢
        rw [pow_succ]
        exact h.double (two_pow_lt_iff.mpr hk)
      · rw [min_eq_right (by omega)] at h ⊢
        rwa [lor_shiftedRight_of_le (mt two_pow_lt_iff.mp hk)]
    have hdouble : 2 ^ (k + 1) = 2 ^ k * 2 := pow_succ 2 k
    have := ih (n - 2 ^ (k + 1)) (by omega) (k + 1) _ (by omega) hstep rfl
    simpa only [hdouble] using this
  · rw [if_neg hlt]
    have hle : n ≤ 2 ^ k := by exact_mod_cast not_lt.mp hlt
    refine ⟨2 ^ min k 57, z, h, Nat.pow_le_pow_right Nat.two_pos (min_le_right k 57), ?_, rfl⟩
    rcases Nat.lt_or_ge k 57 with hk | hk
    · rw [min_eq_left hk.le]
      exact .inl hle
    · exact .inr (by rw [min_eq_right hk])

theorem Smeared.bitCount_eq_iff {w x y} (h : Smeared w x y) :
    integerBitCount y = x.size ↔ ∀ j < x.size, ∃ d < w, x.testBit (j + d) = true := by
  have hclear : ∀ i, x.size ≤ i → y.testBit i = false := by
    intro i hi
    rw [← Bool.not_eq_true, h i]
    rintro ⟨d, -, hx⟩
    exact absurd (Nat.lt_size.mpr (Nat.ge_two_pow_of_testBit hx)) (by omega)
  have hnonneg : 0 ≤ y := by
    obtain ⟨l, hl⟩ := exists_testBit_sign y
    have := hl (max l x.size) (le_max_left _ _)
    rw [hclear _ (le_max_right _ _)] at this
    exact not_lt.mp (of_decide_eq_false this.symm)
  obtain ⟨y, rfl⟩ := Int.eq_ofNat_of_zero_le hnonneg
  have hsub : setBits y ⊆ Finset.range x.size := fun i hi => by
    rw [Finset.mem_range]
    by_contra hge
    have := hclear i (not_lt.mp hge)
    rw [testBit_natCast, mem_setBits.mp hi] at this
    exact Bool.false_ne_true this.symm
  show (setBits y).card = x.size ↔ _
  constructor
  · intro hcard j hj
    have heq := Finset.eq_of_subset_of_card_le hsub (by rw [hcard, Finset.card_range])
    have := Finset.mem_range.mpr hj
    rw [← heq, mem_setBits] at this
    exact (h j).mp this
  · intro hall
    have heq : setBits y = Finset.range x.size := hsub.antisymm fun j hj =>
      mem_setBits.mpr ((h j).mpr (hall j (Finset.mem_range.mp hj)))
    rw [heq, Finset.card_range]

theorem clz_iff {n x : Nat} (hn : 1 ≤ n) (hx : x < 2 ^ n) :
    Returns (clz n x) (· = n - x.size) ↔
      n < 2 ^ 64 ∧ ∀ j < x.size, ∃ d < 2 ^ 57, x.testBit (j + d) = true := by
  rw [clz, shiftLeft_natCast]
  by_cases h64 : n < 2 ^ 64
  · obtain ⟨w, y, hs, hw, hreach, hloop⟩ := clzLoop_eq n 0 x x Nat.one_pos (Smeared.one x)
    have hlt : (x : Int) < 1 * 2 ^ n := by
      rw [one_mul]
      exact_mod_cast hx
    have hone : clzLoop n 1 x Nat.one_pos = n - integerBitCount y := hloop
    rw [if_pos h64, ok_bind, if_pos hlt, hone, and_iff_right h64]
    refine returns_ok.trans ?_
    have hcount : (n : Int) - integerBitCount y = n - x.size ↔ integerBitCount y = x.size := by
      omega
    rw [hcount, hs.bitCount_eq_iff]
    refine forall₂_congr fun j hj => ?_
    rcases hreach with hreach | rfl
    · -- the leading one is less than `n` places up
      have hsize : x.size ≤ n := Nat.size_le.mpr hx
      have htop : x.testBit (j + (x.size - 1 - j)) = true := by
        rw [show j + (x.size - 1 - j) = x.size - 1 by omega]
        exact testBit_size_sub_one (by omega)
      exact iff_of_true ⟨_, by omega, htop⟩ ⟨_, by omega, htop⟩
    · exact Iff.rfl
  · rw [if_neg h64]
    exact iff_of_false not_returns_error fun hc => h64 hc.1

/-! ## Lists of bits -/

theorem testBit_one (i) : (1 : Int).testBit i = decide (i < 1) := testBit_mask 1 i

theorem lor_double (n : Int) (bit : Bool) :
    Int.lor (n * 2) (if bit then 1 else 0) = n * 2 + if bit then 1 else 0 := by
  have hbit : n * 2 + (if bit then 1 else 0) = Int.bit bit n := by
    rw [Int.bit_val, mul_comm]
    cases bit <;> rfl
  rw [hbit]
  refine eq_of_testBit_eq fun i => ?_
  rw [Int.testBit_lor, mul_comm, testBit_two_mul]
  cases i with
  | zero => cases bit <;> simp [testBit_one]
  | succ i => cases bit <;> simp [testBit_one]

theorem foldl_lor_eq (bits : List Bool) (n : Int) :
    bits.foldl (fun integer bit => Int.lor (integer * 2) (if bit then 1 else 0)) n =
      bits.foldl (fun integer bit => integer * 2 + if bit then 1 else 0) n := by
  simp only [lor_double]

theorem emod_two_pow_succ (x n) :
    x % 2 ^ (n + 1) = x / 2 % 2 ^ n * 2 + if isOdd x then 1 else 0 := by
  have hodd : (if isOdd x then 1 else 0) = x % 2 := by
    rw [isOdd]
    rcases Int.emod_two_eq_zero_or_one x with h | h <;> simp [h]
  have hpos : (0 : Int) < 2 ^ n := by positivity
  have hlt := Int.emod_lt_of_pos (x / 2) hpos
  have hnonneg := Int.emod_nonneg (x / 2) hpos.ne'
  rw [hodd]
  have hx : x = (x / 2 % 2 ^ n * 2 + x % 2) + 2 ^ (n + 1) * (x / 2 / 2 ^ n) := by
    have h1 := Int.emod_add_mul_ediv x 2
    have h2 := Int.emod_add_mul_ediv (x / 2) (2 ^ n)
    rw [pow_succ]
    linear_combination -h1 - 2 * h2
  conv_lhs => rw [hx, Int.add_mul_emod_self_left]
  refine Int.emod_eq_of_lt (by omega) ?_
  rw [pow_succ]
  omega

theorem foldl_integerToListOf (n x a bits) :
    (integerToListOf n x bits).foldl (fun integer bit => integer * 2 + if bit then 1 else 0) a =
      bits.foldl (fun integer bit => integer * 2 + if bit then 1 else 0)
        (a * 2 ^ n + x % 2 ^ n) := by
  induction n generalizing x bits with
  | zero => simp [integerToListOf]
  | succ n ih =>
    rw [integerToListOf, ih, List.foldl_cons, emod_two_pow_succ]
    congr 1
    ring

theorem listToInteger_integerToListOf (n x) :
    listToInteger (integerToListOf n x []) = x % 2 ^ n := by
  rw [listToInteger, foldl_lor_eq, foldl_integerToListOf, List.foldl_nil, zero_mul, zero_add]

theorem integerToList_length_iff (fuel n : Nat) (x : Int) :
    Returns (integerToList fuel x (some n)) (fun bits => listToInteger bits = x % 2 ^ n) ↔
      n < 2 ^ 57 := by
  have hcast : (0 : Int) ≤ n ∧ (n : Int) < 2 ^ 57 ↔ n < 2 ^ 57 := by
    rw [and_iff_right (Int.natCast_nonneg n)]
    exact_mod_cast Iff.rfl
  rw [integerToList, returns_if, hcast, Int.toNat_natCast]
  exact and_iff_left (listToInteger_integerToListOf n x)

theorem size_div_two {x : Nat} (h : x ≠ 0) : x.size = (x / 2).size + 1 := by
  conv_lhs => rw [← Nat.bit_bodd_div2 x]
  rw [Nat.size_bit (by rwa [Nat.bit_bodd_div2]), Nat.div2_val]

theorem integerToListLoop_eq (x fuel : Nat) (hf : x.size < fuel) (bits) :
    integerToListLoop fuel x bits = .ok (integerToListOf x.size x bits) := by
  induction fuel generalizing x bits with
  | zero => omega
  | succ fuel ih =>
    rw [integerToListLoop]
    by_cases hx : x = 0
    · subst hx
      rfl
    · have hhalf : (x : Int) / 2 = (x / 2 : Nat) := by norm_num
      rw [if_neg (by exact_mod_cast hx), hhalf, ih (x / 2) (by have := size_div_two hx; omega),
        size_div_two hx, integerToListOf, hhalf]

theorem integerToList_returns {x fuel : Nat} (hf : x.size < fuel) :
    Returns (integerToList fuel x none) (fun bits => listToInteger bits = x) := by
  rw [integerToList, integerToListLoop_eq x fuel hf, returns_ok, listToInteger_integerToListOf]
  exact Int.emod_eq_of_lt (Int.natCast_nonneg x) (by exact_mod_cast Nat.lt_size_self x)

/-! ## Reversing -/

theorem testBit_lor_land_one (r x i) :
    (Int.lor (r * 2) (Int.land x 1)).testBit i =
      if i = 0 then x.testBit 0 else r.testBit (i - 1) := by
  rw [Int.testBit_lor, mul_comm, testBit_two_mul, Int.testBit_land, testBit_one]
  cases i with
  | zero => simp
  | succ i => simp

theorem testBit_bitReverseLoop (n : Nat) (x r : Int) (i : Nat) :
    (bitReverseLoop n x r).testBit i = if i < n then x.testBit (n - 1 - i) else r.testBit (i - n) := by
  induction n generalizing x r with
  | zero => rfl
  | succ n ih =>
    rw [bitReverseLoop, ih, testBit_lor_land_one]
    by_cases h : i < n
    · rw [if_pos h, if_pos (by omega), testBit_ediv_two]
      congr 1
      omega
    · rw [if_neg h]
      by_cases hn : i = n
      · rw [if_pos (by omega), if_pos (by omega), hn, show n + 1 - 1 - n = 0 by omega]
      · rw [if_neg (by omega), if_neg (by omega), Nat.sub_sub]

theorem bitReverse_natCast (n x : Nat) : bitReverse n x = bitReverseLoop n x 0 := by
  rw [bitReverse, if_neg (Int.not_lt.mpr (Int.natCast_nonneg x)), Int.toNat_natCast]

theorem bitReverseLoop_nonneg (n x) : 0 ≤ bitReverseLoop n x 0 := by
  obtain ⟨l, hl⟩ := exists_testBit_sign (bitReverseLoop n x 0)
  have := hl (max l n) (le_max_left _ _)
  rw [testBit_bitReverseLoop, if_neg (not_lt.mpr (le_max_right l n)), testBit_zero] at this
  exact not_lt.mp (of_decide_eq_false this.symm)

theorem bitReverse_bitReverse {n x : Nat} (hx : x < 2 ^ n) :
    bitReverse n (bitReverse n x) = x := by
  obtain ⟨y, hy⟩ := Int.eq_ofNat_of_zero_le (bitReverseLoop_nonneg n x)
  rw [bitReverse_natCast, hy, bitReverse_natCast]
  refine eq_of_testBit_eq fun i => ?_
  rw [testBit_bitReverseLoop, ← hy, testBit_zero]
  by_cases h : i < n
  · rw [if_pos h, testBit_bitReverseLoop, if_pos (by omega)]
    congr 1
    omega
  · have hle : 2 ^ n ≤ 2 ^ i := Nat.pow_le_pow_right Nat.two_pos (not_lt.mp h)
    rw [if_neg h, testBit_natCast, Nat.testBit_lt_two_pow (by omega)]

/-- **When the counts are right.** `ctz` is one too large except for zero; the others are right
as far as the counts of the shifts go. -/
theorem bit_counts_iff (x : Nat) :
    (∀ t, IsTrailingZeros x t →
        (ctz x = t ↔ x = 0) ∧ ffs x = if x = 0 then 0 else (t : Int) + 1) ∧
      fls x = x.size ∧
      (∀ n : Nat, 1 ≤ n → x < 2 ^ n → (Returns (clz n x) (· = n - x.size) ↔
        n < 2 ^ 64 ∧ ∀ j < x.size, ∃ d < 2 ^ 57, x.testBit (j + d) = true)) ∧
      (∀ fuel (n : Nat) (z : Int), Returns (integerToList fuel z (some n))
        (fun bits => listToInteger bits = z % 2 ^ n) ↔ n < 2 ^ 57) ∧
      (∀ fuel, x.size < fuel →
        Returns (integerToList fuel x none) (fun bits => listToInteger bits = x)) ∧
      (∀ n : Nat, x < 2 ^ n → bitReverse n (bitReverse n x) = x) ∧
      (∀ n : Microcode.ExactInteger, n.Canonical →
        Microcode.Makes (Microcode.integerFirstSetBit n) (firstSetBit n.toInt) ∧
          Microcode.Makes (Microcode.integerLength n) (integerLength n.toInt) ∧
          Microcode.Makes (Microcode.integerBitCount n) (integerBitCount n.toInt)) :=
  ⟨fun _ ht => ⟨ctz_iff ht, ffs_eq ht⟩, fls_eq x, fun _ hn hx => clz_iff hn hx,
    integerToList_length_iff, fun _ hf => integerToList_returns hf,
    fun _ hx => bitReverse_bitReverse hx, fun _ hn => ⟨firstSetBit_makes hn,
      Microcode.integerLength_makes hn, Microcode.integerBitCount_makes hn⟩⟩

theorem isTrailingZeros_eight : IsTrailingZeros 8 3 := by
  refine ⟨by decide, fun i hi => ?_⟩
  by_contra hlt
  have hlt : i < 3 := not_le.mp hlt
  interval_cases i <;> exact absurd hi (by decide)

/-- The lowest one of 8, and the zeros before it in ten places. -/
theorem bit_counts_eight :
    ffs 8 = 4 ∧ Returns (clz 10 8) (· = (10 : Nat) - ((8 : Nat).size : Int)) := by
  have hsize : (8 : Nat).size = 4 := by decide +kernel
  refine ⟨((bit_counts_iff 8).1 3 isTrailingZeros_eight).2,
    ((bit_counts_iff 8).2.2.1 10 (by decide) (by decide)).mpr ⟨by decide, fun j hj => ?_⟩⟩
  refine ⟨3 - j, by omega, ?_⟩
  rw [show j + (3 - j) = 3 by omega]
  decide

/-- 8 ends in three zeros. -/
theorem ctz_eight : IsTrailingZeros 8 3 ∧ ctz 8 = 4 :=
  ⟨isTrailingZeros_eight, by decide +kernel⟩

end MitScheme.Runtime.IntegerBits
