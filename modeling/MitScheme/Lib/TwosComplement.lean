import MitScheme.Lib.Radix

/-! # Integers as infinite two's complement

`Int.testBit` reads an integer as an infinite sequence of bits. Two integers
with the same bits are equal, and the bits of a numeral in base `2 ^ k` are
the bits of its digits one after the other. -/

namespace MitScheme.Lib.TwosComplement
open Lib.Radix

/-- Every bit of `z` is the function `f` of the bits of `x` and `y` at its place. -/
def Bitwise (f : Bool → Bool → Bool) (x y z : Int) : Prop :=
  ∀ i, z.testBit i = f (x.testBit i) (y.testBit i)

theorem testBit_natCast (n i : Nat) : (n : Int).testBit i = n.testBit i := rfl

@[simp] theorem testBit_zero (i : Nat) : (0 : Int).testBit i = false := Nat.zero_testBit i

theorem testBit_neg_one_sub (v : Int) (i : Nat) : (-1 - v).testBit i = !v.testBit i := by
  have h : -1 - v = Int.lnot v := by
    cases v with
    | ofNat n => simp only [Int.lnot, Int.negSucc_eq, Int.ofNat_eq_natCast]; ring
    | negSucc n => simp only [Int.lnot, Int.negSucc_eq]; ring
  rw [h, Int.testBit_lnot]

theorem exists_testBit_sign (v : Int) : ∃ k, ∀ i, k ≤ i → v.testBit i = decide (v < 0) := by
  have hnat : ∀ n i : Nat, n ≤ i → n.testBit i = false := fun n i h =>
    Nat.testBit_lt_two_pow (lt_of_lt_of_le Nat.lt_two_pow_self (Nat.pow_le_pow_right (by omega) h))
  cases v with
  | ofNat n =>
    refine ⟨n, fun i hi => (hnat n i hi).trans ?_⟩
    exact (decide_eq_false (Int.not_lt.mpr (Int.natCast_nonneg n))).symm
  | negSucc n =>
    refine ⟨n, fun i hi => ?_⟩
    change (!n.testBit i) = _
    rw [hnat n i hi, decide_eq_true (Int.negSucc_lt_zero n)]
    rfl

theorem eq_of_testBit_eq {v w : Int} (h : ∀ i, v.testBit i = w.testBit i) : v = w := by
  obtain ⟨k, hk⟩ := exists_testBit_sign v
  obtain ⟨l, hl⟩ := exists_testBit_sign w
  have hs : decide (v < 0) = decide (w < 0) := by
    rw [← hk (max k l) (le_max_left _ _), ← hl (max k l) (le_max_right _ _), h]
  rw [decide_eq_decide] at hs
  cases v with
  | ofNat m =>
    cases w with
    | ofNat n => exact congrArg Int.ofNat (Nat.eq_of_testBit_eq h)
    | negSucc n =>
      exact absurd (hs.mpr (Int.negSucc_lt_zero n)) (Int.not_lt.mpr (Int.natCast_nonneg m))
  | negSucc m =>
    cases w with
    | ofNat n =>
      exact absurd (hs.mp (Int.negSucc_lt_zero m)) (Int.not_lt.mpr (Int.natCast_nonneg n))
    | negSucc n =>
      refine congrArg Int.negSucc (Nat.eq_of_testBit_eq fun i => ?_)
      exact Bool.not_inj (h i)

theorem Bitwise.unique {f : Bool → Bool → Bool} {x y z z'} (h : Bitwise f x y z)
    (h' : Bitwise f x y z') : z = z' :=
  eq_of_testBit_eq fun i => (h i).trans (h' i).symm

theorem Bitwise.range {f : Bool → Bool → Bool} (hf : f false false = false) {x y z k}
    (hx : 0 ≤ x ∧ x < 2 ^ k) (hy : 0 ≤ y ∧ y < 2 ^ k) (h : Bitwise f x y z) :
    0 ≤ z ∧ z < 2 ^ k := by
  obtain ⟨m, rfl⟩ := Int.eq_ofNat_of_zero_le hx.1
  obtain ⟨n, rfl⟩ := Int.eq_ofNat_of_zero_le hy.1
  have hm : m < 2 ^ k := by exact_mod_cast hx.2
  have hn : n < 2 ^ k := by exact_mod_cast hy.2
  have hclear : ∀ i, k ≤ i → z.testBit i = false := by
    intro i hi
    have hpow : (2 : Nat) ^ k ≤ 2 ^ i := Nat.pow_le_pow_right (by omega) hi
    rw [h i, testBit_natCast, testBit_natCast, Nat.testBit_lt_two_pow (by omega),
      Nat.testBit_lt_two_pow (by omega), hf]
  obtain ⟨l, hl⟩ := exists_testBit_sign z
  have hsign : decide (z < 0) = false := by
    rw [← hl (max k l) (le_max_right _ _), hclear _ (le_max_left _ _)]
  have hz : 0 ≤ z := Int.not_lt.mp (of_decide_eq_false hsign)
  obtain ⟨r, rfl⟩ := Int.eq_ofNat_of_zero_le hz
  have hlt : r < 2 ^ k := Nat.lt_pow_two_of_testBit r hclear
  exact ⟨hz, by exact_mod_cast hlt⟩

theorem range_iff {v : Int} {k : Nat} :
    -2 ^ k ≤ v ∧ v < 2 ^ k ↔ ∀ i, k ≤ i → v.testBit i = decide (v < 0) := by
  have hnat : ∀ n : Nat, n < 2 ^ k ↔ ∀ i, k ≤ i → n.testBit i = false := fun n => by
    refine ⟨fun h i hi => Nat.testBit_lt_two_pow ?_, fun h => Nat.lt_pow_two_of_testBit n h⟩
    exact lt_of_lt_of_le h (Nat.pow_le_pow_right (by omega) hi)
  cases v with
  | ofNat n =>
    have hn : (Int.ofNat n < 2 ^ k) ↔ n < 2 ^ k := by
      rw [Int.ofNat_eq_natCast]; exact_mod_cast Iff.rfl
    have h0 : ¬ Int.ofNat n < 0 := Int.not_lt.mpr (Int.natCast_nonneg n)
    have hk : (0 : Int) ≤ 2 ^ k := by positivity
    rw [decide_eq_false h0, and_iff_right (by omega), hn, hnat n]
    rfl
  | negSucc n =>
    have hn : (-2 ^ k ≤ Int.negSucc n) ↔ n < 2 ^ k := by
      rw [Int.negSucc_eq, ← Nat.cast_lt (α := Int)]
      push_cast
      omega
    have h0 := Int.negSucc_lt_zero n
    have hk : (0 : Int) ≤ 2 ^ k := by positivity
    rw [decide_eq_true h0, and_iff_left (by omega), hn, hnat n]
    refine forall_congr' fun i => imp_congr_right fun _ => ?_
    change _ ↔ (!n.testBit i) = true
    rw [Bool.not_eq_true']

theorem Bitwise.wordRange {f : Bool → Bool → Bool} {x y z k} (hx : -2 ^ k ≤ x ∧ x < 2 ^ k)
    (hy : -2 ^ k ≤ y ∧ y < 2 ^ k) (h : Bitwise f x y z) : -2 ^ k ≤ z ∧ z < 2 ^ k := by
  rw [range_iff] at hx hy ⊢
  obtain ⟨l, hl⟩ := exists_testBit_sign z
  intro i hi
  have hm := hl (max k l) (le_max_right _ _)
  rw [h, hx _ (le_max_left _ _), hy _ (le_max_left _ _)] at hm
  rw [h i, hx i hi, hy i hi, hm]

/-! ## Numerals -/

/-- `op` works on each bit of two naturals by `f`, and keeps clear bits clear. -/
structure OnDigits (op : Int → Int → Int) (f : Bool → Bool → Bool) : Prop where
  clear : f false false = false
  digit : ∀ a b : Nat, ∃ n : Nat, op a b = n ∧ ∀ i, n.testBit i = f (a.testBit i) (b.testBit i)

variable {k : Nat} {op : Int → Int → Int} {f : Bool → Bool → Bool}

theorem OnDigits.range (h : OnDigits op f) {a b} (ha : 0 ≤ a ∧ a < 2 ^ k) (hb : 0 ≤ b ∧ b < 2 ^ k) :
    (0 ≤ op a b ∧ op a b < 2 ^ k) ∧ Bitwise f a b (op a b) := by
  obtain ⟨m, rfl⟩ := Int.eq_ofNat_of_zero_le ha.1
  obtain ⟨n, rfl⟩ := Int.eq_ofNat_of_zero_le hb.1
  obtain ⟨r, he, hr⟩ := h.digit m n
  have hbits : Bitwise f m n (op m n) := by
    rw [he]
    exact hr
  exact ⟨hbits.range h.clear ha hb, hbits⟩

theorem testBit_numeral {d v : Int} (hd : 0 ≤ d ∧ d < 2 ^ k) (hv : 0 ≤ v) (i : Nat) :
    (d + 2 ^ k * v).testBit i = if i < k then d.testBit i else v.testBit (i - k) := by
  obtain ⟨m, rfl⟩ := Int.eq_ofNat_of_zero_le hd.1
  obtain ⟨n, rfl⟩ := Int.eq_ofNat_of_zero_le hv
  have hm : m < 2 ^ k := by exact_mod_cast hd.2
  have he : (m : Int) + 2 ^ k * n = ((2 ^ k * n + m : Nat) : Int) := by push_cast; ring
  rw [he]
  simp only [testBit_natCast]
  exact Nat.testBit_two_pow_mul_add n hm i

/-! ## Shifts and masks -/

theorem testBit_two_mul (x : Int) (i : Nat) :
    (2 * x).testBit i = (decide (0 < i) && x.testBit (i - 1)) := by
  have hbit : 2 * x = Int.bit false x := (Int.bit_val false x).symm ▸ by simp
  rw [hbit]
  cases i with
  | zero => exact Int.testBit_bit_zero false x
  | succ i => simp

theorem testBit_ediv_two (x : Int) (i : Nat) : (x / 2).testBit i = x.testBit (i + 1) := by
  have hx := Int.bit_decomp x
  rw [Int.div2_val] at hx
  conv_rhs => rw [← hx]
  exact (Int.testBit_bit_succ i _ _).symm

theorem testBit_mul_pow (x : Int) (m i : Nat) :
    (x * 2 ^ m).testBit i = (decide (m ≤ i) && x.testBit (i - m)) := by
  induction m generalizing i with
  | zero => simp
  | succ m ih =>
    rw [pow_succ', ← mul_assoc, mul_comm x 2, mul_assoc, testBit_two_mul, ih]
    cases i with
    | zero => simp
    | succ i => simp

theorem testBit_ediv_pow (x : Int) (m i : Nat) : (x / 2 ^ m).testBit i = x.testBit (m + i) := by
  induction m generalizing x with
  | zero => simp
  | succ m ih =>
    rw [pow_succ', ← Int.ediv_ediv_of_nonneg (by norm_num), ih, testBit_ediv_two]
    congr 1
    omega

theorem testBit_mask (k i : Nat) : ((2 : Int) ^ k - 1).testBit i = decide (i < k) := by
  have hcast : (2 : Int) ^ k - 1 = ((2 ^ k - 1 : Nat) : Int) := by
    rw [Nat.cast_sub Nat.one_le_two_pow]
    push_cast
    rfl
  rw [hcast, testBit_natCast, Nat.testBit_two_pow_sub_one]

end MitScheme.Lib.TwosComplement
