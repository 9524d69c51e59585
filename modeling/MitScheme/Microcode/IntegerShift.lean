import MitScheme.Microcode.BignumShift

/-! # Shifts: left shifts and exact integers

The left shift of bignums and of single words, and the shifts of exact
integers up to the object they return. -/

namespace MitScheme.Microcode
open Lib.Checked Lib.Outcome Lib.Radix Lib.TwosComplement
open Bits

/-! ## The left shift -/

theorem wellFormed_of_count {ds : List Int} {s : Bool} (h : Digits bignumRadix ds) (hne : ds ≠ [])
    (hc : ds.length = digitCount (value bignumRadix ds)) : (Bignum.mk s ds).WellFormed := by
  have h0 := value_nonneg bignumRadix_pos h
  have hlen : ds.length ≠ 0 := by simpa using hne
  have hsize : 62 * (ds.length - 1) < (value bignumRadix ds).natAbs.size := by
    unfold digitCount bignumBitsToDigits at hc
    omega
  refine (wellFormed_of_bounds h fun _ => ?_).withSign hne s
  rw [Nat.lt_size, ← Nat.cast_le (α := Int)] at hsize
  push_cast at hsize
  rwa [abs_of_nonneg h0] at hsize

theorem size_div_pow (x k) : (x / 2 ^ k).size = x.size - k := by
  have hiff : ∀ n, (x / 2 ^ k).size ≤ n ↔ x.size ≤ n + k := by
    intro n
    rw [Nat.size_le, Nat.size_le, Nat.div_lt_iff_lt_mul (by positivity), pow_add]
  have h1 := hiff (x / 2 ^ k).size
  have h2 := hiff (x.size - k)
  omega

variable {v : Int} {m : Nat}

theorem natAbs_size_mul_pow (hv : v ≠ 0) (m) : (v * 2 ^ m).natAbs.size = v.natAbs.size + m := by
  rw [Int.natAbs_mul, Int.natAbs_pow, show (2 : Int).natAbs = 2 from rfl, ← Nat.shiftLeft_eq,
    Nat.size_shiftLeft (Int.natAbs_ne_zero.mpr hv)]

theorem ulongLengthInBits_ofInt (h : 0 ≤ v) (h' : v < 2 ^ 64) :
    ulongLengthInBits (BitVec.ofInt 64 v) = v.natAbs.size := by
  rw [ulongLengthInBits_eq, BitVec.toNat_ofInt]
  congr 1
  norm_num
  omega

theorem ulongDigits_eq {bits : Nat} (h : bits < 2 ^ 64) :
    ulongDigits bits = bignumBitsToDigits bits := by
  unfold ulongDigits bignumBitsToDigits
  rw [Nat.mod_eq_of_lt h]
  simp only []
  split <;> omega

theorem size_magnitude {b : Bignum} (h : b.WellFormed) (hz : b.length ≠ 0) :
    b.toInt.natAbs.size =
      62 * (b.length - 1) + (b.magnitude / bignumRadix ^ (b.length - 1)).natAbs.size := by
  have hm := Bignum.natAbs_toInt h
  have htop := pow_le_magnitude h (n := 62 * (b.length - 1)) hz le_rfl
  have hsize : 62 * (b.length - 1) < b.toInt.natAbs.size := by
    rw [Nat.lt_size, ← Nat.cast_le (α := Int), hm]
    exact_mod_cast htop
  have hdiv : b.magnitude / bignumRadix ^ (b.length - 1) =
      ((b.toInt.natAbs / 2 ^ (62 * (b.length - 1)) : Nat) : Int) := by
    rw [bignumRadix_pow, ← hm]
    push_cast
    rfl
  rw [hdiv, Int.natAbs_natCast, size_div_pow]
  omega

theorem spill_top {t : Int} (h0 : 0 ≤ t) (k : Nat) :
    spill (t >>> k) = if k < t.natAbs.size then 1 else 0 := by
  obtain ⟨n, rfl⟩ := Int.eq_ofNat_of_zero_le h0
  have hdiv : (n : Int) >>> k = ((n / 2 ^ k : Nat) : Int) := by
    rw [shiftRight_eq]
    push_cast
    rfl
  have hiff : ((n / 2 ^ k : Nat) : Int) = 0 ↔ ¬ k < n.size := by
    rw [Nat.cast_eq_zero, Nat.div_eq_zero_iff_lt (by positivity), Nat.lt_size, not_le]
  unfold spill
  rw [hdiv, Int.natAbs_natCast]
  by_cases hk : k < n.size
  · rw [if_neg (fun h => hiff.mp h hk), if_pos hk]
  · rw [if_pos (hiff.mpr hk), if_neg hk]

theorem shifted_digits {ds : List Int} (hd : Digits bignumRadix ds) {init : List Int} {top : Int}
    (hinit : ds = init ++ [top]) {len : Nat}
    (hl : len = m / 62 + ds.length + (if 62 < top.natAbs.size + m % 62 then 1 else 0)) :
    ∃ high, (if m % 62 = 0 then copyLoop (len - m / 62) ds
        else shiftLeftLoop (m % 62) (len - m / 62) ds 0 : Exec (List Int)) = .ok high ∧
      Digits bignumRadix (List.replicate (m / 62) 0 ++ high) ∧
      (List.replicate (m / 62) 0 ++ high).length = len ∧
      value bignumRadix (List.replicate (m / 62) 0 ++ high) = value bignumRadix ds * 2 ^ m := by
  have htop : 0 ≤ top ∧ top < bignumRadix := hd top (by rw [hinit]; simp)
  have hsize : top.natAbs.size ≤ 62 := by
    rw [Nat.size_le]
    have := htop.2
    unfold bignumRadix at this
    omega
  have hzeros := digits_replicate_zero bignumRadix_pos (m / 62)
  have hval : ∀ high, value bignumRadix high = value bignumRadix ds * 2 ^ (m % 62) →
      value bignumRadix (List.replicate (m / 62) 0 ++ high) = value bignumRadix ds * 2 ^ m := by
    intro high hv
    rw [value_append, value_replicate_zero, zero_add, List.length_replicate, bignumRadix_pow, hv,
      mul_left_comm, ← pow_add, shift_split]
  by_cases hs : m % 62 = 0
  · rw [if_neg (by omega)] at hl
    refine ⟨ds, ?_, digits_append.mpr ⟨hzeros, hd⟩, ?_, hval ds (by rw [hs, pow_zero, mul_one])⟩
    · rw [if_pos hs]
      exact copyLoop_ok (by omega)
    · simp
      omega
  · have hlt := Nat.mod_lt m (show 62 > 0 by norm_num)
    have hleft : spill (leftover (62 - m % 62) ds 0) =
        if 62 < top.natAbs.size + m % 62 then 1 else 0 := by
      rw [hinit, leftover_concat, spill_top htop.1]
      exact if_congr (by omega) rfl rfl
    obtain ⟨high, hr, hrd, hrv, hrl⟩ := shiftRightLoop_ok (show 62 - m % 62 ≤ 62 by omega) hd
      (show (0 : Int) ≤ 0 ∧ (0 : Int) < 2 ^ (62 - (62 - m % 62)) from ⟨le_rfl, by positivity⟩)
      (show ds.length + spill (leftover (62 - m % 62) ds 0) ≤ len - m / 62 by rw [hleft]; omega)
    refine ⟨high, ?_, digits_append.mpr ⟨hzeros, hrd⟩, ?_, hval high ?_⟩
    · rw [if_neg hs, shiftLeftLoop_eq hlt hd ⟨le_rfl, by positivity⟩]
      exact hr
    · rw [List.length_append, List.length_replicate, hrl, hleft]
      omega
    · rw [hrv, zero_add, show 62 - (62 - m % 62) = m % 62 by omega, mul_comm]

theorem bignumShiftLeft_ok {b : Bignum} (h : b.WellFormed)
    (hc : digitCount (b.toInt * 2 ^ m) ≤ bignumLengthMax) :
    ∃ r, bignumShiftLeft b m = .ok r ∧ r.WellFormed ∧ r.toInt = b.toInt * 2 ^ m := by
  unfold bignumShiftLeft
  by_cases hzm : m = 0 ∨ b.zeroP = true
  · refine ⟨b, if_pos hzm, h, ?_⟩
    rcases hzm with rfl | hz
    · rw [pow_zero, mul_one]
    · rw [Bignum.toInt_of_nil (Bignum.zeroP_iff.mp hz), zero_mul]
  rw [if_neg hzm]
  obtain ⟨hm0, hz⟩ := not_or.mp hzm
  have hne : b.digits ≠ [] := by simpa using hz
  have hlen : b.length ≠ 0 := by simpa [Bignum.length] using hne
  have hv0 : b.toInt ≠ 0 := fun h0 => by
    have := h.magnitude_pos hne
    have := Bignum.natAbs_toInt h
    omega
  have hsize := size_magnitude h hlen
  obtain ⟨init, hinit⟩ := drop_digits h (show 0 < b.length by omega)
  rw [List.drop_zero] at hinit
  obtain ⟨top, ht⟩ : ∃ top, top = b.magnitude / bignumRadix ^ (b.length - 1) := ⟨_, rfl⟩
  rw [← ht] at hsize hinit
  have htop : 0 ≤ top ∧ top < bignumRadix := h.digits top (by rw [hinit]; simp)
  have hdelta : ulongLengthInBits (BitVec.ofInt 64 top) = top.natAbs.size :=
    ulongLengthInBits_ofInt htop.1 (lt_trans htop.2 (by norm_num [bignumRadix]))
  obtain ⟨len, hln⟩ : ∃ len, len = digitCount (b.toInt * 2 ^ m) := ⟨_, rfl⟩
  have hcount : len = b.length - 1 + bignumBitsToDigits (top.natAbs.size + m) := by
    rw [hln, digitCount, natAbs_size_mul_pow hv0, hsize]
    unfold bignumBitsToDigits
    omega
  have hpos : top.natAbs.size ≠ 0 := fun h0 => by
    have := Nat.size_eq_zero.mp h0
    exact h.lead (by rw [hinit]; simp; omega)
  have hle : top.natAbs.size ≤ 62 := by
    rw [Nat.size_le]
    have := htop.2
    unfold bignumRadix at this
    omega
  have hroom : len = m / 62 + b.digits.length +
      (if 62 < top.natAbs.size + m % 62 then 1 else 0) := by
    change len = m / 62 + b.length + _
    rw [hcount]
    unfold bignumBitsToDigits
    split <;> omega
  have hwrap : (b.length - 1 + ulongDigits (top.natAbs.size + m)) % 2 ^ 64 = len := by
    have hbound : top.natAbs.size + m ≤ 62 * len := by
      rw [hcount]
      unfold bignumBitsToDigits
      omega
    unfold bignumLengthMax at hc
    rw [ulongDigits_eq (by omega), ← hcount]
    exact Nat.mod_eq_of_lt (by omega)
  obtain ⟨high, hhigh, hdig, hlen', hval⟩ := shifted_digits h.digits hinit hroom
  refine ⟨⟨b.negative, List.replicate (m / 62) 0 ++ high⟩, ?_, wellFormed_of_count hdig ?_ ?_, ?_⟩
  · rw [lead_digit h hlen, ok_bind, ← ht]
    simp only [hdelta, hwrap]
    rw [bignumAllocate, check_ok (by omega), ok_bind,
      copyLoop_ok (by rw [List.length_replicate]; omega), ok_bind, hhigh, ok_bind, finishBlock,
      if_pos hlen']
    rfl
  · intro h0
    rw [h0] at hlen'
    have hne' : b.digits.length ≠ 0 := hlen
    simp only [List.length_nil] at hlen'
    omega
  · rw [hlen', hval, hln]
    unfold digitCount
    have hm := Bignum.natAbs_toInt h
    rw [Int.natAbs_mul, Int.natAbs_mul, ← Int.natAbs_natCast b.toInt.natAbs, hm]
    rfl
  · rw [Bignum.toInt_mk, hval, b.toInt_eq]
    unfold signedValue Bignum.magnitude
    split <;> ring

/-! ### Shifted words -/

theorem digitCount_natCast (n : Nat) : digitCount n = (n.size + 61) / 62 := rfl

theorem spillLoop_ok : ∀ {room n : Nat}, digitCount n ≤ room →
    ∃ r, spillLoop room n = .ok r ∧ Digits bignumRadix r ∧ value bignumRadix r = n ∧
      r.length = digitCount n := by
  intro room
  induction room with
  | zero =>
    intro n h
    have h0 : n = 0 := by
      rw [digitCount_natCast] at h
      exact Nat.size_eq_zero.mp (by omega)
    subst h0
    exact ⟨[], rfl, digits_nil, rfl, rfl⟩
  | succ room ih =>
    intro n h
    by_cases h0 : n = 0
    · subst h0
      exact ⟨[], rfl, digits_nil, rfl, rfl⟩
    have hsize : n.size ≠ 0 := fun hs => h0 (Nat.size_eq_zero.mp hs)
    have hdiv : digitCount (n / 2 ^ 62 : Nat) + 1 = digitCount n := by
      rw [digitCount_natCast, digitCount_natCast, size_div_pow]
      omega
    obtain ⟨r, hr, hrd, hrv, hrl⟩ := ih (show digitCount (n / 2 ^ 62 : Nat) ≤ room by omega)
    have hlow : Int.land n (bignumRadix - 1) = n % 2 ^ 62 := land_mask 62 (Int.natCast_nonneg n)
    have hhigh : (n : Int) >>> (62 : Nat) = ((n / 2 ^ 62 : Nat) : Int) := by
      rw [shiftRight_eq]
      push_cast
      rfl
    refine ⟨n % 2 ^ 62 :: r, ?_, digits_cons.mpr ⟨?_, hrd⟩, ?_, ?_⟩
    · rw [spillLoop, if_pos (by omega), hhigh, hr, ok_bind, hlow]
      rfl
    · unfold bignumRadix
      omega
    · rw [value_cons, hrv]
      unfold bignumRadix
      push_cast
      omega
    · rw [List.length_cons, hrl, hdiv]

theorem unsignedLongToShiftedBignum_ok {n : Nat} (hn : n ≠ 0) (hn' : n < 2 ^ 64)
    (hc : digitCount ((n : Int) * 2 ^ m) ≤ bignumLengthMax) (s) :
    ∃ r, unsignedLongToShiftedBignum n m s = .ok r ∧ r.WellFormed ∧
      r.toInt = signedValue s (n * 2 ^ m) ∧ r.negative = s := by
  have hn0 : (n : Int) ≠ 0 := by exact_mod_cast hn
  have hsize : n.size ≠ 0 := fun hs => hn (Nat.size_eq_zero.mp hs)
  have hdelta : ulongLengthInBits (BitVec.ofInt 64 n) = n.size :=
    ulongLengthInBits_ofInt (Int.natCast_nonneg n) (by exact_mod_cast hn')
  obtain ⟨len, hln⟩ : ∃ len, len = digitCount ((n : Int) * 2 ^ m) := ⟨_, rfl⟩
  have hcount : len = bignumBitsToDigits (n.size + m) := by
    rw [hln, digitCount, natAbs_size_mul_pow hn0, Int.natAbs_natCast]
  have hword : ulongDigits (n.size + m) = len := by
    have : n.size + m ≤ 62 * len := by
      rw [hcount]
      unfold bignumBitsToDigits
      omega
    unfold bignumLengthMax at hc
    rw [ulongDigits_eq (by omega), hcount]
  -- the part of `n` above the first digit
  have hlt := Nat.mod_lt m (show 62 > 0 by norm_num)
  have hhigh : (n : Int) >>> (62 - m % 62) = ((n / 2 ^ (62 - m % 62) : Nat) : Int) := by
    rw [shiftRight_eq]
    push_cast
    rfl
  have hspill : digitCount (n / 2 ^ (62 - m % 62) : Nat) = len - m / 62 - 1 := by
    rw [digitCount_natCast, size_div_pow, hcount]
    unfold bignumBitsToDigits
    omega
  have hzero : m / 62 + 1 ≤ len := by
    rw [hcount]
    unfold bignumBitsToDigits
    omega
  obtain ⟨rest, hrest, hrd, hrv, hrl⟩ := spillLoop_ok hspill.le
  have hlow : Int.land (toUlong ((n : Int) <<< (m % 62))) (bignumRadix - 1) =
      (n : Int) * 2 ^ (m % 62) % 2 ^ 62 := by
    have hnn : 0 ≤ toUlong ((n : Int) <<< (m % 62)) := Int.emod_nonneg _ (by norm_num)
    rw [show bignumRadix - 1 = 2 ^ 62 - 1 from rfl, land_mask 62 hnn, toUlong, shiftLeft_eq,
      Int.emod_emod_of_dvd _ (by norm_num)]
  have hfirst : 0 ≤ (n : Int) * 2 ^ (m % 62) % 2 ^ 62 ∧
      (n : Int) * 2 ^ (m % 62) % 2 ^ 62 < bignumRadix := by
    unfold bignumRadix
    omega
  have hval : value bignumRadix (List.replicate (m / 62) 0 ++
      [(n : Int) * 2 ^ (m % 62) % 2 ^ 62] ++ rest) = n * 2 ^ m := by
    have hq : ((n / 2 ^ (62 - m % 62) : Nat) : Int) = (n : Int) * 2 ^ (m % 62) / 2 ^ 62 := by
      rw [show (2 : Int) ^ 62 = 2 ^ (62 - m % 62) * 2 ^ (m % 62) by rw [← pow_add]; congr 1; omega,
        Int.mul_ediv_mul_of_pos_left _ _ (by positivity)]
      push_cast
      rfl
    have hdm := Int.emod_add_mul_ediv ((n : Int) * 2 ^ (m % 62)) (2 ^ 62)
    rw [List.append_assoc, value_append, value_replicate_zero, zero_add, List.length_replicate,
      List.singleton_append, value_cons, hrv, hq, show bignumRadix = 2 ^ 62 from rfl, hdm,
      ← pow_mul, mul_left_comm, ← pow_add, shift_split]
  have hdig : Digits bignumRadix (List.replicate (m / 62) 0 ++
      [(n : Int) * 2 ^ (m % 62) % 2 ^ 62] ++ rest) := by
    refine digits_append.mpr ⟨digits_append.mpr ⟨?_, by simpa using hfirst⟩, hrd⟩
    exact digits_replicate_zero bignumRadix_pos _
  have hlen' : (List.replicate (m / 62) 0 ++
      [(n : Int) * 2 ^ (m % 62) % 2 ^ 62] ++ rest).length = len := by
    simp only [List.length_append, List.length_replicate, List.length_singleton, hrl, hspill]
    omega
  refine ⟨⟨s, _⟩, ?_, wellFormed_of_count hdig (by simp) (by rw [hlen', hval, hln]), ?_, rfl⟩
  · unfold unsignedLongToShiftedBignum
    rw [if_neg hn0]
    simp only [hdelta]
    rw [hword, bignumAllocate, check_ok (by omega), ok_bind,
      copyLoop_ok (by rw [List.length_replicate]; omega), ok_bind, hlow,
      copyLoop_ok (by simp; omega), ok_bind, hhigh, hrest, ok_bind, finishBlock, if_pos hlen']
    rfl
  · rw [Bignum.toInt_mk, hval]
    rfl

/-! ## Exact integers -/

theorem pow_mul_pow_le {a : Int} {i j k : Nat} (ha : 2 ^ i ≤ a) (h : k ≤ i + j) :
    2 ^ k ≤ a * 2 ^ j := by
  calc (2 : Int) ^ k ≤ 2 ^ (i + j) := pow_le_pow_right₀ (by norm_num) h
    _ = 2 ^ i * 2 ^ j := pow_add 2 i j
    _ ≤ a * 2 ^ j := mul_le_mul_of_nonneg_right ha (by positivity)

theorem mul_pow_lt {a : Int} {i j k : Nat} (ha : a < 2 ^ i) (h : i + j ≤ k) :
    a * 2 ^ j < 2 ^ k := by
  calc a * 2 ^ j < 2 ^ i * 2 ^ j := mul_lt_mul_of_pos_right ha (by positivity)
    _ = 2 ^ (i + j) := (pow_add 2 i j).symm
    _ ≤ 2 ^ k := pow_le_pow_right₀ (by norm_num) h

theorem size_bounds (h : 0 ≤ v) :
    v < 2 ^ v.natAbs.size ∧ (v.natAbs.size ≠ 0 → 2 ^ (v.natAbs.size - 1) ≤ v) := by
  obtain ⟨n, rfl⟩ := Int.eq_ofNat_of_zero_le h
  rw [Int.natAbs_natCast]
  refine ⟨by exact_mod_cast Nat.lt_size_self n, fun h0 => ?_⟩
  have hlt : n.size - 1 < n.size := by omega
  exact_mod_cast Nat.lt_size.mp hlt

theorem shifted_large (h : ¬ InRange (fixnumLength + 1) v) (m) :
    ¬ InRange (fixnumLength + 1) (v * 2 ^ m) := by
  have hpow : (1 : Int) ≤ 2 ^ m := one_le_pow₀ (by norm_num)
  unfold InRange fixnumLength at h ⊢
  norm_num at h ⊢
  intro h1
  by_cases hv : -144115188075855872 ≤ v
  · have := h hv
    nlinarith
  · nlinarith

theorem makes_shifted_bignum {b : Bignum} (h : ExactInteger.CanonicalBignum b)
    (hc : digitCount (b.toInt * 2 ^ m) ≤ bignumLengthMax) :
    Makes (do let r ← bignumShiftLeft b m; return .bignum r) (b.toInt * 2 ^ m) := by
  obtain ⟨r, hr, hw, hv⟩ := bignumShiftLeft_ok h.wellFormed hc
  rw [hr, ok_bind, ← hv]
  refine makes_bignum hw (by rw [hw.length_eq, hv]; exact hc) ?_
  rw [hv]
  exact shifted_large h.large m

theorem makes_shifted_word {n : Nat} (hn : n ≠ 0) (hn' : n < 2 ^ 64)
    (hc : digitCount ((n : Int) * 2 ^ m) ≤ bignumLengthMax) :
    ∃ r, unsignedLongToShiftedBignum n m false = .ok r ∧ r.WellFormed ∧
      r.toInt = n * 2 ^ m ∧ r.length ≤ bignumLengthMax := by
  obtain ⟨r, hr, hw, hv, -⟩ := unsignedLongToShiftedBignum_ok hn hn' hc false
  have hv' : r.toInt = n * 2 ^ m := hv
  exact ⟨r, hr, hw, hv', by rw [hw.length_eq, hv']; exact hc⟩

theorem size_add_lt (hv : v ≠ 0) (hc : digitCount (v * 2 ^ m) ≤ bignumLengthMax) :
    v.natAbs.size + m < 2 ^ 63 := by
  rw [digitCount, natAbs_size_mul_pow hv] at hc
  unfold bignumBitsToDigits bignumLengthMax at hc
  omega

theorem shiftLong_ok (h0 : 0 ≤ v) (hm : m < 64) (h : v * 2 ^ m ≤ 2 ^ 57) :
    shiftLong v m = .ok (v * 2 ^ m) := by
  have h1 : 0 ≤ v * 2 ^ m := mul_nonneg h0 (by positivity)
  unfold shiftLong
  rw [if_pos hm, shiftLeft_eq, toLong_of_range ⟨by norm_num; omega, by norm_num; omega⟩]
  rfl

theorem shiftLeft_positive (hv : 0 < v) (hv' : v < 2 ^ 57)
    (hc : digitCount (v * 2 ^ m) ≤ bignumLengthMax) :
    Makes (if (m + ulongLengthInBits (BitVec.ofInt 64 v)) % 2 ^ 64 ≤ fixnumLength then do
        let shifted ← shiftLong v m
        return .fixnum (longToFixnum shifted)
      else do
        let r ← unsignedLongToShiftedBignum v m false
        return .bignum r) (v * 2 ^ m) := by
  have hw := size_add_lt hv.ne' hc
  obtain ⟨hlt, hge⟩ := size_bounds hv.le
  have hs : v.natAbs.size ≠ 0 := fun h0 => by
    have := Nat.size_eq_zero.mp h0
    omega
  rw [ulongLengthInBits_ofInt hv.le (by omega), Nat.mod_eq_of_lt (by omega)]
  unfold fixnumLength
  by_cases hfit : m + v.natAbs.size ≤ 57
  · have h1 := mul_pow_lt hlt (show v.natAbs.size + m ≤ 57 by omega)
    have h2 : 0 ≤ v * 2 ^ m := mul_nonneg hv.le (by positivity)
    rw [if_pos hfit, shiftLong_ok hv.le (by omega) h1.le]
    exact makes_fixnum ⟨by norm_num; omega, by norm_num; omega⟩
  · obtain ⟨n, rfl⟩ := Int.eq_ofNat_of_zero_le hv.le
    rw [Int.natAbs_natCast] at hge hs hfit hw
    obtain ⟨r, hr, hrw, hrv, hrl⟩ := makes_shifted_word (n := n) (m := m) (by omega) (by omega) hc
    have h1 := pow_mul_pow_le (hge hs) (show 57 ≤ n.size - 1 + m by omega)
    rw [if_neg (by rw [Int.natAbs_natCast]; exact hfit), hr, ok_bind, ← hrv]
    refine makes_bignum hrw hrl fun hin => ?_
    have := hin.2
    rw [hrv] at this
    norm_num at this h1
    omega

theorem shiftLeft_negative (hv : v < 0) (hv' : -2 ^ 57 ≤ v)
    (hc : digitCount (v * 2 ^ m) ≤ bignumLengthMax) :
    Makes (if (m + ulongLengthInBits (BitVec.ofInt 64 (Int.lnot v))) % 2 ^ 64 ≤ fixnumLength then do
        let shifted ← shiftLong (-v) m
        let negated ← long (-shifted)
        return .fixnum (longToFixnum negated)
      else do
        let r ← unsignedLongToShiftedBignum (-v) m false
        let r ← bignumNegate r
        return .bignum r) (v * 2 ^ m) := by
  have hw := size_add_lt hv.ne hc
  have hnot : Int.lnot v = -1 - v :=
    eq_of_testBit_eq fun i => by rw [Int.testBit_lnot, testBit_neg_one_sub]
  have hc0 : 0 ≤ -1 - v := by omega
  obtain ⟨hlt, hge⟩ := size_bounds hc0
  have hmono : (-1 - v).natAbs.size ≤ v.natAbs.size := Nat.size_le_size (by omega)
  have hpow : (1 : Int) ≤ 2 ^ m := one_le_pow₀ (by norm_num)
  rw [hnot, ulongLengthInBits_ofInt hc0 (by omega), Nat.mod_eq_of_lt (by omega)]
  unfold fixnumLength
  by_cases hfit : m + (-1 - v).natAbs.size ≤ 57
  · have h1 : -v * 2 ^ m ≤ 2 ^ 57 := by
      calc -v * 2 ^ m ≤ 2 ^ (-1 - v).natAbs.size * 2 ^ m :=
            mul_le_mul_of_nonneg_right (by omega) (by positivity)
        _ = 2 ^ ((-1 - v).natAbs.size + m) := (pow_add 2 _ _).symm
        _ ≤ 2 ^ 57 := pow_le_pow_right₀ (by norm_num) (by omega)
    have h2 : 0 ≤ -v * 2 ^ m := mul_nonneg (by omega) (by positivity)
    have h3 : -(-v * 2 ^ m) = v * 2 ^ m := by ring
    rw [if_pos hfit, shiftLong_ok (by omega) (by omega) h1, ok_bind, h3]
    rw [long_ok (by omega) (by omega)]
    exact makes_fixnum ⟨by norm_num; omega, by norm_num; omega⟩
  · obtain ⟨n, hn⟩ := Int.eq_ofNat_of_zero_le (show 0 ≤ -v by omega)
    have hcn : digitCount ((n : Int) * 2 ^ m) ≤ bignumLengthMax := by
      rw [← hn, neg_mul]
      unfold digitCount
      rw [Int.natAbs_neg]
      exact hc
    obtain ⟨r, hr, hrw, hrv, hrl⟩ := makes_shifted_word (n := n) (m := m) (by omega) (by omega) hcn
    obtain ⟨z, hz, hzw, hzv⟩ := (bignumNegate_gives hrw).ok fun f hf => by
      have := hf.2
      omega
    have hval : z.toInt = v * 2 ^ m := by
      rw [hzv, hrv, ← hn]
      ring
    have hbig : (2 : Int) ^ 57 < -v * 2 ^ m := by
      by_cases hk : (-1 - v).natAbs.size = 0
      · have h1 : v = -1 := by
          have := Nat.size_eq_zero.mp hk
          omega
        have h2 : (2 : Int) ^ 57 < 2 ^ m := pow_lt_pow_right₀ (by norm_num) (by omega)
        rw [h1]
        omega
      · have h1 := pow_mul_pow_le (hge hk) (show 57 ≤ (-1 - v).natAbs.size - 1 + m by omega)
        have h2 : -v * 2 ^ m = (-1 - v) * 2 ^ m + 2 ^ m := by ring
        omega
    rw [if_neg hfit, hn, hr, ok_bind, hz, ok_bind, ← hval]
    refine makes_bignum hzw ?_ fun hin => ?_
    · rw [hzw.length_eq, hval]
      exact hc
    · have h1 := hin.1
      rw [hval] at h1
      rw [neg_mul] at hbig
      norm_num at h1 hbig
      omega

theorem integerShiftLeft_makes {n : ExactInteger} (hn : n.Canonical)
    (hc : digitCount (n.toInt * 2 ^ m) ≤ bignumLengthMax) :
    Makes (integerShiftLeft n m) (n.toInt * 2 ^ m) := by
  unfold integerShiftLeft
  by_cases hm : m = 0
  · rw [if_pos hm, hm, pow_zero, mul_one]
    exact ⟨n, rfl, hn, rfl⟩
  rw [if_neg hm]
  cases n with
  | fixnum d =>
    obtain ⟨h1, h2⟩ := fixnumToLong_range d
    norm_num at h1 h2
    change Makes _ (fixnumToLong d * 2 ^ m)
    simp only []
    by_cases hneg : fixnumToLong d < 0
    · rw [if_pos hneg]
      exact shiftLeft_negative hneg (by norm_num; omega) hc
    · rw [if_neg hneg]
      by_cases hpos : 0 < fixnumToLong d
      · rw [if_pos hpos]
        exact shiftLeft_positive hpos (by norm_num; omega) hc
      · rw [if_neg hpos, show fixnumToLong d = 0 by omega, zero_mul]
        exact makes_fixnum (by decide)
  | bignum b => exact makes_shifted_bignum hn hc

theorem fixnum_quotient_range (d m) : InRange 58 (fixnumToLong d / 2 ^ m) := by
  obtain ⟨h1, h2⟩ := fixnumToLong_range d
  have hpow : (1 : Int) ≤ 2 ^ m := one_le_pow₀ (by norm_num)
  norm_num at h1 h2
  constructor
  · rw [Int.le_ediv_iff_mul_le (by positivity)]
    norm_num
    nlinarith
  · rw [Int.ediv_lt_iff_lt_mul (by positivity)]
    norm_num
    nlinarith

theorem shiftRight_fixnum (d) (hm : m ≠ 0) :
    Makes (integerShiftRight (.fixnum d) m) (fixnumToLong d / 2 ^ m) := by
  obtain ⟨h1, h2⟩ := fixnumToLong_range d
  norm_num at h1 h2
  have hnot : ∀ v : Int, Int.lnot v = -1 - v := fun v =>
    eq_of_testBit_eq fun i => by rw [Int.testBit_lnot, testBit_neg_one_sub]
  have hrange := fixnum_quotient_range d m
  unfold integerShiftRight
  rw [if_neg hm]
  simp only []
  by_cases h64 : m ≥ 64
  · have hbig : (2 : Int) ^ 64 ≤ 2 ^ m := pow_le_pow_right₀ (by norm_num) h64
    have hv : fixnumToLong d / 2 ^ m = if fixnumToLong d < 0 then -1 else 0 := by
      split
      · rw [show fixnumToLong d = -1 - (-1 - fixnumToLong d) by ring,
          neg_one_sub_ediv _ (by positivity), Int.ediv_eq_zero_of_lt (by omega) (by omega)]
        rfl
      · exact Int.ediv_eq_zero_of_lt (by omega) (by omega)
    rw [if_pos h64, ← hv]
    exact makes_fixnum hrange
  · have hv : (if fixnumToLong d < 0 then Int.lnot (Int.lnot (fixnumToLong d) >>> m)
        else fixnumToLong d >>> m) = fixnumToLong d / 2 ^ m := by
      split
      · rw [hnot, hnot, shiftRight_eq, ← neg_one_sub_ediv _ (by positivity)]
        congr 1
        ring
      · exact shiftRight_eq _ _
    rw [if_neg h64, hv]
    exact makes_fixnum hrange

def RightShiftSafe (v : Int) (m : Nat) : Prop :=
  m = 0 ∨ (¬ (62 ≤ m ∧ PastEnd v m) ∧ CountSeen (digitCount (v / 2 ^ m)))

theorem integerShiftRight_iff {n : ExactInteger} (hn : n.Canonical)
    (hc : digitCount n.toInt < bignumLengthMax) (m) :
    Makes (integerShiftRight n m) (n.toInt / 2 ^ m) ↔ RightShiftSafe n.toInt m := by
  by_cases hm : m = 0
  · refine iff_of_true ⟨n, ?_, hn, ?_⟩ (.inl hm)
    · unfold integerShiftRight
      rw [if_pos hm]
      rfl
    · rw [hm, pow_zero, Int.ediv_one]
  unfold RightShiftSafe
  rw [or_iff_right hm]
  cases n with
  | fixnum d =>
    obtain ⟨h1, h2⟩ := fixnumToLong_range d
    obtain ⟨h3, h4⟩ := fixnum_quotient_range d m
    norm_num at h1 h2 h3 h4
    have hseen : CountSeen (digitCount (fixnumToLong d / 2 ^ m)) :=
      countSeen_of_word ⟨by omega, by omega⟩
    refine iff_of_true (shiftRight_fixnum d hm) ⟨fun hp => ?_, hseen⟩
    have hv : fixnumToLong d = -2 ^ (62 * (m / 62)) := hp.2.1
    have hpow : (2 : Int) ^ 62 ≤ 2 ^ (62 * (m / 62)) :=
      pow_le_pow_right₀ (by norm_num) (by have := hp.1; omega)
    omega
  | bignum b =>
    change Makes (integerShiftRight (.bignum b) m) (b.toInt / 2 ^ m) ↔
      ¬ (62 ≤ m ∧ PastEnd b.toInt m) ∧ CountSeen (digitCount (b.toInt / 2 ^ m))
    have hlen : b.length < bignumLengthMax := by rw [hn.wellFormed.length_eq]; exact hc
    have heq : integerShiftRight (.bignum b) m = (bignumShiftRight b m >>= bignumToInteger) := by
      unfold integerShiftRight
      rw [if_neg hm]
    obtain ⟨hok, hpast⟩ := bignumShiftRight_spec hn.wellFormed hlen m
    by_cases hp : PastEnd b.toInt m
    · have h62 : 62 ≤ m := by
        by_contra hlt
        have hv := hp.1
        rw [show m / 62 = 0 by omega, mul_zero, pow_zero] at hv
        exact hn.large (by rw [hv]; decide)
      refine iff_of_false (fun ⟨z, hz, _⟩ => ?_) fun hc => hc.1 ⟨h62, hp⟩
      rw [heq] at hz
      obtain ⟨r, hr, -⟩ := bind_eq_ok hz
      exact hpast hp r hr
    · obtain ⟨r, hr, hw, hv, hl⟩ := hok hp
      rw [heq, hr, ok_bind, ← hv, bignumToInteger_makes_iff hw hl, hw.length_eq]
      exact ⟨fun hs => ⟨fun hc => hp hc.2, hs⟩, fun hs => hs.2⟩

/-- **The left shift is exact for every result that fits in memory, and the
right shift just when** the complement of a negative operand still has a digit
at the place the shift starts from, and the digit count of the quotient
survives the cast in `bignum_to_integer`. A run that returns has not left a
digit array, so the equivalence is also the one for the bounds: the operand
`-2 ^ (62 * k)` shifted by more than `62 * k` but less than `62 * (k + 1)` bits
reads the digit `k` of its complement, which has `k` digits. -/
theorem integer_shift_exact_iff {n : ExactInteger} (hn : n.Canonical) (m : Nat) :
    (digitCount (n.toInt * 2 ^ m) ≤ bignumLengthMax →
        Makes (integerShiftLeft n m) (n.toInt * 2 ^ m)) ∧
      (digitCount n.toInt < bignumLengthMax →
        (Makes (integerShiftRight n m) (n.toInt / 2 ^ m) ↔ RightShiftSafe n.toInt m)) :=
  ⟨fun hc => integerShiftLeft_makes hn hc, fun hc => integerShiftRight_iff hn hc m⟩

/-- `-2 ^ 62` is doubled and halved. -/
theorem integer_shift_exact_two_digits :
    Makes (integerShiftLeft (.bignum ⟨true, [0, 1]⟩) 1) (-4611686018427387904 * 2 ^ 1) ∧
      Makes (integerShiftRight (.bignum ⟨true, [0, 1]⟩) 1) (-4611686018427387904 / 2 ^ 1) := by
  have hwf : (Bignum.mk true [0, 1]).WellFormed := ⟨by simp [bignumRadix], by simp, by simp⟩
  have h := integer_shift_exact_iff (n := .bignum ⟨true, [0, 1]⟩)
    (ExactInteger.CanonicalBignum.mk hwf (by decide) (by decide)) 1
  have hv : (ExactInteger.bignum ⟨true, [0, 1]⟩).toInt = -4611686018427387904 := by decide
  rw [hv] at h
  have hsize : ∀ v : Int, -2 ^ 63 ≤ v → v < 2 ^ 63 → digitCount v ≤ 2 := by
    intro v h1 h2
    have : v.natAbs.size ≤ 64 := by rw [Nat.size_le]; omega
    unfold digitCount bignumBitsToDigits
    omega
  have hmax : 2 < bignumLengthMax := by decide
  refine ⟨h.1 ?_, (h.2 ?_).mpr (.inr ⟨fun hp => absurd hp.1 (by decide), ?_⟩)⟩
  · have := hsize (-4611686018427387904 * 2 ^ 1) (by norm_num) (by norm_num)
    omega
  · have := hsize (-4611686018427387904) (by norm_num) (by norm_num)
    omega
  · exact countSeen_of_word (by norm_num)

/-- `-2 ^ 62` shifted right by 63 bits: the read is past the end of its complement. -/
theorem integer_shift_right_past_end :
    (ExactInteger.bignum ⟨true, [0, 1]⟩).Canonical ∧
      bignumBitwiseNot ⟨true, [0, 1]⟩ = .ok ⟨false, [4611686018427387903]⟩ ∧
      bignumShiftRight ⟨true, [0, 1]⟩ 63 = .error .outOfBounds ∧
      ¬ Makes (integerShiftRight (.bignum ⟨true, [0, 1]⟩) 63) (-4611686018427387904 / 2 ^ 63) := by
  have hwf : (Bignum.mk true [0, 1]).WellFormed := ⟨by simp [bignumRadix], by simp, by simp⟩
  have herr : integerShiftRight (.bignum ⟨true, [0, 1]⟩) 63 = .error .outOfBounds := by rfl
  refine ⟨ExactInteger.CanonicalBignum.mk hwf (by decide) (by decide), by rfl, by rfl, ?_⟩
  rintro ⟨z, hz, -⟩
  rw [herr] at hz
  cases hz

end MitScheme.Microcode
