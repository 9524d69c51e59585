import MitScheme.Microcode.Bits
import MitScheme.Lib.BitCount

/-! # The population count and the first set bit of `bits.h`

`ulong_bit_count` counts the bits of each byte in the byte itself, by adding up groups of bits
under masks that repeat one byte, and then adds up the bytes. -/

namespace MitScheme.Microcode.Bits
open Lib.BitCount

def ulongFirstSetBit (x : BitVec 64) : Int :=
  if x = 0#64 then -1 else ulongLengthInBits ((x ^^^ (x - 1#64)) >>> 1)

/-! ## Working byte by byte -/

/-- The byte `m`, `k` times. -/
def repeated (m : Nat) : Nat → Nat
  | 0 => 0
  | k + 1 => m + 256 * repeated m k

/-- `f` of each of `k` bytes. -/
def bytewise (f : Nat → Nat) : Nat → Nat → Nat
  | 0, _ => 0
  | k + 1, x => f (x % 256) + 256 * bytewise f k (x / 256)

/-- The sum of `f` over `k` bytes. -/
def byteSum (f : Nat → Nat) : Nat → Nat → Nat
  | 0, _ => 0
  | k + 1, x => f (x % 256) + byteSum f k (x / 256)

variable {f g : Nat → Nat} {m s k x : Nat}

theorem byte_lt (x : Nat) : x % 256 < 256 := Nat.mod_lt _ (by omega)

theorem div_byte_lt (h : x < 256 ^ (k + 1)) : x / 256 < 256 ^ k := by
  rw [pow_succ] at h
  omega

theorem bytewise_congr (h : ∀ b < 256, f b = g b) (k x : Nat) :
    bytewise f k x = bytewise g k x := by
  induction k generalizing x with
  | zero => rfl
  | succ k ih => rw [bytewise, bytewise, h _ (byte_lt x), ih]

theorem bytewise_add (k x : Nat) :
    bytewise f k x + bytewise g k x = bytewise (fun b => f b + g b) k x := by
  induction k generalizing x with
  | zero => rfl
  | succ k ih =>
    simp only [bytewise, ← ih]
    omega

theorem sub_bytewise (h : ∀ b < 256, g b ≤ b) (hx : x < 256 ^ k) :
    bytewise g k x ≤ x ∧ x - bytewise g k x = bytewise (fun b => b - g b) k x := by
  induction k generalizing x with
  | zero =>
    obtain rfl : x = 0 := by simpa using hx
    exact ⟨le_rfl, rfl⟩
  | succ k ih =>
    obtain ⟨ih1, ih2⟩ := ih (div_byte_lt hx)
    have := h _ (byte_lt x)
    simp only [bytewise, ← ih2]
    omega

theorem bytewise_comp (h : ∀ b < 256, f b < 256) (k x : Nat) :
    bytewise g k (bytewise f k x) = bytewise (fun b => g (f b)) k x := by
  induction k generalizing x with
  | zero => rfl
  | succ k ih =>
    have := h _ (byte_lt x)
    simp only [bytewise, ← ih]
    rw [show (f (x % 256) + 256 * bytewise f k (x / 256)) % 256 = f (x % 256) by omega,
      show (f (x % 256) + 256 * bytewise f k (x / 256)) / 256 = bytewise f k (x / 256) by omega]

theorem shift_land_repeated (hs : s ≤ 8) (hm : m < 2 ^ (8 - s)) (k x : Nat) :
    x / 2 ^ s &&& repeated m k = bytewise (fun b => b / 2 ^ s &&& m) k x := by
  induction k generalizing x with
  | zero => exact Nat.and_zero _
  | succ k ih =>
    have h8 : 2 ^ s * 2 ^ (8 - s) = 256 := by
      rw [← pow_add, Nat.add_sub_cancel' hs]
      norm_num
    have hb : x % 256 / 2 ^ s < 2 ^ (8 - s) := by
      rw [Nat.div_lt_iff_lt_mul (Nat.two_pow_pos s), mul_comm, h8]
      exact byte_lt x
    have hx : x / 2 ^ s = x % 256 / 2 ^ s + 2 ^ (8 - s) * (x / 256) := by
      conv_lhs => rw [← Nat.mod_add_div x 256, ← h8, mul_assoc,
        Nat.add_mul_div_left _ _ (Nat.two_pow_pos s)]
      rw [h8]
    have hm' : m + 256 * repeated m k = m + 2 ^ (8 - s) * (2 ^ s * repeated m k) := by
      rw [← mul_assoc, mul_comm (2 ^ (8 - s)), h8]
    -- above the low part the mask starts again with the next byte
    have hhigh : x / 256 &&& 2 ^ s * repeated m k =
        2 ^ s * (x / 256 / 2 ^ s &&& repeated m k) := by
      have := land_append (k := s) (a := x / 256 % 2 ^ s) (c := 0)
        (Nat.mod_lt _ (Nat.two_pow_pos s)) (Nat.two_pow_pos s) (x / 256 / 2 ^ s) (repeated m k)
      rwa [Nat.mod_add_div, zero_add, Nat.and_zero, zero_add] at this
    rw [repeated, bytewise, hm', hx, land_append hb hm, hhigh, ih, ← mul_assoc,
      mul_comm (2 ^ (8 - s)), h8]

theorem nibbles_land (h : ∀ b < 256, f b / 16 ≤ 4 ∧ f b % 16 ≤ 4) (k x : Nat) :
    bytewise f k x / 16 % 16 ≤ 4 ∧ bytewise f k x % 16 ≤ 4 ∧
      (bytewise f k x / 16 + bytewise f k x) &&& repeated 15 k =
        bytewise (fun b => f b / 16 + f b % 16) k x := by
  induction k generalizing x with
  | zero => exact ⟨by simp [bytewise], by simp [bytewise], Nat.and_zero _⟩
  | succ k ih =>
    obtain ⟨-, ih2, ih3⟩ := ih (x / 256)
    have hb := h _ (byte_lt x)
    rw [bytewise, repeated, bytewise]
    generalize f (x % 256) = b at hb ⊢
    generalize bytewise f k (x / 256) = y at ih2 ih3 ⊢
    refine ⟨by omega, by omega, ?_⟩
    have hsum : (b + 256 * y) / 16 + (b + 256 * y) =
        (b / 16 + b + 16 * (y % 16)) + 2 ^ 8 * (y / 16 + y) := by omega
    have hlow : b / 16 + b + 16 * (y % 16) &&& 15 = b / 16 + b % 16 := by
      rw [show 15 = 2 ^ 4 - 1 from rfl, Nat.and_two_pow_sub_one_eq_mod]
      omega
    have hmask : 15 + 256 * repeated 15 k = 15 + 2 ^ 8 * repeated 15 k := by norm_num
    rw [hsum, hmask, land_append (by omega) (by norm_num), hlow, ih3]
    norm_num

theorem bitCount_eq_byteSum (hx : x < 256 ^ k) : bitCount x = byteSum bitCount k x := by
  induction k generalizing x with
  | zero =>
    obtain rfl : x = 0 := by simpa using hx
    exact bitCount_zero
  | succ k ih =>
    have := bitCount_append (k := 8) (byte_lt x) (x / 256)
    rw [show 2 ^ 8 = 256 from rfl, Nat.mod_add_div] at this
    rw [this, byteSum, ih (div_byte_lt hx)]

theorem add_mul_div {l h w : Nat} (hl : l < w) : (l + w * h) / w = h := by
  rw [Nat.add_mul_div_left _ _ (by omega), Nat.div_eq_of_lt hl, zero_add]

theorem sum_bytes (h : ∀ b < 256, f b ≤ 8) (x : Nat) :
    ∃ y1 y2, bytewise f 8 x + bytewise f 8 x / 2 ^ 8 = y1 ∧ y1 + y1 / 2 ^ 16 = y2 ∧
      y2 + y2 / 2 ^ 32 < 2 ^ 64 ∧ (y2 + y2 / 2 ^ 32) % 128 = byteSum f 8 x := by
  simp only [bytewise, byteSum]
  have h0 := h _ (byte_lt x)
  have h1 := h _ (byte_lt (x / 256))
  have h2 := h _ (byte_lt (x / 256 / 256))
  have h3 := h _ (byte_lt (x / 256 / 256 / 256))
  have h4 := h _ (byte_lt (x / 256 / 256 / 256 / 256))
  have h5 := h _ (byte_lt (x / 256 / 256 / 256 / 256 / 256))
  have h6 := h _ (byte_lt (x / 256 / 256 / 256 / 256 / 256 / 256))
  have h7 := h _ (byte_lt (x / 256 / 256 / 256 / 256 / 256 / 256 / 256))
  generalize f (x % 256) = c0 at h0 ⊢
  generalize f (x / 256 % 256) = c1 at h1 ⊢
  generalize f (x / 256 / 256 % 256) = c2 at h2 ⊢
  generalize f (x / 256 / 256 / 256 % 256) = c3 at h3 ⊢
  generalize f (x / 256 / 256 / 256 / 256 % 256) = c4 at h4 ⊢
  generalize f (x / 256 / 256 / 256 / 256 / 256 % 256) = c5 at h5 ⊢
  generalize f (x / 256 / 256 / 256 / 256 / 256 / 256 % 256) = c6 at h6 ⊢
  generalize f (x / 256 / 256 / 256 / 256 / 256 / 256 / 256 % 256) = c7 at h7 ⊢
  have hsum : c0 + c1 + c2 + c3 + c4 + c5 + c6 + c7 ≤ 64 := by omega
  -- what stands below the bits that are shifted out, and these bits
  have hl0 : c0 < 2 ^ 8 := by omega
  have hl1 : c0 + c1 + 2 ^ 8 * (c1 + c2) < 2 ^ 16 := by omega
  have hl2 : c0 + c1 + c2 + c3 + 2 ^ 8 * (c1 + c2 + c3 + c4) +
      2 ^ 16 * (c2 + c3 + c4 + c5 + 2 ^ 8 * (c3 + c4 + c5 + c6)) < 2 ^ 32 := by omega
  have hl3 : c4 + c5 + c6 + c7 + 2 ^ 8 * (c5 + c6 + c7) + 2 ^ 16 * (c6 + c7 + 2 ^ 8 * c7) <
      2 ^ 31 := by omega
  clear h0 h1 h2 h3 h4 h5 h6 h7
  have hd0 : (c0 + 256 * (c1 + 256 * (c2 + 256 * (c3 + 256 * (c4 + 256 * (c5 + 256 *
      (c6 + 256 * (c7 + 256 * 0)))))))) / 2 ^ 8 = _ := add_mul_div hl0
  have hy1 : c0 + 256 * (c1 + 256 * (c2 + 256 * (c3 + 256 * (c4 + 256 * (c5 + 256 *
      (c6 + 256 * (c7 + 256 * 0))))))) + (c1 + 256 * (c2 + 256 * (c3 + 256 * (c4 + 256 * (c5 +
      256 * (c6 + 256 * (c7 + 256 * 0))))))) = (c0 + c1 + 2 ^ 8 * (c1 + c2)) + 2 ^ 16 *
      ((c2 + c3) + 2 ^ 8 * (c3 + c4) + 2 ^ 16 * ((c4 + c5) + 2 ^ 8 * (c5 + c6) +
        2 ^ 16 * ((c6 + c7) + 2 ^ 8 * c7))) := by ring
  have hy2 : (c0 + c1 + 2 ^ 8 * (c1 + c2)) + 2 ^ 16 *
      ((c2 + c3) + 2 ^ 8 * (c3 + c4) + 2 ^ 16 * ((c4 + c5) + 2 ^ 8 * (c5 + c6) +
        2 ^ 16 * ((c6 + c7) + 2 ^ 8 * c7))) +
      ((c2 + c3) + 2 ^ 8 * (c3 + c4) + 2 ^ 16 * ((c4 + c5) + 2 ^ 8 * (c5 + c6) +
        2 ^ 16 * ((c6 + c7) + 2 ^ 8 * c7))) = (c0 + c1 + c2 + c3 + 2 ^ 8 * (c1 + c2 + c3 + c4) +
      2 ^ 16 * (c2 + c3 + c4 + c5 + 2 ^ 8 * (c3 + c4 + c5 + c6))) + 2 ^ 32 *
      (c4 + c5 + c6 + c7 + 2 ^ 8 * (c5 + c6 + c7) + 2 ^ 16 * (c6 + c7 + 2 ^ 8 * c7)) := by ring
  rw [hd0, hy1]
  refine ⟨_, _, rfl, rfl, ?_⟩
  rw [add_mul_div hl1, hy2, add_mul_div hl2]
  constructor
  · generalize c0 + c1 + c2 + c3 + 2 ^ 8 * (c1 + c2 + c3 + c4) +
      2 ^ 16 * (c2 + c3 + c4 + c5 + 2 ^ 8 * (c3 + c4 + c5 + c6)) = l2 at hl2 ⊢
    generalize c4 + c5 + c6 + c7 + 2 ^ 8 * (c5 + c6 + c7) + 2 ^ 16 * (c6 + c7 + 2 ^ 8 * c7) = z2
      at hl3 ⊢
    omega
  · have hmod : (c0 + c1 + c2 + c3 + 2 ^ 8 * (c1 + c2 + c3 + c4) +
        2 ^ 16 * (c2 + c3 + c4 + c5 + 2 ^ 8 * (c3 + c4 + c5 + c6))) + 2 ^ 32 *
        (c4 + c5 + c6 + c7 + 2 ^ 8 * (c5 + c6 + c7) + 2 ^ 16 * (c6 + c7 + 2 ^ 8 * c7)) +
        (c4 + c5 + c6 + c7 + 2 ^ 8 * (c5 + c6 + c7) + 2 ^ 16 * (c6 + c7 + 2 ^ 8 * c7)) =
        (c0 + c1 + c2 + c3 + c4 + c5 + c6 + c7) + 128 * (2 * (c1 + c2 + c3 + c4) +
          2 ^ 9 * (c2 + c3 + c4 + c5 + 2 ^ 8 * (c3 + c4 + c5 + c6)) + 2 ^ 25 *
          (c4 + c5 + c6 + c7 + 2 ^ 8 * (c5 + c6 + c7) + 2 ^ 16 * (c6 + c7 + 2 ^ 8 * c7)) +
          2 * (c5 + c6 + c7) + 2 ^ 9 * (c6 + c7 + 2 ^ 8 * c7)) := by ring
    rw [hmod, Nat.add_mul_mod_self_left, Nat.mod_eq_of_lt (Nat.lt_of_le_of_lt hsum (by norm_num))]
    ring

/-! ## The population count -/

def pairs (b : Nat) : Nat := b - (b / 2 ^ 1 &&& 0x55)

def nibbles (b : Nat) : Nat := (b / 2 ^ 2 &&& 0x33) + (b / 2 ^ 0 &&& 0x33)

theorem byte_steps : ∀ b < 256, pairs b < 256 ∧ nibbles (pairs b) / 16 ≤ 4 ∧
    nibbles (pairs b) % 16 ≤ 4 ∧ nibbles (pairs b) / 16 + nibbles (pairs b) % 16 =
      ∑ i ∈ Finset.range 8, (b.testBit i).toNat := by
  decide +kernel

theorem masks_eq : (~~~0#64 / 3#64 : BitVec 64).toNat = repeated 0x55 8 ∧
    (~~~0#64 / 5#64 : BitVec 64).toNat = repeated 0x33 8 ∧
    (~~~0#64 / 17#64 : BitVec 64).toNat = repeated 15 8 := by
  decide +kernel

theorem pairs_eq (x : BitVec 64) :
    (x - ((x >>> 1) &&& (~~~0#64 / 3#64))).toNat = bytewise pairs 8 x.toNat := by
  have hx : x.toNat < 256 ^ 8 := lt_of_lt_of_eq x.isLt (by norm_num)
  have hand : ((x >>> 1) &&& (~~~0#64 / 3#64)).toNat =
      bytewise (fun b => b / 2 ^ 1 &&& 0x55) 8 x.toNat := by
    rw [← shift_land_repeated (by omega) (by norm_num), BitVec.toNat_and, masks_eq.1,
      BitVec.toNat_ushiftRight, Nat.shiftRight_eq_div_pow]
  obtain ⟨hle, hsub⟩ := sub_bytewise (g := fun b => b / 2 ^ 1 &&& 0x55)
    (fun b _ => le_trans Nat.and_le_left (Nat.div_le_self _ _)) hx
  rw [BitVec.toNat_sub_of_le (BitVec.le_def.mpr (by rwa [hand])), hand, hsub]
  exact bytewise_congr (fun _ _ => rfl) 8 _

theorem toNat_add_ok {x y : BitVec 64} (h : x.toNat + y.toNat < 2 ^ 64) :
    (x + y).toNat = x.toNat + y.toNat := by
  rw [BitVec.toNat_add, Nat.mod_eq_of_lt h]

theorem bytewise_le (h : ∀ b < 256, f b ≤ m) (k x : Nat) : bytewise f k x ≤ repeated m k := by
  induction k generalizing x with
  | zero => exact le_rfl
  | succ k ih =>
    have h1 := h _ (byte_lt x)
    have h2 := ih (x / 256)
    rw [bytewise, repeated]
    omega

theorem nibbles_le (b : Nat) : nibbles b ≤ 0x66 := by
  have h1 := Nat.and_le_right (n := b / 2 ^ 2) (m := 0x33)
  have h2 := Nat.and_le_right (n := b / 2 ^ 0) (m := 0x33)
  rw [nibbles]
  omega

theorem nibbles_eq (y : BitVec 64) :
    (((y >>> 2) &&& (~~~0#64 / 5#64)) + (y &&& (~~~0#64 / 5#64))).toNat =
      bytewise nibbles 8 y.toNat := by
  have h1 : ((y >>> 2) &&& (~~~0#64 / 5#64)).toNat =
      bytewise (fun b => b / 2 ^ 2 &&& 0x33) 8 y.toNat := by
    rw [← shift_land_repeated (by omega) (by norm_num), BitVec.toNat_and, masks_eq.2.1,
      BitVec.toNat_ushiftRight, Nat.shiftRight_eq_div_pow]
  have h2 : (y &&& (~~~0#64 / 5#64)).toNat =
      bytewise (fun b => b / 2 ^ 0 &&& 0x33) 8 y.toNat := by
    rw [← shift_land_repeated (by omega) (by norm_num), BitVec.toNat_and, masks_eq.2.1, pow_zero,
      Nat.div_one]
  have hsum := bytewise_add (f := fun b => b / 2 ^ 2 &&& 0x33) (g := fun b => b / 2 ^ 0 &&& 0x33)
    8 y.toNat
  rw [toNat_add_ok, h1, h2, hsum]
  · rfl
  · rw [h1, h2, hsum]
    exact lt_of_le_of_lt (bytewise_le (fun b _ => nibbles_le b) 8 _) (by decide)

theorem ulongBitCount_eq (x : BitVec 64) : (ulongBitCount x).toNat = bitCount x.toNat := by
  have hx : x.toNat < 256 ^ 8 := lt_of_lt_of_eq x.isLt (by norm_num)
  rw [ulongBitCount]
  generalize hy : x - ((x >>> 1) &&& (~~~0#64 / 3#64)) = y
  generalize hz : ((y >>> 2) &&& (~~~0#64 / 5#64)) + (y &&& (~~~0#64 / 5#64)) = z
  have hz' : z.toNat = bytewise (fun b => nibbles (pairs b)) 8 x.toNat := by
    rw [← hz, nibbles_eq, ← hy, pairs_eq, bytewise_comp fun b hb => (byte_steps b hb).1]
  have hzle : z.toNat ≤ repeated 0x66 8 := by
    rw [hz']
    exact bytewise_le (fun b _ => nibbles_le _) 8 _
  -- each byte counts its own bits
  have hcount (b : Nat) (hb : b < 256) :
      nibbles (pairs b) / 16 + nibbles (pairs b) % 16 = bitCount b := by
    rw [(byte_steps b hb).2.2.2, bitCount_eq_sum (k := 8) hb]
  obtain ⟨-, -, hland⟩ := nibbles_land (f := fun b => nibbles (pairs b))
    (fun b hb => ⟨(byte_steps b hb).2.1, (byte_steps b hb).2.2.1⟩) 8 x.toNat
  have hw : (((z >>> 4) + z) &&& (~~~0#64 / 17#64)).toNat = bytewise bitCount 8 x.toNat := by
    have hmax : repeated 0x66 8 / 16 + repeated 0x66 8 < 2 ^ 64 := by decide
    have hdiv := Nat.div_le_div_right (c := 16) hzle
    rw [BitVec.toNat_and, toNat_add_ok, BitVec.toNat_ushiftRight, Nat.shiftRight_eq_div_pow,
      masks_eq.2.2, hz', hland]
    · exact bytewise_congr hcount 8 _
    · rw [BitVec.toNat_ushiftRight, Nat.shiftRight_eq_div_pow]
      omega
  generalize ((z >>> 4) + z) &&& (~~~0#64 / 17#64) = w at hw
  -- the bytes are added up
  obtain ⟨y1, y2, hy1, hy2, hlt, hsum⟩ := sum_bytes (f := bitCount)
    (fun b hb => bitCount_le (k := 8) hb) x.toNat
  rw [← hw] at hy1
  have h1 : (w + w >>> 8).toNat = y1 := by
    rw [toNat_add_ok, BitVec.toNat_ushiftRight, Nat.shiftRight_eq_div_pow, hy1]
    rw [BitVec.toNat_ushiftRight, Nat.shiftRight_eq_div_pow]
    omega
  have h2 : ((w + w >>> 8) + (w + w >>> 8) >>> 16).toNat = y2 := by
    rw [toNat_add_ok, BitVec.toNat_ushiftRight, Nat.shiftRight_eq_div_pow, h1, hy2]
    rw [BitVec.toNat_ushiftRight, Nat.shiftRight_eq_div_pow, h1]
    omega
  rw [BitVec.toNat_and, toNat_add_ok, BitVec.toNat_ushiftRight, Nat.shiftRight_eq_div_pow, h2,
    show (127#64).toNat = 2 ^ 7 - 1 from rfl, Nat.and_two_pow_sub_one_eq_mod]
  · exact hsum.trans (bitCount_eq_byteSum hx).symm
  · rw [BitVec.toNat_ushiftRight, Nat.shiftRight_eq_div_pow, h2]
    exact hlt

/-! ## The first set bit -/

theorem below_first_set_bit {x k q} (h : x.toNat = 2 ^ k * (2 * q + 1)) :
    ((x ^^^ (x - 1#64)) >>> 1).toNat = 2 ^ k - 1 := by
  have hpos : 0 < x.toNat := by
    rw [h]
    positivity
  have hsub : (x - 1#64).toNat = x.toNat - 1 :=
    BitVec.toNat_sub_of_le (BitVec.le_def.mpr hpos)
  rw [BitVec.toNat_ushiftRight, BitVec.toNat_xor, hsub, h, xor_pred, Nat.shiftRight_eq_div_pow,
    pow_succ]
  omega

theorem ulongFirstSetBit_eq {x : BitVec 64} {k q : Nat} (h : x.toNat = 2 ^ k * (2 * q + 1)) :
    ulongFirstSetBit x = k := by
  have hne : x ≠ 0#64 := by
    rintro rfl
    have : 0 < 2 ^ k * (2 * q + 1) := by positivity
    rw [← h] at this
    exact absurd this (by decide)
  rw [ulongFirstSetBit, if_neg hne, ulongLengthInBits_eq, below_first_set_bit h,
    size_two_pow_sub_one]

end MitScheme.Microcode.Bits
