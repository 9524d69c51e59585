import Mathlib

/-! # Bit counts of `bits.h`

`ulong_length_in_bits` sets every bit below the leading one and then counts
the bits by adding up groups of two, four and eight bits. It returns the
number of binary digits. -/

namespace MitScheme.Microcode.Bits

def ulongBitCount (x : BitVec 64) : BitVec 64 :=
  let twoBitMask : BitVec 64 := ~~~0#64 / 3#64
  let fourBitMask : BitVec 64 := ~~~0#64 / 5#64
  let eightBitMask : BitVec 64 := ~~~0#64 / 17#64
  let finalMask : BitVec 64 := 127#64
  let x := x - ((x >>> 1) &&& twoBitMask)
  let x := ((x >>> 2) &&& fourBitMask) + (x &&& fourBitMask)
  let x := ((x >>> 4) + x) &&& eightBitMask
  let x := x + (x >>> 8)
  let x := x + (x >>> 16)
  let x := x + (x >>> 32)
  x &&& finalMask

/-- One line of `LENGTH_IN_BITS_32` and `LENGTH_IN_BITS_64`. -/
def smear (n : Nat) (x : BitVec 64) : BitVec 64 := x ||| x >>> n

def ulongLengthInBits (x : BitVec 64) : Nat :=
  (ulongBitCount (smear 32 (smear 16 (smear 8 (smear 4 (smear 2 (smear 1 x))))))).toNat

/-- Each bit of `y` says whether one of the `n` bits of `x` from its place on is set. -/
def Smeared (n : Nat) (x y : BitVec 64) : Prop :=
  ∀ i, y.getLsbD i = true ↔ ∃ d < n, x.getLsbD (i + d) = true

theorem smeared_self (x : BitVec 64) : Smeared 1 x x := by
  intro i
  refine ⟨fun h => ⟨0, by omega, h⟩, ?_⟩
  rintro ⟨d, hd, h⟩
  obtain rfl : d = 0 := by omega
  exact h

theorem Smeared.smear {n x y} (h : Smeared n x y) : Smeared (n + n) x (smear n y) := by
  intro i
  rw [Bits.smear, BitVec.getLsbD_or, BitVec.getLsbD_ushiftRight, Bool.or_eq_true, h i, h (n + i)]
  constructor
  · rintro (⟨d, hd, hb⟩ | ⟨d, hd, hb⟩)
    · exact ⟨d, by omega, hb⟩
    · exact ⟨n + d, by omega, by rwa [show i + (n + d) = n + i + d by omega]⟩
  · rintro ⟨d, hd, hb⟩
    by_cases hn : d < n
    · exact .inl ⟨d, hn, hb⟩
    · exact .inr ⟨d - n, by omega, by rwa [show n + i + (d - n) = i + d by omega]⟩

theorem Smeared.toNat_eq {x y} (h : Smeared 64 x y) : y.toNat = 2 ^ x.toNat.size - 1 := by
  refine Nat.eq_of_testBit_eq fun i => ?_
  rw [Nat.testBit_two_pow_sub_one, BitVec.testBit_toNat, Bool.eq_iff_iff, h i, decide_eq_true_iff]
  constructor
  · rintro ⟨d, -, hb⟩
    rw [← BitVec.testBit_toNat] at hb
    exact Nat.lt_of_le_of_lt (Nat.le_add_right i d) (Nat.lt_size.mpr (Nat.ge_two_pow_of_testBit hb))
  · intro hi
    obtain ⟨j, hj, hb⟩ := Nat.exists_ge_and_testBit_of_ge_two_pow (Nat.lt_size.mp hi)
    have h64 : j < 64 := by
      by_contra hc
      rw [BitVec.testBit_toNat, BitVec.getLsbD_of_ge x j (by omega)] at hb
      exact Bool.false_ne_true hb
    refine ⟨j - i, by omega, ?_⟩
    rw [← BitVec.testBit_toNat, show i + (j - i) = j by omega]
    exact hb

theorem ulongBitCount_ones : ∀ k : Fin 65,
    (ulongBitCount (BitVec.ofNat 64 (2 ^ k.1 - 1))).toNat = k.1 := by
  decide +kernel

theorem ulongLengthInBits_eq (x : BitVec 64) : ulongLengthInBits x = x.toNat.size := by
  have hs := (smeared_self x).smear.smear.smear.smear.smear.smear.toNat_eq
  have hk : x.toNat.size < 65 := Nat.lt_succ_of_le (Nat.size_le.mpr x.isLt)
  have he : smear 32 (smear 16 (smear 8 (smear 4 (smear 2 (smear 1 x))))) =
      BitVec.ofNat 64 (2 ^ x.toNat.size - 1) := by
    refine BitVec.eq_of_toNat_eq ?_
    have hlt := BitVec.isLt (smear 32 (smear 16 (smear 8 (smear 4 (smear 2 (smear 1 x))))))
    rw [BitVec.toNat_ofNat, ← hs]
    exact (Nat.mod_eq_of_lt hlt).symm
  rw [ulongLengthInBits, he]
  exact ulongBitCount_ones ⟨_, hk⟩

end MitScheme.Microcode.Bits
