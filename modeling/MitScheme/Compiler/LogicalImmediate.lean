import MitScheme.Lib.RotatedRun
import MitScheme.Runtime.IntegerBits

/-! # Logical immediates of AArch64

`logical-immediate-signed` and `logical-immediate-unsigned` of the AArch64 instruction utilities,
against the function by which the processor decodes the fields. -/

namespace MitScheme.Compiler.LogicalImmediate
open Lib.RotatedRun Lib.TwosComplement Lib.BitCount
open Runtime.IntegerBits (Result firstSetBit integerBitCount integerLength)
open Int (land lor)

/-! ## The encoder -/

/-- `bit-mask` at position 0. -/
def bitMask (size : Nat) : Int := 2 ^ size - 1

def findSmallestPeriod (imm : Int) (p : Nat) : Nat :=
  let h := p / 2
  if land imm (bitMask h) = land (imm / 2 ^ h) (bitMask h) ∧ 2 < h then
    findSmallestPeriod imm h
  else p
termination_by p

def assert (condition : Prop) [Decidable condition] : Result Unit :=
  if condition then .ok () else .error .assertion

def encode (n immr imms : Int) : Result Int := do
  assert (n = land n 1)
  assert (immr = land immr 0x3f)
  assert (imms = land imms 0x3f)
  return lor (n * 2 ^ 12) (lor (immr * 2 ^ 6) imms)

def generate (width period : Nat) (phase count : Int) : Result Int := do
  assert (phase < period)
  let immr := (period - phase) % width
  let nimms := lor (-period * 2) (count - 1)
  let n := Int.xor 1 (land 1 (nimms / 2 ^ 6))
  let imms := land nimms 0x3f
  encode n immr imms

/-- `contiguous-ones?`. -/
def contiguousOnes (x : Int) : Bool :=
  let y := lor (x - 1) x
  let z := land (y + 1) y
  z = 0

def logicalImmediateUnsigned (imm : Int) (width : Nat) : Result (Option Int) :=
  let wmask := bitMask width
  if imm ≠ 0 ∧ imm ≠ wmask ∧ imm = land imm wmask then
    let period := findSmallestPeriod imm width
    let pmask := bitMask period
    let ones := land imm pmask
    let zeros := Int.ldiff pmask imm
    let usePhase (phase : Int) := some <$> generate width period phase (integerBitCount ones)
    if contiguousOnes ones then usePhase (firstSetBit ones)
    else if contiguousOnes zeros then usePhase (integerLength zeros)
    else .ok none
  else .ok none

def logicalImmediateSigned (imm : Int) (width : Nat) : Result (Option Int) :=
  if Int.lnot (bitMask (width - 1)) ≤ imm ∧ imm ≤ bitMask (width - 1) then
    logicalImmediateUnsigned (land imm (bitMask width)) width
  else .ok none

/-- The widths of `logical-imm-s32`, `logical-imm-u32`, `logical-imm-s64` and `logical-imm-u64`. -/
inductive Width
  | w32
  | w64

def Width.bits : Width → Nat
  | .w32 => 32
  | .w64 => 64

/-! ## The decoder of the processor -/

/-- `ROR`, of a word of `size` bits. -/
def ror (size x r : Nat) : Nat := x >>> r ||| (x <<< (size - r)) % 2 ^ size

/-- `Replicate`: some copies of `x`, of `size` bits each. -/
def replicate (size x : Nat) : Nat → Nat
  | 0 => 0
  | n + 1 => 2 ^ size * replicate size x n + x

/-- The mask that `DecodeBitMasks` makes of the fields, for immediates. -/
def decodeBitMasks (width n imms immr : Nat) : Option Nat :=
  let len := Nat.log2 (n * 2 ^ 6 + (2 ^ 6 - 1 - imms))
  let esize := 2 ^ len
  let levels := esize - 1
  if len < 1 ∨ width < esize ∨ imms &&& levels = levels then none
  else
    let s := imms &&& levels
    let r := immr &&& levels
    some (replicate esize (ror esize (2 ^ (s + 1) - 1) r) (width / esize))

def decode (width : Nat) (code : Int) : Option Nat :=
  decodeBitMasks width (code.toNat >>> 12) (code.toNat % 2 ^ 6) (code.toNat >>> 6 % 2 ^ 6)

/-- The bits of a word are copies of a run of ones that has been turned. -/
def IsLogical (width : Nat) (imm : Int) : Prop :=
  ∃ e ∈ [2, 4, 8, 16, 32, 64], e ∣ width ∧ ∃ c r, 0 < c ∧ c < e ∧
    ∀ i, imm.testBit i = (decide (i < width) && run e r c i)

/-- A code is returned for the words that have one, and it is the right one. -/
structure Encodes (width : Nat) (imm : Int) (result : Result (Option Int)) : Prop where
  code : IsLogical width imm →
    ∃ code, result = .ok (some code) ∧ (decode width code).map Nat.cast = some imm
  none : ¬IsLogical width imm → result = .ok none

/-! ## The smallest period -/

section
variable {m h k p w : Nat}

theorem bitMask_eq (size) : bitMask size = ((2 ^ size - 1 : Nat) : Int) := by
  have := Nat.two_pow_pos size
  rw [bitMask]
  push_cast [Nat.cast_sub this]
  rfl

theorem land_bitMask (m size : Nat) :
    land (m : Int) (bitMask size) = ((m % 2 ^ size : Nat) : Int) := by
  rw [bitMask_eq]
  show ((m &&& (2 ^ size - 1) : Nat) : Int) = _
  rw [Nat.and_two_pow_sub_one_eq_mod]

theorem halves_eq_iff (m h : Nat) :
    land (m : Int) (bitMask h) = land ((m : Int) / 2 ^ h) (bitMask h) ↔
      ∀ i < h, m.testBit i = m.testBit (h + i) := by
  have hdiv : (m : Int) / 2 ^ h = ((m / 2 ^ h : Nat) : Int) := by push_cast; rfl
  rw [hdiv, land_bitMask, land_bitMask, Nat.cast_inj]
  constructor
  · intro heq i hi
    have hbit := congrArg (·.testBit i) heq
    simpa [Nat.testBit_mod_two_pow, Nat.testBit_div_two_pow, hi, Nat.add_comm] using hbit
  · intro hall
    refine Nat.eq_of_testBit_eq fun i => ?_
    rw [Nat.testBit_mod_two_pow, Nat.testBit_mod_two_pow, Nat.testBit_div_two_pow, Nat.add_comm i]
    by_cases hi : i < h
    · rw [hall i hi]
    · rw [decide_eq_false hi, Bool.false_and, Bool.false_and]

theorem findSmallestPeriod_spec (hk : 2 ≤ k) (hw : 2 ^ k ≤ w)
    (h : Periodic m.testBit w (2 ^ k)) :
    ∃ j, 2 ≤ j ∧ j ≤ k ∧ findSmallestPeriod m (2 ^ k) = 2 ^ j ∧ Periodic m.testBit w (2 ^ j) ∧
      (j = 2 ∨ ¬Periodic m.testBit w (2 ^ (j - 1))) := by
  induction k, hk using Nat.le_induction with
  | base =>
    refine ⟨2, le_rfl, le_rfl, ?_, h, .inl rfl⟩
    rw [findSmallestPeriod, if_neg]
    exact fun hc => absurd hc.2 (by decide)
  | succ k hk ih =>
    have hhalf : 2 ^ (k + 1) / 2 = 2 ^ k := by rw [pow_succ, Nat.mul_div_cancel _ (by decide)]
    have htwo : 2 ^ (k + 1) = 2 * 2 ^ k := by rw [pow_succ, Nat.mul_comm]
    have hbig : 2 < 2 ^ k := Nat.lt_of_lt_of_le (by decide) (Nat.pow_le_pow_right (by decide) hk)
    rw [htwo] at hw h
    have hiff := periodic_half_iff h (Nat.two_pow_pos k) hw
    by_cases hp : Periodic m.testBit w (2 ^ k)
    · obtain ⟨j, hj, hjk, hfound, hrest⟩ := ih (by omega) hp
      refine ⟨j, hj, by omega, ?_, hrest⟩
      rw [findSmallestPeriod, hhalf, if_pos ⟨(halves_eq_iff m _).mpr (hiff.mp hp), hbig⟩, hfound]
    · refine ⟨k + 1, by omega, le_rfl, ?_, by rwa [htwo], .inr hp⟩
      rw [findSmallestPeriod, hhalf, if_neg]
      exact fun hc => hp (hiff.mpr ((halves_eq_iff m _).mp hc.1))

/-! ## Contiguous ones -/

theorem contiguousOnes_iff {x : Nat} (hx : x ≠ 0) : contiguousOnes (x : Int) ↔ Contiguous x := by
  have hpred : (x : Int) - 1 = ((x - 1 : Nat) : Int) := by omega
  rw [← contiguous_iff hx, contiguousOnes, hpred, decide_eq_true_eq, Nat.and_comm]
  exact Nat.cast_inj

theorem firstSetBit_contiguous (k s : Nat) :
    firstSetBit ((2 ^ k * (2 ^ (s + 1) - 1) : Nat) : Int) = k := by
  have hodd : 2 ^ (s + 1) - 1 = 2 * (2 ^ s - 1) + 1 := by
    have := Nat.two_pow_pos s
    rw [pow_succ]
    omega
  rw [hodd]
  push_cast
  exact Runtime.IntegerBits.firstSetBit_two_pow_mul k _

theorem bitCount_contiguous (k s) : bitCount (2 ^ k * (2 ^ s - 1)) = s := by
  have happend := bitCount_append (Nat.two_pow_pos k) (2 ^ s - 1)
  rwa [Nat.zero_add, bitCount_two_pow_sub_one, show bitCount 0 = 0 by decide, Nat.zero_add] at happend

theorem size_contiguous (k s) : (2 ^ k * (2 ^ (s + 1) - 1)).size = k + (s + 1) := by
  have happend := size_append (Nat.two_pow_pos k) (b := 2 ^ (s + 1) - 1)
    (by have := Nat.two_pow_pos s; rw [pow_succ]; omega)
  rwa [Nat.zero_add, size_two_pow_sub_one] at happend

theorem bitCount_complement {k s p} (h : k + s ≤ p) :
    bitCount (2 ^ p - 1 - 2 ^ k * (2 ^ s - 1)) = p - s := by
  have hsplit : 2 ^ p - 1 - 2 ^ k * (2 ^ s - 1) =
      (2 ^ k - 1) + 2 ^ k * (0 + 2 ^ s * (2 ^ (p - (k + s)) - 1)) := by
    obtain ⟨d, rfl⟩ := Nat.exists_eq_add_of_le h
    have hk := Nat.two_pow_pos k
    have hs := Nat.two_pow_pos s
    have hd := Nat.two_pow_pos d
    rw [Nat.add_sub_cancel_left, Nat.zero_add, pow_add, pow_add, Nat.mul_sub, Nat.mul_sub,
      Nat.mul_sub, ← Nat.mul_assoc, Nat.mul_one, Nat.mul_one]
    have hle : 2 ^ k * 2 ^ s * 1 ≤ 2 ^ k * 2 ^ s * 2 ^ d := Nat.mul_le_mul_left _ hd
    have hle' : 2 ^ k * 1 ≤ 2 ^ k * 2 ^ s := Nat.mul_le_mul_left _ hs
    omega
  have hk := Nat.two_pow_pos k
  rw [hsplit, bitCount_append (by omega), bitCount_append (Nat.two_pow_pos s),
    bitCount_two_pow_sub_one, bitCount_two_pow_sub_one, show bitCount 0 = 0 by decide]
  omega

/-! ## The decoder -/

theorem testBit_ror {e c r i} (hc : c ≤ e) (hr : r < e) (hi : i < e) :
    (ror e (2 ^ c - 1) r).testBit i = run e r c i := by
  rw [ror, run, Nat.testBit_or, Nat.testBit_shiftRight, Nat.testBit_mod_two_pow,
    Nat.testBit_shiftLeft, Nat.testBit_two_pow_sub_one, Nat.testBit_two_pow_sub_one,
    ← Bool.decide_and, ← Bool.decide_and, ← Bool.decide_or, decide_eq_decide]
  rcases Nat.lt_or_ge (i + r) e with hlow | hhigh
  · rw [Nat.mod_eq_of_lt hlow]
    omega
  · rw [Nat.mod_eq_sub_mod hhigh, Nat.mod_eq_of_lt (by omega)]
    omega

theorem ror_lt {e x r} (hx : x < 2 ^ e) : ror e x r < 2 ^ e := by
  refine Nat.or_lt_two_pow ?_ (Nat.mod_lt _ (Nat.two_pow_pos e))
  rw [Nat.shiftRight_eq_div_pow]
  exact Nat.lt_of_le_of_lt (Nat.div_le_self _ _) hx

theorem testBit_replicate {e x} (hx : x < 2 ^ e) (n i) :
    (replicate e x n).testBit i = (decide (i < e * n) && x.testBit (i % e)) := by
  induction n generalizing i with
  | zero => rw [replicate, Nat.zero_testBit, Nat.mul_zero, decide_eq_false (Nat.not_lt_zero i),
      Bool.false_and]
  | succ n ih =>
    rw [replicate, Nat.testBit_two_pow_mul_add _ hx, Nat.mul_succ]
    rcases Nat.lt_or_ge i e with hlow | hhigh
    · rw [if_pos hlow, Nat.mod_eq_of_lt hlow, decide_eq_true (by omega), Bool.true_and]
    · rw [if_neg (by omega), ih, Nat.mod_eq_sub_mod hhigh]
      congr 1
      rw [decide_eq_decide]
      omega

theorem decodeBitMasks_run {j c r n imms} (hj : 1 ≤ j) (hj' : j ≤ 6) (hw : 2 ^ j ∣ w)
    (hpos : 0 < w) (hc : 0 < c) (hcp : c < 2 ^ j)
    (hfields : n * 2 ^ 6 + (2 ^ 6 - 1 - imms) = 2 ^ j + (2 ^ j - c))
    (himms : imms % 2 ^ j = c - 1) :
    ∃ m, decodeBitMasks w n imms r = some m ∧
      ∀ i, m.testBit i = (decide (i < w) && run (2 ^ j) r c i) := by
  have hlog : Nat.log2 (n * 2 ^ 6 + (2 ^ 6 - 1 - imms)) = j := by
    rw [Nat.log2_eq_iff (by omega), hfields, pow_succ]
    omega
  have hle := Nat.le_of_dvd hpos hw
  have hr := Nat.mod_lt r (Nat.two_pow_pos j)
  refine ⟨replicate (2 ^ j) (ror (2 ^ j) (2 ^ c - 1) (r % 2 ^ j)) (w / 2 ^ j), ?_, fun i => ?_⟩
  · unfold decodeBitMasks
    simp only [hlog, Nat.and_two_pow_sub_one_eq_mod, himms]
    rw [if_neg (by omega), Nat.sub_add_cancel hc]
  · have hword : 2 ^ c - 1 < 2 ^ 2 ^ j := by
      have := Nat.pow_le_pow_right (show 0 < 2 by decide) hcp.le
      have := Nat.two_pow_pos c
      omega
    rw [testBit_replicate (ror_lt hword), Nat.mul_div_cancel' hw,
      testBit_ror hcp.le hr (Nat.mod_lt _ (Nat.two_pow_pos j)), run_mod, run, run, Nat.mod_add_mod]

/-! ## The fields -/

theorem lor_negative (k c : Nat) (hc : c < 2 ^ k) :
    lor (-(2 ^ k : Nat)) (c : Int) = -(2 ^ k : Nat) + (c : Int) := by
  refine eq_of_testBit_eq fun i => ?_
  have hneg : -((2 ^ k : Nat) : Int) = -1 - ((2 ^ k - 1 : Nat) : Int) := by
    have := Nat.two_pow_pos k
    omega
  have hsum : -((2 ^ k : Nat) : Int) + c = -1 - ((2 ^ k - (c + 1) : Nat) : Int) := by omega
  rw [Int.testBit_lor, hsum, hneg, testBit_neg_one_sub, testBit_neg_one_sub, testBit_natCast,
    testBit_natCast, testBit_natCast, Nat.testBit_two_pow_sub_one, Nat.testBit_two_pow_sub_succ hc]
  cases decide (i < k) <;> simp

theorem assert_bind {condition : Prop} [Decidable condition] {α : Type} {f : Unit → Result α}
    (h : condition) : (assert condition >>= f) = f () := by
  rw [assert, if_pos h]
  rfl

theorem encode_ok {n immr imms : Nat} (hn : n < 2) (hr : immr < 64) (hs : imms < 64) :
    encode n immr imms = .ok ((n * 2 ^ 12 + immr * 2 ^ 6 + imms : Nat) : Int) := by
  have hfield (size x : Nat) (hx : x < 2 ^ size) :
      (x : Int) = land x ((2 ^ size - 1 : Nat) : Int) := by
    rw [← bitMask_eq, land_bitMask, Nat.mod_eq_of_lt hx]
  rw [encode, assert_bind (show (n : Int) = land n 1 from hfield 1 n hn),
    assert_bind (show (immr : Int) = land immr 0x3f from hfield 6 immr hr),
    assert_bind (show (imms : Int) = land imms 0x3f from hfield 6 imms hs)]
  have hlow : lor ((immr : Int) * 2 ^ 6) imms = ((2 ^ 6 * immr + imms : Nat) : Int) := by
    rw [Nat.two_pow_add_eq_or_of_lt hs, Nat.mul_comm]
    rfl
  have hhigh : lor ((n : Int) * 2 ^ 12) ((2 ^ 6 * immr + imms : Nat) : Int) =
      ((2 ^ 12 * n + (2 ^ 6 * immr + imms) : Nat) : Int) := by
    rw [Nat.two_pow_add_eq_or_of_lt (i := 12) (by omega), Nat.mul_comm (2 ^ 12)]
    rfl
  rw [hlow, hhigh]
  congr 2
  omega

/-- The fields N and imms: the zeros above the count tell the period. -/
def periodN (j : Nat) : Nat := if j = 6 then 1 else 0

def periodImms (j c : Nat) : Nat := if j = 6 then c - 1 else 64 - 2 ^ (j + 1) + (c - 1)

def PeriodFields (j c : Nat) : Prop :=
  Int.xor 1 (land 1 ((-((2 ^ (j + 1) : Nat) : Int) + ((c - 1 : Nat) : Int)) / 2 ^ 6)) =
      periodN j ∧
    land (-((2 ^ (j + 1) : Nat) : Int) + ((c - 1 : Nat) : Int)) 0x3f = periodImms j c ∧
    periodN j * 2 ^ 6 + (2 ^ 6 - 1 - periodImms j c) = 2 ^ j + (2 ^ j - c) ∧
    periodImms j c % 2 ^ j = c - 1 ∧ periodN j < 2 ∧ periodImms j c < 64

instance (j c : Nat) : Decidable (PeriodFields j c) :=
  instDecidableAnd

theorem period_fields : ∀ j < 7, 2 ≤ j → ∀ c < 2 ^ j, 0 < c → PeriodFields j c := by
  decide +kernel

theorem generate_decode {j c phase : Nat} (hj : 2 ≤ j) (hj' : j ≤ 6) (hw : 2 ^ j ∣ w)
    (hpos : 0 < w) (hw' : w ≤ 64) (hc : 0 < c) (hcp : c < 2 ^ j) (hphase : phase < 2 ^ j) :
    ∃ code m, generate w (2 ^ j : Nat) phase c = .ok code ∧ decode w code = some m ∧
      ∀ i, m.testBit i = (decide (i < w) && run (2 ^ j) (2 ^ j - phase) c i) := by
  have himmr : ((2 ^ j : Nat) - (phase : Int)) % (w : Int) = (((2 ^ j - phase) % w : Nat) : Int) := by
    rw [← Nat.cast_sub hphase.le, ← Int.natCast_mod]
  have hnimms : lor (-((2 ^ j : Nat) : Int) * 2) ((c : Int) - 1) =
      -((2 ^ (j + 1) : Nat) : Int) + ((c - 1 : Nat) : Int) := by
    rw [← lor_negative (j + 1) (c - 1) (by rw [pow_succ]; omega), pow_succ]
    congr 1 <;> push_cast <;> omega
  obtain ⟨hn, hs, hfields, himms, hn', hs'⟩ := period_fields j (by omega) hj c hcp hc
  have hr : (2 ^ j - phase) % w < 64 := Nat.lt_of_lt_of_le (Nat.mod_lt _ hpos) hw'
  obtain ⟨m, hm, hbits⟩ := decodeBitMasks_run (r := (2 ^ j - phase) % w) (by omega) hj' hw hpos hc
    hcp hfields himms
  refine ⟨((periodN j * 2 ^ 12 + (2 ^ j - phase) % w * 2 ^ 6 + periodImms j c : Nat) : Int), m, ?_,
    ?_, fun i => ?_⟩
  · rw [generate, assert_bind (by exact_mod_cast hphase)]
    simp only [himmr, hnimms, hn, hs]
    exact encode_ok hn' hr hs'
  · rw [decode, Int.toNat_natCast, Nat.shiftRight_eq_div_pow, Nat.shiftRight_eq_div_pow, ← hm]
    congr 1 <;> omega
  · rw [hbits, ← run_mod, Nat.mod_mod_of_dvd _ hw, run_mod]

/-! ## Words -/

theorem ldiff_bitMask (m p : Nat) :
    Int.ldiff (bitMask p) m = ((2 ^ p - 1 - m % 2 ^ p : Nat) : Int) := by
  have hlt := Nat.mod_lt m (Nat.two_pow_pos p)
  refine eq_of_testBit_eq fun i => ?_
  rw [Int.testBit_ldiff, bitMask_eq, testBit_natCast, testBit_natCast, testBit_natCast,
    Nat.testBit_two_pow_sub_one, show 2 ^ p - 1 - m % 2 ^ p = 2 ^ p - (m % 2 ^ p + 1) by omega,
    Nat.testBit_two_pow_sub_succ hlt, Nat.testBit_mod_two_pow]
  cases decide (i < p) <;> simp

theorem integerBitCount_natCast (x : Nat) : integerBitCount (x : Int) = bitCount x := by
  rw [integerBitCount, offSign_of_nonneg (Int.natCast_nonneg x), Int.natAbs_natCast]

theorem integerLength_natCast (x : Nat) : integerLength (x : Int) = x.size := by
  rw [integerLength, offSign_of_nonneg (Int.natCast_nonneg x), Int.natAbs_natCast]

theorem contiguous_le {q s p} (h : 2 ^ q * (2 ^ (s + 1) - 1) < 2 ^ p) : q + (s + 1) ≤ p := by
  have htop : 2 ^ (q + s) ≤ 2 ^ q * (2 ^ (s + 1) - 1) := by
    rw [pow_add]
    refine Nat.mul_le_mul_left _ ?_
    have := Nat.two_pow_pos s
    rw [pow_succ]
    omega
  exact (Nat.pow_lt_pow_iff_right (by decide)).mp (Nat.lt_of_le_of_lt htop h)

theorem period_proper (h0 : m ≠ 0) (h1 : m < 2 ^ w - 1) (hp : 0 < p)
    (hmod : ∀ i < w, m.testBit i = m.testBit (i % p)) :
    m % 2 ^ p ≠ 0 ∧ 2 ^ p - 1 - m % 2 ^ p ≠ 0 := by
  have hlt := Nat.mod_lt m (Nat.two_pow_pos p)
  constructor
  · intro hzero
    obtain ⟨i, hi⟩ := Nat.exists_testBit_of_ne_zero h0
    have hiw : i < w := by
      by_contra hge
      rw [Nat.testBit_lt_two_pow (Nat.lt_of_lt_of_le (by omega : m < 2 ^ w)
        (Nat.pow_le_pow_right (by decide) (Nat.not_lt.mp hge)))] at hi
      cases hi
    have hbit := congrArg (·.testBit (i % p)) hzero
    rw [hmod i hiw] at hi
    simp only [Nat.testBit_mod_two_pow, decide_eq_true (Nat.mod_lt i hp), hi, Nat.zero_testBit] at hbit
    cases hbit
  · intro hfull
    obtain ⟨i, hi⟩ := Nat.exists_testBit_of_ne_zero (show 2 ^ w - (m + 1) ≠ 0 by omega)
    rw [Nat.testBit_two_pow_sub_succ (by omega), Bool.and_eq_true, decide_eq_true_eq,
      Bool.not_eq_true'] at hi
    have hbit := congrArg (·.testBit (i % p)) (show m % 2 ^ p = 2 ^ p - 1 by omega)
    rw [hmod i hi.1] at hi
    simp only [Nat.testBit_mod_two_pow, Nat.testBit_two_pow_sub_one,
      decide_eq_true (Nat.mod_lt i hp), hi.2] at hbit
    cases hbit

theorem generate_word {j c phase : Nat} (hj : 2 ≤ j) (hj' : j ≤ 6) (hw : 2 ^ j ∣ w) (hpos : 0 < w)
    (hw' : w ≤ 64) (hc : 0 < c) (hcp : c < 2 ^ j) (hphase : phase < 2 ^ j) (hm : m < 2 ^ w)
    (hmod : ∀ i < w, m.testBit i = m.testBit (i % 2 ^ j))
    (hrun : ∀ i < 2 ^ j, m.testBit i = run (2 ^ j) (2 ^ j - phase) c i) :
    IsLogical w m ∧
      ∃ code, generate w (2 ^ j : Nat) phase c = .ok code ∧ decode w code = some m := by
  have hbits (i : Nat) : m.testBit i = (decide (i < w) && run (2 ^ j) (2 ^ j - phase) c i) := by
    by_cases hi : i < w
    · rw [hmod i hi, hrun _ (Nat.mod_lt _ (Nat.two_pow_pos j)), decide_eq_true hi, Bool.true_and, run,
        run, Nat.mod_add_mod]
    · rw [decide_eq_false hi, Bool.false_and]
      exact Nat.testBit_lt_two_pow (Nat.lt_of_lt_of_le hm
        (Nat.pow_le_pow_right (by decide) (Nat.not_lt.mp hi)))
  refine ⟨⟨2 ^ j, ?_, hw, c, 2 ^ j - phase, hc, hcp, hbits⟩, ?_⟩
  · interval_cases j <;> decide
  · obtain ⟨code, m', hcode, hm', hbits'⟩ := generate_decode hj hj' hw hpos hw' hc hcp hphase
    obtain rfl : m' = m := Nat.eq_of_testBit_eq fun i => (hbits' i).trans (hbits i).symm
    exact ⟨code, hcode, hm'⟩

theorem period_unique {b : Nat → Bool} {j l c r} (hj : 2 ≤ j) (hl : 2 ≤ l) (hlw : 2 ^ l ≤ w)
    (hper : Periodic b w (2 ^ j)) (hmin : j = 2 ∨ ¬Periodic b w (2 ^ (j - 1))) (hc : 0 < c)
    (hcl : c < 2 ^ l) (hrun : ∀ i < w, b i = run (2 ^ l) r c i) : j = l := by
  have hpos := Nat.two_pow_pos
  have hdvd {i i' : Nat} (h : i ≤ i') : 2 ^ i ∣ 2 ^ i' := Nat.pow_dvd_pow 2 h
  rcases Nat.lt_trichotomy j l with hlt | heq | hgt
  · have hhalf := (hper.of_dvd (hpos j) (hpos (l - 1)) (hdvd (by omega))).congr hrun
    obtain ⟨l, rfl⟩ := Nat.exists_eq_add_of_le' (show 1 ≤ l by omega)
    rw [pow_succ, Nat.mul_comm] at hlw hcl hhalf
    exact absurd hhalf (run_not_periodic_half hc hcl hlw)
  · exact heq
  · have hlong := (run_periodic (2 ^ l) r c w).congr fun i hi => (hrun i hi).symm
    exact absurd (hlong.of_dvd (hpos l) (hpos (j - 1)) (hdvd (by omega)))
      (hmin.resolve_left (by omega))

end

variable (width : Width)

theorem Width.exists_pow : ∃ k, 5 ≤ k ∧ k ≤ 6 ∧ width.bits = 2 ^ k := by
  cases width with
  | w32 => exact ⟨5, by decide⟩
  | w64 => exact ⟨6, by decide⟩

theorem log_of_mem {e} (he : e ∈ [2, 4, 8, 16, 32, 64]) (hne : e ≠ 2) : ∃ l, 2 ≤ l ∧ e = 2 ^ l := by
  simp only [List.mem_cons, List.not_mem_nil, or_false] at he
  rcases he with rfl | rfl | rfl | rfl | rfl | rfl
  · exact absurd rfl hne
  · exact ⟨2, by decide⟩
  · exact ⟨3, by decide⟩
  · exact ⟨4, by decide⟩
  · exact ⟨5, by decide⟩
  · exact ⟨6, by decide⟩

theorem word_cases {m : Nat} (h0 : m ≠ 0) (h1 : m < 2 ^ width.bits - 1) :
    (IsLogical width.bits m ∧ ∃ code, logicalImmediateUnsigned m width.bits = .ok (some code) ∧
      decode width.bits code = some m) ∨
    (logicalImmediateUnsigned m width.bits = .ok none ∧
      ∀ e ∈ [2, 4, 8, 16, 32, 64], e ≠ 2 → e ∣ width.bits → ∀ c r, 0 < c → c < e →
        ¬∀ i < width.bits, m.testBit i = run e r c i) := by
  obtain ⟨k, hk, hk', hwidth⟩ := width.exists_pow
  generalize width.bits = w at *
  subst hwidth
  have hpos := Nat.two_pow_pos k
  have hw' : 2 ^ k ≤ 64 := Nat.pow_le_pow_right (by decide) hk'
  obtain ⟨j, hj, hjk, hfound, hper, hmin⟩ := findSmallestPeriod_spec (m := m)
    (show 2 ≤ k by omega) (Nat.le_refl _) fun i hi => absurd hi (by omega)
  have hdvd : 2 ^ j ∣ 2 ^ k := Nat.pow_dvd_pow 2 hjk
  have hmod := (periodic_iff (Nat.two_pow_pos j)).mp hper
  obtain ⟨hx0, hx1⟩ := period_proper h0 h1 (Nat.two_pow_pos j) hmod
  have hx := Nat.mod_lt m (Nat.two_pow_pos (2 ^ j))
  have hentry : (m : Int) ≠ 0 ∧ (m : Int) ≠ bitMask (2 ^ k) ∧
      (m : Int) = land m (bitMask (2 ^ k)) := by
    refine ⟨Nat.cast_ne_zero.mpr h0, ?_, ?_⟩
    · rw [bitMask_eq, Ne, Nat.cast_inj]
      omega
    · rw [land_bitMask, Nat.mod_eq_of_lt (by omega)]
  have hxbit {i : Nat} (hi : i < 2 ^ j) : m.testBit i = (m % 2 ^ 2 ^ j).testBit i := by
    rw [Nat.testBit_mod_two_pow, decide_eq_true hi, Bool.true_and]
  rw [logicalImmediateUnsigned, if_pos hentry]
  simp only [hfound, land_bitMask, ldiff_bitMask, integerBitCount_natCast, integerLength_natCast]
  by_cases hones : Contiguous (m % 2 ^ 2 ^ j)
  · left
    obtain ⟨q, s, hxs⟩ := hones
    have hfit := contiguous_le (hxs ▸ hx)
    have hlt : s + 1 < 2 ^ j := by
      by_contra hge
      obtain rfl : q = 0 := by omega
      rw [hxs, show s + 1 = 2 ^ j by omega, pow_zero, Nat.one_mul] at hx1
      omega
    obtain ⟨hlogical, code, hcode, hdecode⟩ := generate_word hj (by omega) hdvd hpos hw'
      (Nat.succ_pos s) hlt (show q < 2 ^ j by omega) (by omega) hmod fun i hi => by
        rw [hxbit hi, hxs, testBit_contiguous, run_of_contiguous hfit hi]
    refine ⟨hlogical, code, ?_, hdecode⟩
    rw [if_pos ((contiguousOnes_iff hx0).mpr ⟨q, s, hxs⟩), hxs, firstSetBit_contiguous,
      bitCount_contiguous, hcode]
    rfl
  · rw [if_neg (mt (contiguousOnes_iff hx0).mp hones)]
    by_cases hzeros : Contiguous (2 ^ 2 ^ j - 1 - m % 2 ^ 2 ^ j)
    · left
      obtain ⟨q, s, hxs⟩ := hzeros
      have hfit := contiguous_le (show 2 ^ q * (2 ^ (s + 1) - 1) < 2 ^ 2 ^ j by omega)
      have hxeq : m % 2 ^ 2 ^ j = 2 ^ 2 ^ j - 1 - 2 ^ q * (2 ^ (s + 1) - 1) := by omega
      have hlt : q + (s + 1) < 2 ^ j := by
        by_contra hge
        have hq : m % 2 ^ 2 ^ j = 2 ^ q - 1 := by
          rw [hxeq, ← Nat.le_antisymm hfit (Nat.not_lt.mp hge), pow_add, Nat.mul_sub, Nat.mul_one]
          have := Nat.le_mul_of_pos_right (2 ^ q) (Nat.two_pow_pos (s + 1))
          have := Nat.two_pow_pos q
          omega
        cases q with
        | zero => exact hx0 hq
        | succ q => exact hones ⟨0, q, by rw [hq, pow_zero, Nat.one_mul]⟩
      obtain ⟨hlogical, code, hcode, hdecode⟩ := generate_word (c := 2 ^ j - (s + 1)) hj (by omega)
        hdvd hpos hw' (by omega) (by omega) hlt (by omega) hmod fun i hi => by
          have hbit := congrArg (·.testBit i) hxs
          simp only [testBit_contiguous, show 2 ^ 2 ^ j - 1 - m % 2 ^ 2 ^ j =
            2 ^ 2 ^ j - (m % 2 ^ 2 ^ j + 1) by omega, Nat.testBit_two_pow_sub_succ hx,
            decide_eq_true hi, Bool.true_and] at hbit
          rw [hxbit hi, run_of_complement hfit hi, ← hbit, Bool.not_not]
      refine ⟨hlogical, code, ?_, hdecode⟩
      rw [if_pos ((contiguousOnes_iff hx1).mpr ⟨q, s, hxs⟩), hxs, size_contiguous, hxeq,
        bitCount_complement hfit, hcode]
      rfl
    · rw [if_neg (mt (contiguousOnes_iff hx1).mp hzeros)]
      refine .inr ⟨rfl, fun e he hne hew c r hc hce hrun => ?_⟩
      obtain ⟨l, hl, rfl⟩ := log_of_mem he hne
      obtain rfl := period_unique hj hl (Nat.le_of_dvd hpos hew) hper hmin hc hce hrun
      have hle := Nat.le_of_dvd hpos hdvd
      exact (contiguous_or_of_run hx hc hce fun i hi => (hxbit hi).symm.trans
        (hrun i (by omega))).elim hones hzeros

/-! ## All integers -/

def alternating : Width → List Int
  | .w32 => [0x55555555, 0xAAAAAAAA]
  | .w64 => [0x5555555555555555, 0xAAAAAAAAAAAAAAAA]

theorem alternating_mem (r) :
    ∃ imm ∈ alternating width,
      ∀ i, imm.testBit i = (decide (i < width.bits) && run 2 r 1 i) := by
  have hbits (n w r : Nat) (hn : n < 2 ^ w)
      (hlow : ∀ i < w, n.testBit i = run 2 r 1 i) (i : Nat) :
      (n : Int).testBit i = (decide (i < w) && run 2 r 1 i) := by
    by_cases hi : i < w
    · rw [testBit_natCast, hlow i hi, decide_eq_true hi, Bool.true_and]
    · rw [testBit_natCast, decide_eq_false hi, Bool.false_and]
      exact Nat.testBit_lt_two_pow (Nat.lt_of_lt_of_le hn
        (Nat.pow_le_pow_right (by decide) (Nat.not_lt.mp hi)))
  simp only [← run_mod 2 r]
  have hr : r % 2 = 0 ∨ r % 2 = 1 := by omega
  cases width with
  | w32 =>
    rcases hr with h | h <;> rw [h]
    · exact ⟨_, List.mem_cons_self, hbits 0x55555555 32 0 (by decide) (by decide +kernel)⟩
    · exact ⟨_, List.mem_cons_of_mem _ List.mem_cons_self,
        hbits 0xAAAAAAAA 32 1 (by decide) (by decide +kernel)⟩
  | w64 =>
    rcases hr with h | h <;> rw [h]
    · exact ⟨_, List.mem_cons_self, hbits 0x5555555555555555 64 0 (by decide) (by decide +kernel)⟩
    · exact ⟨_, List.mem_cons_of_mem _ List.mem_cons_self,
        hbits 0xAAAAAAAAAAAAAAAA 64 1 (by decide) (by decide +kernel)⟩

theorem alternating_isLogical : ∀ imm ∈ alternating width, IsLogical width.bits imm := by
  have hmem (r : Nat) := alternating_mem width r
  have hdvd : 2 ∣ width.bits := by cases width <;> decide
  obtain ⟨a, ha, habits⟩ := hmem 0
  obtain ⟨b, hb, hbbits⟩ := hmem 1
  have hne : a ≠ b := by
    rintro rfl
    have h0 := (habits 0).symm.trans (hbbits 0)
    cases width <;> exact absurd h0 (by decide)
  have hlogical {imm : Int} {r : Nat}
      (h : ∀ i, imm.testBit i = (decide (i < width.bits) && run 2 r 1 i)) :
      IsLogical width.bits imm := ⟨2, by decide, hdvd, 1, r, by decide, by decide, h⟩
  intro imm himm
  have hcases : imm = a ∨ imm = b := by
    cases width <;>
      simp only [alternating, List.mem_cons, List.not_mem_nil, or_false] at ha hb himm <;> omega
  rcases hcases with rfl | rfl
  · exact hlogical habits
  · exact hlogical hbbits

theorem alternating_refused :
    ∀ imm ∈ alternating width, logicalImmediateUnsigned imm width.bits = .ok none := by
  cases width <;> decide +kernel

theorem IsLogical.entry {width} (hpos : 0 < width) {imm} (h : IsLogical width imm) :
    imm ≠ 0 ∧ imm ≠ bitMask width ∧ imm = land imm (bitMask width) := by
  obtain ⟨e, -, hew, c, r, hc, hce, hbits⟩ := h
  have hle := Nat.le_of_dvd hpos hew
  refine ⟨?_, ?_, ?_⟩
  · rintro rfl
    obtain ⟨i, hi, hturned⟩ := exists_turned r (show 0 < e by omega)
    have hbit := hbits i
    rw [testBit_zero, decide_eq_true (by omega), run, hturned, decide_eq_true hc] at hbit
    cases hbit
  · rintro rfl
    obtain ⟨i, hi, hturned⟩ := exists_turned r (show e - 1 < e by omega)
    have hbit := hbits i
    rw [bitMask_eq, testBit_natCast, Nat.testBit_two_pow_sub_one, decide_eq_true (by omega), run,
      hturned, decide_eq_false (by omega)] at hbit
    cases hbit
  · refine eq_of_testBit_eq fun i => ?_
    rw [Int.testBit_land, bitMask_eq, testBit_natCast, Nat.testBit_two_pow_sub_one, hbits]
    cases decide (i < width) <;> simp

theorem exists_word {width imm} (h : imm = land imm (bitMask width)) :
    ∃ m : Nat, imm = m ∧ m < 2 ^ width := by
  have hbits (i : Nat) (hi : width ≤ i) : imm.testBit i = false := by
    rw [h, Int.testBit_land, bitMask_eq, testBit_natCast, Nat.testBit_two_pow_sub_one,
      decide_eq_false (by omega), Bool.and_false]
  obtain ⟨k, hk⟩ := exists_testBit_sign imm
  have hsign := (hk (max k width) (le_max_left _ _)).symm.trans (hbits _ (le_max_right _ _))
  obtain ⟨m, rfl⟩ := Int.eq_ofNat_of_zero_le (Int.not_lt.mp (decide_eq_false_iff_not.mp hsign))
  exact ⟨m, rfl, Nat.lt_pow_two_of_testBit m fun i hi => hbits i hi⟩

theorem unsigned_spec (imm) :
    (∃ result, logicalImmediateUnsigned imm width.bits = .ok result) ∧
      (Encodes width.bits imm (logicalImmediateUnsigned imm width.bits) ↔
        imm ∉ alternating width) := by
  have hpos : 0 < width.bits := by cases width <;> decide
  by_cases hentry : imm ≠ 0 ∧ imm ≠ bitMask width.bits ∧ imm = land imm (bitMask width.bits)
  · obtain ⟨m, rfl, hm⟩ := exists_word hentry.2.2
    have h1 : m < 2 ^ width.bits - 1 := by
      have hne := hentry.2.1
      rw [bitMask_eq, Ne, Nat.cast_inj] at hne
      omega
    rcases word_cases width (Nat.cast_ne_zero.mp hentry.1) h1 with
      ⟨hlogical, code, hcode, hdecode⟩ | ⟨hnone, hnot⟩
    · refine ⟨⟨_, hcode⟩, iff_of_true ⟨fun _ => ⟨code, hcode, by rw [hdecode]; rfl⟩,
        fun hc => absurd hlogical hc⟩ fun halt => ?_⟩
      rw [alternating_refused width _ halt] at hcode
      cases hcode
    · refine ⟨⟨_, hnone⟩, ⟨fun hright halt => ?_, fun halt => ⟨fun hlogical => ?_, fun _ => hnone⟩⟩⟩
      · obtain ⟨code, hcode, -⟩ := hright.code (alternating_isLogical width _ halt)
        rw [hnone] at hcode
        cases hcode
      · obtain ⟨e, he, hew, c, r, hc, hce, hbits⟩ := hlogical
        by_cases htwo : e = 2
        · subst htwo
          obtain rfl : c = 1 := by omega
          obtain ⟨imm, himm, hbits'⟩ := alternating_mem width r
          exact absurd (eq_of_testBit_eq (fun i => (hbits' i).trans (hbits i).symm) ▸ himm) halt
        · refine absurd (fun i hi => ?_) (hnot e he htwo hew c r hc hce)
          rw [← testBit_natCast, hbits, decide_eq_true hi, Bool.true_and]
  · have hnone : logicalImmediateUnsigned imm width.bits = .ok none := if_neg hentry
    refine ⟨⟨_, hnone⟩, iff_of_true ⟨fun hlogical => absurd (hlogical.entry hpos) hentry,
      fun _ => hnone⟩ fun halt => hentry ((alternating_isLogical width _ halt).entry hpos)⟩

def InRange (width : Nat) (imm : Int) : Prop :=
  Int.lnot (bitMask (width - 1)) ≤ imm ∧ imm ≤ bitMask (width - 1)

/-- A code is returned for the integers whose two's complement word has one. -/
structure EncodesSigned (width : Nat) (imm : Int) : Prop where
  word : InRange width imm →
    Encodes width (land imm (bitMask width)) (logicalImmediateSigned imm width)
  none : ¬InRange width imm → logicalImmediateSigned imm width = .ok none

/-- **When logical immediates are encoded.** No assertion fails. The words whose bits alternate have
a code, but the search for the period ends at 4. -/
theorem logical_immediates_iff (width : Width) (imm : Int) :
    ((∃ result, logicalImmediateUnsigned imm width.bits = .ok result) ∧
        ∃ result, logicalImmediateSigned imm width.bits = .ok result) ∧
      (Encodes width.bits imm (logicalImmediateUnsigned imm width.bits) ↔
        imm ∉ alternating width) ∧
      (EncodesSigned width.bits imm ↔
        ¬(InRange width.bits imm ∧ land imm (bitMask width.bits) ∈ alternating width)) := by
  obtain ⟨hresult, hiff⟩ := unsigned_spec width imm
  obtain ⟨hresult', hiff'⟩ := unsigned_spec width (land imm (bitMask width.bits))
  by_cases hrange : InRange width.bits imm
  · have heq : logicalImmediateSigned imm width.bits =
        logicalImmediateUnsigned (land imm (bitMask width.bits)) width.bits := if_pos hrange
    refine ⟨⟨hresult, heq ▸ hresult'⟩, hiff, ?_⟩
    rw [and_iff_right hrange, ← hiff', ← heq]
    exact ⟨fun h => h.word hrange, fun h => ⟨fun _ => h, fun hn => absurd hrange hn⟩⟩
  · have heq : logicalImmediateSigned imm width.bits = .ok none := if_neg hrange
    exact ⟨⟨hresult, _, heq⟩, hiff, iff_of_true ⟨fun h => absurd h hrange, fun _ => heq⟩
      fun h => hrange h.1⟩

/-- The word 0x5555555555555555 has the code of ones of length 1 in periods of 2. -/
theorem logical_immediate_alternating :
    logicalImmediateUnsigned 0x5555555555555555 64 = .ok none ∧
      decode 64 0b0000000111100 = some 0x5555555555555555 := by
  decide +kernel

example : logicalImmediateUnsigned 0xFF00FF00FF00FF00 64 = .ok (some 0b0001000100111) ∧
    decode 64 0b0001000100111 = some 0xFF00FF00FF00FF00 := by decide +kernel

end MitScheme.Compiler.LogicalImmediate
