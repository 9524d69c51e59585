import MitScheme.Microcode.IntegerCounts

/-! # Bit fields of exact integers

`integer-bits.scm`. The bitwise primitives work on infinite two's complement; the shifts
refuse a negative count, and a right shift by a count that is no fixnum answers zero. -/

namespace MitScheme.Runtime.IntegerBits
open Lib.TwosComplement Lib.BitCount Lib.Outcome

inductive Fault
  | badRange
  | wrongType
  | divideByZero
  | wrongArity
  | assertion
  | outOfFuel
  deriving DecidableEq

abbrev Result (α : Type) := Except Fault α

/-! ## The primitives -/

/-- `arg_ulong_integer`. -/
def argUlong (n : Int) : Result Nat := if 0 ≤ n ∧ n < 2 ^ 64 then .ok n.toNat else .error .badRange

/-- A right shift by a nonnegative count. From `2 ^ 57` on the count is a bignum. -/
def shiftedRight (n : Int) (m : Nat) : Int := if m < 2 ^ 57 then n / 2 ^ m else 0

/-- `integer-shift-right`. -/
def shiftRight (n m : Int) : Result Int :=
  if m < 0 then .error .badRange else .ok (shiftedRight n m.toNat)

/-- `integer-shift-left`. -/
def shiftLeft (n m : Int) : Result Int := do return n * 2 ^ (← argUlong m)

/-- `integer-nonnegative-one-bits`. -/
def bitMask (size position : Int) : Result Int := do
  let size ← argUlong size
  let position ← argUlong position
  return (2 ^ size - 1) * 2 ^ position

def remainder (n d : Int) : Result Int := if d = 0 then .error .divideByZero else .ok (n.tmod d)

def trailingZeros (n : Nat) : Nat :=
  if n = 0 ∨ n % 2 = 1 then 0 else trailingZeros (n / 2) + 1
termination_by n

/-- `integer-first-set-bit`. -/
def firstSetBit (n : Int) : Int := if n = 0 then -1 else trailingZeros n.natAbs

def integerLength (n : Int) : Nat := (offSign n).size

def integerBitCount (n : Int) : Nat := bitCount (offSign n)

/-! ## Bit fields -/

def bitwiseMerge (mask a b : Int) : Int := Int.lor (Int.land a mask) (Int.ldiff b mask)

def extractBitField (size position integer : Int) : Result Int := do
  let mask ← bitMask size 0
  let bits ← shiftRight integer position
  return Int.land mask bits

def editBitField (selector size aPosition a bPosition b : Int) : Result Int := do
  let mask ← shiftLeft (← extractBitField size 0 selector) aPosition
  let bits ← shiftLeft (← extractBitField size bPosition b) aPosition
  return bitwiseMerge mask a bits

def spliceBitField (size aPosition a bPosition b : Int) : Result Int := do
  let mask ← bitMask size aPosition
  let bits ← shiftLeft (← extractBitField size bPosition b) aPosition
  return bitwiseMerge mask a bits

def replaceBitField (size position integer field : Int) : Result Int := do
  let bits ← shiftLeft (← extractBitField size 0 field) position
  let mask ← bitMask size position
  return Int.lor bits (Int.ldiff integer mask)

def rotateBitField (integer count start stop : Int) : Result Int := do
  let size := stop - start
  let count ← remainder count size
  let bitField ← extractBitField size start integer
  let left ← shiftLeft bitField count
  let right ← shiftRight bitField (size - count)
  replaceBitField size start integer (Int.lor left right)

/-- The loop of `bit-reverse`. A shift by one is never refused. -/
def bitReverseLoop : Nat → Int → Int → Int
  | 0, _, result => result
  | size + 1, integer, result =>
    bitReverseLoop size (integer / 2) (Int.lor (result * 2) (Int.land integer 1))

def bitReverse (size integer : Int) : Int :=
  if integer < 0 then Int.lnot (bitReverseLoop size.toNat (Int.lnot integer) 0)
  else bitReverseLoop size.toNat integer 0

/-- `reverse-bit-field`: `bit-reverse` is called without a size there, and
`replace-bit-field` without the integer. -/
def reverseBitField (integer start stop : Int) : Result Int := do
  let size := stop - start
  let _ ← extractBitField size start integer
  .error .wrongArity

def shiftout (x mask : Int) : Result Int := shiftRight (Int.land x mask) (firstSetBit mask)

def shiftin (x mask : Int) : Result Int := shiftLeft x (firstSetBit mask)

/-! ## Lists of bits -/

/-- `odd?`. -/
def isOdd (n : Int) : Bool := n % 2 = 1

/-- The loop of `integer->list` without a length. -/
def integerToListLoop : Nat → Int → List Bool → Result (List Bool)
  | 0, _, _ => .error .outOfFuel
  | fuel + 1, integer, bits =>
    if integer = 0 then .ok bits else integerToListLoop fuel (integer / 2) (isOdd integer :: bits)

/-- The loop of `integer->list` with a length. -/
def integerToListOf : Nat → Int → List Bool → List Bool
  | 0, _, bits => bits
  | length + 1, integer, bits => integerToListOf length (integer / 2) (isOdd integer :: bits)

def integerToList (fuel : Nat) (integer : Int) (length : Option Int) : Result (List Bool) :=
  match length with
  | none => integerToListLoop fuel integer []
  | some length =>
    if 0 ≤ length ∧ length < 2 ^ 57 then .ok (integerToListOf length.toNat integer [])
    else .error .wrongType

def listToInteger (bits : List Bool) : Int :=
  bits.foldl (fun integer bit => Int.lor (integer * 2) (if bit then 1 else 0)) 0

/-! ## Counts -/

def ffs (x : Int) : Int := 1 + firstSetBit x

def fls (x : Int) : Int := integerLength x

def ctz (x : Int) : Int := ffs x

/-- The loop of `clz`. -/
def clzLoop (n : Int) (i : Nat) (x : Int) (hi : 0 < i) : Int :=
  if i < n then clzLoop n (i * 2) (Int.lor x (shiftedRight x i)) (Nat.mul_pos hi Nat.two_pos)
  else n - integerBitCount x
termination_by (n - i).toNat

def clz (n x : Int) : Result Int := do
  if x < (← shiftLeft 1 n) then return clzLoop n 1 x Nat.one_pos else .error .assertion

/-! ## What the primitives answer -/

theorem argUlong_natCast (n : Nat) :
    argUlong n = if n < 2 ^ 64 then .ok n else .error .badRange := by
  rw [argUlong, Int.toNat_natCast]
  exact if_congr ⟨fun h => by exact_mod_cast h.2, fun h => ⟨Int.natCast_nonneg n, by exact_mod_cast h⟩⟩
    rfl rfl

theorem shiftRight_natCast (n : Int) (m : Nat) : shiftRight n m = .ok (shiftedRight n m) := by
  rw [shiftRight, if_neg (Int.not_lt.mpr (Int.natCast_nonneg m)), Int.toNat_natCast]

theorem shiftLeft_natCast (n : Int) (m : Nat) :
    shiftLeft n m = if m < 2 ^ 64 then .ok (n * 2 ^ m) else .error .badRange := by
  rw [shiftLeft, argUlong_natCast]
  split <;> rfl

theorem shiftLeft_negative (n) {m : Int} (h : m < 0) : shiftLeft n m = .error .badRange := by
  rw [shiftLeft, argUlong, if_neg (by omega)]
  rfl

theorem bitMask_natCast (size position : Nat) :
    bitMask size position =
      if size < 2 ^ 64 ∧ position < 2 ^ 64 then .ok ((2 ^ size - 1) * 2 ^ position)
      else .error .badRange := by
  rw [bitMask, argUlong_natCast, argUlong_natCast]
  by_cases hs : size < 2 ^ 64
  · by_cases hp : position < 2 ^ 64
    · rw [if_pos hs, if_pos hp, if_pos ⟨hs, hp⟩]
      rfl
    · rw [if_pos hs, if_neg hp, if_neg (not_and_of_not_right _ hp)]
      rfl
  · rw [if_neg hs, if_neg (not_and_of_not_left _ hs)]
    rfl

theorem testBit_shiftedRight (n m i) :
    (shiftedRight n m).testBit i = (decide (m < 2 ^ 57) && n.testBit (m + i)) := by
  rw [shiftedRight]
  by_cases h : m < 2 ^ 57
  · rw [if_pos h, testBit_ediv_pow, decide_eq_true h, Bool.true_and]
  · rw [if_neg h, testBit_zero, decide_eq_false h, Bool.false_and]

def InField (size position i : Nat) : Prop := position ≤ i ∧ i < position + size

instance (size position i : Nat) : Decidable (InField size position i) :=
  inferInstanceAs (Decidable (_ ∧ _))

theorem testBit_fieldMask (size position i) :
    (((2 : Int) ^ size - 1) * 2 ^ position).testBit i = decide (InField size position i) := by
  rw [testBit_mul_pow, testBit_mask, ← Bool.decide_and, decide_eq_decide, InField]
  omega

/-! ## Extracting and merging -/

/-- The bits that `extract-bit-field` gets to see. -/
def fieldBits (size position : Nat) (x : Int) : Int :=
  Int.land (2 ^ size - 1) (shiftedRight x position)

theorem testBit_fieldBits (size position x i) :
    (fieldBits size position x).testBit i =
      (decide (i < size) && (shiftedRight x position).testBit i) := by
  rw [fieldBits, Int.testBit_land, testBit_mask]

theorem extractBitField_natCast (size position : Nat) (x : Int) :
    extractBitField size position x =
      if size < 2 ^ 64 then .ok (fieldBits size position x) else .error .badRange := by
  rw [extractBitField, shiftRight_natCast]
  have hmask := bitMask_natCast size 0
  rw [Nat.cast_zero] at hmask
  rw [hmask]
  by_cases h : size < 2 ^ 64
  · rw [if_pos h, if_pos ⟨h, by norm_num⟩, pow_zero, mul_one]
    rfl
  · rw [if_neg h, if_neg (not_and_of_not_left _ h)]
    rfl

theorem testBit_moved (size position target x i) :
    (fieldBits size position x * 2 ^ target).testBit i =
      (decide (InField size target i) && (shiftedRight x position).testBit (i - target)) := by
  rw [testBit_mul_pow, testBit_fieldBits, ← Bool.and_assoc, ← Bool.decide_and]
  congr 1
  rw [decide_eq_decide, InField]
  omega

theorem testBit_bitwiseMerge (mask a b i) :
    (bitwiseMerge mask a b).testBit i = if mask.testBit i then a.testBit i else b.testBit i := by
  rw [bitwiseMerge, Int.testBit_lor, Int.testBit_land, Int.testBit_ldiff]
  cases mask.testBit i <;> simp

theorem spliceBitField_natCast (size p q : Nat) (a b : Int) :
    spliceBitField size p a q b =
      if size < 2 ^ 64 ∧ p < 2 ^ 64 then
        .ok (bitwiseMerge ((2 ^ size - 1) * 2 ^ p) a (fieldBits size q b * 2 ^ p))
      else .error .badRange := by
  rw [spliceBitField, bitMask_natCast, extractBitField_natCast]
  by_cases h : size < 2 ^ 64 ∧ p < 2 ^ 64
  · rw [if_pos h, if_pos h, if_pos h.1, ok_bind, ok_bind, shiftLeft_natCast, if_pos h.2]
    rfl
  · rw [if_neg h, if_neg h]
    rfl

theorem editBitField_natCast (selector : Int) (size p q : Nat) (a b : Int) :
    editBitField selector size p a q b =
      if size < 2 ^ 64 ∧ p < 2 ^ 64 then
        .ok (bitwiseMerge (fieldBits size 0 selector * 2 ^ p) a (fieldBits size q b * 2 ^ p))
      else .error .badRange := by
  have hzero := extractBitField_natCast size 0 selector
  rw [Nat.cast_zero] at hzero
  rw [editBitField, hzero, extractBitField_natCast]
  by_cases hs : size < 2 ^ 64
  · rw [if_pos hs, if_pos hs, ok_bind, shiftLeft_natCast]
    by_cases hp : p < 2 ^ 64
    · rw [if_pos hp, if_pos ⟨hs, hp⟩, ok_bind, ok_bind, shiftLeft_natCast, if_pos hp]
      rfl
    · rw [if_neg hp, if_neg (not_and_of_not_right _ hp)]
      rfl
  · rw [if_neg hs, if_neg (not_and_of_not_left _ hs)]
    rfl

variable {c k : Nat} {count mask : Int} (size p : Nat)

theorem replaceBitField_natCast (x f) :
    replaceBitField size p x f =
      if size < 2 ^ 64 ∧ p < 2 ^ 64 then
        .ok (Int.lor (fieldBits size 0 f * 2 ^ p) (Int.ldiff x ((2 ^ size - 1) * 2 ^ p)))
      else .error .badRange := by
  have hzero := extractBitField_natCast size 0 f
  rw [Nat.cast_zero] at hzero
  rw [replaceBitField, hzero, bitMask_natCast]
  by_cases hs : size < 2 ^ 64
  · rw [if_pos hs, ok_bind, shiftLeft_natCast]
    by_cases hp : p < 2 ^ 64
    · rw [if_pos hp, if_pos ⟨hs, hp⟩, if_pos ⟨hs, hp⟩]
      rfl
    · rw [if_neg hp, if_neg (not_and_of_not_right _ hp), if_neg (not_and_of_not_right _ hp)]
      rfl
  · rw [if_neg hs, if_neg (not_and_of_not_left _ hs), if_neg (not_and_of_not_left _ hs)]
    rfl

theorem testBit_replaced (x f i) :
    (Int.lor (fieldBits size 0 f * 2 ^ p) (Int.ldiff x ((2 ^ size - 1) * 2 ^ p))).testBit i =
      if InField size p i then f.testBit (i - p) else x.testBit i := by
  rw [Int.testBit_lor, testBit_moved, Int.testBit_ldiff, testBit_fieldMask, testBit_shiftedRight,
    Nat.zero_add]
  by_cases h : InField size p i <;> simp [h]

/-! ## The operations on fields -/

def Returns {α : Type} (x : Result α) (P : α → Prop) : Prop := ∃ z, x = .ok z ∧ P z

theorem returns_ok {α : Type} {a : α} {P : α → Prop} : Returns (.ok a) P ↔ P a :=
  ⟨fun h => by
    obtain ⟨z, hz, hp⟩ := h
    rwa [Except.ok.inj hz], fun h => ⟨a, rfl, h⟩⟩

theorem not_returns_error {α : Type} {f : Fault} {P : α → Prop} : ¬Returns (.error f) P := by
  rintro ⟨z, hz, -⟩
  cases hz

theorem returns_if {α : Type} {c : Prop} [Decidable c] {a : α} {f : Fault} {P : α → Prop} :
    Returns (if c then .ok a else .error f) P ↔ c ∧ P a := by
  by_cases h : c
  · rw [if_pos h, returns_ok, and_iff_right h]
  · rw [if_neg h]
    exact iff_of_false not_returns_error fun hc => h hc.1

/-- The integer is `x` with the bits of a field replaced by those of `f`. -/
def Splices (size p : Nat) (x : Int) (f : Nat → Bool) (z : Int) : Prop :=
  ∀ i, z.testBit i = if InField size p i then f (i - p) else x.testBit i

def ZeroOutside (size p : Nat) (x : Int) : Prop := ∀ i, ¬InField size p i → x.testBit i = false

theorem forall_bits {size p : Nat} {P Q : Nat → Prop} :
    (∀ i, if InField size p i then P (i - p) else Q i) ↔
      (∀ i, ¬InField size p i → Q i) ∧ ∀ i < size, P i := by
  constructor
  · intro h
    refine ⟨fun i hi => ?_, fun i hi => ?_⟩
    · have := h i
      rwa [if_neg hi] at this
    · have := h (p + i)
      rwa [if_pos ⟨Nat.le_add_right p i, by omega⟩, Nat.add_sub_cancel_left] at this
  · rintro ⟨hout, hin⟩ i
    split
    · next hi => exact hin (i - p) (by rw [InField] at hi; omega)
    · next hi => exact hout i hi

theorem splice_iff (size p q : Nat) (a b : Int) :
    Returns (spliceBitField size p a q b) (Splices size p a fun i => b.testBit (q + i)) ↔
      (size < 2 ^ 64 ∧ p < 2 ^ 64) ∧ ZeroOutside size p a ∧
        ∀ i < size, a.testBit (p + i) = b.testBit (q + i) := by
  rw [spliceBitField_natCast, returns_if]
  refine and_congr_right fun _ => ?_
  rw [ZeroOutside, ← forall_bits]
  refine forall_congr' fun i => ?_
  rw [testBit_bitwiseMerge, testBit_fieldMask, testBit_moved]
  by_cases h : InField size p i
  · simp only [h, decide_true, if_true, Nat.add_sub_of_le h.1]
  · simp only [h, decide_false, if_false, Bool.false_eq_true, Bool.false_and, eq_comm]

theorem edit_iff (selector : Int) (size p q : Nat) (a b : Int) :
    Returns (editBitField selector size p a q b) (Splices size p a fun i =>
        if selector.testBit i then b.testBit (q + i) else a.testBit (p + i)) ↔
      (size < 2 ^ 64 ∧ p < 2 ^ 64) ∧ ZeroOutside size p a ∧ ∀ i < size, a.testBit (p + i) =
        if selector.testBit i then b.testBit (q + i) else (shiftedRight b q).testBit i := by
  rw [editBitField_natCast, returns_if]
  refine and_congr_right fun _ => ?_
  rw [ZeroOutside, ← forall_bits]
  refine forall_congr' fun i => ?_
  rw [testBit_bitwiseMerge, testBit_moved, testBit_moved, testBit_shiftedRight _ 0, Nat.zero_add]
  have h0 : decide (0 < 2 ^ 57) = true := by decide
  by_cases h : InField size p i
  · cases hsel : selector.testBit (i - p) with
    | true =>
      simp only [h, h0, hsel, decide_true, Bool.and_true, if_true, Nat.add_sub_of_le h.1]
    | false =>
      simp only [h, hsel, decide_true, Bool.and_false, Bool.true_and, Bool.false_eq_true, if_true,
        if_false, Nat.add_sub_of_le h.1]
      exact eq_comm
  · simp only [h, decide_false, if_false, Bool.false_eq_true, Bool.false_and, eq_comm]

theorem extract_iff (x) :
    Returns (extractBitField size p x) (fun z => ∀ i, z.testBit i =
        (decide (i < size) && x.testBit (p + i))) ↔
      size < 2 ^ 64 ∧ (p < 2 ^ 57 ∨ ∀ i < size, x.testBit (p + i) = false) := by
  rw [extractBitField_natCast, returns_if]
  refine and_congr_right fun _ => ?_
  simp only [testBit_fieldBits, testBit_shiftedRight]
  by_cases hp : p < 2 ^ 57
  · rw [decide_eq_true hp]
    exact iff_of_true (fun i => by rw [Bool.true_and]) (.inl hp)
  · rw [decide_eq_false hp, or_iff_right hp]
    refine forall_congr' fun i => ?_
    by_cases hi : i < size
    · rw [decide_eq_true hi, Bool.true_and, Bool.true_and, Bool.false_and, forall_prop_of_true hi,
        eq_comm]
    · rw [decide_eq_false hi]
      exact iff_of_true rfl fun hc => absurd hc hi

theorem extract_eq_splice_iff (x) :
    Returns (extractBitField size p x) (fun z => spliceBitField size 0 0 p x = .ok z) ↔
      size < 2 ^ 64 ∧ ∀ i < size, (shiftedRight x p).testBit i = false := by
  rw [extractBitField_natCast, returns_if]
  refine and_congr_right fun hs => ?_
  have hsplice := spliceBitField_natCast size 0 p 0 x
  rw [Nat.cast_zero, if_pos ⟨hs, by norm_num⟩] at hsplice
  rw [hsplice, Except.ok.injEq]
  have hbit (i : Nat) : (bitwiseMerge ((2 ^ size - 1) * 2 ^ 0) 0 (fieldBits size p x * 2 ^ 0)).testBit
      i = false := by
    rw [testBit_bitwiseMerge, testBit_fieldMask, testBit_moved, testBit_zero]
    by_cases h : InField size 0 i <;> simp [h]
  constructor
  · intro h i hi
    have hz := hbit i
    rw [h, testBit_fieldBits, decide_eq_true hi, Bool.true_and] at hz
    exact hz
  · intro h
    refine eq_of_testBit_eq fun i => ?_
    rw [hbit, testBit_fieldBits]
    by_cases hi : i < size
    · rw [h i hi, Bool.and_false]
    · rw [decide_eq_false hi, Bool.false_and]

theorem replace_iff (x f) :
    Returns (replaceBitField size p x f) (Splices size p x f.testBit) ↔
      size < 2 ^ 64 ∧ p < 2 ^ 64 := by
  rw [replaceBitField_natCast, returns_if]
  exact and_iff_left fun i => testBit_replaced size p x f i

theorem replace_eq_splice_iff (x f : Int) :
    Returns (replaceBitField size p x f) (fun z => spliceBitField size p x 0 f = .ok z) ↔
      (size < 2 ^ 64 ∧ p < 2 ^ 64) ∧ ZeroOutside size p x ∧
        ∀ i < size, x.testBit (p + i) = f.testBit i := by
  have hsplice := splice_iff size p 0 x f
  simp only [Nat.zero_add, Nat.cast_zero] at hsplice
  rw [← hsplice, replaceBitField_natCast, returns_if]
  have hvalue := spliceBitField_natCast size p 0 x f
  rw [Nat.cast_zero] at hvalue
  rw [hvalue, returns_if]
  refine and_congr_right fun hb => ?_
  rw [if_pos hb, Except.ok.injEq]
  constructor
  · intro h i
    rw [h, testBit_replaced]
  · intro h
    exact eq_of_testBit_eq fun i => by rw [h i, testBit_replaced]

/-! ## Rotating and reversing -/

/-- Where a bit of a field of `size` bits comes from when the field is rotated by `c`. -/
def rotated (size c j : Nat) : Nat := if c ≤ j then j - c else j + size - c

theorem rotated_eq_emod {size j : Nat} (hc : count % size = c) (hcs : c < size) (hj : j < size) :
    (((j : Int) - count) % size).toNat = rotated size c j := by
  have hsub : ((j : Int) - count) % size = ((j : Int) - c) % size := by
    rw [Int.sub_emod, hc, Int.sub_emod (j : Int) c, Int.emod_eq_of_lt (Int.natCast_nonneg c)
      (by exact_mod_cast hcs)]
  rw [hsub, rotated]
  split
  · rw [Int.emod_eq_of_lt (by omega) (by omega)]
    omega
  · rw [← Int.add_emod_right, Int.emod_eq_of_lt (by omega) (by omega)]
    omega

/-- The two shifted parts of a field of `size` bits, put together. -/
def rotatedBits (size start c : Nat) (x : Int) : Int :=
  Int.lor (fieldBits size start x * 2 ^ c) (shiftedRight (fieldBits size start x) (size - c))

theorem testBit_rotatedBits {size j : Nat} (hcs : c < size) (hj : j < size) (start x) :
    (rotatedBits size start c x).testBit j =
      (decide (c ≤ j ∨ size - c < 2 ^ 57) &&
        (shiftedRight x start).testBit (rotated size c j)) := by
  rw [rotatedBits, Int.testBit_lor, testBit_mul_pow, testBit_shiftedRight, testBit_fieldBits,
    testBit_fieldBits, rotated]
  by_cases h : c ≤ j
  · have hlow : decide (c ≤ j ∨ size - c < 2 ^ 57) = true := decide_eq_true (Or.inl h)
    rw [if_pos h, decide_eq_true h, decide_eq_true (show j - c < size by omega),
      decide_eq_false (show ¬ size - c + j < size by omega), hlow]
    simp only [Bool.true_and, Bool.false_and, Bool.and_false, Bool.or_false]
  · have hlow : decide (c ≤ j ∨ size - c < 2 ^ 57) = decide (size - c < 2 ^ 57) :=
      decide_eq_decide.mpr (or_iff_right h)
    rw [if_neg h, decide_eq_false h, decide_eq_true (show size - c + j < size by omega),
      Bool.false_and, Bool.false_or, Bool.true_and, show j + size - c = size - c + j by omega, hlow]

theorem rotatedBits_iff {size : Nat} (hcs : c < size) (start x) :
    (∀ j < size, (rotatedBits size start c x).testBit j = x.testBit (start + rotated size c j)) ↔
      (start < 2 ^ 57 ∨ ∀ i < size, x.testBit (start + i) = false) ∧
        (size - c < 2 ^ 57 ∨ ∀ i < c, x.testBit (start + (size - c) + i) = false) := by
  have hbit (j : Nat) (hj : j < size) := testBit_rotatedBits hcs hj start x
  simp only [testBit_shiftedRight] at hbit
  constructor
  · intro h
    refine ⟨or_iff_not_imp_left.mpr fun hstart i hi => ?_,
      or_iff_not_imp_left.mpr fun hlow i hi => ?_⟩
    · -- the bit that comes from `i`
      have hj : (if i + c < size then i + c else i + c - size) < size := by split <;> omega
      have hr : rotated size c (if i + c < size then i + c else i + c - size) = i := by
        rw [rotated]
        split <;> split <;> omega
      have := h _ hj
      rw [hbit _ hj, hr, decide_eq_false hstart, Bool.false_and, Bool.and_false] at this
      exact this.symm
    · have := h i (by omega)
      rw [hbit i (by omega), rotated, if_neg (by omega), decide_eq_false (by omega),
        Bool.false_and, show start + (i + size - c) = start + (size - c) + i by omega] at this
      exact this.symm
  · rintro ⟨hstart, hlow⟩ j hj
    rw [hbit j hj]
    rcases hstart with hstart | hzero
    · rw [decide_eq_true hstart, Bool.true_and]
      by_cases hc : c ≤ j ∨ size - c < 2 ^ 57
      · rw [decide_eq_true hc, Bool.true_and]
      · have hz := hlow.resolve_left (fun h => hc (.inr h)) j (by omega)
        rw [decide_eq_false hc, Bool.false_and, rotated, if_neg fun h => hc (.inl h),
          show start + (j + size - c) = start + (size - c) + j by omega, hz]
    · have hr : rotated size c j < size := by
        rw [rotated]
        split <;> omega
      rw [hzero _ hr, Bool.and_false, Bool.and_false]

theorem rotateBitField_ok {size : Nat} (hcs : c < size) (start : Nat) (x : Int)
    (hrem : count.tmod size = c) :
    rotateBitField x count start (start + size : Nat) =
      if size < 2 ^ 64 then replaceBitField size start x (rotatedBits size start c x)
      else .error .badRange := by
  have hsize : ((start + size : Nat) : Int) - start = size := by push_cast; omega
  have hright : (size : Int) - c = (size - c : Nat) := by omega
  simp only [rotateBitField, hsize]
  rw [remainder, if_neg (by omega), hrem, ok_bind, extractBitField_natCast]
  by_cases hs : size < 2 ^ 64
  · rw [if_pos hs, if_pos hs, ok_bind, shiftLeft_natCast, if_pos (by omega), ok_bind, hright,
      shiftRight_natCast, ok_bind]
    rfl
  · rw [if_neg hs, if_neg hs]
    rfl

theorem tmod_eq_emod_toNat {size : Nat} (hs : size ≠ 0) (h : 0 ≤ count ∨ (size : Int) ∣ count) :
    count.tmod size = (count % size).toNat := by
  rw [Int.toNat_of_nonneg (Int.emod_nonneg _ (by exact_mod_cast hs))]
  rcases h with h | h
  · exact Int.tmod_eq_emod_of_nonneg h
  · rw [Int.tmod_eq_zero_of_dvd h, Int.emod_eq_zero_of_dvd h]

theorem rotate_iff (start size : Nat) (count x : Int) :
    Returns (rotateBitField x count start (start + size : Nat)) (Splices size start x fun i =>
        x.testBit (start + (((i : Int) - count) % size).toNat)) ↔
      (size ≠ 0 ∧ (0 ≤ count ∨ (size : Int) ∣ count)) ∧ (size < 2 ^ 64 ∧ start < 2 ^ 64) ∧
        (start < 2 ^ 57 ∨ ∀ i < size, x.testBit (start + i) = false) ∧
        (size - (count % size).toNat < 2 ^ 57 ∨ ∀ i < (count % size).toNat,
          x.testBit (start + (size - (count % size).toNat) + i) = false) := by
  have hwidth : ((start + size : Nat) : Int) - start = size := by push_cast; omega
  by_cases hc : size ≠ 0 ∧ (0 ≤ count ∨ (size : Int) ∣ count)
  · rw [and_iff_right hc]
    obtain ⟨hsize, hcount⟩ := hc
    have hlt : (count % size).toNat < size := by
      have := Int.emod_lt_of_pos count (show (0 : Int) < size by omega)
      omega
    have hc' : count % size = (count % size).toNat :=
      (Int.toNat_of_nonneg (Int.emod_nonneg _ (by exact_mod_cast hsize))).symm
    rw [rotateBitField_ok hlt start x (tmod_eq_emod_toNat hsize hcount), ← rotatedBits_iff hlt]
    by_cases hs : size < 2 ^ 64
    · rw [if_pos hs, replaceBitField_natCast, returns_if]
      refine and_congr_right fun _ => ?_
      have hsplice (i : Nat) : (Int.lor (fieldBits size 0 (rotatedBits size start
          (count % size).toNat x) * 2 ^ start) (Int.ldiff x ((2 ^ size - 1) * 2 ^ start))).testBit
          i = (if InField size start i then x.testBit
            (start + ((((i - start : Nat) : Int) - count) % size).toNat) else x.testBit i) ↔
          if InField size start i then (rotatedBits size start (count % size).toNat x).testBit
            (i - start) = x.testBit (start + ((((i - start : Nat) : Int) - count) % size).toNat)
          else True := by
        rw [testBit_replaced]
        by_cases h : InField size start i
        · rw [if_pos h, if_pos h, if_pos h]
        · rw [if_neg h, if_neg h, if_neg h]
          exact iff_of_true rfl trivial
      rw [Splices, forall_congr' hsplice, forall_bits (P := fun j => (rotatedBits size start
        (count % size).toNat x).testBit j = x.testBit (start + (((j : Int) - count) % size).toNat))]
      rw [and_iff_right fun _ _ => trivial]
      refine forall₂_congr fun j hj => ?_
      rw [rotated_eq_emod hc' hlt hj]
    · rw [if_neg hs]
      exact iff_of_false not_returns_error fun h => hs h.1.1
  · refine iff_of_false ?_ fun h => hc h.1
    rw [rotateBitField, hwidth]
    by_cases hsize : size = 0
    · rw [remainder, if_pos (by exact_mod_cast hsize)]
      exact not_returns_error
    · -- the remainder of a negative count is negative, and no shift takes it
      have hcount : ¬(0 ≤ count ∨ (size : Int) ∣ count) := fun h => hc ⟨hsize, h⟩
      have hneg : count.tmod size < 0 := by
        have hle := Int.tmod_nonneg (size : Int) (show 0 ≤ -count by omega)
        rw [Int.neg_tmod] at hle
        have hne : count.tmod size ≠ 0 := fun h =>
          hcount (.inr (Int.dvd_of_tmod_eq_zero h))
        omega
      rw [remainder, if_neg (by exact_mod_cast hsize), ok_bind, extractBitField_natCast]
      by_cases hs : size < 2 ^ 64
      · rw [if_pos hs, ok_bind, shiftLeft_negative _ hneg]
        exact not_returns_error
      · rw [if_neg hs]
        exact not_returns_error

theorem reverseBitField_error (integer : Int) (start size : Nat) (P : Int → Prop) :
    ¬Returns (reverseBitField integer start (start + size : Nat)) P := by
  have hsize : ((start + size : Nat) : Int) - start = size := by push_cast; omega
  rw [reverseBitField, hsize, extractBitField_natCast]
  split <;> exact not_returns_error

/-! ## Moving a field in and out -/

theorem trailingZeros_two_pow_mul (k q) : trailingZeros (2 ^ k * (2 * q + 1)) = k := by
  induction k with
  | zero => rw [trailingZeros, if_pos (.inr (by omega))]
  | succ k ih =>
    have hpos : 0 < 2 ^ k * (2 * q + 1) := by positivity
    have hdouble : 2 ^ (k + 1) * (2 * q + 1) = 2 * (2 ^ k * (2 * q + 1)) := by ring
    rw [trailingZeros, hdouble, if_neg (by omega), Nat.mul_div_cancel_left _ Nat.two_pos, ih]

theorem firstSetBit_two_pow_mul (k : Nat) (q : Int) : firstSetBit (2 ^ k * (2 * q + 1)) = k := by
  obtain ⟨r, hr⟩ : ∃ r, (2 * q + 1).natAbs = 2 * r + 1 := ⟨(2 * q + 1).natAbs / 2, by omega⟩
  have habs : ((2 : Int) ^ k * (2 * q + 1)).natAbs = 2 ^ k * (2 * r + 1) := by
    rw [Int.natAbs_mul, Int.natAbs_pow, hr]
    rfl
  have hne : (2 : Int) ^ k * (2 * q + 1) ≠ 0 := by
    rw [← Int.natAbs_ne_zero, habs]
    positivity
  rw [firstSetBit, if_neg hne, habs, trailingZeros_two_pow_mul]

/-- A run of ones from bit `k` on, finite or not. -/
def ContiguousMask (k : Nat) (mask : Int) : Prop :=
  (∃ size : Nat, mask = (2 ^ size - 1) * 2 ^ k) ∨ mask = -2 ^ k

theorem ContiguousMask.firstSetBit (h : ContiguousMask k mask) (hne : mask ≠ 0) :
    firstSetBit mask = k := by
  obtain ⟨q, hq⟩ : ∃ q, mask = 2 ^ k * (2 * q + 1) := by
    rcases h with ⟨size, rfl⟩ | rfl
    · cases size with
      | zero => exact absurd (by rw [pow_zero, sub_self, zero_mul]) hne
      | succ size => exact ⟨2 ^ size - 1, by ring⟩
    · exact ⟨-1, by ring⟩
  rw [hq, firstSetBit_two_pow_mul]

theorem land_moved {x : Int} (hfit : ∀ i, x.testBit i = true → mask.testBit (k + i) = true) :
    Int.land (x * 2 ^ k) mask = x * 2 ^ k := by
  refine eq_of_testBit_eq fun i => ?_
  rw [Int.testBit_land, testBit_mul_pow]
  by_cases hk : k ≤ i
  · cases hx : x.testBit (i - k) with
    | false => simp
    | true =>
      have := hfit _ hx
      rw [Nat.add_sub_of_le hk] at this
      rw [this, Bool.and_true]
  · rw [decide_eq_false hk, Bool.false_and, Bool.false_and]

theorem shiftout_shiftin_iff {x : Int} (h : ContiguousMask k mask)
    (hfit : ∀ i, x.testBit i = true → mask.testBit (k + i) = true) :
    Returns (shiftin x mask >>= fun y => shiftout y mask) (· = x) ↔
      mask ≠ 0 ∧ k < 2 ^ 64 ∧ (k < 2 ^ 57 ∨ x = 0) := by
  by_cases hne : mask = 0
  · subst hne
    exact iff_of_false not_returns_error fun hc => hc.1 rfl
  · rw [and_iff_right hne, shiftin, h.firstSetBit hne, shiftLeft_natCast]
    by_cases hk : k < 2 ^ 64
    · rw [if_pos hk, and_iff_right hk, ok_bind, shiftout, h.firstSetBit hne, land_moved hfit,
        shiftRight_natCast, returns_ok, shiftedRight]
      by_cases hfix : k < 2 ^ 57
      · rw [if_pos hfix, Int.mul_ediv_cancel _ (by positivity)]
        exact iff_of_true rfl (.inl hfix)
      · rw [if_neg hfix, or_iff_right hfix, eq_comm]
    · rw [if_neg hk]
      exact iff_of_false not_returns_error fun hc => hk hc.1

/-- **When the operations on bit fields are right.** `splice-bit-field` and `edit-bit-field` are
only where the merge of the field into `a` is the same both ways round, `reverse-bit-field`
never is. -/
theorem bit_fields_iff (size p q : Nat) (selector a b x f count : Int) :
    (Returns (spliceBitField size p a q b) (Splices size p a fun i => b.testBit (q + i)) ↔
        (size < 2 ^ 64 ∧ p < 2 ^ 64) ∧ ZeroOutside size p a ∧
          ∀ i < size, a.testBit (p + i) = b.testBit (q + i)) ∧
      (Returns (editBitField selector size p a q b) (Splices size p a fun i =>
          if selector.testBit i then b.testBit (q + i) else a.testBit (p + i)) ↔
        (size < 2 ^ 64 ∧ p < 2 ^ 64) ∧ ZeroOutside size p a ∧ ∀ i < size, a.testBit (p + i) =
          if selector.testBit i then b.testBit (q + i) else (shiftedRight b q).testBit i) ∧
      (Returns (extractBitField size p x) (fun z => ∀ i, z.testBit i =
          (decide (i < size) && x.testBit (p + i))) ↔
        size < 2 ^ 64 ∧ (p < 2 ^ 57 ∨ ∀ i < size, x.testBit (p + i) = false)) ∧
      (Returns (extractBitField size p x) (fun z => spliceBitField size 0 0 p x = .ok z) ↔
        size < 2 ^ 64 ∧ ∀ i < size, (shiftedRight x p).testBit i = false) ∧
      (Returns (replaceBitField size p x f) (Splices size p x f.testBit) ↔
        size < 2 ^ 64 ∧ p < 2 ^ 64) ∧
      (Returns (replaceBitField size p x f) (fun z => spliceBitField size p x 0 f = .ok z) ↔
        (size < 2 ^ 64 ∧ p < 2 ^ 64) ∧ ZeroOutside size p x ∧
          ∀ i < size, x.testBit (p + i) = f.testBit i) ∧
      (Returns (rotateBitField x count p (p + size : Nat)) (Splices size p x fun i =>
          x.testBit (p + (((i : Int) - count) % size).toNat)) ↔
        (size ≠ 0 ∧ (0 ≤ count ∨ (size : Int) ∣ count)) ∧ (size < 2 ^ 64 ∧ p < 2 ^ 64) ∧
          (p < 2 ^ 57 ∨ ∀ i < size, x.testBit (p + i) = false) ∧
          (size - (count % size).toNat < 2 ^ 57 ∨ ∀ i < (count % size).toNat,
            x.testBit (p + (size - (count % size).toNat) + i) = false)) ∧
      ¬Returns (reverseBitField x p (p + size : Nat))
          (Splices size p x fun i => x.testBit (p + (size - 1 - i))) ∧
      ∀ k mask, ContiguousMask k mask → (∀ i, x.testBit i = true → mask.testBit (k + i) = true) →
        (Returns (shiftin x mask >>= fun y => shiftout y mask) (· = x) ↔
          mask ≠ 0 ∧ k < 2 ^ 64 ∧ (k < 2 ^ 57 ∨ x = 0)) :=
  ⟨splice_iff size p q a b, edit_iff selector size p q a b, extract_iff size p x,
    extract_eq_splice_iff size p x, replace_iff size p x f, replace_eq_splice_iff size p x f,
    rotate_iff p size count x, reverseBitField_error x p size _,
    fun _ _ hmask hfit => shiftout_shiftin_iff hmask hfit⟩

/-- A field of four bits at bit 4. -/
theorem bit_fields_nibble :
    Returns (shiftin 5 0xF0 >>= fun y => shiftout y 0xF0) (· = 5) :=
  ((bit_fields_iff 0 0 0 0 0 0 5 0 0).2.2.2.2.2.2.2.2 4 0xF0 (.inl ⟨4, by decide⟩) fun i hi => by
    have hsmall : i < 3 := by
      have := Nat.ge_two_pow_of_testBit (x := 5) hi
      exact (Nat.pow_lt_pow_iff_right (a := 2) (by omega)).mp (by omega)
    interval_cases i <;> decide).mpr ⟨by decide, by decide, .inl (by decide)⟩

/-- A one spliced into zero, and one fault of each of the other operations. -/
theorem bit_fields_faults :
    ¬Returns (spliceBitField 1 0 0 0 1) (Splices 1 0 0 fun i => (1 : Int).testBit (0 + i)) ∧
      spliceBitField 1 0 0 0 1 = .ok 0 ∧ replaceBitField 1 0 0 1 = .ok 1 ∧
      rotateBitField 2 (-1) 0 2 = .error .badRange ∧
      rotateBitField 5 1 2 2 = .error .divideByZero ∧ reverseBitField 1 0 2 = .error .wrongArity ∧
      (shiftin 0 0 >>= fun y => shiftout y 0) = .error .badRange := by
  have hsplice : spliceBitField 1 0 0 0 1 = .ok 0 := by decide +kernel
  refine ⟨?_, hsplice, by decide +kernel⟩
  rw [hsplice, returns_ok]
  exact fun h => Bool.false_ne_true (h 0)

end MitScheme.Runtime.IntegerBits
