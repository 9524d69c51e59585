import MitScheme.Lib.TwosComplement
import MitScheme.Microcode.BignumWordTest

/-! # Bitwise operations on exact integers

The integers are stored as sign and magnitude, and the operations read them
as two's complement. The unsigned operations scan the digits of two
nonnegative bignums; the signed ones complement the negative operands and
pick the unsigned operation that makes up for it. -/

namespace MitScheme.Microcode
open Lib.Checked Lib.Outcome Lib.Radix Lib.TwosComplement

/-! ## `DEFINE_BITWISE_UNSIGNED` -/

def bignumBitwiseNot (b : Bignum) : Exec Bignum := bignumSubtract (bignumMakeOne true) b

namespace Digit

/-- `BITWISE_AND`. -/
def and (x y : Int) : Int := Int.land x y

/-- `BITWISE_ANDC2`. -/
def andc2 (x y : Int) : Int := Int.land x (Int.lnot y)

/-- `BITWISE_ANDC1`. -/
def andc1 (x y : Int) : Int := Int.land y (Int.lnot x)

/-- `BITWISE_XOR`. -/
def xor (x y : Int) : Int := Int.xor x y

/-- `BITWISE_IOR`. -/
def ior (x y : Int) : Int := Int.lor x y

end Digit

def bitwiseScan (op : Int → Int → Int) : List Int → List Int → List Int
  | x :: xs, y :: ys => op x y :: bitwiseScan op xs ys
  | x :: xs, [] => op x 0 :: bitwiseScan op xs []
  | [], _ => []

/-- The body of `DEFINE_BITWISE_UNSIGNED` after `COMMUTE`. -/
def bitwiseOrdered (op : Int → Int → Int) (postop : Bignum → Exec Bignum) (x y : Bignum) :
    Exec Bignum := do
  bignumAllocate x.length
  check (x.length ≥ y.length)
  postop (bignumTrim ⟨false, bitwiseScan op x.digits y.digits⟩)

/-- `DEFINE_BITWISE_UNSIGNED`. `COMMUTE` either swaps the operands (`swapped`
is then `op` itself) or calls the operation `swapped` on the swapped
operands, which finds the longer one first. -/
def bitwiseUnsigned (swapped op : Int → Int → Int) (postop : Bignum → Exec Bignum)
    (x y : Bignum) : Exec Bignum :=
  if x.length < y.length then bitwiseOrdered swapped postop y x
  else bitwiseOrdered op postop x y

def bignumBitwiseAndUnsigned := bitwiseUnsigned Digit.and Digit.and pure

def bignumBitwiseAndc2Unsigned := bitwiseUnsigned Digit.andc1 Digit.andc2 pure

def bignumBitwiseAndc1Unsigned := bitwiseUnsigned Digit.andc2 Digit.andc1 pure

def bignumBitwiseXorUnsigned := bitwiseUnsigned Digit.xor Digit.xor pure

def bignumBitwiseIorUnsigned := bitwiseUnsigned Digit.ior Digit.ior pure

def bignumBitwiseNorUnsigned := bitwiseUnsigned Digit.ior Digit.ior bignumBitwiseNot

def bignumBitwiseEqvUnsigned := bitwiseUnsigned Digit.xor Digit.xor bignumBitwiseNot

def bignumBitwiseNandUnsigned := bitwiseUnsigned Digit.and Digit.and bignumBitwiseNot

/-! ## `DEFINE_BITWISE` -/

/-- `DEFINE_BITWISE` of `bignum.c`: the results for a zero operand, and an
unsigned operation for each pair of signs. -/
def defineBitwise (x0 y0 : Bignum → Bignum → Exec Bignum)
    (pp pn np nn : Bignum → Bignum → Exec Bignum) (x y : Bignum) : Exec Bignum :=
  if x.zeroP then y0 x y
  else if y.zeroP then x0 x y
  else if x.negative = false then
    if y.negative = false then pp x y
    else do
      let y ← bignumBitwiseNot y
      pn x y
  else
    if y.negative = false then do
      let x ← bignumBitwiseNot x
      np x y
    else do
      let x ← bignumBitwiseNot x
      let y ← bignumBitwiseNot y
      nn x y

/-- `(BIGNUM_ZERO ())` as the result for a zero operand. -/
def zeroResult (_ _ : Bignum) : Exec Bignum := return bignumMakeZero

/-- `(BIGNUM_ONE (1))` as the result for a zero operand. -/
def minusOneResult (_ _ : Bignum) : Exec Bignum := return bignumMakeOne true

def xResult (x _ : Bignum) : Exec Bignum := return x

def yResult (_ y : Bignum) : Exec Bignum := return y

def notXResult (x _ : Bignum) : Exec Bignum := bignumBitwiseNot x

def notYResult (_ y : Bignum) : Exec Bignum := bignumBitwiseNot y

def bignumBitwiseAnd : Bignum → Bignum → Exec Bignum :=
  defineBitwise zeroResult zeroResult bignumBitwiseAndUnsigned bignumBitwiseAndc2Unsigned
    bignumBitwiseAndc1Unsigned bignumBitwiseNorUnsigned

def bignumBitwiseAndc2 : Bignum → Bignum → Exec Bignum :=
  defineBitwise xResult zeroResult bignumBitwiseAndc2Unsigned bignumBitwiseAndUnsigned
    bignumBitwiseNorUnsigned bignumBitwiseAndc1Unsigned

def bignumBitwiseAndc1 : Bignum → Bignum → Exec Bignum :=
  defineBitwise zeroResult yResult bignumBitwiseAndc1Unsigned bignumBitwiseNorUnsigned
    bignumBitwiseAndUnsigned bignumBitwiseAndc2Unsigned

def bignumBitwiseOrc2Unsigned (x y : Bignum) : Exec Bignum := do
  let r ← bignumBitwiseAndc1 x y
  bignumBitwiseNot r

def bignumBitwiseOrc1Unsigned (x y : Bignum) : Exec Bignum := do
  let r ← bignumBitwiseAndc2 x y
  bignumBitwiseNot r

def bignumBitwiseXor : Bignum → Bignum → Exec Bignum :=
  defineBitwise xResult yResult bignumBitwiseXorUnsigned bignumBitwiseEqvUnsigned
    bignumBitwiseEqvUnsigned bignumBitwiseXorUnsigned

def bignumBitwiseIor : Bignum → Bignum → Exec Bignum :=
  defineBitwise xResult yResult bignumBitwiseIorUnsigned bignumBitwiseOrc2Unsigned
    bignumBitwiseOrc1Unsigned bignumBitwiseNandUnsigned

def bignumBitwiseNor : Bignum → Bignum → Exec Bignum :=
  defineBitwise notXResult notYResult bignumBitwiseNorUnsigned bignumBitwiseAndc1Unsigned
    bignumBitwiseAndc2Unsigned bignumBitwiseAndUnsigned

def bignumBitwiseEqv : Bignum → Bignum → Exec Bignum :=
  defineBitwise notXResult notYResult bignumBitwiseEqvUnsigned bignumBitwiseXorUnsigned
    bignumBitwiseXorUnsigned bignumBitwiseEqvUnsigned

def bignumBitwiseOrc2 : Bignum → Bignum → Exec Bignum :=
  defineBitwise minusOneResult notYResult bignumBitwiseOrc2Unsigned bignumBitwiseIorUnsigned
    bignumBitwiseNandUnsigned bignumBitwiseOrc1Unsigned

def bignumBitwiseOrc1 : Bignum → Bignum → Exec Bignum :=
  defineBitwise notXResult minusOneResult bignumBitwiseOrc1Unsigned bignumBitwiseNandUnsigned
    bignumBitwiseIorUnsigned bignumBitwiseOrc2Unsigned

def bignumBitwiseNand : Bignum → Bignum → Exec Bignum :=
  defineBitwise minusOneResult minusOneResult bignumBitwiseNandUnsigned bignumBitwiseOrc1Unsigned
    bignumBitwiseOrc2Unsigned bignumBitwiseIorUnsigned

/-! ## `artutl.c` -/

def integerBitwiseNot : ExactInteger → Exec ExactInteger
  | .fixnum n => return .fixnum (longToFixnum (Int.lnot (fixnumToLong n)))
  | .bignum b => do
    let r ← bignumBitwiseNot b
    return .bignum r

/-- `DEFINE_BITWISE` of `artutl.c`: one machine operation for two fixnums,
the bignum operation otherwise. -/
def integerBitwise (longOp : Int → Int → Int) (bignumOp : Bignum → Bignum → Exec Bignum) :
    ExactInteger → ExactInteger → Exec ExactInteger
  | .fixnum n, .fixnum m =>
    return .fixnum (longToFixnum (longOp (fixnumToLong n) (fixnumToLong m)))
  | n, m => do
    let x ← integerToBignum n
    let y ← integerToBignum m
    let r ← bignumOp x y
    bignumToInteger r

inductive BitwiseOp
  | and | andc2 | andc1 | xor | ior | nor | eqv | orc2 | orc1 | nand

namespace BitwiseOp

/-- `BITWISE_and` and its siblings, on longs. -/
def onLong : BitwiseOp → Int → Int → Int
  | .and, x, y => Int.land x y
  | .andc2, x, y => Int.land x (Int.lnot y)
  | .andc1, x, y => Int.land y (Int.lnot x)
  | .xor, x, y => Int.xor x y
  | .ior, x, y => Int.lor x y
  | .nor, x, y => Int.lnot (Int.lor x y)
  | .eqv, x, y => Int.lnot (Int.xor x y)
  | .orc2, x, y => Int.lor x (Int.lnot y)
  | .orc1, x, y => Int.lor y (Int.lnot x)
  | .nand, x, y => Int.lnot (Int.land x y)

def onBignum : BitwiseOp → Bignum → Bignum → Exec Bignum
  | .and => bignumBitwiseAnd
  | .andc2 => bignumBitwiseAndc2
  | .andc1 => bignumBitwiseAndc1
  | .xor => bignumBitwiseXor
  | .ior => bignumBitwiseIor
  | .nor => bignumBitwiseNor
  | .eqv => bignumBitwiseEqv
  | .orc2 => bignumBitwiseOrc2
  | .orc1 => bignumBitwiseOrc1
  | .nand => bignumBitwiseNand

/-- `integer_bitwise_and` and its siblings. -/
def onInteger (op : BitwiseOp) : ExactInteger → ExactInteger → Exec ExactInteger :=
  integerBitwise op.onLong op.onBignum

def truth : BitwiseOp → Bool → Bool → Bool
  | .and, a, b => a && b
  | .andc2, a, b => a && !b
  | .andc1, a, b => !a && b
  | .xor, a, b => a ^^ b
  | .ior, a, b => a || b
  | .nor, a, b => !(a || b)
  | .eqv, a, b => a == b
  | .orc2, a, b => a || !b
  | .orc1, a, b => !a || b
  | .nand, a, b => !(a && b)

end BitwiseOp

/-! ## The digit loops -/

theorem onDigits_and : OnDigits Digit.and (· && ·) :=
  ⟨rfl, fun a b => ⟨a &&& b, rfl, fun i => Nat.testBit_and a b i⟩⟩

theorem onDigits_andc2 : OnDigits Digit.andc2 (fun a b => a && !b) :=
  ⟨rfl, fun a b => ⟨Nat.ldiff a b, rfl, fun i => Nat.testBit_ldiff a b i⟩⟩

theorem onDigits_andc1 : OnDigits Digit.andc1 (fun a b => !a && b) :=
  ⟨rfl, fun a b => ⟨Nat.ldiff b a, rfl, fun i => by rw [Nat.testBit_ldiff, Bool.and_comm]⟩⟩

theorem onDigits_xor : OnDigits Digit.xor (· ^^ ·) :=
  ⟨rfl, fun a b => ⟨a ^^^ b, rfl, fun i => Nat.testBit_xor a b i⟩⟩

theorem onDigits_ior : OnDigits Digit.ior (· || ·) :=
  ⟨rfl, fun a b => ⟨a ||| b, rfl, fun i => Nat.testBit_or a b i⟩⟩

theorem bitwiseScan_spec {op : Int → Int → Int} {f : Bool → Bool → Bool} (h : OnDigits op f) :
    ∀ {xs ys : List Int}, ys.length ≤ xs.length → Digits bignumRadix xs → Digits bignumRadix ys →
      Digits bignumRadix (bitwiseScan op xs ys) ∧ (bitwiseScan op xs ys).length = xs.length ∧
        Bitwise f (value bignumRadix xs) (value bignumRadix ys)
          (value bignumRadix (bitwiseScan op xs ys))
  | [], [], _, _, _ => ⟨by simp [bitwiseScan], rfl, fun i => by
    simp only [bitwiseScan, value_nil, testBit_zero, h.clear]⟩
  | [], _ :: _, hl, _, _ => by simp at hl
  | x :: xs, [], hl, hx, hy => by
    obtain ⟨hd, hxs⟩ := digits_cons.mp hx
    obtain ⟨h1, h2, h3⟩ := bitwiseScan_spec h (show [].length ≤ xs.length by simp) hxs hy
    have hzero : (0 : Int) ≤ 0 ∧ (0 : Int) < bignumRadix := by decide
    obtain ⟨hr, hb⟩ := h.range (k := 62) hd hzero
    refine ⟨digits_cons.mpr ⟨hr, h1⟩, by simp [bitwiseScan, h2], fun i => ?_⟩
    have hv := testBit_numeral (k := 62) hr (value_nonneg bignumRadix_pos h1) i
    have hw := testBit_numeral (k := 62) hd (value_nonneg bignumRadix_pos hxs) i
    change (op x 0 + 2 ^ 62 * _).testBit i = f ((x + 2 ^ 62 * _).testBit i) _
    rw [hv, hw]
    split
    · exact hb i
    · have := h3 (i - 62)
      rw [value_nil, testBit_zero] at this ⊢
      exact this
  | x :: xs, y :: ys, hl, hx, hy => by
    obtain ⟨hd, hxs⟩ := digits_cons.mp hx
    obtain ⟨he, hys⟩ := digits_cons.mp hy
    obtain ⟨h1, h2, h3⟩ := bitwiseScan_spec h (by simpa using hl) hxs hys
    obtain ⟨hr, hb⟩ := h.range (k := 62) hd he
    refine ⟨digits_cons.mpr ⟨hr, h1⟩, by simp [bitwiseScan, h2], fun i => ?_⟩
    have hv := testBit_numeral (k := 62) hr (value_nonneg bignumRadix_pos h1) i
    have hw := testBit_numeral (k := 62) hd (value_nonneg bignumRadix_pos hxs) i
    have hu := testBit_numeral (k := 62) he (value_nonneg bignumRadix_pos hys) i
    change (op x y + 2 ^ 62 * _).testBit i = f ((x + 2 ^ 62 * _).testBit i)
      ((y + 2 ^ 62 * _).testBit i)
    rw [hv, hw, hu]
    split
    · exact hb i
    · exact h3 (i - 62)

/-! ## The unsigned operations -/

/-- A well-formed bignum that leaves room for one more digit in blocks of `N` digits. -/
structure Small (N : Nat) (b : Bignum) : Prop where
  wellFormed : b.WellFormed
  length : b.length < N

theorem TooLong.mono {m n} (h : m ≤ n) {f} (hf : TooLong m f) : TooLong n f :=
  ⟨hf.1, lt_of_lt_of_le hf.2 h⟩

theorem length_le_of_magnitude_lt {b : Bignum} (h : b.WellFormed) {n}
    (hm : b.magnitude < 2 ^ (62 * n)) : b.length ≤ n := by
  by_contra hc
  have := pow_le_magnitude h (n := 62 * n) (by omega) (by omega)
  omega

theorem negative_iff {b : Bignum} (h : b.WellFormed) : b.negative = true ↔ b.toInt < 0 := by
  have hm := h.magnitude_nonneg
  cases hs : b.negative with
  | false => have := nonnegative_toInt hs; constructor <;> intro h0 <;> first | omega | cases h0
  | true => have := negative_toInt h hs; exact iff_of_true rfl (by omega)

variable {f : Bool → Bool → Bool} {op : Int → Int → Int}

theorem small_of_bitwise {N} (hf : f false false = false) {x y z : Bignum} (hx : Small N x)
    (hy : Small N y) (nx : x.negative = false) (ny : y.negative = false) (hz : z.WellFormed)
    (hb : Bitwise f x.toInt y.toInt z.toInt) : Small N z ∧ z.negative = false := by
  have hmx := magnitude_lt_pow hx.wellFormed (n := 62 * (N - 1)) (by have := hx.length; omega)
  have hmy := magnitude_lt_pow hy.wellFormed (n := 62 * (N - 1)) (by have := hy.length; omega)
  rw [nonnegative_toInt nx, nonnegative_toInt ny] at hb
  obtain ⟨h0, hlt⟩ := hb.range hf ⟨hx.wellFormed.magnitude_nonneg, hmx⟩
    ⟨hy.wellFormed.magnitude_nonneg, hmy⟩
  have hneg : z.negative = false := by
    cases hs : z.negative with
    | false => rfl
    | true => have := (negative_iff hz).mp hs; omega
  rw [nonnegative_toInt hneg] at hlt
  have := length_le_of_magnitude_lt hz hlt
  have := hx.length
  exact ⟨⟨hz, by omega⟩, hneg⟩

theorem bignumBitwiseNot_gives {N} (hN : 2 ≤ N) {b} (h : Small N b) :
    Gives (TooLong N) (bignumBitwiseNot b) (fun z => z.WellFormed ∧ z.toInt = -1 - b.toInt) := by
  have hl := h.length
  refine (bignumSubtract_gives (wellFormed_one true) h.wellFormed).weaken fun f hf => hf.mono ?_
  change max 1 b.length + 1 ≤ N
  omega

theorem small_not {N} {b z : Bignum} (h : Small N b) (hs : b.negative = true) (hz : z.WellFormed)
    (hv : z.toInt = -1 - b.toInt) : Small N z ∧ z.negative = false := by
  have hb := negative_toInt h.wellFormed hs
  have hneg : z.negative = false := by
    cases hs : z.negative with
    | false => rfl
    | true => have := (negative_iff hz).mp hs; omega
  have hm := magnitude_lt_pow h.wellFormed (n := 62 * (N - 1)) (by have := h.length; omega)
  rw [nonnegative_toInt hneg] at hv
  have := length_le_of_magnitude_lt hz (n := N - 1) (by omega)
  have := h.length
  exact ⟨⟨hz, by omega⟩, hneg⟩

def UnsignedSpec (N : Nat) (op : Bignum → Bignum → Exec Bignum) (f : Bool → Bool → Bool) : Prop :=
  ∀ x y : Bignum, Small N x → Small N y → x.negative = false → y.negative = false →
    Gives (TooLong N) (op x y) (fun z => z.WellFormed ∧ Bitwise f x.toInt y.toInt z.toInt)

theorem bitwiseOrdered_gives {N} {g : Bool → Bool → Bool} (h : OnDigits op f)
    {postop : Bignum → Exec Bignum}
    (hp : ∀ {x y r : Bignum}, Small N r → Bitwise f x.toInt y.toInt r.toInt →
      Gives (TooLong N) (postop r) (fun z => z.WellFormed ∧ Bitwise g x.toInt y.toInt z.toInt))
    {x y} (hx : Small N x) (hy : Small N y) (nx : x.negative = false) (ny : y.negative = false)
    (hl : y.length ≤ x.length) :
    Gives (TooLong N) (bitwiseOrdered op postop x y)
      (fun z => z.WellFormed ∧ Bitwise g x.toInt y.toInt z.toInt) := by
  refine (bignumAllocate_gives hx.length.le).bind fun _ _ => ?_
  rw [check_ok hl, ok_bind]
  obtain ⟨hd, hlen, hb⟩ := bitwiseScan_spec h hl hx.wellFormed.digits hy.wellFormed.digits
  obtain ⟨hw, hv⟩ := bignumTrim_nonnegative hd
  have hbits : Bitwise f x.toInt y.toInt
      (bignumTrim ⟨false, bitwiseScan op x.digits y.digits⟩).toInt := by
    rw [nonnegative_toInt nx, nonnegative_toInt ny, hv]
    exact hb
  exact hp (small_of_bitwise h.clear hx hy nx ny hw hbits).1 hbits

theorem UnsignedSpec.congr {N} {op : Bignum → Bignum → Exec Bignum} {g : Bool → Bool → Bool}
    (h : UnsignedSpec N op f) (he : ∀ a b, f a b = g a b) : UnsignedSpec N op g :=
  fun x y hx hy nx ny => (h x y hx hy nx ny).mono fun _ hz =>
    ⟨hz.1, fun i => (hz.2 i).trans (he _ _)⟩

theorem bitwiseUnsigned_spec {N} {swapped : Int → Int → Int} (h : OnDigits op f)
    (hs : OnDigits swapped (fun a b => f b a)) :
    UnsignedSpec N (bitwiseUnsigned swapped op pure) f := by
  intro x y hx hy nx ny
  have hpure : ∀ {g : Bool → Bool → Bool} {x y r : Bignum}, Small N r →
      Bitwise g x.toInt y.toInt r.toInt →
      Gives (TooLong N) (pure r) (fun z => z.WellFormed ∧ Bitwise g x.toInt y.toInt z.toInt) :=
    fun hr hb => Gives.pure ⟨hr.wellFormed, hb⟩
  unfold bitwiseUnsigned
  split
  · exact (bitwiseOrdered_gives hs hpure hy hx ny nx (by omega)).mono
      fun z hz => ⟨hz.1, fun i => hz.2 i⟩
  · exact bitwiseOrdered_gives h hpure hx hy nx ny (by omega)

theorem bitwise_not_gives {N} (hN : 2 ≤ N) {v w r} (hr : Small N r) (hb : Bitwise f v w r.toInt) :
    Gives (TooLong N) (bignumBitwiseNot r)
      (fun z => z.WellFormed ∧ Bitwise (fun a b => !f a b) v w z.toInt) :=
  (bignumBitwiseNot_gives hN hr).mono fun z hz => ⟨hz.1, fun i => by
    rw [hz.2, testBit_neg_one_sub, hb i]⟩

theorem bitwiseUnsigned_not_spec {N} (hN : 2 ≤ N) (h : OnDigits op f) (hc : ∀ a b, f a b = f b a) :
    UnsignedSpec N (bitwiseUnsigned op op bignumBitwiseNot) (fun a b => !f a b) := by
  intro x y hx hy nx ny
  unfold bitwiseUnsigned
  split
  · refine (bitwiseOrdered_gives h (fun hr hb => bitwise_not_gives hN hr hb)
      hy hx ny nx (by omega)).mono fun z hz => ⟨hz.1, fun i => (hz.2 i).trans ?_⟩
    exact congrArg Bool.not (hc _ _)
  · exact bitwiseOrdered_gives h (fun hr hb => bitwise_not_gives hN hr hb) hx hy nx ny (by omega)

section Unsigned
variable {N : Nat}

theorem andUnsigned_spec : UnsignedSpec N bignumBitwiseAndUnsigned (· && ·) :=
  bitwiseUnsigned_spec onDigits_and (by simpa only [Bool.and_comm] using onDigits_and)

theorem andc2Unsigned_spec : UnsignedSpec N bignumBitwiseAndc2Unsigned (fun a b => a && !b) :=
  bitwiseUnsigned_spec onDigits_andc2 (by simpa only [Bool.and_comm] using onDigits_andc1)

theorem andc1Unsigned_spec : UnsignedSpec N bignumBitwiseAndc1Unsigned (fun a b => !a && b) :=
  bitwiseUnsigned_spec onDigits_andc1 (by simpa only [Bool.and_comm] using onDigits_andc2)

theorem xorUnsigned_spec : UnsignedSpec N bignumBitwiseXorUnsigned (· ^^ ·) :=
  bitwiseUnsigned_spec onDigits_xor (by simpa only [Bool.xor_comm] using onDigits_xor)

theorem iorUnsigned_spec : UnsignedSpec N bignumBitwiseIorUnsigned (· || ·) :=
  bitwiseUnsigned_spec onDigits_ior (by simpa only [Bool.or_comm] using onDigits_ior)

theorem norUnsigned_spec (hN : 2 ≤ N) :
    UnsignedSpec N bignumBitwiseNorUnsigned (fun a b => !(a || b)) :=
  bitwiseUnsigned_not_spec hN onDigits_ior Bool.or_comm

theorem eqvUnsigned_spec (hN : 2 ≤ N) :
    UnsignedSpec N bignumBitwiseEqvUnsigned (fun a b => !(a ^^ b)) :=
  bitwiseUnsigned_not_spec hN onDigits_xor Bool.xor_comm

theorem nandUnsigned_spec (hN : 2 ≤ N) :
    UnsignedSpec N bignumBitwiseNandUnsigned (fun a b => !(a && b)) :=
  bitwiseUnsigned_not_spec hN onDigits_and Bool.and_comm

end Unsigned

/-! ## The signed operations -/

def SignedSpec (N : Nat) (op : Bignum → Bignum → Exec Bignum) (f : Bool → Bool → Bool) : Prop :=
  ∀ x y : Bignum, Small N x → Small N y →
    Gives (TooLong N) (op x y) (fun z => z.WellFormed ∧ Bitwise f x.toInt y.toInt z.toInt)

theorem complement_testBit {v w : Int} (h : w = -1 - v) (i : Nat) : v.testBit i = !w.testBit i := by
  rw [h, testBit_neg_one_sub, Bool.not_not]

theorem defineBitwise_spec {N} (hN : 2 ≤ N) {x0 y0 pp pn np nn : Bignum → Bignum → Exec Bignum}
    (hx0 : ∀ {x y : Bignum}, Small N x →
      Gives (TooLong N) (x0 x y) (fun z => z.WellFormed ∧ Bitwise f x.toInt 0 z.toInt))
    (hy0 : ∀ {x y : Bignum}, Small N y →
      Gives (TooLong N) (y0 x y) (fun z => z.WellFormed ∧ Bitwise f 0 y.toInt z.toInt))
    (hpp : UnsignedSpec N pp f) (hpn : UnsignedSpec N pn (fun a b => f a (!b)))
    (hnp : UnsignedSpec N np (fun a b => f (!a) b))
    (hnn : UnsignedSpec N nn (fun a b => f (!a) (!b))) :
    SignedSpec N (defineBitwise x0 y0 pp pn np nn) f := by
  intro x y hx hy
  unfold defineBitwise
  by_cases hzx : x.digits = []
  · rw [if_pos (Bignum.zeroP_iff.mpr hzx), Bignum.toInt_of_nil hzx]
    exact hy0 hy
  rw [if_neg (by simpa using hzx)]
  by_cases hzy : y.digits = []
  · rw [if_pos (Bignum.zeroP_iff.mpr hzy), Bignum.toInt_of_nil hzy]
    exact hx0 hx
  rw [if_neg (by simpa using hzy)]
  cases nx : x.negative <;> cases ny : y.negative <;>
    simp only [Bool.true_eq_false, if_true, if_false]
  · exact hpp x y hx hy nx ny
  · refine (bignumBitwiseNot_gives hN hy).bind fun y' hy' => ?_
    obtain ⟨hs, ny'⟩ := small_not hy ny hy'.1 hy'.2
    refine (hpn x y' hx hs nx ny').mono fun z hz => ⟨hz.1, fun i => ?_⟩
    rw [complement_testBit hy'.2 i]
    exact hz.2 i
  · refine (bignumBitwiseNot_gives hN hx).bind fun x' hx' => ?_
    obtain ⟨hs, nx'⟩ := small_not hx nx hx'.1 hx'.2
    refine (hnp x' y hs hy nx' ny).mono fun z hz => ⟨hz.1, fun i => ?_⟩
    rw [complement_testBit hx'.2 i]
    exact hz.2 i
  · refine (bignumBitwiseNot_gives hN hx).bind fun x' hx' => ?_
    obtain ⟨hsx, nx'⟩ := small_not hx nx hx'.1 hx'.2
    refine (bignumBitwiseNot_gives hN hy).bind fun y' hy' => ?_
    obtain ⟨hsy, ny'⟩ := small_not hy ny hy'.1 hy'.2
    refine (hnn x' y' hsx hsy nx' ny').mono fun z hz => ⟨hz.1, fun i => ?_⟩
    rw [complement_testBit hx'.2 i, complement_testBit hy'.2 i]
    exact hz.2 i

section Zero
variable {N : Nat} {f : Bool → Bool → Bool} {x y : Bignum}

theorem zeroResult_gives {v w} (h : ∀ i, f (v.testBit i) (w.testBit i) = false) :
    Gives (TooLong N) (zeroResult x y) (fun z => z.WellFormed ∧ Bitwise f v w z.toInt) :=
  Gives.pure ⟨wellFormed_zero, fun i => (testBit_zero i).trans (h i).symm⟩

theorem minusOneResult_gives {v w} (h : ∀ i, f (v.testBit i) (w.testBit i) = true) :
    Gives (TooLong N) (minusOneResult x y) (fun z => z.WellFormed ∧ Bitwise f v w z.toInt) := by
  refine Gives.pure ⟨wellFormed_one true, fun i => ?_⟩
  rw [h i, show (bignumMakeOne true).toInt = -1 - 0 from by decide, testBit_neg_one_sub,
    testBit_zero]
  rfl

theorem xResult_gives {w} (hx : Small N x) (h : ∀ a i, f a (w.testBit i) = a) :
    Gives (TooLong N) (xResult x y) (fun z => z.WellFormed ∧ Bitwise f x.toInt w z.toInt) :=
  Gives.pure ⟨hx.wellFormed, fun i => (h _ i).symm⟩

theorem yResult_gives {v} (hy : Small N y) (h : ∀ b i, f (v.testBit i) b = b) :
    Gives (TooLong N) (yResult x y) (fun z => z.WellFormed ∧ Bitwise f v y.toInt z.toInt) :=
  Gives.pure ⟨hy.wellFormed, fun i => (h _ i).symm⟩

theorem notXResult_gives {w} (hN : 2 ≤ N) (hx : Small N x) (h : ∀ a i, f a (w.testBit i) = !a) :
    Gives (TooLong N) (notXResult x y) (fun z => z.WellFormed ∧ Bitwise f x.toInt w z.toInt) :=
  (bignumBitwiseNot_gives hN hx).mono fun z hz => ⟨hz.1, fun i => by
    rw [hz.2, testBit_neg_one_sub, h]⟩

theorem notYResult_gives {v} (hN : 2 ≤ N) (hy : Small N y) (h : ∀ b i, f (v.testBit i) b = !b) :
    Gives (TooLong N) (notYResult x y) (fun z => z.WellFormed ∧ Bitwise f v y.toInt z.toInt) :=
  (bignumBitwiseNot_gives hN hy).mono fun z hz => ⟨hz.1, fun i => by
    rw [hz.2, testBit_neg_one_sub, h]⟩

end Zero

section Signed
variable {N : Nat}

theorem andc1_spec (hN : 2 ≤ N) : SignedSpec N bignumBitwiseAndc1 (fun a b => !a && b) :=
  defineBitwise_spec hN (fun _ => zeroResult_gives (by simp)) (fun hy => yResult_gives hy (by simp))
    andc1Unsigned_spec ((norUnsigned_spec hN).congr (by decide))
    (andUnsigned_spec.congr (by decide)) (andc2Unsigned_spec.congr (by decide))

theorem andc2_spec (hN : 2 ≤ N) : SignedSpec N bignumBitwiseAndc2 (fun a b => a && !b) :=
  defineBitwise_spec hN (fun hx => xResult_gives hx (by simp)) (fun _ => zeroResult_gives (by simp))
    andc2Unsigned_spec (andUnsigned_spec.congr (by decide))
    ((norUnsigned_spec hN).congr (by decide)) (andc1Unsigned_spec.congr (by decide))

theorem orc2Unsigned_spec (hN : 2 ≤ N) :
    UnsignedSpec N bignumBitwiseOrc2Unsigned (fun a b => a || !b) := by
  intro x y hx hy nx ny
  refine (andc1_spec hN x y hx hy).bind fun r hr => ?_
  refine (bitwise_not_gives hN (small_of_bitwise rfl hx hy nx ny hr.1 hr.2).1 hr.2).mono ?_
  exact fun z hz => ⟨hz.1, fun i => (hz.2 i).trans (by simp)⟩

theorem orc1Unsigned_spec (hN : 2 ≤ N) :
    UnsignedSpec N bignumBitwiseOrc1Unsigned (fun a b => !a || b) := by
  intro x y hx hy nx ny
  refine (andc2_spec hN x y hx hy).bind fun r hr => ?_
  refine (bitwise_not_gives hN (small_of_bitwise rfl hx hy nx ny hr.1 hr.2).1 hr.2).mono ?_
  exact fun z hz => ⟨hz.1, fun i => (hz.2 i).trans (by simp)⟩

theorem BitwiseOp.onBignum_spec (hN : 2 ≤ N) (op : BitwiseOp) :
    SignedSpec N op.onBignum op.truth := by
  cases op with
  | and =>
    exact defineBitwise_spec hN (fun _ => zeroResult_gives (by simp [truth]))
      (fun _ => zeroResult_gives (by simp [truth])) andUnsigned_spec
      (andc2Unsigned_spec.congr (by decide)) (andc1Unsigned_spec.congr (by decide))
      ((norUnsigned_spec hN).congr (by decide))
  | andc2 => exact andc2_spec hN
  | andc1 => exact andc1_spec hN
  | xor =>
    exact defineBitwise_spec hN (fun hx => xResult_gives hx (by simp [truth]))
      (fun hy => yResult_gives hy (by simp [truth])) xorUnsigned_spec
      ((eqvUnsigned_spec hN).congr (by decide)) ((eqvUnsigned_spec hN).congr (by decide))
      (xorUnsigned_spec.congr (by decide))
  | ior =>
    exact defineBitwise_spec hN (fun hx => xResult_gives hx (by simp [truth]))
      (fun hy => yResult_gives hy (by simp [truth])) iorUnsigned_spec
      ((orc2Unsigned_spec hN).congr (by decide)) ((orc1Unsigned_spec hN).congr (by decide))
      ((nandUnsigned_spec hN).congr (by decide))
  | nor =>
    exact defineBitwise_spec hN (fun hx => notXResult_gives hN hx (by simp [truth]))
      (fun hy => notYResult_gives hN hy (by simp [truth])) (norUnsigned_spec hN)
      (andc1Unsigned_spec.congr (by decide)) (andc2Unsigned_spec.congr (by decide))
      (andUnsigned_spec.congr (by decide))
  | eqv =>
    exact defineBitwise_spec hN (fun hx => notXResult_gives hN hx (by simp [truth]))
      (fun hy => notYResult_gives hN hy (by simp [truth]))
      ((eqvUnsigned_spec hN).congr (by decide)) (xorUnsigned_spec.congr (by decide))
      (xorUnsigned_spec.congr (by decide)) ((eqvUnsigned_spec hN).congr (by decide))
  | orc2 =>
    exact defineBitwise_spec hN (fun _ => minusOneResult_gives (by simp [truth]))
      (fun hy => notYResult_gives hN hy (by simp [truth])) (orc2Unsigned_spec hN)
      (iorUnsigned_spec.congr (by decide)) ((nandUnsigned_spec hN).congr (by decide))
      ((orc1Unsigned_spec hN).congr (by decide))
  | orc1 =>
    exact defineBitwise_spec hN (fun hx => notXResult_gives hN hx (by simp [truth]))
      (fun _ => minusOneResult_gives (by simp [truth])) (orc1Unsigned_spec hN)
      ((nandUnsigned_spec hN).congr (by decide)) (iorUnsigned_spec.congr (by decide))
      ((orc2Unsigned_spec hN).congr (by decide))
  | nand =>
    exact defineBitwise_spec hN (fun _ => minusOneResult_gives (by simp [truth]))
      (fun _ => minusOneResult_gives (by simp [truth])) (nandUnsigned_spec hN)
      ((orc1Unsigned_spec hN).congr (by decide)) ((orc2Unsigned_spec hN).congr (by decide))
      (iorUnsigned_spec.congr (by decide))

end Signed

end MitScheme.Microcode
