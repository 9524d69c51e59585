import Mathlib
import MitScheme.Lib.BitCount
import MitScheme.Lib.EncodingForm
import MitScheme.Lib.Outcome

/-! # Encoding and decoding one character

The byte accessors of `bytevector.scm` and the UTF-8, UTF-16 and UTF-32 encoders and decoders of
`char.scm`. A character is its code point. -/

namespace MitScheme.Runtime.CharEncoding
open Lib.EncodingForm Lib.Outcome

abbrev Bytes := List UInt8

inductive Fault
  | badRange
  | wrongType
  | truncated (noun : String) (sequence : Bytes)
  | illFormed (noun : String) (sequence : Bytes)
  | outOfFuel
  deriving DecidableEq

abbrev Result (α : Type) := Except Fault α

/-- What an encoder returns as the index of the next character. -/
inductive Object
  | fixnum (n : Nat)
  | unspecific

def Object.value : Object → Result Nat
  | .fixnum n => .ok n
  | .unspecific => .error .wrongType

/-! ## Bytes and units -/

/-- A procedure that makes bytevectors. What the new bytes hold is not known. -/
structure Allocator where
  allocate : Nat → Bytes
  length_allocate : ∀ k, (allocate k).length = k

def zeroAllocator : Allocator := ⟨fun k => List.replicate k 0, fun _ => List.length_replicate⟩

def bytevectorU8Ref (bytevector : Bytes) (index : Nat) : Result Nat :=
  match bytevector[index]? with
  | some byte => .ok byte.toNat
  | none => .error .badRange

def bytevectorU8Set (bytevector : Bytes) (index value : Nat) : Result Bytes :=
  if index < bytevector.length ∧ value < 0x100 then .ok (bytevector.set index (UInt8.ofNat value))
  else .error .badRange

def u16Ref (bytesToU16 : Nat → Nat → Nat) (bytevector : Bytes) (index : Nat) : Result Nat := do
  if !(index + 1 < bytevector.length : Bool) then .error .badRange
  else
    return bytesToU16 (← bytevectorU8Ref bytevector index) (← bytevectorU8Ref bytevector (index + 1))

def u16Set (byte0 byte1 : Nat → Nat) (bytevector : Bytes) (index u16 : Nat) : Result Bytes := do
  if !(index + 1 < bytevector.length : Bool) then .error .badRange
  else if !(u16 < 0x10000 : Bool) then .error .wrongType
  else
    bytevectorU8Set (← bytevectorU8Set bytevector index (byte0 u16)) (index + 1) (byte1 u16)

def bytesToU16be (b0 b1 : Nat) : Nat := (b0 <<< 8) ||| b1

def bytesToU16le (b0 b1 : Nat) : Nat := b0 ||| (b1 <<< 8)

def bytevectorU16beRef : Bytes → Nat → Result Nat := u16Ref bytesToU16be

def bytevectorU16leRef : Bytes → Nat → Result Nat := u16Ref bytesToU16le

def bytevectorU16beSet : Bytes → Nat → Nat → Result Bytes :=
  u16Set (fun u16 => u16 >>> 8) (fun u16 => u16 &&& 0xFF)

def bytevectorU16leSet : Bytes → Nat → Nat → Result Bytes :=
  u16Set (fun u16 => u16 &&& 0xFF) (fun u16 => u16 >>> 8)

def u32Ref (bytesToU32 : Nat → Nat → Nat → Nat → Nat) (bytevector : Bytes) (index : Nat) :
    Result Nat := do
  if !(index + 3 < bytevector.length : Bool) then .error .badRange
  else
    return bytesToU32 (← bytevectorU8Ref bytevector index) (← bytevectorU8Ref bytevector (index + 1))
      (← bytevectorU8Ref bytevector (index + 2)) (← bytevectorU8Ref bytevector (index + 3))

def u32Set (byte0 byte1 byte2 byte3 : Nat → Nat) (bytevector : Bytes) (index u32 : Nat) :
    Result Bytes := do
  if !(index + 3 < bytevector.length : Bool) then .error .badRange
  else if !(u32 ≤ 0xFFFFFFFF : Bool) then .error .wrongType
  else
    let bytevector ← bytevectorU8Set bytevector index (byte0 u32)
    let bytevector ← bytevectorU8Set bytevector (index + 1) (byte1 u32)
    let bytevector ← bytevectorU8Set bytevector (index + 2) (byte2 u32)
    bytevectorU8Set bytevector (index + 3) (byte3 u32)

def bytesToU32be (b0 b1 b2 b3 : Nat) : Nat := ((b0 <<< 24) ||| (b1 <<< 16)) ||| ((b2 <<< 8) ||| b3)

def bytesToU32le (b0 b1 b2 b3 : Nat) : Nat := bytesToU32be b3 b2 b1 b0

def u32beByte0 (u32 : Nat) : Nat := u32 >>> 24
def u32beByte1 (u32 : Nat) : Nat := (u32 >>> 16) &&& 0xFF
def u32beByte2 (u32 : Nat) : Nat := (u32 >>> 8) &&& 0xFF
def u32beByte3 (u32 : Nat) : Nat := u32 &&& 0xFF

def bytevectorU32beRef : Bytes → Nat → Result Nat := u32Ref bytesToU32be

def bytevectorU32leRef : Bytes → Nat → Result Nat := u32Ref bytesToU32le

def bytevectorU32beSet : Bytes → Nat → Nat → Result Bytes :=
  u32Set u32beByte0 u32beByte1 u32beByte2 u32beByte3

def bytevectorU32leSet : Bytes → Nat → Nat → Result Bytes :=
  u32Set u32beByte3 u32beByte2 u32beByte1 u32beByte0

/-! ## Characters -/

def utf16Surrogate (cp : Nat) : Bool := 0xD800 = 0xF800 &&& cp

def utf16HighSurrogate (cp : Nat) : Bool := 0xD800 = 0xFC00 &&& cp

def utf16LowSurrogate (cp : Nat) : Bool := 0xDC00 = 0xFC00 &&& cp

/-- `unicode-scalar-value?`. -/
def unicodeScalarValue (n : Nat) : Bool := n < 0x110000 && !utf16Surrogate n

def charToScalarValue (char : Nat) : Result Nat :=
  if unicodeScalarValue char then .ok char else .error .wrongType

def integerToChar (n : Nat) : Result Nat := if n < 2 ^ 25 then .ok n else .error .badRange

def extractBits (word mask shift : Nat) : Nat := (word &&& mask) <<< shift

/-- `insert-bits`, with the shift to the right. -/
def insertBits (word mask shift : Nat) : Nat := (word >>> shift) &&& mask

def charReplacement : Nat := 0xFFFD

/-! ## Encoders -/

def charUtf8ByteLength (char : Nat) : Result Nat := do
  let sv ← charToScalarValue char
  return if sv < 0x80 then 1 else if sv < 0x800 then 2 else if sv < 0x10000 then 3 else 4

def encodeUtf8Char (bytes : Bytes) (index : Object) (char : Nat) : Result (Bytes × Object) := do
  let sv ← charToScalarValue char
  let index ← index.value
  let initialByte leader offset := leader ||| (sv >>> offset)
  let trailingByte offset := 0x80 ||| insertBits sv 0x3F offset
  if sv < 0x80 then
    let bytes ← bytevectorU8Set bytes index sv
    return (bytes, .fixnum (index + 1))
  else if sv < 0x800 then
    let bytes ← bytevectorU8Set bytes index (initialByte 0xC0 6)
    let bytes ← bytevectorU8Set bytes (index + 1) (trailingByte 0)
    return (bytes, .fixnum (index + 2))
  else if sv < 0x10000 then
    let bytes ← bytevectorU8Set bytes index (initialByte 0xE0 12)
    let bytes ← bytevectorU8Set bytes (index + 1) (trailingByte 6)
    let bytes ← bytevectorU8Set bytes (index + 2) (trailingByte 0)
    return (bytes, .fixnum (index + 3))
  else
    let bytes ← bytevectorU8Set bytes index (initialByte 0xF0 18)
    let bytes ← bytevectorU8Set bytes (index + 1) (trailingByte 12)
    let bytes ← bytevectorU8Set bytes (index + 2) (trailingByte 6)
    let bytes ← bytevectorU8Set bytes (index + 3) (trailingByte 0)
    return (bytes, .fixnum (index + 4))

def charUtf16ByteLength (char : Nat) : Result Nat := do
  return if (← charToScalarValue char) < 0x10000 then 2 else 4

def utf16CharEncoder (setter : Bytes → Nat → Nat → Result Bytes) (bytes : Bytes) (index : Object)
    (char : Nat) : Result (Bytes × Object) := do
  let sv ← charToScalarValue char
  let index ← index.value
  if sv < 0x10000 then
    let bytes ← setter bytes index sv
    return (bytes, .fixnum (index + 2))
  else
    let n := sv - 0x10000
    let bytes ← setter bytes index (0xD800 ||| insertBits n 0x3FF 10)
    let bytes ← setter bytes (index + 2) (0xDC00 ||| insertBits n 0x3FF 0)
    return (bytes, .fixnum (index + 4))

def encodeUtf16beChar := utf16CharEncoder bytevectorU16beSet

def encodeUtf16leChar := utf16CharEncoder bytevectorU16leSet

def charUtf32ByteLength (char : Nat) : Result Nat := do
  let _ ← charToScalarValue char
  return 4

def utf32CharEncoder (setter : Bytes → Nat → Nat → Result Bytes) (bytes : Bytes) (index : Object)
    (char : Nat) : Result (Bytes × Object) := do
  let sv ← charToScalarValue char
  let index ← index.value
  let bytes ← setter bytes index sv
  return (bytes, .unspecific)

def encodeUtf32beChar := utf32CharEncoder bytevectorU32beSet

def encodeUtf32leChar := utf32CharEncoder bytevectorU32leSet

/-! ## Decoders -/

def utf8InitialByte1 (byte : Nat) : Bool := 0x00 = 0x80 &&& byte

def utf8InitialByte2 (byte : Nat) : Bool := byte ≥ 0xC2 && byte ≤ 0xDF

def utf8InitialByte3 (byte : Nat) : Bool := 0xE0 = 0xF0 &&& byte

def utf8InitialByte4 (byte : Nat) : Bool := byte ≥ 0xF0 && byte ≤ 0xF4

/-- `u8:80..8f?`. -/
def u8In80to8f (byte : Nat) : Bool := 0x80 = 0xF0 &&& byte

/-- `u8:80..9f?`. -/
def u8In80to9f (byte : Nat) : Bool := 0x80 = 0xE0 &&& byte

/-- `u8:80..bf?`. -/
def u8In80toBf (byte : Nat) : Bool := 0x80 = 0xC0 &&& byte

/-- `u8:90..bf?`. -/
def u8In90toBf (byte : Nat) : Bool := byte ≥ 0x90 && byte ≤ 0xBF

/-- `u8:a0..bf?`. -/
def u8InA0toBf (byte : Nat) : Bool := byte ≥ 0xA0 && byte ≤ 0xBF

def validUtf8Sequence2 (b0 b1 : Nat) : Bool := utf8InitialByte2 b0 && u8In80toBf b1

def validUtf8Sequence3 (b0 b1 b2 : Nat) : Bool :=
  utf8InitialByte3 b0 &&
    (if b0 = 0xE0 then u8InA0toBf b1
     else if b0 < 0xED then u8In80toBf b1
     else if b0 = 0xED then u8In80to9f b1
     else u8In80toBf b1) &&
    u8In80toBf b2

def validUtf8Sequence4 (b0 b1 b2 b3 : Nat) : Bool :=
  utf8InitialByte4 b0 &&
    (if b0 = 0xF0 then u8In90toBf b1
     else if b0 < 0xF4 then u8In80toBf b1
     else u8In80to8f b1) &&
    u8In80toBf b2 && u8In80toBf b3

/-- `initial-byte->utf8-char-length`: one for a byte that no character begins with. -/
def initialByteToUtf8CharLength (b0 : Nat) : Result Nat :=
  if !(b0 < 0x100 : Bool) then .error .wrongType
  else
    .ok (if utf8InitialByte1 b0 then 1 else if utf8InitialByte2 b0 then 2
      else if utf8InitialByte3 b0 then 3 else if utf8InitialByte4 b0 then 4 else 1)

def decodeUtf8Char (bytes : Bytes) (index : Nat) : Result (Option Nat) := do
  let b0 ← bytevectorU8Ref bytes index
  if utf8InitialByte1 b0 then return some (← integerToChar b0)
  else if utf8InitialByte2 b0 then
    let b1 ← bytevectorU8Ref bytes (index + 1)
    if validUtf8Sequence2 b0 b1 then
      return some (← integerToChar (extractBits b0 0x1F 6 ||| extractBits b1 0x3F 0))
    else return none
  else if utf8InitialByte3 b0 then
    let b1 ← bytevectorU8Ref bytes (index + 1)
    let b2 ← bytevectorU8Ref bytes (index + 2)
    if validUtf8Sequence3 b0 b1 b2 then
      return some (← integerToChar
        ((extractBits b0 0x0F 12 ||| extractBits b1 0x3F 6) ||| extractBits b2 0x3F 0))
    else return none
  else if utf8InitialByte4 b0 then
    let b1 ← bytevectorU8Ref bytes (index + 1)
    let b2 ← bytevectorU8Ref bytes (index + 2)
    let b3 ← bytevectorU8Ref bytes (index + 3)
    if validUtf8Sequence4 b0 b1 b2 b3 then
      return some (← integerToChar ((extractBits b0 0x07 18 ||| extractBits b1 0x3F 12) |||
        (extractBits b2 0x3F 6 ||| extractBits b3 0x3F 0)))
    else return none
  else return none

def initialU16ToUtf16CharLength (u16 : Nat) : Result Nat :=
  if !(u16 < 0x10000 : Bool) then .error .wrongType
  else .ok (if !utf16LowSurrogate u16 && utf16HighSurrogate u16 then 4 else 2)

def utf16CharDecoder (getter : Bytes → Nat → Result Nat) (bytes : Bytes) (index : Nat) :
    Result (Option Nat) := do
  let d0 ← getter bytes index
  if !utf16LowSurrogate d0 then
    if utf16HighSurrogate d0 then
      let d1 ← getter bytes (index + 2)
      if utf16LowSurrogate d1 then
        return some (← integerToChar ((extractBits d0 0x3FF 10 ||| extractBits d1 0x3FF 0) + 0x10000))
      else return none
    else return some (← integerToChar d0)
  else return none

def decodeUtf16beChar := utf16CharDecoder bytevectorU16beRef

def decodeUtf16leChar := utf16CharDecoder bytevectorU16leRef

def initialU32ToUtf32CharLength (u32 : Nat) : Result Nat :=
  if !(u32 ≤ 0xFFFFFFFF : Bool) then .error .wrongType else .ok 4

def utf32CharDecoder (getter : Bytes → Nat → Result Nat) (bytes : Bytes) (index : Nat) :
    Result (Option Nat) := do
  let u32 ← getter bytes index
  if unicodeScalarValue u32 then return some (← integerToChar u32) else return none

def decodeUtf32beChar := utf32CharDecoder bytevectorU32beRef

def decodeUtf32leChar := utf32CharDecoder bytevectorU32leRef

/-! ## Bits as arithmetic -/

theorem or_eq_add {a b} (i) (ha : a % 2 ^ i = 0) (hb : b < 2 ^ i) : a ||| b = a + b := by
  obtain ⟨q, rfl⟩ := Nat.dvd_of_mod_eq_zero ha
  exact (Nat.two_pow_add_eq_or_of_lt hb q).symm

theorem extractBits_eq (word k shift) :
    extractBits word (2 ^ k - 1) shift = word % 2 ^ k * 2 ^ shift := by
  rw [extractBits, Nat.and_two_pow_sub_one_eq_mod, Nat.shiftLeft_eq]

theorem insertBits_eq (word k shift) :
    insertBits word (2 ^ k - 1) shift = word / 2 ^ shift % 2 ^ k := by
  rw [insertBits, Nat.and_two_pow_sub_one_eq_mod, Nat.shiftRight_eq_div_pow]

theorem mask_land (n k j) : (2 ^ k * (2 ^ j - 1)) &&& n = 2 ^ k * (n / 2 ^ k % 2 ^ j) := by
  have hland := MitScheme.Lib.BitCount.land_append (k := k) (a := 0) (c := n % 2 ^ k)
    (Nat.two_pow_pos k) (Nat.mod_lt _ (Nat.two_pow_pos k)) (2 ^ j - 1) (n / 2 ^ k)
  rw [Nat.zero_and, Nat.zero_add, Nat.zero_add, Nat.mod_add_div, Nat.and_comm (2 ^ j - 1),
    Nat.and_two_pow_sub_one_eq_mod] at hland
  exact hland

theorem utf16Surrogate_eq (n) : utf16Surrogate n = decide (n / 0x800 % 0x20 = 27) := by
  have hmask : 0xF800 &&& n = 2048 * (n / 2048 % 32) := mask_land n 11 5
  rw [utf16Surrogate, hmask, decide_eq_decide]
  omega

theorem utf16HighSurrogate_eq (n) : utf16HighSurrogate n = decide (n / 0x400 % 0x40 = 54) := by
  have hmask : 0xFC00 &&& n = 1024 * (n / 1024 % 64) := mask_land n 10 6
  rw [utf16HighSurrogate, hmask, decide_eq_decide]
  omega

theorem utf16LowSurrogate_eq (n) : utf16LowSurrogate n = decide (n / 0x400 % 0x40 = 55) := by
  have hmask : 0xFC00 &&& n = 1024 * (n / 1024 % 64) := mask_land n 10 6
  rw [utf16LowSurrogate, hmask, decide_eq_decide]
  omega

theorem unicodeScalarValue_iff {n} :
    unicodeScalarValue n = true ↔ n < 0x110000 ∧ n / 0x800 % 0x20 ≠ 27 := by
  rw [unicodeScalarValue, utf16Surrogate_eq, Bool.and_eq_true, decide_eq_true_eq, Bool.not_eq_true',
    decide_eq_false_iff_not]

theorem scalar_of_unicodeScalarValue {n} (h : unicodeScalarValue n = true) : Scalar n := by
  obtain ⟨hlt, hne⟩ := unicodeScalarValue_iff.mp h
  rw [Scalar]
  omega

theorem charToScalarValue_ok {n} (h : unicodeScalarValue n = true) :
    charToScalarValue n = .ok n := if_pos h

/-! ## Classes of bytes -/

theorem utf8InitialByte1_eq {b} (h : b < 256) : utf8InitialByte1 b = decide (b < 0x80) := by
  revert b
  decide +kernel

theorem utf8InitialByte2_eq (b) : utf8InitialByte2 b = decide (0xC2 ≤ b ∧ b ≤ 0xDF) :=
  (Bool.decide_and _ _).symm

theorem utf8InitialByte4_eq (b) : utf8InitialByte4 b = decide (0xF0 ≤ b ∧ b ≤ 0xF4) :=
  (Bool.decide_and _ _).symm

section
variable {b : Nat} (h : b < 256)
include h

theorem utf8InitialByte3_eq : utf8InitialByte3 b = decide (0xE0 ≤ b ∧ b ≤ 0xEF) := by
  have hmask : 0xF0 &&& b = 16 * (b / 16 % 16) := mask_land b 4 4
  rw [utf8InitialByte3, hmask, decide_eq_decide]
  omega

theorem u8In80to8f_eq : u8In80to8f b = decide (0x80 ≤ b ∧ b ≤ 0x8F) := by
  have hmask : 0xF0 &&& b = 16 * (b / 16 % 16) := mask_land b 4 4
  rw [u8In80to8f, hmask, decide_eq_decide]
  omega

theorem u8In80to9f_eq : u8In80to9f b = decide (0x80 ≤ b ∧ b ≤ 0x9F) := by
  have hmask : 0xE0 &&& b = 32 * (b / 32 % 8) := mask_land b 5 3
  rw [u8In80to9f, hmask, decide_eq_decide]
  omega

theorem u8In80toBf_eq : u8In80toBf b = decide (0x80 ≤ b ∧ b ≤ 0xBF) := by
  have hmask : 0xC0 &&& b = 64 * (b / 64 % 4) := mask_land b 6 2
  rw [u8In80toBf, hmask, decide_eq_decide]
  omega

end

/-! ## Reading bytes -/

section
variable {bytevector rest : Bytes} {index : Nat} {b0 b1 b2 b3 : UInt8}

theorem u8Ref_eq (h : bytevector.drop index = b0 :: rest) :
    bytevectorU8Ref bytevector index = .ok b0.toNat ∧ bytevector.drop (index + 1) = rest := by
  have hget : bytevector[index]? = some b0 := by
    rw [← List.head?_drop, h]
    rfl
  refine ⟨by rw [bytevectorU8Ref, hget], ?_⟩
  rw [← List.drop_drop, h]
  rfl

theorem length_of_drop {w} (h : bytevector.drop index = w) (hw : w ≠ []) :
    bytevector.length = index + w.length := by
  have hlen := congrArg List.length h
  rw [List.length_drop] at hlen
  have := List.length_pos_iff.mpr hw
  omega

theorem u16Ref_eq (f) (h : bytevector.drop index = b0 :: b1 :: rest) :
    u16Ref f bytevector index = .ok (f b0.toNat b1.toNat) ∧ bytevector.drop (index + 2) = rest := by
  obtain ⟨h0, hdrop⟩ := u8Ref_eq h
  obtain ⟨h1, hdrop'⟩ := u8Ref_eq hdrop
  have hlen := length_of_drop h (List.cons_ne_nil _ _)
  simp only [List.length_cons] at hlen
  refine ⟨?_, hdrop'⟩
  rw [u16Ref, decide_eq_true (by omega), h0, h1]
  rfl

theorem u32Ref_eq (f) (h : bytevector.drop index = b0 :: b1 :: b2 :: b3 :: rest) :
    u32Ref f bytevector index = .ok (f b0.toNat b1.toNat b2.toNat b3.toNat) := by
  obtain ⟨h0, hdrop⟩ := u8Ref_eq h
  obtain ⟨h1, hdrop⟩ := u8Ref_eq hdrop
  obtain ⟨h2, hdrop⟩ := u8Ref_eq hdrop
  obtain ⟨h3, hdrop⟩ := u8Ref_eq hdrop
  have hlen := length_of_drop h (List.cons_ne_nil _ _)
  simp only [List.length_cons] at hlen
  rw [u32Ref, decide_eq_true (by omega), h0, h1, h2, h3]
  rfl

end

def ReadsTwo (getter : Bytes → Nat → Result Nat) (order : Order) : Prop :=
  ∀ {bytevector : Bytes} {index : Nat} {b0 b1 rest}, bytevector.drop index = b0 :: b1 :: rest →
    getter bytevector index = .ok (order.unit b0 b1) ∧ bytevector.drop (index + 2) = rest

def ReadsFour (getter : Bytes → Nat → Result Nat) (order : Order) : Prop :=
  ∀ {bytevector : Bytes} {index : Nat} {b0 b1 b2 b3 rest},
    bytevector.drop index = b0 :: b1 :: b2 :: b3 :: rest →
      getter bytevector index = .ok (order.word b0 b1 b2 b3)

theorem bytesToU16be_eq (b0 b1) : bytesToU16be b0.toNat b1.toNat = Order.big.unit b0 b1 := by
  have h1 := b1.toNat_lt
  rw [bytesToU16be, Nat.shiftLeft_eq, or_eq_add 8 (by omega) (by omega)]
  rfl

theorem bytesToU16le_eq (b0 b1) : bytesToU16le b0.toNat b1.toNat = Order.little.unit b0 b1 := by
  rw [bytesToU16le, Nat.or_comm]
  exact bytesToU16be_eq b1 b0

theorem bytesToU32be_eq (b0 b1 b2 b3) :
    bytesToU32be b0.toNat b1.toNat b2.toNat b3.toNat = Order.big.word b0 b1 b2 b3 := by
  have h1 := b1.toNat_lt
  have h2 := b2.toNat_lt
  have h3 := b3.toNat_lt
  have hhigh : b0.toNat * 2 ^ 24 ||| b1.toNat * 2 ^ 16 = b0.toNat * 2 ^ 24 + b1.toNat * 2 ^ 16 :=
    or_eq_add 24 (by omega) (by omega)
  have hlow : b2.toNat * 2 ^ 8 ||| b3.toNat = b2.toNat * 2 ^ 8 + b3.toNat :=
    or_eq_add 8 (by omega) (by omega)
  rw [bytesToU32be, Nat.shiftLeft_eq, Nat.shiftLeft_eq, Nat.shiftLeft_eq, hhigh, hlow,
    or_eq_add 16 (by omega) (by omega)]
  simp only [Order.word]
  omega

theorem bytevectorU16beRef_reads : ReadsTwo bytevectorU16beRef .big := fun {_ _ b0 b1 _} h =>
  bytesToU16be_eq b0 b1 ▸ u16Ref_eq bytesToU16be h

theorem bytevectorU16leRef_reads : ReadsTwo bytevectorU16leRef .little := fun {_ _ b0 b1 _} h =>
  bytesToU16le_eq b0 b1 ▸ u16Ref_eq bytesToU16le h

theorem bytevectorU32beRef_reads : ReadsFour bytevectorU32beRef .big :=
  fun {_ _ b0 b1 b2 b3 _} h => bytesToU32be_eq b0 b1 b2 b3 ▸ u32Ref_eq bytesToU32be h

theorem bytevectorU32leRef_reads : ReadsFour bytevectorU32leRef .little :=
  fun {_ _ b0 b1 b2 b3 _} h => by
    have heq : bytesToU32le b0.toNat b1.toNat b2.toNat b3.toNat = Order.little.word b0 b1 b2 b3 :=
      bytesToU32be_eq b3 b2 b1 b0
    rw [bytevectorU32leRef, u32Ref_eq bytesToU32le h, heq]

/-! ## Writing bytes -/

section
variable (pre post : Bytes) {a b c x y z u : UInt8} {v : Nat}

theorem u8Set_append (mid) (hv : v < 256) :
    bytevectorU8Set (pre ++ (mid ++ x :: post)) (pre.length + mid.length) v =
      .ok (pre ++ (mid ++ UInt8.ofNat v :: post)) := by
  have hlen : pre.length + mid.length < (pre ++ (mid ++ x :: post)).length := by
    simp only [List.length_append, List.length_cons]
    omega
  rw [bytevectorU8Set, if_pos ⟨hlen, hv⟩, List.set_append_right _ _ (by omega),
    Nat.add_sub_cancel_left, List.set_append_right _ _ (Nat.le_refl _), Nat.sub_self,
    List.set_cons_zero]

theorem u8Set_zero (hv : v < 256) :
    bytevectorU8Set (pre ++ x :: post) pre.length v = .ok (pre ++ UInt8.ofNat v :: post) :=
  u8Set_append pre post [] hv

theorem u8Set_one (hv : v < 256) :
    bytevectorU8Set (pre ++ a :: x :: post) (pre.length + 1) v =
      .ok (pre ++ a :: UInt8.ofNat v :: post) :=
  u8Set_append pre post [a] hv

theorem u8Set_two (hv : v < 256) :
    bytevectorU8Set (pre ++ a :: b :: x :: post) (pre.length + 2) v =
      .ok (pre ++ a :: b :: UInt8.ofNat v :: post) :=
  u8Set_append pre post [a, b] hv

theorem u8Set_three (hv : v < 256) :
    bytevectorU8Set (pre ++ a :: b :: c :: x :: post) (pre.length + 3) v =
      .ok (pre ++ a :: b :: c :: UInt8.ofNat v :: post) :=
  u8Set_append pre post [a, b, c] hv

theorem u16Set_zero (byte0 byte1) (hv : v < 0x10000) (h0 : byte0 v < 256) (h1 : byte1 v < 256) :
    u16Set byte0 byte1 (pre ++ x :: y :: post) pre.length v =
      .ok (pre ++ UInt8.ofNat (byte0 v) :: UInt8.ofNat (byte1 v) :: post) := by
  have hlen : pre.length + 1 < (pre ++ x :: y :: post).length := by
    simp only [List.length_append, List.length_cons]
    omega
  rw [u16Set, decide_eq_true hlen, decide_eq_true hv, u8Set_zero pre _ h0]
  exact u8Set_one pre post h1

theorem u32Set_zero (byte0 byte1 byte2 byte3) (hv : v ≤ 0xFFFFFFFF) (h0 : byte0 v < 256)
    (h1 : byte1 v < 256) (h2 : byte2 v < 256) (h3 : byte3 v < 256) :
    u32Set byte0 byte1 byte2 byte3 (pre ++ x :: y :: z :: u :: post) pre.length v =
      .ok (pre ++ bytes [byte0 v, byte1 v, byte2 v, byte3 v] ++ post) := by
  have hlen : pre.length + 3 < (pre ++ x :: y :: z :: u :: post).length := by
    simp only [List.length_append, List.length_cons]
    omega
  rw [u32Set, decide_eq_true hlen, decide_eq_true hv, u8Set_zero pre _ h0, ok_bind,
    u8Set_one pre _ h1, ok_bind, u8Set_two pre _ h2, ok_bind, List.append_assoc]
  exact u8Set_three pre post h3

end

def WritesTwo (setter : Bytes → Nat → Nat → Result Bytes) (order : Order) : Prop :=
  ∀ (pre post : Bytes) {x y : UInt8} {v : Nat}, v < 0x10000 →
    setter (pre ++ x :: y :: post) pre.length v = .ok (pre ++ bytes (order.two v) ++ post)

def WritesFour (setter : Bytes → Nat → Nat → Result Bytes) (order : Order) : Prop :=
  ∀ (pre post : Bytes) {x y z u : UInt8} {v : Nat}, v ≤ 0xFFFFFFFF →
    setter (pre ++ x :: y :: z :: u :: post) pre.length v =
      .ok (pre ++ bytes (order.four v) ++ post)

theorem low_byte (v) : v &&& 0xFF = v % 0x100 := Nat.and_two_pow_sub_one_eq_mod v 8

theorem bytevectorU16beSet_writes : WritesTwo bytevectorU16beSet .big := by
  intro pre post x y v hv
  have hhigh : v >>> 8 = v / 0x100 := Nat.shiftRight_eq_div_pow v 8
  rw [bytevectorU16beSet, u16Set_zero pre post _ _ hv (by rw [hhigh]; omega)
    (by rw [low_byte]; omega), hhigh, low_byte, List.append_assoc]
  rfl

theorem bytevectorU16leSet_writes : WritesTwo bytevectorU16leSet .little := by
  intro pre post x y v hv
  have hhigh : v >>> 8 = v / 0x100 := Nat.shiftRight_eq_div_pow v 8
  rw [bytevectorU16leSet, u16Set_zero pre post _ _ hv (by rw [low_byte]; omega)
    (by rw [hhigh]; omega), hhigh, low_byte, List.append_assoc]
  rfl

theorem u32beBytes_eq (v) :
    u32beByte0 v = v / 0x1000000 ∧ u32beByte1 v = v / 0x10000 % 0x100 ∧
      u32beByte2 v = v / 0x100 % 0x100 ∧ u32beByte3 v = v % 0x100 := by
  refine ⟨Nat.shiftRight_eq_div_pow v 24, ?_, ?_, low_byte v⟩
  · rw [u32beByte1, low_byte, Nat.shiftRight_eq_div_pow]
  · rw [u32beByte2, low_byte, Nat.shiftRight_eq_div_pow]

theorem bytevectorU32beSet_writes : WritesFour bytevectorU32beSet .big := by
  intro pre post x y z u v hv
  obtain ⟨h0, h1, h2, h3⟩ := u32beBytes_eq v
  rw [bytevectorU32beSet, u32Set_zero pre post _ _ _ _ hv (by omega) (by omega) (by omega) (by omega),
    h0, h1, h2, h3]
  rfl

theorem bytevectorU32leSet_writes : WritesFour bytevectorU32leSet .little := by
  intro pre post x y z u v hv
  obtain ⟨h0, h1, h2, h3⟩ := u32beBytes_eq v
  rw [bytevectorU32leSet, u32Set_zero pre post _ _ _ _ hv (by omega) (by omega) (by omega) (by omega),
    h0, h1, h2, h3]
  rfl

/-! ## The encoders are right -/

/-- The encoder writes the word of a character and returns what `after` makes of the index behind
it. -/
structure Encoder (enc : Nat → Bytes) (byteLength : Nat → Result Nat)
    (encodeChar : Bytes → Object → Nat → Result (Bytes × Object)) (after : Nat → Object) :
    Prop where
  length : ∀ {c}, unicodeScalarValue c = true → byteLength c = .ok (enc c).length
  encode : ∀ {c}, unicodeScalarValue c = true → ∀ (pre old post : Bytes),
    old.length = (enc c).length → encodeChar (pre ++ old ++ post) (.fixnum pre.length) c =
      .ok (pre ++ enc c ++ post, after (pre.length + (enc c).length))
  refuse : ∀ {c}, unicodeScalarValue c = false → byteLength c = .error .wrongType

theorem utf32_encoder {setter : Bytes → Nat → Nat → Result Bytes} {order}
    (h : WritesFour setter order) :
    Encoder (utf32 order) charUtf32ByteLength (utf32CharEncoder setter) fun _ => .unspecific where
  length := by
    intro c hc
    rw [charUtf32ByteLength, charToScalarValue_ok hc, utf32_length]
    rfl
  encode := by
    intro c hc pre old post hold
    have hlt := (unicodeScalarValue_iff.mp hc).1
    rw [utf32_length] at hold
    obtain ⟨x, y, z, u, rfl⟩ := List.length_eq_four.mp hold
    rw [utf32CharEncoder, charToScalarValue_ok hc, List.append_assoc]
    show setter (pre ++ x :: y :: z :: u :: post) pre.length c >>= _ = _
    rw [h pre post (by omega)]
    rfl
  refuse := fun hc => by
    rw [charUtf32ByteLength, charToScalarValue, hc]
    rfl

theorem Order.two_length (order : Order) (u) : (bytes (order.two u)).length = 2 := by
  rw [bytes_length]
  cases order <;> rfl

theorem surrogates_eq {n} (h : n < 0x100000) :
    0xD800 ||| insertBits n 0x3FF 10 = 0xD800 + n / 0x400 ∧
      0xDC00 ||| insertBits n 0x3FF 0 = 0xDC00 + n % 0x400 := by
  have hhigh : insertBits n 0x3FF 10 = n / 0x400 % 0x400 := insertBits_eq n 10 10
  have hlow : insertBits n 0x3FF 0 = n / 1 % 0x400 := insertBits_eq n 10 0
  rw [hhigh, hlow, or_eq_add 10 (by omega) (by omega), or_eq_add 10 (by omega) (by omega)]
  omega

theorem utf16_encoder {setter : Bytes → Nat → Nat → Result Bytes} {order}
    (h : WritesTwo setter order) :
    Encoder (utf16 order) charUtf16ByteLength (utf16CharEncoder setter) .fixnum where
  length := by
    intro c hc
    rw [charUtf16ByteLength, charToScalarValue_ok hc, utf16_length]
    rfl
  encode := by
    intro c hc pre old post hold
    have hlt := (unicodeScalarValue_iff.mp hc).1
    rw [utf16_length] at hold
    rw [utf16CharEncoder, charToScalarValue_ok hc, List.append_assoc, utf16_length, utf16, utf16Units]
    by_cases hc' : c < 0x10000
    · rw [if_pos hc'] at hold
      obtain ⟨x, y, rfl⟩ := List.length_eq_two.mp hold
      simp only [if_pos hc', ok_bind, Object.value, List.flatMap_cons, List.flatMap_nil,
        List.append_nil]
      show setter (pre ++ x :: y :: post) pre.length c >>= _ = _
      rw [h pre post hc']
      rfl
    · rw [if_neg hc'] at hold
      obtain ⟨x, y, z, u, rfl⟩ := List.length_eq_four.mp hold
      obtain ⟨h0, h1⟩ := surrogates_eq (n := c - 0x10000) (by omega)
      simp only [if_neg hc', ok_bind, Object.value, List.flatMap_cons, List.flatMap_nil,
        List.append_nil, h0, h1]
      show setter (pre ++ x :: y :: z :: u :: post) pre.length _ >>= _ = _
      rw [h pre _ (by omega), ok_bind]
      have hindex : pre.length + 2 =
          (pre ++ bytes (order.two (0xD800 + (c - 0x10000) / 0x400))).length := by
        rw [List.length_append, Order.two_length]
      rw [hindex, h _ post (by omega), bytes_append, List.append_assoc pre]
      rfl
  refuse := fun hc => by
    rw [charUtf16ByteLength, charToScalarValue, hc]
    rfl

theorem trailing_eq (sv shift) :
    0x80 ||| insertBits sv 0x3F shift = 0x80 + sv / 2 ^ shift % 0x40 := by
  have hbits : insertBits sv 0x3F shift = sv / 2 ^ shift % 0x40 := insertBits_eq sv 6 shift
  rw [hbits, or_eq_add 6 (by omega) (by omega)]

theorem utf8_encoder : Encoder utf8 charUtf8ByteLength encodeUtf8Char .fixnum where
  length := by
    intro c hc
    rw [charUtf8ByteLength, charToScalarValue_ok hc, ok_bind, utf8, bytes_length, utf8Values]
    split_ifs <;> rfl
  encode := by
    intro c hc pre old post hold
    have hlt := (unicodeScalarValue_iff.mp hc).1
    rw [utf8, bytes_length, utf8Values] at hold
    rw [encodeUtf8Char, charToScalarValue_ok hc, List.append_assoc, utf8, bytes_length, utf8Values]
    simp only [ok_bind, Object.value, trailing_eq, Nat.shiftRight_eq_div_pow]
    split_ifs at hold ⊢ with h1 h2 h3
    · obtain ⟨x, rfl⟩ := List.length_eq_one_iff.mp hold
      show bytevectorU8Set (pre ++ x :: post) pre.length c >>= _ = _
      rw [u8Set_zero pre post (by omega), List.append_assoc]
      rfl
    · obtain ⟨x, y, rfl⟩ := List.length_eq_two.mp hold
      rw [or_eq_add 6 (by omega) (by omega)]
      show bytevectorU8Set (pre ++ x :: y :: post) pre.length _ >>= _ = _
      rw [u8Set_zero pre _ (by omega), ok_bind, u8Set_one pre _ (by omega), List.append_assoc,
        Nat.pow_zero, Nat.div_one]
      rfl
    · obtain ⟨x, y, z, rfl⟩ := List.length_eq_three.mp hold
      rw [or_eq_add 5 (by omega) (by omega)]
      show bytevectorU8Set (pre ++ x :: y :: z :: post) pre.length _ >>= _ = _
      rw [u8Set_zero pre _ (by omega), ok_bind, u8Set_one pre _ (by omega), ok_bind,
        u8Set_two pre _ (by omega), List.append_assoc, Nat.pow_zero, Nat.div_one]
      rfl
    · obtain ⟨x, y, z, u, rfl⟩ := List.length_eq_four.mp hold
      rw [or_eq_add 4 (by omega) (by omega)]
      show bytevectorU8Set (pre ++ x :: y :: z :: u :: post) pre.length _ >>= _ = _
      rw [u8Set_zero pre _ (by omega), ok_bind, u8Set_one pre _ (by omega), ok_bind,
        u8Set_two pre _ (by omega), ok_bind, u8Set_three pre _ (by omega), List.append_assoc,
        Nat.pow_zero, Nat.div_one]
      rfl
  refuse := fun hc => by
    rw [charUtf8ByteLength, charToScalarValue, hc]
    rfl

end MitScheme.Runtime.CharEncoding
