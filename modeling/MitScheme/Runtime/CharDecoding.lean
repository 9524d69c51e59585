import MitScheme.Runtime.CharEncoding

/-! # Decoding one character

What the decoders of `char.scm` read at an index: the length that the first unit announces, and
the one character whose word stands there. -/

namespace MitScheme.Runtime.CharEncoding
open Lib.EncodingForm Lib.Outcome
open List (cons_prefix_cons length_cons length_drop map_cons nil_prefix)

/-- The decoder reads the length that `size` announces and the valid character whose word stands at
the index. -/
structure Decoder (Valid : Nat → Prop) (enc : Nat → Bytes) (unit : Nat) (size : Bytes → Nat)
    (getter : Bytes → Nat → Result Nat) (initialLength : Nat → Result Nat)
    (decodeChar : Bytes → Nat → Result (Option Nat)) : Prop where
  announced : Announced Valid enc unit size
  length : ∀ bytes index, index + unit ≤ bytes.length →
    (getter bytes index >>= initialLength) = .ok (size (bytes.drop index))
  decode : ∀ bytes index, index + unit ≤ bytes.length →
    index + size (bytes.drop index) ≤ bytes.length →
      ∃ o, decodeChar bytes index = .ok o ∧
        ∀ c, o = some c ↔ Valid c ∧ enc c <+: bytes.drop index

theorem checked_iff {valid code} {P : Nat → Prop} (h : ∀ c, P c ↔ valid = true ∧ c = code)
    (c : Nat) : (if valid then some code else none) = some c ↔ P c := by
  rw [h]
  cases valid with
  | false => exact iff_of_false (fun hc => nomatch hc) fun hc => Bool.false_ne_true hc.1
  | true => exact Option.some_inj.trans (eq_comm.trans (and_iff_right rfl).symm)

theorem checked_eq {valid code} (h : valid = true → code < 2 ^ 25) :
    (do if valid then return some (← integerToChar code) else return none : Result (Option Nat)) =
      .ok (if valid then some code else none) := by
  cases hv : valid with
  | false => rfl
  | true =>
    rw [integerToChar, if_pos (h hv)]
    rfl

theorem scalar_lt {c} (h : Scalar c) : c < 2 ^ 25 := by
  rw [Scalar] at h
  omega

theorem integerToChar_eq {code} (h : code < 2 ^ 25) :
    (do return some (← integerToChar code) : Result (Option Nat)) = .ok (some code) := by
  rw [integerToChar, if_pos h]
  rfl

/-! ## UTF-32 -/

theorem drop_four (bytes : Bytes) (index : Nat) (h : index + 4 ≤ bytes.length) :
    ∃ b0 b1 b2 b3 rest, bytes.drop index = b0 :: b1 :: b2 :: b3 :: rest := by
  have hlen : (bytes.drop index).length = bytes.length - index := length_drop ..
  match hd : bytes.drop index with
  | b0 :: b1 :: b2 :: b3 :: rest => exact ⟨b0, b1, b2, b3, rest, rfl⟩
  | [] | [_] | [_, _] | [_, _, _] =>
    rw [hd] at hlen
    simp only [length_cons, List.length_nil] at hlen
    omega

theorem Order.word_lt (order : Order) (b0 b1 b2 b3 : UInt8) : order.word b0 b1 b2 b3 ≤ 0xFFFFFFFF := by
  have h0 := b0.toNat_lt
  have h1 := b1.toNat_lt
  have h2 := b2.toNat_lt
  have h3 := b3.toNat_lt
  cases order <;> simp only [Order.word] <;> omega

theorem utf32_decoder {getter : Bytes → Nat → Result Nat} {order} (h : ReadsFour getter order) :
    Decoder (fun c => unicodeScalarValue c = true) (utf32 order) 4 utf32Size getter
      initialU32ToUtf32CharLength (utf32CharDecoder getter) where
  announced := (utf32_announced order).mono fun _ => scalar_of_unicodeScalarValue
  length := by
    intro bytes index hlen
    obtain ⟨b0, b1, b2, b3, rest, hdrop⟩ := drop_four bytes index hlen
    rw [h hdrop, ok_bind, initialU32ToUtf32CharLength, decide_eq_true (Order.word_lt ..)]
    rfl
  decode := by
    intro bytes index hlen _
    obtain ⟨b0, b1, b2, b3, rest, hdrop⟩ := drop_four bytes index hlen
    refine ⟨if unicodeScalarValue (order.word b0 b1 b2 b3) then some (order.word b0 b1 b2 b3)
      else none, ?_, checked_iff fun c => ⟨?_, fun hc => ?_⟩⟩
    · rw [utf32CharDecoder, h hdrop, ok_bind]
      exact checked_eq fun hv => by
        have := (unicodeScalarValue_iff.mp hv).1
        omega
    · rintro ⟨hv, hprefix⟩
      rw [utf32_prefix_iff (scalar_of_unicodeScalarValue hv), hdrop] at hprefix
      obtain ⟨c0, c1, c2, c3, rest', heq, hword⟩ := hprefix
      simp only [List.cons.injEq] at heq
      obtain ⟨rfl, rfl, rfl, rfl, rfl⟩ := heq
      exact ⟨hword ▸ hv, hword.symm⟩
    · obtain ⟨hv, rfl⟩ := hc
      refine ⟨hv, ?_⟩
      rw [utf32_prefix_iff (scalar_of_unicodeScalarValue hv), hdrop]
      exact ⟨b0, b1, b2, b3, rest, rfl, rfl⟩

/-! ## UTF-16 -/

theorem drop_two (bytes : Bytes) (index : Nat) (h : index + 2 ≤ bytes.length) :
    ∃ b0 b1 rest, bytes.drop index = b0 :: b1 :: rest := by
  have hlen : (bytes.drop index).length = bytes.length - index := length_drop ..
  match hd : bytes.drop index with
  | b0 :: b1 :: rest => exact ⟨b0, b1, rest, rfl⟩
  | [] | [_] =>
    rw [hd] at hlen
    simp only [length_cons, List.length_nil] at hlen
    omega

theorem utf16_decoder {getter : Bytes → Nat → Result Nat} {order} (h : ReadsTwo getter order) :
    Decoder Scalar (utf16 order) 2 (utf16Size order) getter
      initialU16ToUtf16CharLength (utf16CharDecoder getter) where
  announced := utf16_announced order
  length := by
    intro bytes index hlen
    obtain ⟨b0, b1, rest, hdrop⟩ := drop_two bytes index hlen
    have hlt := order.unit_lt b0 b1
    rw [(h hdrop).1, ok_bind, initialU16ToUtf16CharLength, decide_eq_true hlt,
      utf16LowSurrogate_eq, utf16HighSurrogate_eq, hdrop, utf16Size]
    by_cases hhigh : 0xD800 ≤ order.unit b0 b1 ∧ order.unit b0 b1 < 0xDC00
    · rw [if_pos hhigh, decide_eq_false (by omega), decide_eq_true (by omega)]
      rfl
    · rw [if_neg hhigh, decide_eq_false (show ¬order.unit b0 b1 / 0x400 % 0x40 = 54 by omega),
        Bool.and_false]
      rfl
  decode := by
    intro bytes index hlen hsize
    obtain ⟨b0, b1, rest, hdrop⟩ := drop_two bytes index hlen
    have hlt := order.unit_lt b0 b1
    obtain ⟨hget, hrest⟩ := h hdrop
    rw [hdrop, utf16Size] at hsize
    rw [utf16CharDecoder, hget, ok_bind, utf16LowSurrogate_eq, utf16HighSurrogate_eq, hdrop]
    by_cases hhigh : 0xD800 ≤ order.unit b0 b1 ∧ order.unit b0 b1 < 0xDC00
    · rw [if_pos hhigh] at hsize
      obtain ⟨b2, b3, rest', hdrop'⟩ := drop_two bytes (index + 2) (by omega)
      have hlt' := order.unit_lt b2 b3
      obtain rfl : rest = b2 :: b3 :: rest' := hrest.symm.trans hdrop'
      rw [decide_eq_false (show ¬order.unit b0 b1 / 0x400 % 0x40 = 55 by omega),
        decide_eq_true (show order.unit b0 b1 / 0x400 % 0x40 = 54 by omega)]
      have hcode : (extractBits (order.unit b0 b1) 0x3FF 10 ||| extractBits (order.unit b2 b3) 0x3FF 0)
          + 0x10000 = order.unit b0 b1 % 0x400 * 0x400 + order.unit b2 b3 % 0x400 + 0x10000 := by
        have h0 : extractBits (order.unit b0 b1) 0x3FF 10 = order.unit b0 b1 % 0x400 * 0x400 :=
          extractBits_eq _ 10 10
        have h1 : extractBits (order.unit b2 b3) 0x3FF 0 = order.unit b2 b3 % 0x400 * 1 :=
          extractBits_eq _ 10 0
        rw [h0, h1, Nat.mul_one, or_eq_add 10 (by omega) (by omega)]
      refine ⟨if utf16LowSurrogate (order.unit b2 b3) then
        some (order.unit b0 b1 % 0x400 * 0x400 + order.unit b2 b3 % 0x400 + 0x10000) else none, ?_,
        checked_iff fun c => ⟨?_, fun hc => ?_⟩⟩
      · show (getter bytes (index + 2) >>= _) = _
        rw [(h hdrop').1, ok_bind, hcode]
        exact checked_eq fun _ => by omega
      · rintro ⟨hs, hprefix⟩
        obtain ⟨c0, c1, rest'', heq, hunits⟩ := (utf16_prefix_iff hs).mp hprefix
        simp only [List.cons.injEq] at heq
        obtain ⟨rfl, rfl, rfl⟩ := heq
        rw [Scalar] at hs
        rw [utf16LowSurrogate_eq, decide_eq_true_eq]
        by_cases hc : c < 0x10000
        · rw [if_pos hc] at hunits
          omega
        · rw [if_neg hc] at hunits
          obtain ⟨hfirst, c2, c3, rest3, heq, hsecond⟩ := hunits
          simp only [List.cons.injEq] at heq
          obtain ⟨rfl, rfl, rfl⟩ := heq
          omega
      · obtain ⟨hv, rfl⟩ := hc
        rw [utf16LowSurrogate_eq, decide_eq_true_eq] at hv
        have hs : Scalar (order.unit b0 b1 % 0x400 * 0x400 + order.unit b2 b3 % 0x400 + 0x10000) := by
          rw [Scalar]
          omega
        refine ⟨hs, (utf16_prefix_iff hs).mpr ⟨b0, b1, _, rfl, ?_⟩⟩
        rw [if_neg (by omega)]
        exact ⟨by omega, b2, b3, rest', rfl, by omega⟩
    · refine ⟨if !decide (order.unit b0 b1 / 0x400 % 0x40 = 55) then some (order.unit b0 b1)
        else none, ?_, checked_iff fun c => ⟨?_, fun hc => ?_⟩⟩
      · rw [decide_eq_false (show ¬order.unit b0 b1 / 0x400 % 0x40 = 54 by omega)]
        exact checked_eq fun _ => by omega
      · rintro ⟨hs, hprefix⟩
        obtain ⟨c0, c1, rest', heq, hunits⟩ := (utf16_prefix_iff hs).mp hprefix
        simp only [List.cons.injEq] at heq
        obtain ⟨rfl, rfl, rfl⟩ := heq
        rw [Scalar] at hs
        rw [Bool.not_eq_true', decide_eq_false_iff_not]
        by_cases hc : c < 0x10000
        · rw [if_pos hc] at hunits
          omega
        · rw [if_neg hc] at hunits
          omega
      · obtain ⟨hv, rfl⟩ := hc
        rw [Bool.not_eq_true', decide_eq_false_iff_not] at hv
        have hs : Scalar (order.unit b0 b1) := by
          rw [Scalar]
          omega
        refine ⟨hs, (utf16_prefix_iff hs).mpr ⟨b0, b1, _, rfl, ?_⟩⟩
        rw [if_pos hlt]

/-! ## UTF-8 -/

theorem drop_one (bytes : Bytes) (index : Nat) (h : index + 1 ≤ bytes.length) :
    ∃ b0 rest, bytes.drop index = b0 :: rest := by
  have hlen : (bytes.drop index).length = bytes.length - index := length_drop ..
  match hd : bytes.drop index with
  | b0 :: rest => exact ⟨b0, rest, rfl⟩
  | [] =>
    rw [hd] at hlen
    simp only [List.length_nil] at hlen
    omega

section
variable {b0 b1 b2 b3 : UInt8} {rest : Bytes} {c : Nat}

theorem utf8_one_iff (h : b0.toNat < 0x80) :
    Scalar c ∧ utf8 c <+: b0 :: rest ↔ true = true ∧ c = b0.toNat := by
  constructor
  · rintro ⟨hs, hp⟩
    refine ⟨rfl, ?_⟩
    rw [utf8_prefix_iff hs, utf8Values] at hp
    split_ifs at hp <;> simp only [values, map_cons, cons_prefix_cons] at hp <;> omega
  · rintro ⟨-, rfl⟩
    have hs : Scalar b0.toNat := by
      rw [Scalar]
      omega
    refine ⟨hs, (utf8_prefix_iff hs).mpr ?_⟩
    rw [utf8Values, if_pos h]
    simp only [values, map_cons, cons_prefix_cons, nil_prefix, and_self]

theorem utf8_two_iff (rest : Bytes) (h : 0xC2 ≤ b0.toNat ∧ b0.toNat ≤ 0xDF) :
    Scalar c ∧ utf8 c <+: b0 :: b1 :: rest ↔
      validUtf8Sequence2 b0.toNat b1.toNat = true ∧
        c = (extractBits b0.toNat 0x1F 6 ||| extractBits b1.toNat 0x3F 0) := by
  have hlt : b1.toNat < 256 := b1.toNat_lt
  have h0 : extractBits b0.toNat 0x1F 6 = b0.toNat % 0x20 * 0x40 := extractBits_eq _ 5 6
  have h1 : extractBits b1.toNat 0x3F 0 = b1.toNat % 0x40 * 1 := extractBits_eq _ 6 0
  have hcode : (extractBits b0.toNat 0x1F 6 ||| extractBits b1.toNat 0x3F 0) =
      b0.toNat % 0x20 * 0x40 + b1.toNat % 0x40 := by
    rw [h0, h1, or_eq_add 6 (by omega) (by omega), Nat.mul_one]
  have hvalid : validUtf8Sequence2 b0.toNat b1.toNat = true ↔ 0x80 ≤ b1.toNat ∧ b1.toNat ≤ 0xBF := by
    rw [validUtf8Sequence2, utf8InitialByte2, u8In80toBf_eq hlt]
    simp only [Bool.and_eq_true, decide_eq_true_eq]
    omega
  rw [hcode, hvalid]
  constructor
  · rintro ⟨hs, hp⟩
    rw [utf8_prefix_iff hs, utf8Values] at hp
    split_ifs at hp <;> simp only [values, map_cons, cons_prefix_cons] at hp <;> omega
  · rintro ⟨hv, rfl⟩
    have hs : Scalar (b0.toNat % 0x20 * 0x40 + b1.toNat % 0x40) := by
      rw [Scalar]
      omega
    refine ⟨hs, (utf8_prefix_iff hs).mpr ?_⟩
    rw [utf8Values, if_neg (by omega), if_pos (by omega)]
    simp only [values, map_cons, cons_prefix_cons, nil_prefix, and_true]
    omega

theorem utf8_three_iff (rest : Bytes) (h : 0xE0 ≤ b0.toNat ∧ b0.toNat ≤ 0xEF) :
    Scalar c ∧ utf8 c <+: b0 :: b1 :: b2 :: rest ↔
      validUtf8Sequence3 b0.toNat b1.toNat b2.toNat = true ∧
        c = ((extractBits b0.toNat 0x0F 12 ||| extractBits b1.toNat 0x3F 6) |||
          extractBits b2.toNat 0x3F 0) := by
  have hlt0 : b0.toNat < 256 := b0.toNat_lt
  have hlt1 : b1.toNat < 256 := b1.toNat_lt
  have hlt2 : b2.toNat < 256 := b2.toNat_lt
  have h0 : extractBits b0.toNat 0x0F 12 = b0.toNat % 0x10 * 0x1000 := extractBits_eq _ 4 12
  have h1 : extractBits b1.toNat 0x3F 6 = b1.toNat % 0x40 * 0x40 := extractBits_eq _ 6 6
  have h2 : extractBits b2.toNat 0x3F 0 = b2.toNat % 0x40 * 1 := extractBits_eq _ 6 0
  have hcode : ((extractBits b0.toNat 0x0F 12 ||| extractBits b1.toNat 0x3F 6) |||
      extractBits b2.toNat 0x3F 0) =
      b0.toNat % 0x10 * 0x1000 + b1.toNat % 0x40 * 0x40 + b2.toNat % 0x40 := by
    have hhigh : b0.toNat % 0x10 * 0x1000 ||| b1.toNat % 0x40 * 0x40 =
        b0.toNat % 0x10 * 0x1000 + b1.toNat % 0x40 * 0x40 := or_eq_add 12 (by omega) (by omega)
    rw [h0, h1, h2, hhigh, Nat.mul_one, or_eq_add 6 (by omega) (by omega)]
  have hvalid : validUtf8Sequence3 b0.toNat b1.toNat b2.toNat = true ↔
      (0x80 ≤ b1.toNat ∧ b1.toNat ≤ 0xBF) ∧ (b0.toNat = 0xE0 → 0xA0 ≤ b1.toNat) ∧
        (b0.toNat = 0xED → b1.toNat ≤ 0x9F) ∧ 0x80 ≤ b2.toNat ∧ b2.toNat ≤ 0xBF := by
    rw [validUtf8Sequence3, utf8InitialByte3_eq hlt0, u8InA0toBf, u8In80toBf_eq hlt1,
      u8In80to9f_eq hlt1, u8In80toBf_eq hlt2]
    split_ifs <;> simp only [Bool.and_eq_true, decide_eq_true_eq] <;>
      refine ⟨fun hv => ⟨?_, ?_, ?_, hv.2⟩, fun hv => ⟨?_, hv.2.2.2⟩⟩ <;> omega
  clear h0 h1 h2
  rw [hcode, hvalid]
  clear hcode hvalid
  constructor
  · rintro ⟨hs, hp⟩
    rw [utf8_prefix_iff hs, utf8Values] at hp
    rw [Scalar] at hs
    split_ifs at hp <;> simp only [values, map_cons, cons_prefix_cons] at hp <;> omega
  · rintro ⟨hv, rfl⟩
    have hs : Scalar (b0.toNat % 0x10 * 0x1000 + b1.toNat % 0x40 * 0x40 + b2.toNat % 0x40) := by
      rw [Scalar]
      omega
    refine ⟨hs, (utf8_prefix_iff hs).mpr ?_⟩
    rw [utf8Values, if_neg (by omega), if_neg (by omega), if_pos (by omega)]
    simp only [values, map_cons, cons_prefix_cons, nil_prefix, and_true]
    omega

theorem utf8_four_iff (rest : Bytes) (h : 0xF0 ≤ b0.toNat ∧ b0.toNat ≤ 0xF4) :
    Scalar c ∧ utf8 c <+: b0 :: b1 :: b2 :: b3 :: rest ↔
      validUtf8Sequence4 b0.toNat b1.toNat b2.toNat b3.toNat = true ∧
        c = ((extractBits b0.toNat 0x07 18 ||| extractBits b1.toNat 0x3F 12) |||
          (extractBits b2.toNat 0x3F 6 ||| extractBits b3.toNat 0x3F 0)) := by
  have hlt1 : b1.toNat < 256 := b1.toNat_lt
  have hlt2 : b2.toNat < 256 := b2.toNat_lt
  have hlt3 : b3.toNat < 256 := b3.toNat_lt
  have h0 : extractBits b0.toNat 0x07 18 = b0.toNat % 0x8 * 0x40000 := extractBits_eq _ 3 18
  have h1 : extractBits b1.toNat 0x3F 12 = b1.toNat % 0x40 * 0x1000 := extractBits_eq _ 6 12
  have h2 : extractBits b2.toNat 0x3F 6 = b2.toNat % 0x40 * 0x40 := extractBits_eq _ 6 6
  have h3 : extractBits b3.toNat 0x3F 0 = b3.toNat % 0x40 * 1 := extractBits_eq _ 6 0
  have hhigh : b0.toNat % 0x8 * 0x40000 ||| b1.toNat % 0x40 * 0x1000 =
      b0.toNat % 0x8 * 0x40000 + b1.toNat % 0x40 * 0x1000 := or_eq_add 18 (by omega) (by omega)
  have hlow : b2.toNat % 0x40 * 0x40 ||| b3.toNat % 0x40 * 1 =
      b2.toNat % 0x40 * 0x40 + b3.toNat % 0x40 := by
    rw [Nat.mul_one, or_eq_add 6 (by omega) (by omega)]
  have hcode : ((extractBits b0.toNat 0x07 18 ||| extractBits b1.toNat 0x3F 12) |||
      (extractBits b2.toNat 0x3F 6 ||| extractBits b3.toNat 0x3F 0)) =
      b0.toNat % 0x8 * 0x40000 + b1.toNat % 0x40 * 0x1000 +
        (b2.toNat % 0x40 * 0x40 + b3.toNat % 0x40) := by
    rw [h0, h1, h2, h3, hhigh, hlow, or_eq_add 12 (by omega) (by omega)]
  have hvalid : validUtf8Sequence4 b0.toNat b1.toNat b2.toNat b3.toNat = true ↔
      (0x80 ≤ b1.toNat ∧ b1.toNat ≤ 0xBF) ∧ (b0.toNat = 0xF0 → 0x90 ≤ b1.toNat) ∧
        (b0.toNat = 0xF4 → b1.toNat ≤ 0x8F) ∧ (0x80 ≤ b2.toNat ∧ b2.toNat ≤ 0xBF) ∧
        0x80 ≤ b3.toNat ∧ b3.toNat ≤ 0xBF := by
    rw [validUtf8Sequence4, utf8InitialByte4, u8In90toBf, u8In80toBf_eq hlt1, u8In80to8f_eq hlt1,
      u8In80toBf_eq hlt2, u8In80toBf_eq hlt3]
    split_ifs <;> simp only [Bool.and_eq_true, decide_eq_true_eq, ge_iff_le] <;>
      refine ⟨fun hv => ⟨?_, ?_, ?_, hv.1.2, hv.2⟩, fun hv => ⟨⟨?_, hv.2.2.2.1⟩, hv.2.2.2.2⟩⟩ <;>
        omega
  clear h0 h1 h2 h3 hhigh hlow
  rw [hcode, hvalid]
  clear hcode hvalid
  constructor
  · rintro ⟨hs, hp⟩
    rw [utf8_prefix_iff hs, utf8Values] at hp
    rw [Scalar] at hs
    split_ifs at hp <;> simp only [values, map_cons, cons_prefix_cons] at hp <;> omega
  · rintro ⟨hv, rfl⟩
    have hs : Scalar (b0.toNat % 0x8 * 0x40000 + b1.toNat % 0x40 * 0x1000 +
        (b2.toNat % 0x40 * 0x40 + b3.toNat % 0x40)) := by
      rw [Scalar]
      omega
    refine ⟨hs, (utf8_prefix_iff hs).mpr ?_⟩
    rw [utf8Values, if_neg (by omega), if_neg (by omega), if_neg (by omega)]
    simp only [values, map_cons, cons_prefix_cons, nil_prefix, and_true]
    omega

theorem utf8_none_iff (h1 : ¬b0.toNat < 0x80) (h2 : ¬(0xC2 ≤ b0.toNat ∧ b0.toNat ≤ 0xDF))
    (h3 : ¬(0xE0 ≤ b0.toNat ∧ b0.toNat ≤ 0xEF)) (h4 : ¬(0xF0 ≤ b0.toNat ∧ b0.toNat ≤ 0xF4)) :
    ¬(Scalar c ∧ utf8 c <+: b0 :: rest) := by
  rintro ⟨hs, hp⟩
  rw [utf8_prefix_iff hs, utf8Values] at hp
  rw [Scalar] at hs
  split_ifs at hp <;> simp only [values, map_cons, cons_prefix_cons] at hp <;> omega

end

theorem utf8_decoder : Decoder Scalar utf8 1 utf8Size bytevectorU8Ref
    initialByteToUtf8CharLength decodeUtf8Char where
  announced := utf8_announced
  length := by
    intro bytes index hlen
    obtain ⟨b0, rest, hdrop⟩ := drop_one bytes index hlen
    have hlt : b0.toNat < 256 := b0.toNat_lt
    rw [(u8Ref_eq hdrop).1, ok_bind, initialByteToUtf8CharLength, decide_eq_true hlt, hdrop, utf8Size,
      utf8InitialByte1_eq hlt, utf8InitialByte3_eq hlt, utf8InitialByte2, utf8InitialByte4]
    simp only [Bool.not_true, Bool.false_eq_true, if_false, decide_eq_true_eq, ge_iff_le,
      Bool.and_eq_true]
  decode := by
    intro bytes index hlen hsize
    obtain ⟨b0, rest, hdrop⟩ := drop_one bytes index hlen
    have hlt : b0.toNat < 256 := b0.toNat_lt
    obtain ⟨hget, hrest⟩ := u8Ref_eq hdrop
    have hrestlen : rest.length = bytes.length - (index + 1) := by
      rw [← hrest, length_drop]
    rw [hdrop, utf8Size] at hsize
    rw [decodeUtf8Char, hget, ok_bind, utf8InitialByte1_eq hlt, utf8InitialByte2_eq,
      utf8InitialByte3_eq hlt, utf8InitialByte4_eq, hdrop]
    by_cases h1 : b0.toNat < 0x80
    · rw [decide_eq_true h1]
      refine ⟨some b0.toNat, integerToChar_eq (by omega), fun c => ?_⟩
      rw [utf8_one_iff h1, and_iff_right rfl, Option.some_inj, eq_comm]
    rw [if_neg h1] at hsize
    rw [decide_eq_false h1]
    by_cases h2 : 0xC2 ≤ b0.toNat ∧ b0.toNat ≤ 0xDF
    · rw [if_pos h2] at hsize
      obtain ⟨b1, rest, rfl⟩ := List.exists_cons_of_length_pos (show 0 < rest.length by omega)
      rw [decide_eq_true h2]
      refine ⟨_, ?_, checked_iff fun c => utf8_two_iff rest h2⟩
      show (bytevectorU8Ref bytes (index + 1) >>= _) = _
      rw [(u8Ref_eq hrest).1]
      exact checked_eq fun hv => scalar_lt ((utf8_two_iff [] h2).mpr ⟨hv, rfl⟩).1
    rw [if_neg h2] at hsize
    rw [decide_eq_false h2]
    by_cases h3 : 0xE0 ≤ b0.toNat ∧ b0.toNat ≤ 0xEF
    · rw [if_pos h3] at hsize
      obtain ⟨b1, rest, rfl⟩ := List.exists_cons_of_length_pos (show 0 < rest.length by omega)
      rw [length_cons] at hrestlen
      obtain ⟨b2, rest, rfl⟩ := List.exists_cons_of_length_pos (show 0 < rest.length by omega)
      obtain ⟨hget1, hrest⟩ := u8Ref_eq hrest
      rw [decide_eq_true h3]
      refine ⟨_, ?_, checked_iff fun c => utf8_three_iff rest h3⟩
      show (bytevectorU8Ref bytes (index + 1) >>= fun b1 =>
        bytevectorU8Ref bytes (index + 2) >>= _) = _
      rw [hget1, ok_bind, (u8Ref_eq hrest).1]
      exact checked_eq fun hv => scalar_lt ((utf8_three_iff [] h3).mpr ⟨hv, rfl⟩).1
    rw [if_neg h3] at hsize
    rw [decide_eq_false h3]
    by_cases h4 : 0xF0 ≤ b0.toNat ∧ b0.toNat ≤ 0xF4
    · rw [if_pos h4] at hsize
      obtain ⟨b1, rest, rfl⟩ := List.exists_cons_of_length_pos (show 0 < rest.length by omega)
      rw [length_cons] at hrestlen
      obtain ⟨b2, rest, rfl⟩ := List.exists_cons_of_length_pos (show 0 < rest.length by omega)
      rw [length_cons] at hrestlen
      obtain ⟨b3, rest, rfl⟩ := List.exists_cons_of_length_pos (show 0 < rest.length by omega)
      obtain ⟨hget1, hrest⟩ := u8Ref_eq hrest
      obtain ⟨hget2, hrest⟩ := u8Ref_eq hrest
      rw [decide_eq_true h4]
      refine ⟨_, ?_, checked_iff fun c => utf8_four_iff rest h4⟩
      show (bytevectorU8Ref bytes (index + 1) >>= fun b1 => bytevectorU8Ref bytes (index + 2) >>=
        fun b2 => bytevectorU8Ref bytes (index + 3) >>= _) = _
      rw [hget1, ok_bind, hget2, ok_bind, (u8Ref_eq hrest).1]
      exact checked_eq fun hv => scalar_lt ((utf8_four_iff [] h4).mpr ⟨hv, rfl⟩).1
    · rw [decide_eq_false h4]
      exact ⟨none, rfl, fun c => iff_of_false (fun hc => Option.some_ne_none c hc.symm) (utf8_none_iff h1 h2 h3 h4)⟩

end MitScheme.Runtime.CharEncoding
