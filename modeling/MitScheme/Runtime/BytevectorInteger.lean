import MitScheme.Lib.Numeral
import MitScheme.Runtime.CharEncoding

/-! # Bytevectors as integers and as hexadecimal text

The conversions at the end of `bytevector.scm`. One direction of the integers begins with the least
significant byte, the other with the most significant. -/

namespace MitScheme.Runtime.BytevectorInteger
open Lib Lib.Outcome CharEncoding

/-! ## Integers -/

/-- The loop of `bytevector->exact-nonnegative-integer`. -/
def readLoop (bytes : Bytes) (i n : Nat) : Result Nat := do
  if i < bytes.length then readLoop bytes (i + 1) (n * 0x100 + (← bytevectorU8Ref bytes i))
  else return n
termination_by bytes.length - i

/-- `bytevector->exact-nonnegative-integer`. -/
def bytevectorToInteger (bytes : Bytes) : Result Nat := readLoop bytes 0 0

/-- The primitive `integer-length-in-bits`. -/
def integerLengthInBits (n : Nat) : Nat := n.size

/-- The loop of `exact-nonnegative-integer->bytevector`. -/
def fillLoop (result : Bytes) (n i : Nat) : Result Bytes := do
  if 0 < n then fillLoop (← bytevectorU8Set result i (n % 0x100)) (n / 0x100) (i + 1)
  else return result
termination_by n

/-- `exact-nonnegative-integer->bytevector`. The allocator is that of `make-bytevector`. -/
def integerToBytevector (allocator : Allocator) (n : Nat) : Result Bytes :=
  fillLoop (allocator.allocate ((integerLengthInBits n + 7) / 8)) n 0

/-! ## Hexadecimal text -/

/-- The digits of `bytevector->hexadecimal`, as code points. -/
def hexChars : List Nat :=
  [0x30, 0x31, 0x32, 0x33, 0x34, 0x35, 0x36, 0x37, 0x38, 0x39, 0x41, 0x42, 0x43, 0x44, 0x45, 0x46]

def hexChar (k : Nat) : Nat := hexChars.getD (k &&& 0x0F) 0

def bytevectorToHexadecimal (bytes : Bytes) : List Nat :=
  bytes.flatMap fun byte => [hexChar (byte.toNat >>> 4), hexChar byte.toNat]

def hexDigit (i : Nat) : Result Nat :=
  if 0x30 ≤ i ∧ i ≤ 0x39 then .ok (i - 0x30)
  else if 0x61 ≤ i ∧ i ≤ 0x66 then .ok (0xA + (i - 0x61))
  else if 0x41 ≤ i ∧ i ≤ 0x46 then .ok (0xA + (i - 0x41))
  else .error .badRange

/-- The loop of `hexadecimal->bytevector`, over the characters from `i` on. -/
def hexLoop : List Nat → Result Bytes
  | [] => .ok []
  | [_] => .error .badRange
  | c0 :: c1 :: rest => do
    let byte := UInt8.ofNat ((← hexDigit c0) <<< 4 + (← hexDigit c1))
    return byte :: (← hexLoop rest)

def hexadecimalToBytevector (string : List Nat) : Result Bytes :=
  if ¬string.length &&& 1 = 0 then .error .badRange else hexLoop string

/-! ## What the integer loops do -/

theorem u8Ref_drop {bytes : Bytes} {i : Nat} (h : i < bytes.length) :
    ∃ byte, bytevectorU8Ref bytes i = .ok byte.toNat ∧ bytes.drop i = byte :: bytes.drop (i + 1) := by
  refine ⟨bytes[i], ?_, List.drop_eq_getElem_cons h⟩
  rw [bytevectorU8Ref, List.getElem?_eq_getElem h]

theorem readLoop_eq (bytes : Bytes) (i n : Nat) :
    readLoop bytes i n = .ok (Numeral.read 0x100 n ((bytes.drop i).map UInt8.toNat)) := by
  induction hk : bytes.length - i generalizing i n with
  | zero =>
    rw [readLoop, if_neg (by omega), List.drop_eq_nil_of_le (by omega)]
    rfl
  | succ k ih =>
    obtain ⟨byte, hbyte, hdrop⟩ := u8Ref_drop (show i < bytes.length by omega)
    rw [readLoop, if_pos (by omega), hbyte, ok_bind, ih _ _ (by omega), hdrop]
    rfl

variable (n : Nat)

theorem fillLoop_ok (pre : Bytes) {rest} (hlen : rest.length = (Nat.digits 0x100 n).length) :
    fillLoop (pre ++ rest) n pre.length =
      .ok (pre ++ (Nat.digits 0x100 n).map UInt8.ofNat) := by
  induction n using Nat.strongRecOn generalizing pre rest with
  | _ n ih =>
    by_cases hn : 0 < n
    · rw [Nat.digits_def' (by omega) hn] at hlen ⊢
      obtain ⟨x, rest, rfl⟩ := List.exists_cons_of_length_pos (show 0 < rest.length by
        rw [hlen]; exact Nat.succ_pos _)
      have hstep : pre ++ UInt8.ofNat (n % 0x100) :: rest =
          (pre ++ [UInt8.ofNat (n % 0x100)]) ++ rest := (List.append_cons ..)
      have hindex : pre.length + 1 = (pre ++ [UInt8.ofNat (n % 0x100)]).length := by
        rw [List.length_append, List.length_singleton]
      rw [fillLoop, if_pos hn, u8Set_zero pre rest (by omega), ok_bind, hstep, hindex,
        ih _ (by omega) _ (Nat.succ.inj hlen), List.append_assoc]
      rfl
    · obtain rfl : n = 0 := by omega
      rw [Nat.digits_zero] at hlen ⊢
      rw [fillLoop, if_neg hn, List.length_eq_zero_iff.mp hlen]
      rfl

theorem nBytes_eq : (integerLengthInBits n + 7) / 8 = (Nat.digits 0x100 n).length := by
  have hiff (k : Nat) : (integerLengthInBits n + 7) / 8 ≤ k ↔ (Nat.digits 0x100 n).length ≤ k := by
    rw [Nat.digits_length_le_iff (by omega), show 0x100 = 2 ^ 8 from rfl, ← Nat.pow_mul, ← Nat.size_le,
      integerLengthInBits]
    omega
  exact Nat.le_antisymm ((hiff _).mpr (Nat.le_refl _)) ((hiff _).mp (Nat.le_refl _))

theorem integerToBytevector_ok (allocator : Allocator) (n : Nat) :
    integerToBytevector allocator n = .ok ((Nat.digits 0x100 n).map UInt8.ofNat) := by
  have hlen := allocator.length_allocate ((integerLengthInBits n + 7) / 8)
  rw [nBytes_eq] at hlen
  rw [integerToBytevector, nBytes_eq]
  exact fillLoop_ok n [] hlen

theorem values_digits :
    ((Nat.digits 0x100 n).map UInt8.ofNat).map UInt8.toNat = Nat.digits 0x100 n :=
  EncodingForm.values_bytes fun _ hd => Nat.digits_lt_base (by omega) hd

theorem bytevectorToInteger_digits :
    bytevectorToInteger ((Nat.digits 0x100 n).map UInt8.ofNat) =
      .ok (Nat.ofDigits 0x100 (Nat.digits 0x100 n).reverse) := by
  have hread := Numeral.read_reverse (b := 0x100) 0 (Nat.digits 0x100 n).reverse
  rw [List.reverse_reverse, Nat.zero_mul, Nat.zero_add] at hread
  rw [bytevectorToInteger, readLoop_eq, List.drop_zero, values_digits, hread]

theorem ofDigits_reverse_iff :
    Nat.ofDigits 0x100 (Nat.digits 0x100 n).reverse = n ↔
      (Nat.digits 0x100 n).reverse = Nat.digits 0x100 n := by
  constructor
  · intro h
    refine Nat.ofDigits_inj_of_len_eq (b := 0x100) (by omega) List.length_reverse
      (fun d hd => Nat.digits_lt_base (by omega) (List.mem_reverse.mp hd))
      (fun d hd => Nat.digits_lt_base (by omega) hd) ?_
    rw [h, Nat.ofDigits_digits]
  · intro h
    rw [h, Nat.ofDigits_digits]

/-! ## What the hexadecimal loops do -/

theorem hexDigit_hexChar {v} (h : v < 16) : hexDigit (hexChars.getD v 0) = .ok v := by
  revert v
  decide +kernel

theorem hexChar_eq (k : Nat) : hexChar k = hexChars.getD (k % 16) 0 :=
  congrArg (hexChars.getD · 0) (Nat.and_two_pow_sub_one_eq_mod k 4)

theorem hexLoop_bytes (bytes : Bytes) : hexLoop (bytevectorToHexadecimal bytes) = .ok bytes := by
  induction bytes with
  | nil => rfl
  | cons byte bytes ih =>
    have hlt := byte.toNat_lt
    have hhigh : hexChar (byte.toNat >>> 4) = hexChars.getD (byte.toNat / 16) 0 := by
      rw [hexChar_eq, Nat.shiftRight_eq_div_pow, Nat.mod_eq_of_lt (by omega)]
    have hbyte : UInt8.ofNat ((byte.toNat / 16) <<< 4 + byte.toNat % 16) = byte := by
      rw [Nat.shiftLeft_eq, show byte.toNat / 16 * 2 ^ 4 + byte.toNat % 16 = byte.toNat by omega,
        UInt8.ofNat_toNat]
    show hexLoop (hexChar (byte.toNat >>> 4) :: hexChar byte.toNat ::
      bytevectorToHexadecimal bytes) = _
    rw [hexLoop, hhigh, hexChar_eq, hexDigit_hexChar (by omega), ok_bind,
      hexDigit_hexChar (Nat.mod_lt _ (by omega)), ok_bind, ih, ok_bind, hbyte]
    rfl

theorem bytevectorToHexadecimal_length (bytes : Bytes) :
    (bytevectorToHexadecimal bytes).length = 2 * bytes.length := by
  induction bytes with
  | nil => rfl
  | cons byte bytes ih =>
    show (bytevectorToHexadecimal bytes).length + 2 = 2 * (bytes.length + 1)
    omega

def IsHexDigit (c : Nat) : Prop :=
  (0x30 ≤ c ∧ c ≤ 0x39) ∨ (0x41 ≤ c ∧ c ≤ 0x46) ∨ (0x61 ≤ c ∧ c ≤ 0x66)

theorem hexDigit_cases (c : Nat) :
    (∃ v, hexDigit c = .ok v ∧ IsHexDigit c) ∨ hexDigit c = .error .badRange ∧ ¬IsHexDigit c := by
  rw [hexDigit, IsHexDigit]
  split_ifs with h1 h2 h3
  · exact .inl ⟨_, rfl, .inl h1⟩
  · exact .inl ⟨_, rfl, .inr (.inr h2)⟩
  · exact .inl ⟨_, rfl, .inr (.inl h3)⟩
  · exact .inr ⟨rfl, fun h => h.elim h1 fun h => h.elim h3 h2⟩

theorem hexLoop_fault {string fault} (h : hexLoop string = .error fault) :
    hexLoop string = .error .badRange := by
  induction string using hexLoop.induct generalizing fault with
  | case1 => cases h
  | case2 c => rfl
  | case3 c0 c1 rest ih =>
    rw [hexLoop] at h ⊢
    rcases hexDigit_cases c0 with ⟨v0, hv0, -⟩ | ⟨he0, -⟩
    · rcases hexDigit_cases c1 with ⟨v1, hv1, -⟩ | ⟨he1, -⟩
      · rw [hv0, ok_bind, hv1, ok_bind] at h ⊢
        cases hrest : hexLoop rest with
        | error e =>
          rw [ih hrest] at hrest
          cases hrest
          rfl
        | ok bytes =>
          rw [hrest] at h
          cases h
      · rw [hv0, ok_bind, he1]
        rfl
    · rw [he0]
      rfl

theorem hexLoop_error_iff {string} (h : string.length % 2 = 0) :
    hexLoop string = .error .badRange ↔ ∃ c ∈ string, ¬IsHexDigit c := by
  induction string using hexLoop.induct with
  | case1 => exact iff_of_false (fun hc => nomatch hc) (by simp)
  | case2 c => exact absurd h (by simp)
  | case3 c0 c1 rest ih =>
    simp only [List.length_cons] at h
    have hrest := ih (by omega)
    simp only [List.mem_cons, exists_eq_or_imp]
    rw [hexLoop, ← hrest]
    rcases hexDigit_cases c0 with ⟨v0, hv0, hd0⟩ | ⟨he0, hd0⟩
    · rcases hexDigit_cases c1 with ⟨v1, hv1, hd1⟩ | ⟨he1, hd1⟩
      · rw [hv0, ok_bind, hv1, ok_bind, or_iff_right (not_not.mpr hd0), or_iff_right (not_not.mpr hd1)]
        cases hexLoop rest with
        | error e =>
          show (Except.error e : Result Bytes) = _ ↔ _
          simp only [Except.error.injEq]
        | ok bytes => exact iff_of_false (fun hc => nomatch hc) fun hc => nomatch hc
      · rw [hv0, ok_bind, he1]
        exact iff_of_true rfl (.inr (.inl hd1))
    · rw [he0]
      exact iff_of_true rfl (.inl hd0)

/-- **When the conversions are right.** An integer comes back when its bytes are a palindrome. No byte
is superfluous, and the hexadecimal text of a bytevector is read back always. -/
theorem bytevector_integer_iff (allocator : Allocator) (n : Nat) (b : Bytes) (string : List Nat) :
    ((∃ bytes, integerToBytevector allocator n = .ok bytes ∧ bytevectorToInteger bytes = .ok n) ↔
      (Nat.digits 0x100 n).reverse = Nat.digits 0x100 n) ∧
    (∃ bytes, integerToBytevector allocator n = .ok bytes ∧
      ∀ k, n < 0x100 ^ k ↔ bytes.length ≤ k) ∧
    hexadecimalToBytevector (bytevectorToHexadecimal b) = .ok b ∧
    ((∃ fault, hexadecimalToBytevector string = .error fault) ↔
      string.length % 2 = 1 ∨ ∃ c ∈ string, ¬IsHexDigit c) := by
  refine ⟨?_, ⟨_, integerToBytevector_ok allocator n, fun k => ?_⟩, ?_, ?_⟩
  · rw [← ofDigits_reverse_iff]
    constructor
    · rintro ⟨bytes, hbytes, hn⟩
      rw [integerToBytevector_ok] at hbytes
      cases hbytes
      rw [bytevectorToInteger_digits] at hn
      exact Except.ok.inj hn
    · intro h
      exact ⟨_, integerToBytevector_ok allocator n, by rw [bytevectorToInteger_digits, h]⟩
  · rw [List.length_map, Nat.digits_length_le_iff (by omega)]
  · rw [hexadecimalToBytevector, bytevectorToHexadecimal_length, Nat.and_one_is_mod, if_neg (by omega),
      hexLoop_bytes]
  · rw [hexadecimalToBytevector, Nat.and_one_is_mod]
    by_cases hodd : string.length % 2 = 0
    · rw [if_neg (not_not.mpr hodd), or_iff_right (by omega), ← hexLoop_error_iff hodd]
      exact ⟨fun ⟨fault, hfault⟩ => hexLoop_fault hfault, fun h => ⟨_, h⟩⟩
    · exact iff_of_true ⟨_, if_pos hodd⟩ (.inl (by omega))

/-- 256 is written as 0, 1, and read as 1. -/
theorem bytevector_integer_256 :
    integerToBytevector zeroAllocator 256 = .ok [0, 1] ∧ bytevectorToInteger [0, 1] = .ok 1 := by
  decide +kernel

end MitScheme.Runtime.BytevectorInteger
