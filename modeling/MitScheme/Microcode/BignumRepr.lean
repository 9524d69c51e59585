import MitScheme.Lib.Checked
import MitScheme.Lib.Radix
import Mathlib.Data.List.DropRight

/-! # Bignums as `bignmint.h` and `bignum.c` store them

A bignum is a header word (length and sign) and an array of digits of
`BIGNUM_DIGIT_LENGTH` = 62 bits, least significant first. Digits are C longs:
every arithmetic operator is followed by `long`, which stops the run when the
value does not fit a signed 64-bit word. Where the C text mixes in the
unsigned constants `BIGNUM_RADIX` and `BIGNUM_RADIX_ROOT` the operands are
nonnegative or the result is converted back to a long, so the checked signed
value is the value the machine stores. -/

namespace MitScheme.Microcode
open Lib.Checked Lib.Outcome Lib.Radix

/-! ## Digits and half digits -/

/-- `BIGNUM_RADIX`, `1UL << 62`. -/
def bignumRadix : Int := 4611686018427387904

/-- `BIGNUM_RADIX_ROOT`, `1UL << 31`. -/
def bignumRadixRoot : Int := 2147483648

def bignumLengthMax : Nat := 4611686018427387904 / 62 - 62

def long (v : Int) : Exec Int := signed 64 v

/-- `HD_LOW`: mask with `BIGNUM_HALF_DIGIT_MASK`. -/
def hdLow (digit : Int) : Int := Int.land digit (2 ^ 31 - 1)

def hdHigh (digit : Int) : Int := digit >>> (31 : Nat)

def hdCons (high low : Int) : Exec Int := do
  let shifted ← long (high <<< (31 : Nat))
  long (Int.lor shifted low)

theorem long_ok {v} (h : -9223372036854775808 ≤ v) (h' : v < 9223372036854775808) :
    long v = .ok v :=
  signed_ok ⟨by norm_num; omega, by norm_num; omega⟩

theorem hdLow_eq {d} (h : 0 ≤ d) : hdLow d = d % 2147483648 := by
  simpa [hdLow] using land_mask 31 h

theorem hdHigh_eq (d : Int) : hdHigh d = d / 2147483648 := by
  simpa [hdHigh] using shiftRight_eq d 31

theorem hdCons_ok {h l} (hh : 0 ≤ h) (hh' : h < 4294967296) (hl : 0 ≤ l) (hl' : l < 2147483648) :
    hdCons h l = .ok (h * 2147483648 + l) := by
  have e : Int.lor (h * 2147483648) l = h * 2147483648 + l := by
    simpa using lor_shift 31 hh hl (by simpa using hl')
  have s : h <<< (31 : Nat) = h * 2147483648 := by simpa using shiftLeft_eq h 31
  unfold hdCons
  rw [s, long_ok (by omega) (by omega), ok_bind, e, long_ok (by omega) (by omega)]

theorem half_mul {a b : Int} (ha : 0 ≤ a) (ha' : a < 2147483648) (hb : 0 ≤ b)
    (hb' : b < 2147483648) :
    0 ≤ a * b ∧ a * b ≤ 4611686014132420609 := by
  refine ⟨mul_nonneg ha hb, ?_⟩
  have := mul_le_mul (show a ≤ 2147483647 by omega) (show b ≤ 2147483647 by omega) hb (by norm_num)
  omega

/-! ## The object -/

structure Bignum where
  negative : Bool
  digits : List Int

namespace Bignum

/-- `BIGNUM_LENGTH`. -/
def length (b : Bignum) : Nat := b.digits.length

/-- `BIGNUM_ZERO_P`. -/
def zeroP (b : Bignum) : Bool := b.length == 0

/-- Digits in range, no leading zero, and no negative zero. -/
structure WellFormed (b : Bignum) : Prop where
  digits : Digits bignumRadix b.digits
  lead : b.digits.getLast? ≠ some 0
  sign : b.digits = [] → b.negative = false

def magnitude (b : Bignum) : Int := value bignumRadix b.digits

def toInt (b : Bignum) : Int := if b.negative then -b.magnitude else b.magnitude

end Bignum

def WFBignum := { b : Bignum // b.WellFormed }

/-! ## Allocation, trimming, copying -/

/-- `bignum_allocate` asserts the length. The loops that fill the new block
produce its digits, so no contents are modelled here. -/
def bignumAllocate (length : Nat) : Exec Unit := check (length ≤ bignumLengthMax)

def bignumMakeZero : Bignum := ⟨false, []⟩

def bignumMakeOne (negative : Bool) : Bignum := ⟨negative, [1]⟩

def bignumShortenLength (b : Bignum) (length : Nat) : Exec Bignum := do
  check (length ≤ b.length)
  if length < b.length then
    return ⟨length != 0 && b.negative, b.digits.take length⟩
  else return b

/-- `bignum_trim`. The downward scan stops at the first nonzero digit; when
there is none it stops on the header word below the digits, whatever that
word is, so that nothing is kept. -/
def bignumTrim (b : Bignum) : Bignum :=
  let kept := b.digits.rdropWhile (· == 0)
  if kept.length < b.length then ⟨kept.length != 0 && b.negative, kept⟩ else b

def bignumNewSign (b : Bignum) (negative : Bool) : Exec Bignum := do
  bignumAllocate b.length
  return ⟨negative, b.digits⟩

def bignumMaybeNewSign (b : Bignum) (negative : Bool) : Exec Bignum :=
  if (if b.negative then negative else !negative) then return b
  else do
    bignumAllocate b.length
    return ⟨negative, b.digits⟩

def bignumDigitToBignum (digit : Int) (negative : Bool) : Exec Bignum :=
  if digit = 0 then return bignumMakeZero
  else do
    bignumAllocate 1
    return ⟨negative, [digit]⟩

/-- The fault of an allocation of more than `BIGNUM_LENGTH_MAX` digits, in an
operation that allocates at most `n`. -/
def TooLong (n : Nat) (f : Fault) : Prop := f = .assertion ∧ bignumLengthMax < n

theorem bignumAllocate_gives {len n} (h : len ≤ n) :
    Gives (TooLong n) (bignumAllocate len) (fun _ => True) := by
  unfold bignumAllocate check
  split
  · trivial
  · exact ⟨rfl, by omega⟩

theorem bignumRadix_pos : 0 < bignumRadix := by decide

variable {b : Bignum} (s : Bool)

theorem Bignum.toInt_mk (ds : List Int) :
    (Bignum.mk s ds).toInt = if s then -value bignumRadix ds else value bignumRadix ds := rfl

theorem wellFormed_zero : bignumMakeZero.WellFormed :=
  ⟨by simp [bignumMakeZero], by simp [bignumMakeZero], fun _ => rfl⟩

theorem wellFormed_one : (bignumMakeOne s).WellFormed :=
  ⟨by simp [bignumMakeOne, bignumRadix], by simp [bignumMakeOne], by simp [bignumMakeOne]⟩

theorem Bignum.WellFormed.withSign (h : b.WellFormed) (hz : b.digits ≠ []) (s : Bool) :
    (Bignum.mk s b.digits).WellFormed :=
  ⟨h.digits, h.lead, fun he => absurd he hz⟩

theorem rdropWhile_zero_value (ds : List Int) :
    value bignumRadix (ds.rdropWhile (· == 0)) = value bignumRadix ds := by
  induction ds using List.reverseRecOn with
  | nil => simp
  | append_singleton ds d ih =>
    rw [List.rdropWhile_concat]
    split
    · rename_i hd
      rw [ih, value_append, show d = 0 by simpa using hd]; simp
    · rfl

theorem bignumTrim_spec {s ds} (hd : Digits bignumRadix ds) (hne : ds ≠ []) :
    (bignumTrim ⟨s, ds⟩).WellFormed ∧ (bignumTrim ⟨s, ds⟩).toInt = (Bignum.mk s ds).toInt := by
  set kept := ds.rdropWhile (· == 0) with hk
  have hv : value bignumRadix kept = value bignumRadix ds := rdropWhile_zero_value ds
  have hpre : kept <+: ds := List.rdropWhile_prefix _ _
  have hdk : Digits bignumRadix kept := fun d h => hd d (hpre.mem h)
  have hlead : kept.getLast? ≠ some 0 := by
    intro h
    have hnil : kept ≠ [] := by intro h0; rw [h0] at h; simp at h
    have := List.rdropWhile_last_not (· == (0 : Int)) ds hnil
    rw [List.getLast?_eq_getLast_of_ne_nil hnil, Option.some.injEq] at h
    exact this (by simpa using h)
  by_cases hlt : kept.length < ds.length
  · have e : bignumTrim ⟨s, ds⟩ = ⟨kept.length != 0 && s, kept⟩ := by
      simp only [bignumTrim, ← hk, Bignum.length, if_pos hlt]
    rw [e]
    refine ⟨⟨hdk, hlead, ?_⟩, ?_⟩
    · intro h0
      simp only at h0
      simp [h0]
    · rw [Bignum.toInt_mk, Bignum.toInt_mk, hv]
      cases hkl : kept with
      | nil => rw [hkl] at hv; simp at hv; simp [← hv]
      | cons d rest => simp
  · have he : kept = ds := hpre.eq_of_length_le (by omega)
    have e : bignumTrim ⟨s, ds⟩ = ⟨s, ds⟩ := by
      simp only [bignumTrim, ← hk, Bignum.length, if_neg hlt]
    rw [e]
    exact ⟨⟨hd, he ▸ hlead, fun h0 => absurd h0 hne⟩, rfl⟩

theorem bignumTrim_nonnegative {ds : List Int} (hd : Digits bignumRadix ds) :
    (bignumTrim ⟨false, ds⟩).WellFormed ∧ (bignumTrim ⟨false, ds⟩).toInt = value bignumRadix ds := by
  by_cases hne : ds = []
  · subst hne
    exact ⟨wellFormed_zero, rfl⟩
  · exact bignumTrim_spec hd hne

theorem bignumNewSign_gives {n} (h : b.length ≤ n) :
    Gives (TooLong n) (bignumNewSign b s) (fun z => z = ⟨s, b.digits⟩) :=
  (bignumAllocate_gives h).bind fun _ _ => Gives.pure rfl

theorem bignumMaybeNewSign_gives {n} (h : b.length ≤ n) :
    Gives (TooLong n) (bignumMaybeNewSign b s) (fun z => z = ⟨s, b.digits⟩) := by
  unfold bignumMaybeNewSign
  by_cases hs : b.negative = s
  · subst hs
    rw [if_pos (by cases b.negative <;> rfl)]
    exact Gives.pure rfl
  · rw [if_neg (by cases hb : b.negative <;> cases s <;> simp_all)]
    exact (bignumAllocate_gives h).bind fun _ _ => Gives.pure rfl

theorem bignumDigitToBignum_gives {d n} (hd : 0 ≤ d) (hd' : d < bignumRadix) (hn : 1 ≤ n) :
    Gives (TooLong n) (bignumDigitToBignum d s)
      (fun z => z.WellFormed ∧ z.toInt = if s then -d else d) := by
  unfold bignumDigitToBignum
  split
  · rename_i h0
    exact Gives.pure ⟨wellFormed_zero, by subst h0; cases s <;> rfl⟩
  · rename_i h0
    refine (bignumAllocate_gives hn).bind fun _ _ => Gives.pure ⟨⟨?_, ?_, by simp⟩, ?_⟩
    · simpa using ⟨hd, hd'⟩
    · simpa using h0
    · simp [Bignum.toInt_mk]

/-! ## Comparison -/

inductive BignumComparison
  | equal
  | less
  | greater

/-- The scan of `bignum_compare_unsigned`, from the leading digit down. -/
def compareScan : List Int → List Int → BignumComparison
  | x :: xs, y :: ys =>
    if x < y then .less else if x > y then .greater else compareScan xs ys
  | _, _ => .equal

def bignumCompareUnsigned (x y : Bignum) : BignumComparison :=
  if x.length < y.length then .less
  else if x.length > y.length then .greater
  else compareScan x.digits.reverse y.digits.reverse

def BignumComparison.Holds : BignumComparison → Int → Int → Prop
  | .equal, a, b => a = b
  | .less, a, b => a < b
  | .greater, a, b => b < a

theorem compareScan_spec : ∀ {xs ys : List Int}, xs.length = ys.length →
    Digits bignumRadix xs → Digits bignumRadix ys →
    (compareScan xs ys).Holds (value bignumRadix xs.reverse) (value bignumRadix ys.reverse)
  | [], [], _, _, _ => rfl
  | [], _ :: _, h, _, _ => by simp at h
  | _ :: _, [], h, _, _ => by simp at h
  | x :: xs, y :: ys, h, hx, hy => by
    obtain ⟨_, hxs⟩ := digits_cons.mp hx
    obtain ⟨_, hys⟩ := digits_cons.mp hy
    have hl : xs.length = ys.length := by simpa using h
    have hrx : Digits bignumRadix xs.reverse := fun d hd => hxs d (List.mem_reverse.mp hd)
    have hry : Digits bignumRadix ys.reverse := fun d hd => hys d (List.mem_reverse.mp hd)
    have hlr : xs.reverse.length = ys.reverse.length := by simpa using hl
    simp only [compareScan, List.reverse_cons]
    split
    · exact value_lt_of_lead bignumRadix_pos hrx hry hlr ‹_›
    · split
      · exact value_lt_of_lead bignumRadix_pos hry hrx hlr.symm ‹_›
      · have he : x = y := by omega
        have ih := compareScan_spec hl hxs hys
        subst he
        rw [value_append, value_append, hlr]
        revert ih
        cases compareScan xs ys <;> simp only [BignumComparison.Holds] <;> intro ih <;> omega

theorem Bignum.WellFormed.length_le {c : Bignum} (hb : b.WellFormed) (hc : c.WellFormed)
    (h : b.length < c.length) : b.magnitude < c.magnitude := by
  rcases List.eq_nil_or_concat c.digits with he | ⟨init, top, he⟩
  · simp [Bignum.length, he] at h
  rw [List.concat_eq_append] at he
  have hd := hc.digits
  rw [he] at hd
  obtain ⟨hi, ht⟩ := digits_append.mp hd
  have hpos : 0 < top := by
    have := (digits_cons.mp ht).1
    rcases eq_or_lt_of_le this.1 with h0 | h0
    · exact absurd (by simp [he, ← h0]) hc.lead
    · exact h0
  have h1 := pow_le_value bignumRadix_pos hi hpos
  have h2 := value_lt_pow bignumRadix_pos hb.digits
  have h3 : bignumRadix ^ b.digits.length ≤ bignumRadix ^ init.length :=
    pow_le_pow_right₀ (by decide) (by simp [Bignum.length, he] at h; omega)
  unfold Bignum.magnitude
  rw [he]
  omega

theorem bignumCompareUnsigned_spec {x y : Bignum} (hx : x.WellFormed) (hy : y.WellFormed) :
    (bignumCompareUnsigned x y).Holds x.magnitude y.magnitude := by
  unfold bignumCompareUnsigned
  split
  · exact hx.length_le hy ‹_›
  · split
    · exact hy.length_le hx ‹_›
    · have h := @compareScan_spec x.digits.reverse y.digits.reverse
        (by simp [Bignum.length] at *; omega)
        (fun d hd => hx.digits d (List.mem_reverse.mp hd))
        (fun d hd => hy.digits d (List.mem_reverse.mp hd))
      simpa [Bignum.magnitude] using h

theorem Bignum.WellFormed.eq_of_toInt {c : Bignum} (hb : b.WellFormed) (hc : c.WellFormed)
    (h : b.toInt = c.toInt) : b = c := by
  have hb0 := value_nonneg bignumRadix_pos hb.digits
  have hc0 := value_nonneg bignumRadix_pos hc.digits
  have hm : value bignumRadix b.digits = value bignumRadix c.digits := by
    unfold Bignum.toInt Bignum.magnitude at h
    split at h <;> split at h <;> omega
  have hd : b.digits = c.digits :=
    eq_of_value_eq_of_lead bignumRadix_pos hb.digits hc.digits hb.lead hc.lead hm
  have hs : b.negative = c.negative := by
    by_cases hn : b.digits = []
    · rw [hb.sign hn, hc.sign (hd ▸ hn)]
    · have hpos : value bignumRadix b.digits ≠ 0 := by
        intro h0
        exact hn (eq_of_value_eq_of_lead bignumRadix_pos hb.digits (by simp) hb.lead (by simp)
          (by simpa using h0))
      unfold Bignum.toInt Bignum.magnitude at h
      cases hbn : b.negative <;> cases hcn : c.negative <;> simp only [hbn, hcn] at h <;>
        first | rfl | (exfalso; simp at h; omega)
  cases b; cases c; simp_all

theorem exists_wellFormed (v : Int) : ∃ b : Bignum, b.WellFormed ∧ b.toInt = v := by
  obtain ⟨ds, hd, hl, he⟩ := exists_numeral (n := 4611686018427387904) (by norm_num) v.natAbs
  change value bignumRadix ds = _ at he
  refine ⟨⟨decide (v < 0), ds⟩, ⟨hd, hl, ?_⟩, ?_⟩
  · rintro rfl
    rw [value_nil] at he
    exact decide_eq_false (by omega)
  · rw [Bignum.toInt_mk, he]
    by_cases hv : v < 0
    · simp only [hv, decide_true, if_true]; omega
    · simp only [hv, decide_false, Bool.false_eq_true, if_false]; omega

end MitScheme.Microcode
