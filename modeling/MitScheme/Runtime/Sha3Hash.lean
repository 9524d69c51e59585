import Mathlib
import MitScheme.Lib.Outcome
import MitScheme.Lib.Sponge

/-! # SHA-3

The hash of `sha3.scm`: a state of 200 bytes, fed with pieces of byte strings, and the count of the
bytes that its current block still takes. The permutation of the states is a parameter. -/

namespace MitScheme.Runtime.Sha3Hash
open Lib.Outcome Lib.Sponge

inductive Fault
  | assertion
  | wrongType
  | badRange
  deriving DecidableEq

abbrev Result (α : Type) := Except Fault α

abbrev State := Vector UInt8 200

structure Sha3 where
  state : State
  nb : Int

def assert (condition : Prop) [Decidable condition] : Result Unit :=
  if condition then .ok () else .error .assertion

/-- `guarantee index-fixnum?`. -/
def guaranteeIndex (n : Int) : Result Unit :=
  if 0 ≤ n ∧ n < 2 ^ 57 then .ok () else .error .wrongType

def bytevectorU8Xor (bv : State) (i : Int) (x : UInt8) : Result State := do
  guaranteeIndex i
  if h : i.toNat < 200 then return bv.set i.toNat (x ^^^ bv[i.toNat])
  else throw .badRange

/-- The loop of `bytevector-xor!`, with the references checked. -/
def xorLoop (t : State) (ts : Nat) (f : List UInt8) (fs n i : Nat) : Result State :=
  if n ≤ i then .ok t
  else if h : ts + i < 200 ∧ fs + i < f.length then
    xorLoop (t.set (ts + i) (t[ts + i] ^^^ f[fs + i])) ts f fs n (i + 1)
  else .error .badRange
termination_by n - i

def bytevectorXor (t : State) (ts : Int) (f : List UInt8) (fs n : Int) : Result State := do
  guaranteeIndex ts
  guaranteeIndex fs
  if ¬n ≤ 200 - ts then throw .badRange
  if ¬n ≤ f.length - fs then throw .badRange
  xorLoop t ts.toNat f fs.toNat n.toNat 0

/-- The primitive `bytevector-copy!`. -/
def bytevectorCopy (destination : List UInt8) (index : Int) (source : List UInt8) (start stop : Int) :
    Result (List UInt8) :=
  if 0 ≤ start ∧ start ≤ stop ∧ stop ≤ source.length ∧ 0 ≤ index ∧ index + (stop - start) ≤ destination.length
  then .ok (destination.take index.toNat ++ (source.drop start.toNat).take (stop - start).toNat ++
    destination.drop (index + (stop - start)).toNat)
  else .error .badRange

section
variable (keccak : State → State) (rb : Nat)

def sha3Init : Sha3 := ⟨Vector.replicate 200 0, rb⟩

/-- The loop of `sha3-update` after the first block is full. -/
def updateLoop [NeZero rb] (state : State) (bv : List UInt8) (start stop : Int) : Result Sha3 := do
  if start ≤ stop - rb then
    let state ← bytevectorXor state 0 bv start rb
    updateLoop (keccak state) bv (start + rb) stop
  else
    let nf := stop - start
    assert (nf < rb)
    let state ← bytevectorXor state 0 bv start nf
    return { state, nb := rb - nf }
termination_by (stop - start).toNat
decreasing_by
  have := NeZero.pos rb
  omega

def sha3Update [NeZero rb] (sha3 : Sha3) (bv : List UInt8) (start stop : Int) : Result Sha3 := do
  assert (0 < sha3.nb)
  let i := rb - sha3.nb
  let ni := min (stop - start) sha3.nb
  assert (0 ≤ i)
  assert (i < rb)
  assert (0 ≤ ni)
  assert (ni < rb)
  let state ← bytevectorXor sha3.state i bv start ni
  if ni < sha3.nb then return { state, nb := sha3.nb - ni }
  else updateLoop keccak rb (keccak state) bv (start + ni) stop

/-- `sha3-final`. The byte string with the digest and the structure afterwards. -/
def sha3Final (sha3 : Sha3) (h : List UInt8) (hstart db : Int) : Result (List UInt8 × Sha3) := do
  assert (db ≤ 8 * 25)
  assert (0 < sha3.nb)
  let state ← bytevectorU8Xor sha3.state (rb - sha3.nb) 0x06
  let state ← bytevectorU8Xor state (rb - 1) 0x80
  let h ← bytevectorCopy h hstart (keccak state).toList 0 db
  return (h, ⟨Vector.replicate 200 0, 0⟩)

end

def sha3RateBytes (db : Nat) : Nat := 200 - 2 * db

def sha3256RateBytes : Nat := sha3RateBytes 32

instance : NeZero sha3256RateBytes := ⟨by decide⟩

section
variable (keccak : State → State)

def sha3256Init : Sha3 := sha3Init sha3256RateBytes

def sha3256Update (sha3 : Sha3) (bv : List UInt8) (start stop : Int) : Result Sha3 :=
  sha3Update keccak sha3256RateBytes sha3 bv start stop

def sha3256Final (sha3 : Sha3) (bv : List UInt8) (start stop : Int) :
    Result (List UInt8 × Sha3) :=
  sha3Final keccak sha3256RateBytes sha3 bv start (stop - start)

def sha3256 (h : Vector UInt8 32) (bv : List UInt8) : Result (List UInt8) := do
  let s ← sha3256Update keccak sha3256Init bv 0 bv.length
  let (h, _) ← sha3256Final keccak s h.toList 0 32
  return h

end

/-! ## Byte strings -/

theorem assert_bind {condition : Prop} [Decidable condition] {α : Type} {f : Unit → Result α}
    (h : condition) : (assert condition >>= f) = f () := by
  rw [assert, if_pos h]
  rfl

theorem assert_error {condition : Prop} [Decidable condition] {α : Type} {f : Unit → Result α}
    (h : ¬condition) : (assert condition >>= f) = .error .assertion := by
  rw [assert, if_neg h]
  rfl

def slice (bv : List UInt8) (start stop : Nat) : List UInt8 := (bv.drop start).take (stop - start)

theorem slice_length {bv start stop} (h : stop ≤ bv.length) :
    (slice bv start stop).length = stop - start := by
  rw [slice, List.length_take, List.length_drop]
  omega

theorem slice_append (bv) {start middle stop} (h : start ≤ middle) (h' : middle ≤ stop) :
    slice bv start middle ++ slice bv middle stop = slice bv start stop := by
  have hdrop : bv.drop middle = (bv.drop start).drop (middle - start) := by
    rw [List.drop_drop, Nat.add_sub_cancel' h]
  have hlen : stop - start = (middle - start) + (stop - middle) := by omega
  rw [slice, slice, slice, hdrop, hlen, List.take_add]

theorem xorLoop_eq (t ts f fs n i) (hi : i ≤ n) (ht : ts + n ≤ 200) (hf : fs + n ≤ f.length) :
    xorLoop t ts f fs n i = .ok (addAt (· ^^^ ·) t (ts + i) (slice f (fs + i) (fs + n))) := by
  induction hk : n - i generalizing t i with
  | zero =>
    rw [xorLoop, if_pos (by omega), slice, Nat.sub_eq_zero_of_le (by omega), List.take_zero,
      addAt_nil]
  | succ k ih =>
    have hset : t.set (ts + i) (t[ts + i] ^^^ f[fs + i]) =
        addAt (· ^^^ ·) t (ts + i) [f[fs + i]] := by
      ext j hj
      rw [Vector.getElem_set, getElem_addAt]
      rcases Nat.lt_trichotomy j (ts + i) with hlt | rfl | hgt
      · rw [if_neg (by omega), if_neg (by omega)]
      · rw [if_pos rfl, if_pos (Nat.le_refl _), Nat.sub_self]
        rfl
      · rw [if_neg (by omega), if_pos (by omega), List.getElem?_eq_none
          (by rw [List.length_singleton]; omega), Option.elim_none]
    have hslice : slice f (fs + i) (fs + n) =
        [f[fs + i]] ++ slice f (fs + (i + 1)) (fs + n) := by
      rw [slice, slice, List.drop_eq_getElem_cons (by omega),
        show fs + n - (fs + i) = fs + n - (fs + (i + 1)) + 1 by omega, List.take_succ_cons]
      rfl
    rw [xorLoop, if_neg (by omega), dif_pos ⟨by omega, by omega⟩, ih _ _ (by omega) (by omega),
      hset, hslice, ← addAt_append]
    rfl

theorem bytevectorXor_eq (t : State) {f} (ts fs n : Nat) (ht : ts + n ≤ 200)
    (hf : fs + n ≤ f.length) (hshort : f.length < 2 ^ 57) :
    bytevectorXor t ts f fs n = .ok (addAt (· ^^^ ·) t ts (slice f fs (fs + n))) := by
  rw [bytevectorXor, guaranteeIndex, if_pos ⟨by omega, by omega⟩, ok_bind, guaranteeIndex,
    if_pos ⟨by omega, by omega⟩, ok_bind, if_neg (by omega), if_neg (by omega)]
  exact xorLoop_eq t ts f fs n 0 (Nat.zero_le n) ht hf

/-! ## Updates -/

section
variable (keccak : State → State) (rb : Nat)

abbrev absorbBytes (s : State × Nat) (bytes : List UInt8) :
    State × Nat := absorb (· ^^^ ·) keccak rb s bytes

def atPlace (s : State × Nat) : Sha3 := ⟨s.1, rb - s.2⟩

theorem updateLoop_eq [NeZero rb] (hrb : rb ≤ 200) (state : State) {bv : List UInt8} {start stop}
    (hstart : start ≤ stop) (hstop : stop ≤ bv.length) (hshort : bv.length < 2 ^ 57) :
    updateLoop keccak rb state bv start stop =
      .ok (atPlace rb (absorbBytes keccak rb (state, 0) (slice bv start stop))) := by
  have hpos := NeZero.pos rb
  induction hn : stop - start using Nat.strong_induction_on generalizing state start with
  | _ n ih =>
    rw [updateLoop]
    rcases Nat.lt_or_ge (stop - start) rb with hlt | hge
    · have hcast : (stop : Int) - start = (stop - start : Nat) := by omega
      have hlen : (slice bv start stop).length = stop - start := slice_length hstop
      have habsorb := absorb_unfilled (· ^^^ ·) keccak state 0 (slice bv start stop)
        (show 0 + (slice bv start stop).length < rb by rw [hlen, Nat.zero_add]; exact hlt)
      have hxor := bytevectorXor_eq state 0 start (stop - start) (by omega)
        (by omega) hshort
      rw [Nat.add_sub_cancel' hstart] at hxor
      rw [if_neg (by omega), assert_bind (by omega), hcast, ← Nat.cast_zero (R := Int), hxor,
        ok_bind, absorbBytes, habsorb, atPlace, hlen, Nat.zero_add]
      rfl
    · have hlen : (slice bv start (start + rb)).length = rb := by
        rw [slice_length (by omega)]
        omega
      have hne : slice bv start (start + rb) ≠ [] := fun h => by
        rw [h, List.length_nil] at hlen
        omega
      have hxor := bytevectorXor_eq state 0 start rb (by omega) (by omega)
        hshort
      rw [if_pos (by omega), ← Nat.cast_zero (R := Int), hxor, ok_bind, ← Nat.cast_add,
        ih (stop - (start + rb)) (by omega) _ (by omega) rfl, absorbBytes, absorbBytes,
        ← slice_append bv (Nat.le_add_right start rb) (show start + rb ≤ stop by omega),
        absorb_append, absorb_filled _ _ state _ hne (by rw [hlen, Nat.zero_add])]

theorem sha3Update_eq [NeZero rb] (hrb : rb ≤ 200) {s : State × Nat} (hs : s.2 < rb)
    {bv : List UInt8} {start stop} (hstart : start ≤ stop) (hstop : stop ≤ bv.length)
    (hshort : bv.length < 2 ^ 57) (hblock : stop - start < rb ∨ s.2 ≠ 0) :
    sha3Update keccak rb (atPlace rb s) bv start stop =
      .ok (atPlace rb (absorbBytes keccak rb s (slice bv start stop))) := by
  obtain ⟨state, pos⟩ := s
  dsimp only at hs hblock
  rw [sha3Update, atPlace, assert_bind (by dsimp only; omega)]
  dsimp only
  rw [assert_bind (by omega), assert_bind (by omega), assert_bind (by omega),
    assert_bind (by omega), show (rb : Int) - (rb - pos) = pos by omega]
  rcases Nat.lt_or_ge (stop - start) (rb - pos) with hlt | hge
  · have hmin : min ((stop : Int) - start) (rb - pos) = (stop - start : Nat) := by omega
    have hlen : (slice bv start stop).length = stop - start := slice_length hstop
    have hxor := bytevectorXor_eq state pos start (stop - start) (by omega)
      (by omega) hshort
    rw [Nat.add_sub_cancel' hstart] at hxor
    rw [hmin, hxor, ok_bind, if_pos (by omega), absorbBytes,
      absorb_unfilled _ _ _ _ _ (by rw [hlen]; omega), atPlace, hlen]
    simp only [pure, Except.pure, Except.ok.injEq, Sha3.mk.injEq, true_and]
    omega
  · have hmin : min ((stop : Int) - start) (rb - pos) = (rb - pos : Nat) := by omega
    have hlen : (slice bv start (start + (rb - pos))).length = rb - pos := by
      rw [slice_length (by omega)]
      omega
    have hne : slice bv start (start + (rb - pos)) ≠ [] := fun h => by
      rw [h, List.length_nil] at hlen
      omega
    have hxor := bytevectorXor_eq state pos start (rb - pos) (by omega)
      (by omega) hshort
    rw [hmin, hxor, ok_bind, if_neg (by omega), ← Nat.cast_add,
      updateLoop_eq _ _ hrb _ (by omega) hstop hshort, absorbBytes, absorbBytes,
      ← slice_append bv (Nat.le_add_right start (rb - pos))
        (show start + (rb - pos) ≤ stop by omega),
      absorb_append, absorb_filled _ _ state _ hne (by rw [hlen]; omega)]

theorem sha3Update_block [NeZero rb] (state) {bv start stop} (hblock : rb ≤ stop - start) :
    sha3Update keccak rb (atPlace rb (state, 0)) bv start stop = .error .assertion := by
  have hpos := NeZero.pos rb
  rw [sha3Update, atPlace, assert_bind (by dsimp only; omega)]
  dsimp only
  rw [assert_bind (by omega), assert_bind (by omega), assert_bind (by omega),
    assert_error (by omega)]

end

end MitScheme.Runtime.Sha3Hash
