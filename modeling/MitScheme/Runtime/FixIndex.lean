import Mathlib
import MitScheme.Lib.Outcome

/-! # Optional indices

`fix:end-index` and `fix:start-index` of `primitive-arithmetic.scm`, for callers with faults of
their own. An omitted argument is the default object, which is no fixnum. -/

namespace MitScheme.Runtime.FixIndex
open Lib.Outcome

class Faults (ε : Type) where
  badRange : ε
  wrongType : ε

variable {ε : Type} [Faults ε]

/-- `fix:<=` of an index and an optional argument. The primitive takes fixnums only. -/
def fixLessEqual (n : Nat) : Option Nat → Except ε Bool
  | some m => .ok (n ≤ m)
  | none => .error Faults.wrongType

/-- `guarantee index-fixnum?`. -/
def guaranteeIndex (n : Nat) : Except ε Unit :=
  if n < 2 ^ 57 then .ok () else .error Faults.wrongType

def fixEndIndex (stop : Option Nat) (length : Nat) : Except ε Nat :=
  match stop with
  | none => .ok length
  | some stop => do
    guaranteeIndex stop
    if !(← fixLessEqual stop length) then .error Faults.badRange else .ok stop

def fixStartIndex (start stop : Option Nat) : Except ε Nat :=
  match start with
  | none => .ok 0
  | some start => do
    guaranteeIndex start
    if !(← fixLessEqual start stop) then .error Faults.badRange else .ok start

/-- The start and the end are a range of a sequence. -/
structure InRange (start stop : Option Nat) (length : Nat) : Prop where
  start_le : start.getD 0 ≤ stop.getD length
  stop_le : stop.getD length ≤ length

instance (start stop : Option Nat) (length : Nat) : Decidable (InRange start stop length) :=
  decidable_of_iff (start.getD 0 ≤ stop.getD length ∧ stop.getD length ≤ length)
    ⟨fun h => ⟨h.1, h.2⟩, fun h => ⟨h.1, h.2⟩⟩

theorem fixEndIndex_ok {stop length} (h : stop.getD length ≤ length) (hlen : length < 2 ^ 57) :
    (fixEndIndex stop length : Except ε Nat) = .ok (stop.getD length) := by
  cases stop with
  | none => rfl
  | some e =>
    have hle : e ≤ length := h
    rw [fixEndIndex, guaranteeIndex, if_pos (Nat.lt_of_le_of_lt hle hlen), ok_bind, fixLessEqual,
      ok_bind, decide_eq_true hle]
    rfl

theorem fixStartIndex_ok {start stop} (h : start.getD 0 ≤ stop) (hstop : stop < 2 ^ 57) :
    (fixStartIndex start (some stop) : Except ε Nat) = .ok (start.getD 0) := by
  cases start with
  | none => rfl
  | some s =>
    have hle : s ≤ stop := h
    rw [fixStartIndex, guaranteeIndex, if_pos (Nat.lt_of_le_of_lt hle hstop), ok_bind, fixLessEqual,
      ok_bind, decide_eq_true hle]
    rfl

theorem fixEndIndex_eq_ok {stop length n} (h : (fixEndIndex stop length : Except ε Nat) = .ok n) :
    n = stop.getD length ∧ stop.getD length ≤ length := by
  cases stop with
  | none => exact ⟨(Except.ok.inj h).symm, Nat.le_refl _⟩
  | some e =>
    obtain ⟨-, -, h⟩ := bind_eq_ok h
    rw [fixLessEqual, ok_bind] at h
    by_cases hle : e ≤ length
    · rw [decide_eq_true hle] at h
      exact ⟨(Except.ok.inj h).symm, hle⟩
    · rw [decide_eq_false hle] at h
      cases h

theorem fixStartIndex_eq_ok {start stop n}
    (h : (fixStartIndex start (some stop) : Except ε Nat) = .ok n) :
    n = start.getD 0 ∧ start.getD 0 ≤ stop := by
  cases start with
  | none => exact ⟨(Except.ok.inj h).symm, Nat.zero_le _⟩
  | some s =>
    obtain ⟨-, -, h⟩ := bind_eq_ok h
    rw [fixLessEqual, ok_bind] at h
    by_cases hle : s ≤ stop
    · rw [decide_eq_true hle] at h
      exact ⟨(Except.ok.inj h).symm, hle⟩
    · rw [decide_eq_false hle] at h
      cases h

theorem fixStartIndex_default {start} (h : start < 2 ^ 57) :
    (fixStartIndex (some start) none : Except ε Nat) = .error Faults.wrongType := by
  rw [fixStartIndex, guaranteeIndex, if_pos h]
  rfl

end MitScheme.Runtime.FixIndex
