import MitScheme.Lib.Outcome
import Mathlib.Data.Int.Bitwise
import Mathlib.Tactic.Ring
import Mathlib.Tactic.Linarith

/-! # Checked machine arithmetic

Signed machine words are integers, and an operation whose mathematical result
does not fit the word stops with a fault instead of wrapping. A program that
is shown to return therefore never left the range of its word type.

`Gives E x P` is the triple used for such programs: `x` returns a value with
`P`, or it stops with a fault that `E` allows. -/

namespace MitScheme.Lib.Checked

inductive Fault
  | overflow
  | outOfBounds
  | assertion
  /-- a loop did not end within the bound given to it -/
  | outOfFuel
  deriving DecidableEq

abbrev Exec := Except Fault

/-- The values of a signed two's complement word of `w` bits. -/
def InRange (w : Nat) (v : Int) : Prop := -2 ^ (w - 1) ≤ v ∧ v < 2 ^ (w - 1)

instance (w : Nat) (v : Int) : Decidable (InRange w v) :=
  inferInstanceAs (Decidable (_ ∧ _))

/-- A signed result of `w` bits. -/
def signed (w : Nat) (v : Int) : Exec Int := if InRange w v then .ok v else .error .overflow

def check (p : Prop) [Decidable p] : Exec Unit := if p then .ok () else .error .assertion

/-- An array read or write at `i`. -/
def index (l : List Int) (i : Nat) : Exec Int :=
  match l[i]? with
  | some v => .ok v
  | none => .error .outOfBounds

section Gives
variable {α β : Type} {E : Fault → Prop}

/-- `x` returns a value satisfying `P`, or stops with a fault allowed by `E`. -/
def Gives (E : Fault → Prop) (x : Exec α) (P : α → Prop) : Prop :=
  match x with
  | .ok a => P a
  | .error f => E f

variable {P : α → Prop}

theorem Gives.pure {a} (h : P a) : Gives E (.ok a) P := h

theorem Gives.bind {x} {f : α → Exec β} {Q : β → Prop} (hx : Gives E x P)
    (hf : ∀ a, P a → Gives E (f a) Q) : Gives E (x >>= f) Q := by
  cases x with
  | error e => exact hx
  | ok a => exact hf a hx

theorem Gives.mono {x} {Q : α → Prop} (hx : Gives E x P) (h : ∀ a, P a → Q a) : Gives E x Q := by
  cases x with
  | error e => exact hx
  | ok a => exact h a hx

theorem Gives.weaken {E' : Fault → Prop} {x} (hx : Gives E x P) (h : ∀ f, E f → E' f) :
    Gives E' x P := by
  cases x with
  | error e => exact h e hx
  | ok a => exact hx

theorem Gives.ok {x} (hx : Gives E x P) (h : ∀ f, ¬ E f) : ∃ a, x = .ok a ∧ P a := by
  cases x with
  | error e => exact absurd hx (h e)
  | ok a => exact ⟨a, rfl, hx⟩

theorem Gives.of_ok {x} (h : ∃ a, x = .ok a ∧ P a) : Gives E x P := by
  obtain ⟨a, rfl, ha⟩ := h
  exact ha

end Gives

theorem signed_ok {w v} (h : InRange w v) : signed w v = .ok v := if_pos h

theorem check_ok {p : Prop} [Decidable p] (h : p) : check p = .ok () := if_pos h

/-! ## Bit operations on nonnegative words -/

theorem land_mask {d} (k : Nat) (h : 0 ≤ d) : Int.land d (2 ^ k - 1) = d % 2 ^ k := by
  obtain ⟨n, rfl⟩ := Int.eq_ofNat_of_zero_le h
  have h1 : ((2 : Int) ^ k - 1) = ((2 ^ k - 1 : Nat) : Int) := by
    have := Nat.one_le_two_pow (n := k)
    push_cast [Nat.cast_sub this]; rfl
  rw [h1]
  change ((n &&& (2 ^ k - 1) : Nat) : Int) = _
  rw [Nat.and_two_pow_sub_one_eq_mod]
  push_cast; rfl

theorem shiftRight_eq (d : Int) (k : Nat) : d >>> k = d / 2 ^ k := by
  rw [Int.shiftRight_eq_div_pow]; push_cast; rfl

theorem shiftLeft_eq (d : Int) (k : Nat) : d <<< k = d * 2 ^ k := by
  rw [Int.shiftLeft_eq]

theorem lor_shift {h l} (k : Nat) (hh : 0 ≤ h) (hl : 0 ≤ l) (hk : l < 2 ^ k) :
    Int.lor (h * 2 ^ k) l = h * 2 ^ k + l := by
  obtain ⟨a, rfl⟩ := Int.eq_ofNat_of_zero_le hh
  obtain ⟨b, rfl⟩ := Int.eq_ofNat_of_zero_le hl
  have hb : b < 2 ^ k := by exact_mod_cast hk
  have h1 : ((a : Int) * 2 ^ k) = ((a * 2 ^ k : Nat) : Int) := by push_cast; rfl
  rw [h1]
  change ((a * 2 ^ k ||| b : Nat) : Int) = _
  rw [← Nat.shiftLeft_eq, ← Nat.shiftLeft_add_eq_or_of_lt hb, Nat.shiftLeft_eq]
  push_cast; rfl

theorem lor_comm_of_nonneg {a b} (ha : 0 ≤ a) (hb : 0 ≤ b) : Int.lor a b = Int.lor b a := by
  obtain ⟨m, rfl⟩ := Int.eq_ofNat_of_zero_le ha
  obtain ⟨n, rfl⟩ := Int.eq_ofNat_of_zero_le hb
  change ((m ||| n : Nat) : Int) = ((n ||| m : Nat) : Int)
  rw [Nat.lor_comm]

theorem land_comm_of_nonneg {a b} (ha : 0 ≤ a) (hb : 0 ≤ b) : Int.land a b = Int.land b a := by
  obtain ⟨m, rfl⟩ := Int.eq_ofNat_of_zero_le ha
  obtain ⟨n, rfl⟩ := Int.eq_ofNat_of_zero_le hb
  change ((m &&& n : Nat) : Int) = ((n &&& m : Nat) : Int)
  rw [Nat.land_comm]

theorem index_append_cons (l r : List Int) (d : Int) : index (l ++ d :: r) l.length = .ok d := by
  simp [index]

theorem index_of_cut {ds l r d i} (hds : ds = l ++ d :: r) (hi : i = l.length) :
    index ds i = .ok d := by
  rw [hds, hi]
  exact index_append_cons l r d

end MitScheme.Lib.Checked
