import MitScheme.Runtime.NumberGrammar

/-! # Finishing a number

Which digits, exponents, denominators and payloads the last operations on a number
that was read accept. -/

namespace MitScheme.Runtime.NumberParser
open Arith Lib.Outcome

variable {F : Type} {flo : Flonums F}

theorem not_exists_ok {α : Type} {x : Result α} : (¬∃ a, x = .ok a) ↔ ∃ e, x = .error e := by
  cases x <;> simp

theorem exists_ok_bind {α β : Type} {x} {f : α → Result β} :
    (∃ b, x >>= f = .ok b) ↔ ∃ a, x = .ok a ∧ ∃ b, f a = .ok b := by
  cases x with
  | error e =>
    constructor
    · rintro ⟨b, h⟩
      cases h
    · rintro ⟨a, h, -⟩
      cases h
  | ok a =>
    constructor
    · intro h
      exact ⟨a, rfl, h⟩
    · rintro ⟨a', h, hb⟩
      cases h
      exact hb

theorem fixnum_eq_ok {v a} : fixnum v = .ok a ↔ IsFixnum v ∧ a.val = v := by
  rw [fixnum]
  split
  · rename_i h
    constructor
    · intro he
      obtain rfl := Except.ok.inj he
      exact ⟨h, rfl⟩
    · intro ha
      obtain ⟨val, h1, h2⟩ := a
      obtain rfl : val = v := ha.2
      rfl
  · rename_i h
    constructor
    · intro he
      cases he
    · intro ha
      exact absurd ha.1 h

theorem isFixnum_log2 (radix : Radix) : IsFixnum radix.log2 := by
  cases radix <;> decide

theorem intToFlonum_eq_ok {n x} :
    intToFlonum flo n = .ok x ↔ flo.integerToFlonum n false = some x := by
  rw [intToFlonum]
  cases flo.integerToFlonum n false <;> simp

theorem exists_ldexp {x e} : (∃ y, ldexp flo x e = .ok y) ↔ flo.isFinite x := by
  rw [ldexp]
  cases flo.isFinite x <;> simp

theorem scaleByPowerOfTwo_ok_iff {integer rexponent radix base bexponent} :
    (∃ x, scaleByPowerOfTwo flo integer rexponent radix base bexponent = .ok x) ↔
      Scalable flo integer rexponent radix base bexponent := by
  rw [scaleByPowerOfTwo]
  simp only [exists_ok_bind, fxTimes, fxPlus, fixnum_eq_ok, intToFlonum_eq_ok, exists_ldexp]
  constructor
  · rintro ⟨r, ⟨-, hr⟩, b, ⟨-, hb⟩, re, ⟨hre, hre'⟩, rpart, ⟨hrpart, hrpart'⟩, be, ⟨hbe, hbe'⟩,
      bpart, ⟨hbpart, hbpart'⟩, e, ⟨he, -⟩, x, hx, hfin⟩
    rw [hre', hr] at hrpart hrpart'
    rw [hbe', hb] at hbpart hbpart'
    rw [hrpart', hbpart'] at he
    exact ⟨⟨x, hx, hfin⟩, hre, hbe, hrpart, hbpart, he⟩
  · intro h
    obtain ⟨x, hx, hfin⟩ := h.significand
    have hlr := isFixnum_log2 radix
    have hlb := isFixnum_log2 base
    exact ⟨⟨_, hlr.1, hlr.2⟩, ⟨hlr, rfl⟩, ⟨_, hlb.1, hlb.2⟩, ⟨hlb, rfl⟩,
      ⟨_, h.ofRadix.1, h.ofRadix.2⟩, ⟨h.ofRadix, rfl⟩,
      ⟨_, h.radixPart.1, h.radixPart.2⟩, ⟨h.radixPart, rfl⟩,
      ⟨_, h.ofBase.1, h.ofBase.2⟩, ⟨h.ofBase, rfl⟩,
      ⟨_, h.basePart.1, h.basePart.2⟩, ⟨h.basePart, rfl⟩,
      ⟨_, h.exponent.1, h.exponent.2⟩, ⟨h.exponent, rfl⟩, x, hx, hfin⟩

theorem highPrecisionMethod_ok (flo : Flonums F) (integer : Nat) (rexponent : Int)
    (exactness : Option Exactness) (radix : Radix) (sign : Option Sign) (base : Radix)
    (bexponent : Int) : ∃ x,
      highPrecisionMethod flo integer rexponent exactness radix sign base bexponent = .ok x := by
  have hne (radix : Radix) : (Rational.int radix.val).toRat ≠ 0 := by
    cases radix <;> simp [Rational.toRat, Radix.val]
  have hpow (radix : Radix) (e : Int) :
      ratExpt (.int radix.val) e = .ok (canon ((Rational.int radix.val).toRat ^ e)) :=
    ratExpt_ok (canonical_int _) e fun _ => hne radix
  rw [highPrecisionMethod, hpow, hpow]
  simp only [ok_bind, ratTimes_ok (canonical_int _) (canonical_canon _),
    ratTimes_ok (canonical_canon _) (canonical_canon _)]
  exact ⟨_, rfl⟩

theorem finishReal_ok_iff {integer rexponent exactness radix base sign bexponent} :
    (∃ x, finishReal flo integer rexponent exactness radix sign base bexponent = .ok x) ↔
      ¬Unscalable flo integer rexponent exactness radix base bexponent := by
  have hhigh := highPrecisionMethod_ok flo integer rexponent exactness radix sign base bexponent
  rw [finishReal, Unscalable]
  by_cases hten : radix = .ten ∧ base = .ten ∧ asksInexact exactness
  · have hno : ¬powerOfTwo radix.val := by
      rw [hten.1]
      decide
    rw [if_pos hten]
    refine iff_of_true ?_ fun h => hno h.1
    cases hpower : flo.powersOfTen[(rexponent + bexponent).natAbs]? with
    | none => simpa only [hpower] using hhigh
    | some power =>
      cases hinteger : flo.integerToFlonum integer true with
      | none => simpa only [hpower, hinteger] using hhigh
      | some x =>
        simp only [hpower]
        exact ⟨_, rfl⟩
  · rw [if_neg hten]
    by_cases htwo : powerOfTwo radix.val ∧ powerOfTwo base.val ∧ asksInexact exactness
    · rw [if_pos htwo, exists_ok_bind, ← scaleByPowerOfTwo_ok_iff]
      constructor
      · rintro ⟨x, hx, -⟩ ⟨-, -, -, hnot⟩
        exact hnot ⟨x, hx⟩
      · intro h
        obtain ⟨x, hx⟩ := not_not.mp fun hnot => h ⟨htwo.1, htwo.2.1, htwo.2.2, hnot⟩
        exact ⟨x, hx, _, rfl⟩
    · rw [if_neg htwo]
      exact iff_of_true hhigh fun h => htwo ⟨h.1, h.2.1, h.2.2.1⟩

theorem finishReal_error {integer rexponent exactness radix base sign bexponent e}
    (h : finishReal flo integer rexponent exactness radix sign base bexponent = .error e) :
    Unscalable flo integer rexponent exactness radix base bexponent := by
  by_contra hscaled
  obtain ⟨x, hx⟩ := finishReal_ok_iff.mpr hscaled
  rw [hx] at h
  cases h

theorem finishRational_ok_iff (flo : Flonums F) (numerator denominator : Nat)
    (exactness : Option Exactness) (sign : Option Sign) :
    (∃ x, finishRational flo numerator denominator exactness sign = .ok x) ↔ denominator ≠ 0 := by
  rw [finishRational, exists_ok_bind]
  by_cases hzero : denominator = 0
  · refine iff_of_false ?_ (not_not.mpr hzero)
    rintro ⟨q, hq, -⟩
    rw [hzero] at hq
    cases hq
  · have hne : (Rational.int denominator).toRat ≠ 0 := by
      simpa [Rational.toRat] using hzero
    exact iff_of_true ⟨_, ratDivide_ok (canonical_int _) (canonical_int _) hne, _, rfl⟩ hzero

variable {payload : Nat} {quiet : Bool} {ctx : Context F}

theorem finishNan_none (h : ¬((quiet ∨ payload ≠ 0) ∧ ctx.exactness ≠ some .exact)) :
    finishNan flo payload quiet ctx = .ok none := if_neg h

theorem finishNan_some (h : (quiet ∨ payload ≠ 0) ∧ ctx.exactness ≠ some .exact)
    (hlt : payload < nanPayloadLimit) :
    finishNan flo payload quiet ctx =
      .ok (some (flo.nan (ctx.sign = some .minus) quiet payload)) := by
  rw [finishNan, if_pos h, makeNan, if_pos ⟨hlt, h.1⟩]
  rfl

theorem finishNan_error (h : (quiet ∨ payload ≠ 0) ∧ ctx.exactness ≠ some .exact)
    (hle : nanPayloadLimit ≤ payload) : finishNan flo payload quiet ctx = .error .badRange := by
  rw [finishNan, if_pos h, makeNan, if_neg fun hlt => absurd hlt.1 (Nat.not_lt.mpr hle)]
  rfl

theorem makePolar_ok (flo : Flonums F) (magnitude angle : RealNumber F) :
    ∃ z, makePolar flo magnitude angle = .ok z := by
  have htimes (x : RealNumber F) (y : F) : ∃ z, realTimes flo x (.flonum y) = .ok z := by
    cases x with
    | flonum x => exact ⟨_, rfl⟩
    | exact q =>
      rw [realTimes]
      repeat' split
      all_goals exact ⟨_, rfl⟩
  rw [makePolar]
  by_cases hzero : angle.exactZero
  · exact ⟨_, if_pos hzero⟩
  · obtain ⟨re, hre⟩ := htimes magnitude (flo.cos (realToInexact flo angle))
    obtain ⟨im, him⟩ := htimes magnitude (flo.sin (realToInexact flo angle))
    rw [if_neg hzero, realCos, if_neg hzero, realSin, if_neg hzero, hre, ok_bind, him]
    exact ⟨_, rfl⟩

theorem not_unscalable_ten {integer rexponent e radix bexponent} :
    ¬Unscalable flo integer rexponent e radix .ten bexponent := by
  rintro ⟨-, h, -⟩
  exact absurd h (by decide)

end MitScheme.Runtime.NumberParser
