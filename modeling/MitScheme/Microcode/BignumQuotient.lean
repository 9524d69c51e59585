import MitScheme.Microcode.BignumDivide

/-! # The exported divisions

`bignum_divide`, `bignum_quotient` and `bignum_remainder` each choose by
themselves between the one-digit divisions and Algorithm D. A caller that does
not want one of the results passes a null pointer for it. -/

namespace MitScheme.Microcode
open Lib.Checked Lib.Outcome Lib.Radix
open Bignum (length magnitude mk toInt_of_nil)

/-! ## Choosing a division -/

/-- A part of a function that runs only when the result it is for is wanted. -/
def whenWanted {α : Type} (want : Bool) (x : Exec α) : Exec (Option α) :=
  if want then do return some (← x) else return none

/-- The two branches of `bignum_divide_unsigned_large_denominator` on the shift:
the digits of `u` and of `q`. -/
def divideShifted (numerator denominator : Bignum) (wantR : Bool) (shift : Nat) :
    Exec (List Int × List Int) :=
  let lengthN := numerator.length + 1
  let lengthD := denominator.length
  if shift = 0 then
    normalizedLoop denominator.digits (lengthN - lengthD) (numerator.digits ++ [0])
  else do
    bignumAllocate lengthD
    let u ← bignumDestructiveNormalization numerator.digits lengthN shift
    let v ← bignumDestructiveNormalization denominator.digits lengthD shift
    let (u, q) ← normalizedLoop v (lengthN - lengthD) u
    let r ← whenWanted wantR (bignumDestructiveUnnormalization u shift)
    return (r.getD u, q)

/-- `bignum_divide_unsigned_large_denominator`; `wantQ` and `wantR` say which
result pointers are not null. -/
def bignumDivideUnsignedLargeDenominator (numerator denominator : Bignum) (wantQ wantR : Bool)
    (qNegative rNegative : Bool) : Exec (Option Bignum × Option Bignum) := do
  let lengthN := numerator.length + 1
  let lengthD := denominator.length
  let _ ← whenWanted wantQ (bignumAllocate (lengthN - lengthD))
  bignumAllocate lengthN
  check (lengthD > 1)
  let v1 ← index denominator.digits (lengthD - 1)
  let (_, shift) ← normalizationShift 62 v1 0
  let (u, q) ← divideShifted numerator denominator wantR shift
  return (← whenWanted wantQ (.ok (bignumTrim ⟨qNegative, q⟩)),
    ← whenWanted wantR (.ok (bignumTrim ⟨rNegative, u⟩)))

/-- The digits `bignum_divide_unsigned_medium_denominator` divides. -/
def mediumNumerator (numerator : Bignum) (shift : Nat) : Exec (List Int) :=
  if shift = 0 then do
    bignumAllocate numerator.length
    return numerator.digits
  else do
    bignumAllocate (numerator.length + 1)
    bignumDestructiveNormalization numerator.digits (numerator.length + 1) shift

/-- `bignum_divide_unsigned_medium_denominator`. Both of its loops call
`bignum_digit_divide` on the same digits; only one stores the quotient. -/
def bignumDivideUnsignedMediumDenominator (numerator : Bignum) (denominator : Int)
    (wantQ wantR : Bool) (qNegative rNegative : Bool) : Exec (Option Bignum × Option Bignum) := do
  let (denominator, shift) ← normalizationShift 62 denominator 0
  let (q, r) ← mediumLoop denominator (← mediumNumerator numerator shift)
  return (← whenWanted wantQ (.ok (bignumTrim ⟨qNegative, q⟩)),
    ← whenWanted wantR (bignumDigitToBignum (if shift ≠ 0 then r >>> shift else r) rNegative))

def bignumDestructiveScaleDown (digits : List Int) (denominator : Int) :
    Exec (List Int × Int) := do
  check (denominator > 1 ∧ denominator < bignumRadixRoot)
  scaleDownLoop denominator digits

/-- `bignum_divide_unsigned_small_denominator`; every caller wants the
quotient. -/
def bignumDivideUnsignedSmallDenominator (numerator : Bignum) (denominator : Int) (wantR : Bool)
    (qNegative rNegative : Bool) : Exec (Option Bignum × Option Bignum) := do
  let q ← bignumNewSign numerator qNegative
  let (digits, r) ← bignumDestructiveScaleDown q.digits denominator
  return (some (bignumTrim ⟨q.negative, digits⟩),
    ← whenWanted wantR (bignumDigitToBignum r rNegative))

def bignumRemainderUnsignedSmallDenominator (n : Bignum) (d : Int) (negative : Bool) :
    Exec Bignum := do
  check (d > 1 ∧ d < bignumRadixRoot)
  bignumDigitToBignum (← remainderSmallLoop d n.digits) negative

def bothStored : Option Bignum × Option Bignum → Exec (Option (Bignum × Bignum))
  | (some q, some r) => return some (q, r)
  | _ => .error .assertion

/-- `bignum_divide`: `none` when the denominator is zero, else the quotient and
the remainder it stores. -/
def bignumDivide (numerator denominator : Bignum) : Exec (Option (Bignum × Bignum)) :=
  if denominator.zeroP then return none
  else if numerator.zeroP then return some (numerator, numerator)
  else
    let rNegative := numerator.negative
    let qNegative := if denominator.negative then !rNegative else rNegative
    match bignumCompareUnsigned numerator denominator with
    | .equal => return some (bignumMakeOne qNegative, bignumMakeZero)
    | .less => return some (bignumMakeZero, numerator)
    | .greater =>
      if denominator.length = 1 then do
        let digit ← index denominator.digits 0
        if digit = 1 then
          return some (← bignumMaybeNewSign numerator qNegative, bignumMakeZero)
        else if digit < bignumRadixRoot then
          bignumDivideUnsignedSmallDenominator numerator digit true qNegative rNegative
            >>= bothStored
        else
          bignumDivideUnsignedMediumDenominator numerator digit true true qNegative rNegative
            >>= bothStored
      else
        bignumDivideUnsignedLargeDenominator numerator denominator true true qNegative rNegative
          >>= bothStored

/-- `bignum_quotient`: `none` is `BIGNUM_OUT_OF_BAND`. -/
def bignumQuotient (numerator denominator : Bignum) : Exec (Option Bignum) :=
  if denominator.zeroP then return none
  else if numerator.zeroP then return some numerator
  else
    let qNegative := if denominator.negative then !numerator.negative else numerator.negative
    match bignumCompareUnsigned numerator denominator with
    | .equal => return some (bignumMakeOne qNegative)
    | .less => return some bignumMakeZero
    | .greater =>
      if denominator.length = 1 then do
        let digit ← index denominator.digits 0
        if digit = 1 then return some (← bignumMaybeNewSign numerator qNegative)
        else if digit < bignumRadixRoot then
          return (← bignumDivideUnsignedSmallDenominator numerator digit false qNegative false).1
        else
          return (← bignumDivideUnsignedMediumDenominator numerator digit true false qNegative
            false).1
      else
        return (← bignumDivideUnsignedLargeDenominator numerator denominator true false qNegative
          false).1

def bignumRemainderMask (numerator : Bignum) (mask : Int) : Exec Bignum :=
  if numerator.length = 0 then return bignumMakeZero
  else do
    let unsignedRemainder := Int.land mask (← index numerator.digits 0)
    if unsignedRemainder = 0 then return bignumMakeZero
    else bignumDigitToBignum unsignedRemainder numerator.negative

def bignumRemainder (numerator denominator : Bignum) : Exec (Option Bignum) :=
  if denominator.zeroP then return none
  else if numerator.zeroP then return some numerator
  else
    match bignumCompareUnsigned numerator denominator with
    | .equal => return some bignumMakeZero
    | .less => return some numerator
    | .greater =>
      if denominator.length = 1 then do
        let digit ← index denominator.digits 0
        let mask ← long (digit - 1)
        if Int.land digit mask = 0 then return some (← bignumRemainderMask numerator mask)
        else if digit < bignumRadixRoot then
          return some (← bignumRemainderUnsignedSmallDenominator numerator digit numerator.negative)
        else
          return (← bignumDivideUnsignedMediumDenominator numerator digit false true false
            numerator.negative).2
      else
        return (← bignumDivideUnsignedLargeDenominator numerator denominator false true false
          numerator.negative).2

/-! ## Magnitudes -/

/-- The quotient and remainder of magnitudes, where they are wanted. -/
structure Stores (wantQ wantR qNegative rNegative : Bool) (n d : Int)
    (o : Option Bignum × Option Bignum) : Prop where
  quotient : wantQ = true →
    ∃ q, o.1 = some q ∧ q.WellFormed ∧ q.toInt = signedValue qNegative (n / d)
  remainder : wantR = true →
    ∃ r, o.2 = some r ∧ r.WellFormed ∧ r.toInt = signedValue rNegative (n % d)

theorem div_mod_of_eq {n d q r : Int} (h : n = q * d + r) (hr : 0 ≤ r ∧ r < d) :
    n / d = q ∧ n % d = r :=
  (Int.ediv_emod_unique (by omega)).mpr ⟨by rw [h]; ring, hr.1, hr.2⟩

theorem normalizationShift_digit {v} (hv : 0 < v ∧ v < bignumRadix) :
    ∃ s, normalizationShift 62 v 0 = .ok (v * 2 ^ s, s) ∧ s ≤ 61 ∧
      2305843009213693952 ≤ v * 2 ^ s ∧ v * 2 ^ s < bignumRadix := by
  obtain ⟨s, he, hs, h1, h2⟩ := normalizationShift_spec 61 v 0 hv.1 hv.2 (by omega)
  exact ⟨s, by simpa using he, hs, h1, h2⟩

theorem bignumDestructiveNormalization_grow {s} (hs : s ≤ 62) {ds} (hd : Digits bignumRadix ds) :
    ∃ r, bignumDestructiveNormalization ds (ds.length + 1) s = .ok r ∧ Digits bignumRadix r ∧
      r.length = ds.length + 1 ∧ value bignumRadix r = value bignumRadix ds * 2 ^ s := by
  obtain ⟨r, c, he, hr, hl, hc, hv⟩ := normalizationLoop_spec hs ds 0 hd ⟨le_refl 0, by positivity⟩
  have hle : (2 : Int) ^ s ≤ bignumRadix := by
    have h := pow_le_pow_right₀ (show (1 : Int) ≤ 2 by norm_num) hs
    exact h
  refine ⟨r ++ [c], ?_, ?_, by simp [hl], ?_⟩
  · simp only [bignumDestructiveNormalization, he, ok_bind]
    rw [if_pos (by omega)]
    rfl
  · exact digits_append.mpr ⟨hr, by simpa using ⟨hc.1, by omega⟩⟩
  · rw [value_append, hl]
    simp only [value_cons, value_nil]
    linarith

theorem bignumDestructiveNormalization_same {s} (hs : s ≤ 62) {ds} (hd : Digits bignumRadix ds)
    (hlt : value bignumRadix ds * 2 ^ s < bignumRadix ^ ds.length) :
    ∃ r, bignumDestructiveNormalization ds ds.length s = .ok r ∧ Digits bignumRadix r ∧
      r.length = ds.length ∧ value bignumRadix r = value bignumRadix ds * 2 ^ s := by
  obtain ⟨r, c, he, hr, hl, hc, hv⟩ := normalizationLoop_spec hs ds 0 hd ⟨le_refl 0, by positivity⟩
  have hr0 := value_nonneg bignumRadix_pos hr
  have hc0 : c = 0 := by
    by_contra hne
    have := mul_le_mul_of_nonneg_left (show 1 ≤ c by omega)
      (pow_pos bignumRadix_pos ds.length).le
    omega
  refine ⟨r, ?_, hr, hl, by rw [hc0] at hv; linarith⟩
  simp only [bignumDestructiveNormalization, he, ok_bind]
  rw [if_neg (by omega), check_ok hc0, ok_bind]
  rfl

theorem bignumDestructiveUnnormalization_mul {s : Nat} (hs : s ≤ 62) {ds : List Int} {r}
    (hd : Digits bignumRadix ds) (hv : value bignumRadix ds = r * 2 ^ s) :
    ∃ r', bignumDestructiveUnnormalization ds s = .ok r' ∧ Digits bignumRadix r' ∧
      r'.length = ds.length ∧ value bignumRadix r' = r := by
  obtain ⟨r', m, he, hr, hl, hm, hv'⟩ := unnormalizationLoop_spec hs hd
  have hP : (0 : Int) < 2 ^ s := by positivity
  obtain ⟨h1, h2⟩ := div_mod_of_eq hv' hm
  rw [hv, Int.mul_ediv_cancel _ hP.ne'] at h1
  rw [hv, Int.mul_emod_left] at h2
  refine ⟨r', ?_, hr, hl, h1.symm⟩
  simp only [bignumDestructiveUnnormalization, he, ok_bind]
  rw [check_ok (by rw [← h2, zero_mul]), ok_bind]
  rfl

theorem exists_normalized {vs} (hd : Digits bignumRadix vs) (hl : 2 ≤ vs.length)
    (hv : bignumRadix ^ (vs.length - 1) * 2305843009213693952 ≤ value bignumRadix vs) :
    ∃ low v2 v1, Normalized vs low v2 v1 := by
  obtain ⟨low, v2, v1, rfl⟩ : ∃ low v2 v1, vs = low ++ [v2, v1] := by
    obtain rfl | ⟨w, v1, rfl⟩ := List.eq_nil_or_concat' vs
    · simp at hl
    obtain rfl | ⟨low, v2, rfl⟩ := List.eq_nil_or_concat' w
    · simp at hl
    exact ⟨low, v2, v1, by simp⟩
  refine ⟨low, v2, v1, rfl, hd, ?_⟩
  by_contra hc
  have e : low ++ [v2, v1] = (low ++ [v2]) ++ [v1] := by simp
  rw [e] at hd hv
  obtain ⟨hi, -⟩ := digits_append.mp hd
  have h1 := value_lt_pow bignumRadix_pos hi
  have h2 : bignumRadix ^ (low ++ [v2]).length * (v1 + 1) ≤
      bignumRadix ^ (low ++ [v2]).length * 2305843009213693952 :=
    mul_le_mul_of_nonneg_left (by omega) (pow_pos bignumRadix_pos _).le
  rw [value_append] at hv
  simp only [List.length_append, List.length_cons, List.length_nil, value_cons, value_nil,
    mul_zero, add_zero, Nat.add_sub_cancel, zero_add] at h1 h2 hv
  rw [mul_add, mul_one] at h2
  omega

theorem normalizedLoop_divides {vs us : List Int} {s n d} (lengthN : Nat)
    (hvd : Digits bignumRadix vs) (hvl : 2 ≤ vs.length) (hv : value bignumRadix vs = d * 2 ^ s)
    (hlead : bignumRadix ^ (vs.length - 1) * 2305843009213693952 ≤ d * 2 ^ s)
    (hd : bignumRadix ^ (vs.length - 1) ≤ d) (hud : Digits bignumRadix us)
    (hul : us.length = lengthN + 1) (hle : vs.length ≤ lengthN)
    (hu : value bignumRadix us = n * 2 ^ s) (hn : n < bignumRadix ^ lengthN) :
    ∃ us' q, normalizedLoop vs (lengthN + 1 - vs.length) us = .ok (us', q) ∧
      Digits bignumRadix us' ∧ us'.length = lengthN + 1 ∧ Digits bignumRadix q ∧
      q.length = lengthN + 1 - vs.length ∧ value bignumRadix us' = n % d * 2 ^ s ∧
      value bignumRadix q = n / d := by
  obtain ⟨low, v2, v1, hnorm⟩ := exists_normalized hvd hvl (by rw [hv]; exact hlead)
  have hP : (0 : Int) < 2 ^ s := by positivity
  set k := lengthN + 1 - vs.length with hk
  -- the leading digits of `u` are below the divisor
  have hstart : value bignumRadix (us.drop k) < value bignumRadix vs := by
    have hsplit : value bignumRadix us = value bignumRadix (us.take k) +
        bignumRadix ^ k * value bignumRadix (us.drop k) := by
      conv => lhs; rw [← List.take_append_drop k us]
      rw [value_append, List.length_take, Nat.min_eq_left (by omega)]
    have h0 := value_nonneg bignumRadix_pos (hud.take k)
    have h1 : bignumRadix ^ k * value bignumRadix (us.drop k) < bignumRadix ^ k * (d * 2 ^ s) :=
      calc bignumRadix ^ k * value bignumRadix (us.drop k)
          ≤ n * 2 ^ s := by rw [← hu]; omega
        _ < bignumRadix ^ lengthN * 2 ^ s := mul_lt_mul_of_pos_right hn hP
        _ = bignumRadix ^ k * (bignumRadix ^ (vs.length - 1) * 2 ^ s) := by
          rw [← mul_assoc, ← pow_add, show k + (vs.length - 1) = lengthN by omega]
        _ ≤ bignumRadix ^ k * (d * 2 ^ s) :=
          mul_le_mul_of_nonneg_left (mul_le_mul_of_nonneg_right hd hP.le)
            (pow_pos bignumRadix_pos k).le
    rw [hv]
    exact lt_of_mul_lt_mul_left h1 (pow_pos bignumRadix_pos k).le
  obtain ⟨us', q, he, hud', hul', hqd, hql, hlt, heq⟩ :=
    normalizedLoop_spec hnorm k us hud (by omega) hstart
  have hu0 := value_nonneg bignumRadix_pos hud'
  rw [hu, hv] at heq
  have hr : value bignumRadix us' = (n - value bignumRadix q * d) * 2 ^ s := by linarith
  rw [hr] at hlt hu0
  rw [hv] at hlt
  have hlt' := lt_of_mul_lt_mul_right hlt hP.le
  have hr0 := nonneg_of_mul_nonneg_left hu0 hP
  obtain ⟨h1, h2⟩ := div_mod_of_eq (n := n) (d := d) (q := value bignumRadix q)
    (r := n - value bignumRadix q * d) (by ring) ⟨hr0, hlt'⟩
  exact ⟨us', q, he, hud', by omega, hqd, hql, by rw [hr, h2], h1.symm⟩

theorem Bignum.WellFormed.exists_lead {b : Bignum} (h : b.WellFormed) (hz : b.digits ≠ []) :
    ∃ init lead, b.digits = init ++ [lead] ∧ 0 < lead ∧ lead < bignumRadix := by
  obtain he | ⟨init, lead, he⟩ := List.eq_nil_or_concat' b.digits
  · exact absurd he hz
  have hd := h.digits lead (by simp [he])
  have hl := h.lead
  simp only [he, List.getLast?_append, List.getLast?_singleton, Option.some_or, ne_eq,
    Option.some.injEq] at hl
  exact ⟨init, lead, he, by omega, hd.2⟩

theorem whenWanted_gives {α : Type} {E : Fault → Prop} {want x} {P : α → Prop}
    (h : want = true → Gives E x P) :
    Gives E (whenWanted want x)
      (fun o => (want = true → ∃ a, o = some a ∧ P a) ∧ (want = false → o = none)) := by
  cases want with
  | false => exact Gives.pure ⟨nofun, fun _ => rfl⟩
  | true => exact (h rfl).bind fun a ha => Gives.pure ⟨fun _ => ⟨a, rfl, ha⟩, nofun⟩

theorem wanted_stores {E : Fault → Prop} {wantQ wantR qNegative rNegative n d q r}
    (hq : wantQ = true →
      Gives E q (fun z => z.WellFormed ∧ z.toInt = signedValue qNegative (n / d)))
    (hr : wantR = true →
      Gives E r (fun z => z.WellFormed ∧ z.toInt = signedValue rNegative (n % d))) :
    Gives E (do return (← whenWanted wantQ q, ← whenWanted wantR r))
      (Stores wantQ wantR qNegative rNegative n d) :=
  (whenWanted_gives hq).bind fun _ hq' =>
    (whenWanted_gives hr).bind fun _ hr' => Gives.pure ⟨hq'.1, hr'.1⟩

/-- What the division leaves in `u` and `q`: the remainder only when it is
wanted. -/
structure ShiftedResult (n d : Bignum) (wantR : Bool) (o : List Int × List Int) : Prop where
  remainderDigits : Digits bignumRadix o.1
  remainderLength : o.1 ≠ []
  remainder : wantR = true → value bignumRadix o.1 = n.magnitude % d.magnitude
  quotientDigits : Digits bignumRadix o.2
  quotientLength : o.2 ≠ []
  quotient : value bignumRadix o.2 = n.magnitude / d.magnitude

theorem divideShifted_gives {n d init lead s} (hn : n.WellFormed) (hd : d.WellFormed)
    (hl : 2 ≤ d.length) (hle : d.length ≤ n.length) (hdd : d.digits = init ++ [lead])
    (hs : s ≤ 61) (hs1 : 2305843009213693952 ≤ lead * 2 ^ s) (hs2 : lead * 2 ^ s < bignumRadix)
    (wantR : Bool) :
    Gives (TooLong (n.length + 1)) (divideShifted n d wantR s) (ShiftedResult n d wantR) := by
  have hP : (0 : Int) < 2 ^ s := by positivity
  have hlen : d.length = init.length + 1 := by simp [length, hdd]
  have hdv : d.magnitude = value bignumRadix init + bignumRadix ^ init.length * lead := by
    rw [magnitude, hdd, value_append]; simp
  have hi : Digits bignumRadix init := (digits_append.mp (hdd ▸ hd.digits)).1
  have hi0 := value_nonneg bignumRadix_pos hi
  have hilt := value_lt_pow bignumRadix_pos hi
  have hW := pow_pos bignumRadix_pos init.length
  have hhalf : bignumRadix ^ (d.length - 1) * 2305843009213693952 ≤ d.magnitude * 2 ^ s :=
    calc bignumRadix ^ (d.length - 1) * 2305843009213693952
        ≤ bignumRadix ^ init.length * (lead * 2 ^ s) := by
          rw [hlen]; exact mul_le_mul_of_nonneg_left hs1 hW.le
      _ = bignumRadix ^ init.length * lead * 2 ^ s := by ring
      _ ≤ d.magnitude * 2 ^ s := mul_le_mul_of_nonneg_right (by omega) hP.le
  have hpow := hd.pow_le (by rw [hdd]; simp)
  have hnlt := value_lt_pow bignumRadix_pos hn.digits
  have hsteps : ∀ q : List Int, q.length = n.length + 1 - d.length → q ≠ [] := by
    rintro q hq rfl
    simp at hq
    omega
  unfold divideShifted
  split
  · rename_i h0
    subst h0
    apply Gives.of_ok
    have hud : Digits bignumRadix (n.digits ++ [0]) :=
      digits_append.mpr ⟨hn.digits, by simpa using bignumRadix_pos⟩
    obtain ⟨us', q, he, hud, hul, hqd, hql, hur, hq⟩ := normalizedLoop_divides (s := 0) n.length
      hd.digits hl (by simp [magnitude]) hhalf hpow hud (by simp [length]) hle
      (show _ = n.magnitude * 2 ^ 0 by simp [value_append, magnitude]) hnlt
    exact ⟨_, he, hud, by rintro rfl; simp at hul, fun _ => by simpa using hur, hqd,
      hsteps q hql, hq⟩
  · refine (bignumAllocate_gives (show d.length ≤ n.length + 1 by omega)).bind fun _ _ => ?_
    obtain ⟨u, hu, hud, hul, huv⟩ :=
      bignumDestructiveNormalization_grow (show s ≤ 62 by omega) hn.digits
    -- the leading digit has room for the shift, so the whole divisor has
    have hfit : d.magnitude * 2 ^ s < bignumRadix ^ d.length := by
      have hlead : lead + 1 ≤ 2 ^ (62 - s) := by
        have h1 := two_pow_split (show s ≤ 62 by omega)
        rw [← h1] at hs2
        exact lt_of_mul_lt_mul_right hs2 hP.le
      calc d.magnitude * 2 ^ s
          < bignumRadix ^ init.length * (lead + 1) * 2 ^ s := by
            refine mul_lt_mul_of_pos_right ?_ hP
            rw [mul_add, mul_one]; omega
        _ ≤ bignumRadix ^ init.length * 2 ^ (62 - s) * 2 ^ s :=
            mul_le_mul_of_nonneg_right (mul_le_mul_of_nonneg_left hlead hW.le) hP.le
        _ = bignumRadix ^ d.length := by
            rw [mul_assoc, two_pow_split (show s ≤ 62 by omega), hlen, pow_succ]
    obtain ⟨v, hv, hvd, hvl, hvv⟩ :=
      bignumDestructiveNormalization_same (show s ≤ 62 by omega) hd.digits hfit
    obtain ⟨us', q, he, hud', hul', hqd, hql, hur, hq⟩ := normalizedLoop_divides
      (n := n.magnitude) (d := d.magnitude) n.length hvd (by rw [hvl]; exact hl) hvv
      (by rw [hvl]; exact hhalf) (by rw [hvl]; exact hpow) hud hul (by rw [hvl]; exact hle) huv hnlt
    rw [hvl] at he hql
    obtain ⟨r, hr, hrd, hrl, hrv⟩ :=
      bignumDestructiveUnnormalization_mul (show s ≤ 62 by omega) hud' hur
    simp only [length] at *
    simp only [hu, hv, he, ok_bind]
    cases wantR with
    | false =>
      exact ⟨hud', by rintro rfl; simp at hul', fun h => absurd h Bool.false_ne_true,
        hqd, hsteps q hql, hq⟩
    | true =>
      simp only [whenWanted, if_true, hr, ok_bind]
      exact ⟨hrd, by rintro rfl; rw [← hrl] at hul'; simp at hul', fun _ => hrv, hqd,
        hsteps q hql, hq⟩

variable {n d : Bignum}

section
variable (hn : n.WellFormed)
include hn

theorem bignumDivideUnsignedLargeDenominator_gives (hd : d.WellFormed) (hl : 2 ≤ d.length)
    (hle : d.length ≤ n.length) (wantQ wantR qNegative rNegative : Bool) :
    Gives (TooLong (n.length + 1))
      (bignumDivideUnsignedLargeDenominator n d wantQ wantR qNegative rNegative)
      (Stores wantQ wantR qNegative rNegative n.magnitude d.magnitude) := by
  unfold bignumDivideUnsignedLargeDenominator
  refine (whenWanted_gives fun _ => bignumAllocate_gives (Nat.sub_le _ _)).bind fun _ _ =>
    (bignumAllocate_gives le_rfl).bind fun _ _ => ?_
  have hz : d.digits ≠ [] := by
    intro h0
    simp [length, h0] at hl
  obtain ⟨init, lead, hdd, hlead⟩ := hd.exists_lead hz
  have hidx : index d.digits (d.length - 1) = .ok lead := by
    have := index_append_cons init [] lead
    simpa [length, hdd] using this
  obtain ⟨s, hs, hs61, hs1, hs2⟩ := normalizationShift_digit hlead
  rw [check_ok (show d.length > 1 by omega), ok_bind, hidx, ok_bind, hs, ok_bind]
  refine (divideShifted_gives hn hd hl hle hdd hs61 hs1 hs2 wantR).bind fun o ho => ?_
  obtain ⟨u, q⟩ := o
  refine wanted_stores (fun _ => Gives.pure ?_) fun hw => Gives.pure ?_
  · rw [← ho.quotient]
    exact bignumTrim_spec ho.quotientDigits ho.quotientLength
  · rw [← ho.remainder hw]
    exact bignumTrim_spec ho.remainderDigits ho.remainderLength

theorem mediumNumerator_gives {s} (hs : s ≤ 61) :
    Gives (TooLong (n.length + 1)) (mediumNumerator n s) (fun ds => Digits bignumRadix ds ∧
      n.length ≤ ds.length ∧ value bignumRadix ds = n.magnitude * 2 ^ s) := by
  unfold mediumNumerator
  split
  · rename_i h0
    subst h0
    refine (bignumAllocate_gives (Nat.le_succ _)).bind fun _ _ =>
      Gives.pure ⟨hn.digits, le_rfl, by simp [magnitude]⟩
  · obtain ⟨u, hu, hud, hul, huv⟩ :=
      bignumDestructiveNormalization_grow (show s ≤ 62 by omega) hn.digits
    refine (bignumAllocate_gives le_rfl).bind fun _ _ =>
      Gives.of_ok ⟨u, hu, hud, by rw [hul]; exact Nat.le_succ _, huv⟩

theorem bignumDivideUnsignedMediumDenominator_gives {digit} (hl : 1 ≤ n.length)
    (hd : 0 < digit ∧ digit < bignumRadix) (wantQ wantR qNegative rNegative : Bool) :
    Gives (TooLong (n.length + 1))
      (bignumDivideUnsignedMediumDenominator n digit wantQ wantR qNegative rNegative)
      (Stores wantQ wantR qNegative rNegative n.magnitude digit) := by
  obtain ⟨s, hs, hs61, hs1, hs2⟩ := normalizationShift_digit hd
  have hP : (0 : Int) < 2 ^ s := by positivity
  unfold bignumDivideUnsignedMediumDenominator
  rw [hs, ok_bind]
  refine (mediumNumerator_gives hn hs61).bind fun ds ⟨hdd, hdl, hdv⟩ => ?_
  obtain ⟨q, r, he, hqd, hql, hr, hv⟩ := mediumLoop_spec ⟨hs1, hs2⟩ hdd
  rw [he, ok_bind]
  -- the remainder of the shifted division is the shifted remainder
  rw [hdv] at hv
  have hr' : r = (n.magnitude - value bignumRadix q * digit) * 2 ^ s := by linarith
  have hlt : (n.magnitude - value bignumRadix q * digit) * 2 ^ s < digit * 2 ^ s := hr' ▸ hr.2
  have hnn : 0 ≤ (n.magnitude - value bignumRadix q * digit) * 2 ^ s := hr' ▸ hr.1
  obtain ⟨h1, h2⟩ := div_mod_of_eq (n := n.magnitude) (d := digit) (q := value bignumRadix q)
    (r := n.magnitude - value bignumRadix q * digit) (by ring)
    ⟨nonneg_of_mul_nonneg_left hnn hP, lt_of_mul_lt_mul_right hlt hP.le⟩
  have hshift : (if s ≠ 0 then r >>> s else r) = n.magnitude % digit := by
    split
    · rw [shiftRight_eq, hr', Int.mul_ediv_cancel _ hP.ne', h2]
    · rename_i h0
      rw [not_not] at h0
      rw [hr', h2, h0, pow_zero, mul_one]
  dsimp only
  rw [hshift]
  refine wanted_stores (fun _ => Gives.pure ?_) fun _ =>
    bignumDigitToBignum_gives rNegative (Int.emod_nonneg _ hd.1.ne')
      ((Int.emod_lt_of_pos _ hd.1).trans hd.2) (by omega)
  rw [h1]
  refine bignumTrim_spec hqd ?_
  rintro rfl
  simp at hql
  omega

theorem bignumDivideUnsignedSmallDenominator_gives {digit} (hl : 1 ≤ n.length)
    (hd : 1 < digit ∧ digit < bignumRadixRoot) (wantR qNegative rNegative : Bool) :
    Gives (TooLong (n.length + 1))
      (bignumDivideUnsignedSmallDenominator n digit wantR qNegative rNegative)
      (Stores true wantR qNegative rNegative n.magnitude digit) := by
  unfold bignumDivideUnsignedSmallDenominator
  refine (bignumNewSign_gives qNegative (Nat.le_succ _)).bind fun q hq => ?_
  subst hq
  obtain ⟨ds, r, he, hqd, hql, hr, hv⟩ := scaleDownLoop_spec hd hn.digits
  obtain ⟨h1, h2⟩ := div_mod_of_eq hv hr
  have hrr : bignumRadixRoot < bignumRadix := by decide
  rw [bignumDestructiveScaleDown, check_ok hd, ok_bind, he, ok_bind]
  change Gives _ (do return (← whenWanted true (.ok (bignumTrim ⟨qNegative, ds⟩)),
    ← whenWanted wantR (bignumDigitToBignum r rNegative))) _
  refine wanted_stores (fun _ => Gives.pure ?_) fun _ => ?_
  · rw [magnitude, h1]
    refine bignumTrim_spec hqd ?_
    rintro rfl
    simp [length] at hql hl
    omega
  · rw [magnitude, h2]
    exact bignumDigitToBignum_gives rNegative hr.1 (by omega) (by omega)

theorem bignumRemainderUnsignedSmallDenominator_gives {digit} (hl : 1 ≤ n.length)
    (hd : 1 < digit ∧ digit < bignumRadixRoot) (rNegative : Bool) :
    Gives (TooLong (n.length + 1)) (bignumRemainderUnsignedSmallDenominator n digit rNegative)
      (fun r => r.WellFormed ∧ r.toInt = signedValue rNegative (n.magnitude % digit)) := by
  have hrr : bignumRadixRoot < bignumRadix := by decide
  have h0 := Int.emod_nonneg n.magnitude (show digit ≠ 0 by omega)
  have h1 := Int.emod_lt_of_pos n.magnitude (show 0 < digit by omega)
  rw [bignumRemainderUnsignedSmallDenominator, check_ok hd, ok_bind,
    remainderSmallLoop_spec hd hn.digits, ok_bind]
  exact bignumDigitToBignum_gives rNegative h0 (by rw [magnitude] at *; omega) (by omega)

theorem bignumRemainderMask_gives {digit} (hl : 1 ≤ n.length)
    (hd : 0 < digit ∧ digit < bignumRadix) (hp : Int.land digit (digit - 1) = 0) :
    Gives (TooLong (n.length + 1)) (bignumRemainderMask n (digit - 1))
      (fun r => r.WellFormed ∧ r.toInt = signedValue n.negative (n.magnitude % digit)) := by
  obtain ⟨k, rfl⟩ : ∃ k, digit = 2 ^ k := by
    obtain ⟨m, rfl⟩ := Int.eq_ofNat_of_zero_le hd.1.le
    have hm : m ≠ 0 := by rintro rfl; simp at hd
    have h1 : (m : Int) - 1 = ((m - 1 : Nat) : Int) := by omega
    rw [h1] at hp
    have h2 : m &&& (m - 1) = 0 := by
      have : Int.land (m : Int) ((m - 1 : Nat) : Int) = ((m &&& (m - 1) : Nat) : Int) := rfl
      rw [this] at hp
      exact_mod_cast hp
    obtain ⟨k, hk⟩ := (Nat.and_sub_one_eq_zero_iff_isPowerOfTwo hm).mp h2
    exact ⟨k, by rw [hk]; push_cast; rfl⟩
  have hk : k ≤ 62 := by
    have h62 : bignumRadix = 2 ^ 62 := rfl
    rw [h62] at hd
    exact ((pow_lt_pow_iff_right₀ (show (1 : Int) < 2 by norm_num)).mp hd.2).le
  obtain ⟨d0, ds, he⟩ : ∃ d0 ds, n.digits = d0 :: ds := by
    cases h : n.digits with
    | nil => simp [length, h] at hl
    | cons d0 ds => exact ⟨d0, ds, rfl⟩
  have hd0 := (hn.digits d0 (by simp [he])).1
  -- every higher place is a multiple of the denominator
  have hmod : n.magnitude % 2 ^ k = d0 % 2 ^ k := by
    rw [magnitude, he, value_cons, ← two_pow_split hk, mul_comm (2 ^ (62 - k)), mul_assoc,
      Int.add_mul_emod_self_left]
  have hmask : Int.land (2 ^ k - 1) d0 = d0 % 2 ^ k := by
    rw [land_comm_of_nonneg (by omega) hd0, land_mask k hd0]
  have h0 := Int.emod_nonneg d0 hd.1.ne'
  have h1 := Int.emod_lt_of_pos d0 hd.1
  have hi : index n.digits 0 = .ok d0 := by rw [he]; rfl
  unfold bignumRemainderMask
  rw [if_neg (by omega), hi, ok_bind, hmask, hmod]
  dsimp only
  split
  · rename_i hz
    rw [hz]
    exact Gives.pure ⟨wellFormed_zero, by cases n.negative <;> rfl⟩
  · exact bignumDigitToBignum_gives n.negative h0 (by omega) (by omega)

end

/-! ## Signs -/

theorem signedValue_tdiv (a b : Bool) {n d} (hn : 0 ≤ n) :
    signedValue (if b then !a else a) (n / d) = (signedValue a n).tdiv (signedValue b d) := by
  rw [← Int.tdiv_eq_ediv_of_nonneg hn]
  cases a <;> cases b <;> simp [signedValue]

theorem signedValue_tmod (a b : Bool) {n d} (hn : 0 ≤ n) :
    signedValue a (n % d) = (signedValue a n).tmod (signedValue b d) := by
  rw [← Int.tmod_eq_emod_of_nonneg hn]
  cases a <;> cases b <;> simp [signedValue]

/-- What a comparison with a greater numerator says about the lengths. -/
structure Greater (n d : Bignum) : Prop where
  length : d.length ≤ n.length
  one : 1 ≤ d.length

theorem greater_of_compare (hn : n.WellFormed) (hd : d.WellFormed) (hz : d.digits ≠ [])
    (h : bignumCompareUnsigned n d = .greater) : Greater n d := by
  have hlt := bignumCompareUnsigned_spec hn hd
  rw [h] at hlt
  refine ⟨?_, List.length_pos_of_ne_nil hz⟩
  by_contra hc
  have := hn.length_le hd (by omega)
  simp only [BignumComparison.Holds] at hlt
  omega

theorem Bignum.WellFormed.of_length_one (hd : d.WellFormed) (h : d.length = 1) :
    ∃ digit, index d.digits 0 = .ok digit ∧ d.magnitude = digit ∧
      0 < digit ∧ digit < bignumRadix := by
  obtain ⟨digit, he⟩ := List.length_eq_one_iff.mp h
  have hdig := hd.digits digit (by simp [he])
  have hlead := hd.lead
  simp only [he, List.getLast?_singleton, ne_eq, Option.some.injEq] at hlead
  exact ⟨digit, by rw [he]; rfl, by simp [magnitude, he], by omega, hdig.2⟩

section Exported
variable {n d : Bignum}

theorem bothStored_gives {E : Fault → Prop} {x a b N D} (h : Gives E x (Stores true true a b N D)) :
    Gives E (x >>= bothStored) (fun o => ∃ q r, o = some (q, r) ∧
      (q.WellFormed ∧ q.toInt = signedValue a (N / D)) ∧
      (r.WellFormed ∧ r.toInt = signedValue b (N % D))) := by
  refine h.bind fun (oq, or) ho => ?_
  obtain ⟨q, hq, hq'⟩ := ho.quotient rfl
  obtain ⟨r, hr, hr'⟩ := ho.remainder rfl
  simp only at hq hr
  subst hq hr
  exact Gives.pure ⟨q, r, rfl, hq', hr'⟩

def IsQuotient (n d q : Bignum) : Prop := q.WellFormed ∧ q.toInt = n.toInt.tdiv d.toInt

def IsRemainder (n d r : Bignum) : Prop := r.WellFormed ∧ r.toInt = n.toInt.tmod d.toInt

section
variable (hn : n.WellFormed)
include hn

theorem isQuotient_iff {q} : IsQuotient n d q ↔ q.WellFormed ∧
    q.toInt = signedValue (if d.negative then !n.negative else n.negative)
      (n.magnitude / d.magnitude) := by
  rw [IsQuotient, n.toInt_eq, d.toInt_eq, signedValue_tdiv _ _ hn.magnitude_nonneg]

theorem isRemainder_iff {r} : IsRemainder n d r ↔ r.WellFormed ∧
    r.toInt = signedValue n.negative (n.magnitude % d.magnitude) := by
  rw [IsRemainder, n.toInt_eq, d.toInt_eq, signedValue_tmod _ d.negative hn.magnitude_nonneg]

theorem zero_numerator (hz : n.digits = []) : IsQuotient n d n ∧ IsRemainder n d n := by
  unfold IsQuotient IsRemainder
  rw [toInt_of_nil hz]
  simpa using hn

theorem equal_magnitudes (hz : n.digits ≠ []) (h : n.magnitude = d.magnitude) :
    IsQuotient n d (bignumMakeOne (if d.negative then !n.negative else n.negative)) ∧
      IsRemainder n d bignumMakeZero := by
  have hpos : 0 < n.magnitude := by
    have h1 := hn.pow_le hz
    have h2 := pow_pos bignumRadix_pos (n.length - 1)
    omega
  rw [isQuotient_iff hn, isRemainder_iff hn, ← h, Int.ediv_self hpos.ne', Int.emod_self]
  refine ⟨⟨wellFormed_one _, ?_⟩, wellFormed_zero, ?_⟩
  · simp [bignumMakeOne, Bignum.toInt_mk, signedValue]
  · cases n.negative <;> rfl

theorem less_magnitude (h : n.magnitude < d.magnitude) :
    IsQuotient n d bignumMakeZero ∧ IsRemainder n d n := by
  have h0 := hn.magnitude_nonneg
  rw [isQuotient_iff hn, isRemainder_iff hn, Int.ediv_eq_zero_of_lt h0 h, Int.emod_eq_of_lt h0 h]
  refine ⟨⟨wellFormed_zero, ?_⟩, hn, n.toInt_eq⟩
  cases n.negative <;> cases d.negative <;> rfl

theorem one_denominator (hz : n.digits ≠ []) (h : d.magnitude = 1) :
    IsQuotient n d ⟨if d.negative then !n.negative else n.negative, n.digits⟩ ∧
      IsRemainder n d bignumMakeZero := by
  rw [isQuotient_iff hn, isRemainder_iff hn, h, Int.ediv_one, Int.emod_one]
  exact ⟨⟨hn.withSign hz _, rfl⟩, wellFormed_zero, by cases n.negative <;> rfl⟩

theorem bignumDivide_gives (hd : d.WellFormed) (hz : d.digits ≠ []) :
    Gives (TooLong (n.length + 1)) (bignumDivide n d)
      (fun o => ∃ q r, o = some (q, r) ∧ IsQuotient n d q ∧ IsRemainder n d r) := by
  unfold bignumDivide
  rw [if_neg (by simpa using hz)]
  by_cases hzn : n.digits = []
  · rw [if_pos (Bignum.zeroP_iff.mpr hzn)]
    exact Gives.pure ⟨n, n, rfl, zero_numerator hn hzn⟩
  rw [if_neg (by simpa using hzn)]
  have hcmp := bignumCompareUnsigned_spec hn hd
  dsimp only
  cases hc : bignumCompareUnsigned n d with
  | equal => exact Gives.pure ⟨_, _, rfl, equal_magnitudes hn hzn (by rw [hc] at hcmp; exact hcmp)⟩
  | less => exact Gives.pure ⟨_, _, rfl, less_magnitude hn (by rw [hc] at hcmp; exact hcmp)⟩
  | greater =>
    obtain ⟨hle, h1⟩ := greater_of_compare hn hd hz hc
    simp only [isQuotient_iff hn, isRemainder_iff hn]
    split
    · rename_i hl
      obtain ⟨digit, hi, hm, hdig⟩ := hd.of_length_one hl
      rw [hi, ok_bind]
      split
      · rename_i hone
        refine (bignumMaybeNewSign_gives _ (Nat.le_succ _)).bind fun q hq => ?_
        obtain ⟨h2, h3⟩ := one_denominator hn hzn (hm.trans hone)
        exact Gives.pure ⟨q, _, rfl, hq ▸ (isQuotient_iff hn).mp h2, (isRemainder_iff hn).mp h3⟩
      · rw [hm]
        split
        · exact bothStored_gives
            (bignumDivideUnsignedSmallDenominator_gives hn (by omega) ⟨by omega, ‹_›⟩ _ _ _)
        · exact bothStored_gives
            (bignumDivideUnsignedMediumDenominator_gives hn (by omega) hdig _ _ _ _)
    · exact bothStored_gives
        (bignumDivideUnsignedLargeDenominator_gives hn hd (by omega) hle _ _ _ _)

theorem bignumQuotient_gives (hd : d.WellFormed) (hz : d.digits ≠ []) :
    Gives (TooLong (n.length + 1)) (bignumQuotient n d)
      (fun o => ∃ q, o = some q ∧ IsQuotient n d q) := by
  unfold bignumQuotient
  rw [if_neg (by simpa using hz)]
  by_cases hzn : n.digits = []
  · rw [if_pos (Bignum.zeroP_iff.mpr hzn)]
    exact Gives.pure ⟨n, rfl, (zero_numerator hn hzn).1⟩
  rw [if_neg (by simpa using hzn)]
  have hcmp := bignumCompareUnsigned_spec hn hd
  dsimp only
  cases hc : bignumCompareUnsigned n d with
  | equal => exact Gives.pure ⟨_, rfl, (equal_magnitudes hn hzn (by rw [hc] at hcmp; exact hcmp)).1⟩
  | less => exact Gives.pure ⟨_, rfl, (less_magnitude hn (by rw [hc] at hcmp; exact hcmp)).1⟩
  | greater =>
    obtain ⟨hle, h1⟩ := greater_of_compare hn hd hz hc
    simp only [isQuotient_iff hn]
    split
    · rename_i hl
      obtain ⟨digit, hi, hm, hdig⟩ := hd.of_length_one hl
      rw [hi, ok_bind]
      split
      · rename_i hone
        refine (bignumMaybeNewSign_gives _ (Nat.le_succ _)).bind fun q hq => ?_
        have h2 := (one_denominator hn hzn (hm.trans hone)).1
        exact Gives.pure ⟨q, rfl, hq ▸ (isQuotient_iff hn).mp h2⟩
      · rw [hm]
        split
        · exact (bignumDivideUnsignedSmallDenominator_gives hn (by omega) ⟨by omega, ‹_›⟩
            false _ false).bind fun _ ho => Gives.pure (ho.quotient rfl)
        · exact (bignumDivideUnsignedMediumDenominator_gives hn (by omega) hdig true
            false _ false).bind fun _ ho => Gives.pure (ho.quotient rfl)
    · exact (bignumDivideUnsignedLargeDenominator_gives hn hd (by omega) hle true
        false _ false).bind fun _ ho => Gives.pure (ho.quotient rfl)

theorem bignumRemainder_gives (hd : d.WellFormed) (hz : d.digits ≠ []) :
    Gives (TooLong (n.length + 1)) (bignumRemainder n d)
      (fun o => ∃ r, o = some r ∧ IsRemainder n d r) := by
  unfold bignumRemainder
  rw [if_neg (by simpa using hz)]
  by_cases hzn : n.digits = []
  · rw [if_pos (Bignum.zeroP_iff.mpr hzn)]
    exact Gives.pure ⟨n, rfl, (zero_numerator hn hzn).2⟩
  rw [if_neg (by simpa using hzn)]
  have hcmp := bignumCompareUnsigned_spec hn hd
  cases hc : bignumCompareUnsigned n d with
  | equal => exact Gives.pure ⟨_, rfl, (equal_magnitudes hn hzn (by rw [hc] at hcmp; exact hcmp)).2⟩
  | less => exact Gives.pure ⟨_, rfl, (less_magnitude hn (by rw [hc] at hcmp; exact hcmp)).2⟩
  | greater =>
    obtain ⟨hle, h1⟩ := greater_of_compare hn hd hz hc
    have hR : bignumRadix = 4611686018427387904 := rfl
    simp only [isRemainder_iff hn]
    split
    · rename_i hl
      obtain ⟨digit, hi, hm, hdig⟩ := hd.of_length_one hl
      rw [hi, ok_bind, long_ok (by omega) (by omega), ok_bind, hm]
      split
      · refine (bignumRemainderMask_gives hn (by omega) hdig ‹_›).bind fun r hr =>
          Gives.pure ⟨r, rfl, hr⟩
      · rename_i hmask
        have hne : digit ≠ 1 := by
          rintro rfl
          exact hmask rfl
        split
        · exact (bignumRemainderUnsignedSmallDenominator_gives hn (by omega) ⟨by omega, ‹_›⟩
            _).bind fun r hr => Gives.pure ⟨r, rfl, hr⟩
        · exact (bignumDivideUnsignedMediumDenominator_gives hn (by omega) hdig false
            true false _).bind fun _ ho => Gives.pure (ho.remainder rfl)
    · exact (bignumDivideUnsignedLargeDenominator_gives hn hd (by omega) hle false
        true false _).bind fun _ ho => Gives.pure (ho.remainder rfl)

end

end Exported

/-- What a step of Algorithm D needs: the guess for the quotient digit is right
or one too large, and the subtraction, with one add-back at most, turns it
into the true digit and leaves the remainder. -/
def LargeStepExact : Prop :=
  ∀ {vs low us ulow high : List Int} {v2 v1 u2 u1 u0 : Int},
    Normalized vs low v2 v1 → Window vs us ulow u2 u1 u0 high →
    ∃ g us', quotientGuess v1 v2 u0 u1 u2 = .ok g ∧
      (g = value bignumRadix us / value bignumRadix vs ∨
        g = value bignumRadix us / value bignumRadix vs + 1) ∧
      bignumDivideSubtract vs g us = .ok (value bignumRadix us / value bignumRadix vs, us') ∧
      value bignumRadix us' = value bignumRadix us % value bignumRadix vs

/-- The same for `BDD_STEP`, in half digits. -/
def HalfStepExact : Prop :=
  ∀ {v1 v2 u0 u1 u2 : Int}, (1073741824 ≤ v1 ∧ v1 < 2147483648) → (0 ≤ v2 ∧ v2 < 2147483648) →
    (0 ≤ u0 ∧ u0 ≤ v1) → (0 ≤ u1 ∧ u1 < 2147483648) → (0 ≤ u2 ∧ u2 < 2147483648) →
    window u0 u1 u2 < (v1 * 2147483648 + v2) * 2147483648 →
    ∃ g a b c, bddGuess v1 v2 u0 u1 u2 = .ok g ∧
      (g = window u0 u1 u2 / (v1 * 2147483648 + v2) ∨
        g = window u0 u1 u2 / (v1 * 2147483648 + v2) + 1) ∧
      bignumDigitDivideSubtract v1 v2 g u0 u1 u2 =
        .ok (window u0 u1 u2 / (v1 * 2147483648 + v2), a, b, c) ∧
      b * 2147483648 + c = window u0 u1 u2 % (v1 * 2147483648 + v2)

theorem largeStepExact : LargeStepExact := by
  intro vs low us ulow high v2 v1 u2 u1 u0 h w
  obtain ⟨g, hg, hb, hq⟩ := quotientGuess_digit h w
  obtain ⟨us', hs, _, _, hv⟩ := bignumDivideSubtract_digit h w hb hq
  exact ⟨g, us', hg, hq, hs, hv⟩

theorem halfStepExact : HalfStepExact := by
  intro v1 v2 u0 u1 u2 hv1 hv2 hu0 hu1 hu2 hlt
  have hV : 0 < v1 * 2147483648 + v2 := by omega
  obtain ⟨q, a, b, c, hs, hq, hb, hc, hw, hr⟩ := bddStep_spec hv1 hv2 hu0 hu1 hu2 hlt
  obtain ⟨h1, h2⟩ := div_mod_of_eq hw ⟨by omega, hr⟩
  have hg := bddGuess_eq_div hv1 hv2 hu0 hu1 hu2 hlt
  rw [bddStep, hg, ok_bind] at hs
  exact ⟨_, a, b, c, hg, .inl rfl, by rw [h1] at hs ⊢; exact hs, h2.symm⟩

/-- **Bignum division is truncated division.** For a nonzero denominator there
are well-formed bignums `q` and `r` with `n = q * d + r`, `|r| < |d|` and `r`
zero or of the sign of `n`; `bignum_divide` stores both of them, and
`bignum_quotient` and `bignum_remainder` return the one they are named for. No
intermediate value overflows a long and no assertion fails, except the one on
the length of an allocated block. The quotient digits of both instances of
Algorithm D are exact. -/
theorem bignum_division_truncated (n d : WFBignum) (hd : d.1.toInt ≠ 0) :
    (∃ q r : Bignum, q.WellFormed ∧ r.WellFormed ∧
      n.1.toInt = q.toInt * d.1.toInt + r.toInt ∧ |r.toInt| < |d.1.toInt| ∧
      (r.toInt = 0 ∨ r.toInt.sign = n.1.toInt.sign) ∧
      Gives (TooLong (n.1.length + 1)) (bignumDivide n.1 d.1) (· = some (q, r)) ∧
      Gives (TooLong (n.1.length + 1)) (bignumQuotient n.1 d.1) (· = some q) ∧
      Gives (TooLong (n.1.length + 1)) (bignumRemainder n.1 d.1) (· = some r)) ∧
    LargeStepExact ∧ HalfStepExact := by
  obtain ⟨n, hn⟩ := n
  obtain ⟨d, hd'⟩ := d
  have hz : d.digits ≠ [] := fun h => hd (toInt_of_nil h)
  obtain ⟨q, hq, hqv⟩ := exists_wellFormed (n.toInt.tdiv d.toInt)
  obtain ⟨r, hr, hrv⟩ := exists_wellFormed (n.toInt.tmod d.toInt)
  -- the value determines the representation
  have hq' : ∀ {x}, IsQuotient n d x → x = q := fun h => h.1.eq_of_toInt hq (h.2.trans hqv.symm)
  have hr' : ∀ {x}, IsRemainder n d x → x = r := fun h => h.1.eq_of_toInt hr (h.2.trans hrv.symm)
  refine ⟨⟨q, r, hq, hr, ?_, ?_, ?_, ?_, ?_, ?_⟩, largeStepExact, halfStepExact⟩
  · rw [hqv, hrv, Int.tdiv_mul_add_tmod]
  · rw [hrv, Int.abs_eq_natAbs, Int.abs_eq_natAbs, Int.natAbs_tmod]
    exact_mod_cast Nat.mod_lt _ (Int.natAbs_pos.mpr hd)
  · rw [hrv]
    by_cases hdvd : d.toInt ∣ n.toInt
    · exact .inl (Int.tmod_eq_zero_of_dvd hdvd)
    · exact .inr (by rw [Int.sign_tmod, if_neg hdvd])
  · refine (bignumDivide_gives hn hd' hz).mono ?_
    rintro _ ⟨q1, r1, rfl, h1, h2⟩
    rw [hq' h1, hr' h2]
  · refine (bignumQuotient_gives hn hd' hz).mono ?_
    rintro _ ⟨q1, rfl, h1⟩
    rw [hq' h1]
  · refine (bignumRemainder_gives hn hd' hz).mono ?_
    rintro _ ⟨r1, rfl, h1⟩
    rw [hr' h1]

/-- `-7` divided by `2`. -/
theorem bignum_division_truncated_minus_seven_by_two :
    (mk false [2]).toInt ≠ 0 ∧
    ((∃ q r : Bignum, q.WellFormed ∧ r.WellFormed ∧
      (mk true [7]).toInt = q.toInt * (mk false [2]).toInt + r.toInt ∧
      |r.toInt| < |(mk false [2]).toInt| ∧
      (r.toInt = 0 ∨ r.toInt.sign = (mk true [7]).toInt.sign) ∧
      Gives (TooLong 2) (bignumDivide ⟨true, [7]⟩ ⟨false, [2]⟩) (· = some (q, r)) ∧
      Gives (TooLong 2) (bignumQuotient ⟨true, [7]⟩ ⟨false, [2]⟩) (· = some q) ∧
      Gives (TooLong 2) (bignumRemainder ⟨true, [7]⟩ ⟨false, [2]⟩) (· = some r)) ∧
    LargeStepExact ∧ HalfStepExact) :=
  ⟨by decide, bignum_division_truncated
    ⟨⟨true, [7]⟩, by simp [bignumRadix], by simp, by simp⟩
    ⟨⟨false, [2]⟩, by simp [bignumRadix], by simp, by simp⟩ (by decide)⟩

theorem natAbs_toInt {b : Bignum} (h : b.WellFormed) : (b.toInt.natAbs : Int) = b.magnitude := by
  have := h.magnitude_nonneg
  rw [Bignum.toInt]
  split <;> omega

theorem product_length {x y z : Bignum} (hx : x.WellFormed) (hy : y.WellFormed)
    (hz : z.WellFormed) (h : z.toInt = x.toInt * y.toInt) : z.length ≤ x.length + y.length := by
  by_contra hlong
  have hdigits : z.digits ≠ [] := by
    rintro hnil
    simp [length, hnil] at hlong
  have hmag : z.magnitude = x.magnitude * y.magnitude := by
    rw [← natAbs_toInt hz, h, Int.natAbs_mul, Nat.cast_mul, natAbs_toInt hx, natAbs_toInt hy]
  have hpow : bignumRadix ^ (x.length + y.length) ≤ bignumRadix ^ (z.length - 1) :=
    pow_le_pow_right₀ (by decide) (by omega)
  have hlt : x.magnitude * y.magnitude < bignumRadix ^ (x.length + y.length) := by
    rw [pow_add]
    exact mul_lt_mul'' (value_lt_pow bignumRadix_pos hx.digits)
      (value_lt_pow bignumRadix_pos hy.digits) hx.magnitude_nonneg hy.magnitude_nonneg
  have := hz.pow_le hdigits
  omega

/-- **Division undoes multiplication**: dividing a product by one of the factors gives the other one
as it was stored, and remainder zero. -/
theorem bignum_product_divided (x y : WFBignum) (hy : y.1.toInt ≠ 0) :
    Gives (TooLong (x.1.length + y.1.length + 1))
      (bignumMultiply x.1 y.1 >>= fun z => bignumDivide z y.1)
      (· = some (x.1, bignumMakeZero)) := by
  have hd : y.1.digits ≠ [] := fun h => hy (toInt_of_nil h)
  refine ((bignumMultiply_gives x.2 y.2).weaken fun f hf => ⟨hf.1, hf.2.trans_le (by omega)⟩).bind
    fun z hz => ?_
  have hlen := product_length x.2 y.2 hz.1 hz.2
  refine ((bignumDivide_gives hz.1 y.2 hd).weaken fun f hf =>
    ⟨hf.1, hf.2.trans_le (by omega)⟩).mono ?_
  rintro _ ⟨q, r, rfl, hq, hr⟩
  rw [hq.1.eq_of_toInt x.2 (by rw [hq.2, hz.2, Int.mul_tdiv_cancel _ hy]),
    hr.1.eq_of_toInt wellFormed_zero (by rw [hr.2, hz.2, Int.mul_tmod_left]; rfl)]

theorem bignum_product_divided_seven_by_two :
    Gives (TooLong 3)
      (bignumMultiply ⟨true, [7]⟩ ⟨false, [2]⟩ >>= fun z => bignumDivide z ⟨false, [2]⟩)
      (· = some (⟨true, [7]⟩, bignumMakeZero)) :=
  bignum_product_divided ⟨⟨true, [7]⟩, by simp [bignumRadix], by simp, by simp⟩
    ⟨⟨false, [2]⟩, by simp [bignumRadix], by simp, by simp⟩ (by decide)

end MitScheme.Microcode
