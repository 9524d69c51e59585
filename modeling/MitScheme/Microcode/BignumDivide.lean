import MitScheme.Microcode.BignumDigitDivide

/-! # Bignum division

Algorithm D over digit arrays (`bignum_divide_unsigned_large_denominator`),
and the exported operations, which choose between it and the one-digit
divisions. -/

namespace MitScheme.Microcode
open Lib.Checked Lib.Outcome Lib.Radix

/-! ## Normalisation -/

/-- The loop that shifts a leading digit up to `BIGNUM_RADIX / 2`; a digit has
62 bits. -/
def normalizationShift : Nat → Int → Nat → Exec (Int × Nat)
  | 0, _, _ => .error .outOfFuel
  | fuel + 1, v1, shift => do
    if v1 < bignumRadix / 2 then
      normalizationShift fuel (← long (v1 <<< (1 : Nat))) (shift + 1)
    else return (v1, shift)

/-- The loop of `bignum_destructive_normalization`. -/
def normalizationLoop (shiftLeft : Nat) : List Int → Int → Exec (List Int × Int)
  | [], carry => return ([], carry)
  | digit :: ds, carry => do
    let shiftRight := 62 - shiftLeft
    let mask := 2 ^ shiftRight - 1
    let target ← long (Int.lor (← long (Int.land digit mask <<< shiftLeft)) carry)
    let (r, carry) ← normalizationLoop shiftLeft ds (digit >>> shiftRight)
    return (target :: r, carry)

/-- `bignum_destructive_normalization` into a block of `targetLength` digits. -/
def bignumDestructiveNormalization (source : List Int) (targetLength shiftLeft : Nat) :
    Exec (List Int) := do
  let (r, carry) ← normalizationLoop shiftLeft source 0
  if source.length < targetLength then return r ++ [carry]
  else do
    check (carry = 0)
    return r

/-- The loop of `bignum_destructive_unnormalization`, from the leading digit
down. -/
def unnormalizationLoop (shiftRight : Nat) : List Int → Exec (List Int × Int)
  | [] => return ([], 0)
  | digit :: ds => do
    let (r, carry) ← unnormalizationLoop shiftRight ds
    let shiftLeft := 62 - shiftRight
    let mask := 2 ^ shiftRight - 1
    let target ← long (Int.lor (digit >>> shiftRight) carry)
    let carry ← long (Int.land digit mask <<< shiftLeft)
    return (target :: r, carry)

def bignumDestructiveUnnormalization (digits : List Int) (shiftRight : Nat) : Exec (List Int) := do
  let (r, carry) ← unnormalizationLoop shiftRight digits
  check (carry = 0)
  return r

theorem normalizationShift_spec : ∀ (fuel : Nat) (v : Int) (shift : Nat),
    0 < v → v < bignumRadix → 2305843009213693952 ≤ v * 2 ^ fuel →
    ∃ s, normalizationShift (fuel + 1) v shift = .ok (v * 2 ^ s, shift + s) ∧ s ≤ fuel ∧
      2305843009213693952 ≤ v * 2 ^ s ∧ v * 2 ^ s < bignumRadix
  | fuel, v, shift, hv, hv', hf => by
    have hh : bignumRadix / 2 = 2305843009213693952 := by decide
    have hR : bignumRadix = 4611686018427387904 := rfl
    by_cases hlt : v < bignumRadix / 2
    · have hs : v <<< (1 : Nat) = v * 2 := by simpa using shiftLeft_eq v 1
      have step : normalizationShift (fuel + 1) v shift =
          normalizationShift fuel (v * 2) (shift + 1) := by
        simp only [normalizationShift, if_pos hlt, hs]
        rw [long_ok (by omega) (by omega), ok_bind]
      cases fuel with
      | zero => simp at hf; omega
      | succ fuel =>
        obtain ⟨s, he, hle, h1, h2⟩ := normalizationShift_spec fuel (v * 2)
          (shift + 1) (by omega) (by omega) (by rw [pow_succ] at hf; linarith)
        have e : v * 2 * 2 ^ s = v * 2 ^ (s + 1) := by rw [pow_succ]; ring
        rw [e] at he h1 h2
        exact ⟨s + 1, by rw [step, he, add_assoc, add_comm 1], by omega, h1, h2⟩
    · refine ⟨0, ?_, Nat.zero_le _, by rw [pow_zero, mul_one]; omega,
        by rw [pow_zero, mul_one]; omega⟩
      simp only [normalizationShift, if_neg hlt, pow_zero, mul_one, add_zero]
      rfl

theorem two_pow_split {s} (hs : s ≤ 62) : (2 : Int) ^ (62 - s) * 2 ^ s = bignumRadix := by
  rw [← pow_add, Nat.sub_add_cancel hs]; rfl

theorem normalizationLoop_spec {s} (hs : s ≤ 62) :
    ∀ (ds : List Int) (carry : Int), Digits bignumRadix ds → (0 ≤ carry ∧ carry < 2 ^ s) →
      ∃ r c, normalizationLoop s ds carry = .ok (r, c) ∧ Digits bignumRadix r ∧
        r.length = ds.length ∧ (0 ≤ c ∧ c < 2 ^ s) ∧
        value bignumRadix r + bignumRadix ^ ds.length * c = value bignumRadix ds * 2 ^ s + carry
  | [], carry, _, hc => ⟨[], carry, rfl, by simp, rfl, hc, by simp⟩
  | d :: ds, carry, h, hc => by
    obtain ⟨hd, hds⟩ := digits_cons.mp h
    have hsplit := two_pow_split hs
    have hR : bignumRadix = 4611686018427387904 := rfl
    have hP : (0 : Int) < 2 ^ s := by positivity
    have hQ : (0 : Int) < 2 ^ (62 - s) := by positivity
    have hlow := Int.emod_lt_of_pos d hQ
    have hlow0 := Int.emod_nonneg d hQ.ne'
    have hdm := Int.mul_ediv_add_emod d (2 ^ (62 - s))
    have hhi0 : 0 ≤ d / 2 ^ (62 - s) := Int.ediv_nonneg hd.1 hQ.le
    have hhi : d / 2 ^ (62 - s) < 2 ^ s := by
      apply Int.ediv_lt_of_lt_mul hQ
      rw [mul_comm, hsplit]; exact hd.2
    have hprod : d % 2 ^ (62 - s) * 2 ^ s + carry < bignumRadix := by
      have : (d % 2 ^ (62 - s) + 1) * 2 ^ s ≤ 2 ^ (62 - s) * 2 ^ s :=
        mul_le_mul_of_nonneg_right hlow hP.le
      rw [hsplit, add_mul, one_mul] at this
      omega
    have hprod0 : 0 ≤ d % 2 ^ (62 - s) * 2 ^ s := mul_nonneg hlow0 hP.le
    obtain ⟨r, c, he, hr, hl, hc', hv⟩ :=
      normalizationLoop_spec hs ds (d / 2 ^ (62 - s)) hds ⟨hhi0, hhi⟩
    refine ⟨(d % 2 ^ (62 - s) * 2 ^ s + carry) :: r, c, ?_,
      digits_cons.mpr ⟨⟨by omega, hprod⟩, hr⟩, by simp [hl], hc', ?_⟩
    · simp only [normalizationLoop]
      rw [land_mask _ hd.1, shiftLeft_eq, long_ok (by omega) (by omega), ok_bind,
        lor_shift s hlow0 hc.1 hc.2, long_ok (by omega) (by omega), ok_bind, shiftRight_eq, he]
      rfl
    · simp only [value_cons, List.length_cons, pow_succ]
      linear_combination bignumRadix * hv + 2 ^ s * hdm - (d / 2 ^ (62 - s)) * hsplit

theorem unnormalizationLoop_spec {s} (hs : s ≤ 62) :
    ∀ {ds : List Int}, Digits bignumRadix ds →
      ∃ r m, unnormalizationLoop s ds = .ok (r, m * 2 ^ (62 - s)) ∧ Digits bignumRadix r ∧
        r.length = ds.length ∧ (0 ≤ m ∧ m < 2 ^ s) ∧
        value bignumRadix ds = value bignumRadix r * 2 ^ s + m
  | [], _ => ⟨[], 0, by simp [unnormalizationLoop, pure, Except.pure], by simp, rfl,
      ⟨le_refl 0, by positivity⟩, by simp⟩
  | d :: ds, h => by
    obtain ⟨hd, hds⟩ := digits_cons.mp h
    obtain ⟨r, m, he, hr, hl, hm, hv⟩ := unnormalizationLoop_spec hs hds
    have hsplit := two_pow_split hs
    have hR : bignumRadix = 4611686018427387904 := rfl
    have hP : (0 : Int) < 2 ^ s := by positivity
    have hQ : (0 : Int) < 2 ^ (62 - s) := by positivity
    have hlow := Int.emod_lt_of_pos d hP
    have hlow0 := Int.emod_nonneg d hP.ne'
    have hdm := Int.mul_ediv_add_emod d (2 ^ s)
    have hhi0 : 0 ≤ d / 2 ^ s := Int.ediv_nonneg hd.1 hP.le
    have hhi : d / 2 ^ s < 2 ^ (62 - s) := by
      apply Int.ediv_lt_of_lt_mul hP
      rw [hsplit]; exact hd.2
    have hcar : ∀ x : Int, 0 ≤ x → x < 2 ^ s →
        0 ≤ x * 2 ^ (62 - s) ∧ x * 2 ^ (62 - s) + 2 ^ (62 - s) ≤ bignumRadix := by
      intro x h0 h1
      refine ⟨mul_nonneg h0 hQ.le, ?_⟩
      have : (x + 1) * 2 ^ (62 - s) ≤ 2 ^ s * 2 ^ (62 - s) :=
        mul_le_mul_of_nonneg_right h1 hQ.le
      rw [mul_comm (2 ^ s), hsplit, add_mul, one_mul] at this
      exact this
    have c1 := hcar m hm.1 hm.2
    have c2 := hcar (d % 2 ^ s) hlow0 hlow
    refine ⟨(m * 2 ^ (62 - s) + d / 2 ^ s) :: r, d % 2 ^ s, ?_,
      digits_cons.mpr ⟨⟨by omega, by omega⟩, hr⟩, by simp [hl], ⟨hlow0, hlow⟩, ?_⟩
    · simp only [unnormalizationLoop, he, ok_bind]
      rw [shiftRight_eq, lor_comm_of_nonneg hhi0 c1.1, lor_shift _ hm.1 hhi0 hhi,
        long_ok (by omega) (by omega), ok_bind, land_mask _ hd.1, shiftLeft_eq,
        long_ok (by omega) (by omega), ok_bind]
      rfl
    · simp only [value_cons]
      linear_combination bignumRadix * hv - hdm - m * hsplit

/-! ## Algorithm D -/

/-- `product = (guess * v2)` as the high and low digit. -/
def guessProduct (v2l v2h guess : Int) : Exec (Int × Int) := do
  let gl := hdLow guess
  let gh := hdHigh guess
  let pl ← long (v2l * gl)
  let ph ← long ((← long ((← long (v2l * gh)) + (← long (v2h * gl)))) + hdHigh pl)
  let pl ← hdCons (hdLow ph) (hdLow pl)
  let ph ← long ((← long (v2h * gh)) + hdHigh ph)
  return (ph, pl)

/-- The correction loop of `bignum_divide_unsigned_normalized`. -/
def correctGuess (v1 v2l v2h cl : Int) : Nat → Int → Int → Exec Int
  | 0, _, _ => .error .outOfFuel
  | fuel + 1, guess, ch => do
    let (ph, pl) ← guessProduct v2l v2h guess
    if ch > ph ∨ (ch = ph ∧ cl ≥ pl) then return guess
    else do
      let guess ← long (guess - 1)
      let ch ← long (ch + v1)
      if ch ≥ bignumRadix then return guess
      else correctGuess v1 v2l v2h cl fuel guess ch

def quotientGuess (v1 v2 uj uj1 uj2 : Int) : Exec Int := do
  let v2l := hdLow v2
  let v2h := hdHigh v2
  if uj ≠ v1 then do
    let (guess, ch) ← bignumDigitDivide uj uj1 v1
    correctGuess v1 v2l v2h uj2 (guess.toNat + 1) guess ch
  else do
    let ch ← long (uj1 + v1)
    let guess ← long (bignumRadix - 1)
    correctGuess v1 v2l v2h uj2 (guess.toNat + 1) guess ch

/-- One pass of the first loop of `bignum_divide_subtract`. -/
def divideSubtractStep (gl gh v u carry : Int) : Exec (Int × Int) := do
  let vl := hdLow v
  let vh := hdHigh v
  let pl ← long ((← long (vl * gl)) + hdLow carry)
  let ph ← long ((← long ((← long ((← long (vl * gh)) + (← long (vh * gl)))) + hdHigh pl))
    + hdHigh carry)
  let diff ← long (u - (← hdCons (hdLow ph) (hdLow pl)))
  if diff < 0 then
    return (← long (diff + bignumRadix), ← long ((← long ((← long (vh * gh)) + hdHigh ph)) + 1))
  else return (diff, ← long ((← long (vh * gh)) + hdHigh ph))

/-- The first loop of `bignum_divide_subtract`, over the digits of `v`: the
digits stored, the carry and the digits of `u` beyond. -/
def divideSubtractLoop (gl gh : Int) : List Int → List Int → Int →
    Exec (List Int × Int × List Int)
  | [], us, carry => return ([], carry, us)
  | _ :: _, [], _ => .error .outOfBounds
  | v :: vs, u :: us, carry => do
    let (digit, carry) ← divideSubtractStep gl gh v u carry
    let (r, carry, rest) ← divideSubtractLoop gl gh vs us carry
    return (digit :: r, carry, rest)

/-- `bignum_divide_subtract` on the digits of `u` from `u_start` on: the
quotient digit and the digits afterwards. The add-back loop is the first loop
of an addition. -/
def bignumDivideSubtract (vs : List Int) (guess : Int) (us : List Int) :
    Exec (Int × List Int) :=
  if guess = 0 then return (0, us)
  else do
    match ← divideSubtractLoop (hdLow guess) (hdHigh guess) vs us 0 with
    | (_, _, []) => .error .outOfBounds
    | (low, carry, top :: high) =>
      if carry = 0 then return (guess, low ++ top :: high)
      else do
        let diff ← long (top - carry)
        if diff < 0 then do
          let top ← long (diff + bignumRadix)
          let (low, carry) ← addLoop vs low 0
          let top ←
            if carry = 1 then do
              let sum ← long (top + carry)
              if sum < bignumRadix then pure sum else long (sum - bignumRadix)
            else pure top
          return (← long (guess - 1), low ++ top :: high)
        else return (guess, low ++ diff :: high)

/-- The loop of `bignum_divide_unsigned_normalized` with `steps` quotient
digits to go: the digits of `u` and of `q` afterwards. `u_scan_start` is
`steps - 1` and `u_scan` points `v_length` digits above it. -/
def normalizedLoop (vs : List Int) : Nat → List Int → Exec (List Int × List Int)
  | 0, us => return (us, [])
  | steps + 1, us => do
    let v1 ← index vs (vs.length - 1)
    let v2 ← index vs (vs.length - 2)
    let uj ← index us (steps + vs.length)
    let uj1 ← index us (steps + vs.length - 1)
    let uj2 ← index us (steps + vs.length - 2)
    let guess ← quotientGuess v1 v2 uj uj1 uj2
    let (qj, high) ← bignumDivideSubtract vs guess (us.drop steps)
    let (us, q) ← normalizedLoop vs steps (us.take steps ++ high)
    return (us, q ++ [qj])

theorem guessProduct_spec {v2 guess} (hv : 0 ≤ v2 ∧ v2 < bignumRadix)
    (hg : 0 ≤ guess ∧ guess < bignumRadix) :
    ∃ ph pl, guessProduct (hdLow v2) (hdHigh v2) guess = .ok (ph, pl) ∧
      (0 ≤ ph ∧ ph < bignumRadix) ∧ (0 ≤ pl ∧ pl < bignumRadix) ∧
      ph * bignumRadix + pl = guess * v2 := by
  obtain ⟨vl0, vl1, vh0, vh1, ev⟩ := half_split hv.1 hv.2
  obtain ⟨gl0, gl1, gh0, gh1, eg⟩ := half_split hg.1 hg.2
  have hR : bignumRadix = 4611686018427387904 := rfl
  have evg : guess * v2 = hdHigh v2 * hdHigh guess * 4611686018427387904 +
      (hdLow v2 * hdHigh guess + hdHigh v2 * hdLow guess) * 2147483648 +
      hdLow v2 * hdLow guess := by
    nth_rewrite 1 [ev, eg]; ring
  have bvg := mul_le_mul (show guess ≤ 4611686018427387903 by omega)
    (show v2 ≤ 4611686018427387903 by omega) hv.1 (by norm_num)
  unfold guessProduct
  generalize hdLow v2 = vl at *
  generalize hdHigh v2 = vh at *
  generalize hdLow guess = gl at *
  generalize hdHigh guess = gh at *
  obtain ⟨p1, p1'⟩ := half_mul vl0 vl1 gl0 gl1
  obtain ⟨p2, p2'⟩ := half_mul vl0 vl1 gh0 gh1
  obtain ⟨p3, p3'⟩ := half_mul vh0 vh1 gl0 gl1
  obtain ⟨p4, p4'⟩ := half_mul vh0 vh1 gh0 gh1
  dsimp only
  rw [long_ok (by omega) (by omega), ok_bind, hdHigh_eq (vl * gl), hdLow_eq (d := vl * gl) p1]
  simp (disch := omega) only [long_ok, ok_bind]
  set ph := vl * gh + vh * gl + vl * gl / 2147483648 with hph
  rw [hdHigh_eq, hdLow_eq (d := ph) (by omega),
    hdCons_ok (by omega) (by omega) (by omega) (by omega)]
  simp (disch := omega) only [long_ok, ok_bind]
  refine ⟨_, _, rfl, ⟨by omega, by omega⟩, ⟨by omega, by omega⟩, ?_⟩
  rw [hR, evg]; omega

theorem correctGuess_spec {v1 v2 cl} (U3 : Int) (hv1 : 0 ≤ v1 ∧ v1 < bignumRadix)
    (hv2 : 0 ≤ v2 ∧ v2 < bignumRadix) (hcl : 0 ≤ cl ∧ cl < bignumRadix) :
    ∀ (fuel : Nat) (guess ch : Int), guess < fuel → (0 ≤ guess ∧ guess < bignumRadix) →
      (0 ≤ ch ∧ ch < 9223372036854775808) →
      guess * (v1 * bignumRadix) + (ch * bignumRadix + cl) = U3 →
      ∃ g, correctGuess v1 (hdLow v2) (hdHigh v2) cl fuel guess ch = .ok g ∧
        (0 ≤ g ∧ g ≤ guess) ∧ g * (v1 * bignumRadix + v2) ≤ U3 ∧
        ∀ q, q ≤ guess → q * (v1 * bignumRadix + v2) ≤ U3 → q ≤ g
  | 0, _, _, hf, hg, _, _ => by push_cast at hf; omega
  | fuel + 1, guess, ch, hf, hg, hc, he => by
    obtain ⟨ph, pl, hp, hph, hpl, hprod⟩ := guessProduct_spec hv2 hg
    have hR : bignumRadix = 4611686018427387904 := rfl
    have hval : guess * (v1 * bignumRadix + v2) =
        U3 - (ch * bignumRadix + cl) + (ph * bignumRadix + pl) := by
      rw [hprod, ← he]; ring
    simp only [correctGuess, hp, ok_bind]
    rw [hR] at hval hprod he ⊢
    split
    · rename_i hpass
      exact ⟨guess, rfl, ⟨hg.1, le_refl _⟩, by omega, fun q hq _ => hq⟩
    · -- the guess fails the test, so no digit that passes it is lost
      rename_i hfail
      have hlt : ch * 4611686018427387904 + cl < ph * 4611686018427387904 + pl := by omega
      have hpos : 0 < guess := by
        rcases eq_or_lt_of_le hg.1 with h0 | h0
        · rw [← h0, zero_mul] at hprod; omega
        · exact h0
      have hval' : (guess - 1) * (v1 * 4611686018427387904) +
          ((ch + v1) * 4611686018427387904 + cl) = U3 := by rw [← he]; ring
      have hmax : ∀ q, q ≤ guess → q * (v1 * 4611686018427387904 + v2) ≤ U3 → q ≤ guess - 1 := by
        intro q hq hle
        by_contra hcon
        obtain rfl : q = guess := by omega
        omega
      rw [long_ok (by omega) (by omega), ok_bind, long_ok (by omega) (by omega), ok_bind]
      split
      · rename_i hbr
        have hb : (guess - 1) * v2 ≤ 4611686018427387903 * 4611686018427387903 :=
          mul_le_mul (by omega) (by omega) hv2.1 (by norm_num)
        have hval'' : (guess - 1) * (v1 * 4611686018427387904 + v2) =
            U3 - ((ch + v1) * 4611686018427387904 + cl) + (guess - 1) * v2 := by
          rw [← hval']; ring
        exact ⟨_, rfl, ⟨by omega, by omega⟩, by omega, hmax⟩
      · obtain ⟨g, hr, hgb, hle, hm⟩ := correctGuess_spec U3 hv1 hv2 hcl fuel (guess - 1)
          (ch + v1) (by push_cast at hf; omega)
          ⟨by omega, by omega⟩ ⟨by omega, by omega⟩ (by rw [hR]; exact hval')
        rw [hR] at hle hm
        exact ⟨g, hr, ⟨hgb.1, by omega⟩, hle, fun q hq hq' => hm q (hmax q hq hq') hq'⟩

theorem quotientGuess_spec {v1 v2 u0 u1 u2 U3} (hv1 : 2305843009213693952 ≤ v1 ∧ v1 < bignumRadix)
    (hv2 : 0 ≤ v2 ∧ v2 < bignumRadix) (hu0 : 0 ≤ u0 ∧ u0 ≤ v1) (hu1 : 0 ≤ u1 ∧ u1 < bignumRadix)
    (hu2 : 0 ≤ u2 ∧ u2 < bignumRadix) (hU : U3 = (u0 * bignumRadix + u1) * bignumRadix + u2) :
    ∃ g, quotientGuess v1 v2 u0 u1 u2 = .ok g ∧ (0 ≤ g ∧ g < bignumRadix) ∧
      g * (v1 * bignumRadix + v2) ≤ U3 ∧
      ∀ q, q < bignumRadix → q * (v1 * bignumRadix + v2) ≤ U3 → q ≤ g := by
  have hR : bignumRadix = 4611686018427387904 := rfl
  unfold quotientGuess
  dsimp only
  split
  · rename_i hne
    obtain ⟨q, r, hq, hqb, hrb, hqr⟩ := bignumDigitDivide_spec hv1
      ⟨hu0.1, by omega⟩ hu1
    simp only [hq, ok_bind]
    obtain ⟨g, hg, hb, hle, hm⟩ := correctGuess_spec U3 ⟨by omega, hv1.2⟩ hv2 hu2
      (q.toNat + 1) q r (by push_cast; omega) hqb
      ⟨hrb.1, by omega⟩ (by rw [hU, hqr]; ring)
    refine ⟨g, hg, ⟨hb.1, by omega⟩, hle, fun x hx hx' => hm x ?_ hx'⟩
    by_contra hcon
    have h1 : 0 ≤ x * v2 := mul_nonneg (by omega) hv2.1
    have h2 : x * v1 * bignumRadix ≤ (q * v1 + r) * bignumRadix + u2 := by
      rw [← hqr, ← hU]
      have e : x * (v1 * bignumRadix + v2) = x * v1 * bignumRadix + x * v2 := by ring
      omega
    have h3 : (q + 1) * v1 ≤ x * v1 := mul_le_mul_of_nonneg_right (by omega) (by omega)
    rw [add_mul, one_mul] at h3
    rw [hR] at h2 hu2
    omega
  · rename_i heq
    have heq : u0 = v1 := by simpa using heq
    rw [long_ok (by omega) (by omega), ok_bind, long_ok (by omega) (by omega), ok_bind]
    obtain ⟨g, hg, hb, hle, hm⟩ := correctGuess_spec U3 ⟨by omega, hv1.2⟩ hv2 hu2
      ((bignumRadix - 1).toNat + 1) (bignumRadix - 1) (u1 + v1)
      (by push_cast; omega) ⟨by omega, by omega⟩ ⟨by omega, by omega⟩
      (by rw [hU, heq]; ring)
    exact ⟨g, hg, ⟨hb.1, by omega⟩, hle, fun x hx hx' => hm x (by omega) hx'⟩

theorem divideSubtractStep_spec {guess v u carry} (hg : 0 ≤ guess ∧ guess < bignumRadix)
    (hv : 0 ≤ v ∧ v < bignumRadix) (hu : 0 ≤ u ∧ u < bignumRadix)
    (hc : 0 ≤ carry ∧ carry < bignumRadix) :
    ∃ digit carry', divideSubtractStep (hdLow guess) (hdHigh guess) v u carry =
        .ok (digit, carry') ∧
      (0 ≤ digit ∧ digit < bignumRadix) ∧ (0 ≤ carry' ∧ carry' < bignumRadix) ∧
      digit - bignumRadix * carry' = u - (guess * v + carry) := by
  obtain ⟨vl0, vl1, vh0, vh1, ev⟩ := half_split hv.1 hv.2
  obtain ⟨gl0, gl1, gh0, gh1, eg⟩ := half_split hg.1 hg.2
  have hR : bignumRadix = 4611686018427387904 := rfl
  have evg : guess * v = hdHigh v * hdHigh guess * 4611686018427387904 +
      (hdLow v * hdHigh guess + hdHigh v * hdLow guess) * 2147483648 +
      hdLow v * hdLow guess := by
    nth_rewrite 1 [ev, eg]; ring
  have bvg := mul_le_mul (show guess ≤ 4611686018427387903 by omega)
    (show v ≤ 4611686018427387903 by omega) hv.1 (by norm_num)
  unfold divideSubtractStep
  dsimp only
  generalize hdLow v = vl at *
  generalize hdHigh v = vh at *
  generalize hdLow guess = gl at *
  generalize hdHigh guess = gh at *
  obtain ⟨p1, p1'⟩ := half_mul vl0 vl1 gl0 gl1
  obtain ⟨p2, p2'⟩ := half_mul vl0 vl1 gh0 gh1
  obtain ⟨p3, p3'⟩ := half_mul vh0 vh1 gl0 gl1
  obtain ⟨p4, p4'⟩ := half_mul vh0 vh1 gh0 gh1
  rw [hdLow_eq hc.1, hdHigh_eq carry]
  simp (disch := omega) only [long_ok, ok_bind]
  set pl := vl * gl + carry % 2147483648 with hpl
  rw [hdLow_eq (d := pl) (by omega), hdHigh_eq pl]
  simp (disch := omega) only [long_ok, ok_bind]
  set ph := vl * gh + vh * gl + pl / 2147483648 + carry / 2147483648 with hph
  rw [hdLow_eq (d := ph) (by omega), hdHigh_eq ph,
    hdCons_ok (by omega) (by omega) (by omega) (by omega), ok_bind,
    long_ok (by omega) (by omega), ok_bind]
  have he : ph % 2147483648 * 2147483648 + pl % 2147483648 +
      4611686018427387904 * (vh * gh + ph / 2147483648) = guess * v + carry := by
    rw [evg]; omega
  split
  · rw [hR]
    simp (disch := omega) only [long_ok, ok_bind]
    exact ⟨_, _, rfl, ⟨by omega, by omega⟩, ⟨by omega, by omega⟩, by omega⟩
  · simp (disch := omega) only [long_ok, ok_bind]
    exact ⟨_, _, rfl, ⟨by omega, by omega⟩, ⟨by omega, by omega⟩, by rw [hR]; omega⟩

theorem divideSubtractLoop_spec {guess} (hg : 0 ≤ guess ∧ guess < bignumRadix) :
    ∀ (vs low rest : List Int) (carry : Int), low.length = vs.length → Digits bignumRadix vs →
      Digits bignumRadix low → (0 ≤ carry ∧ carry < bignumRadix) →
      ∃ low' c, divideSubtractLoop (hdLow guess) (hdHigh guess) vs (low ++ rest) carry =
          .ok (low', c, rest) ∧
        Digits bignumRadix low' ∧ low'.length = vs.length ∧ (0 ≤ c ∧ c < bignumRadix) ∧
        value bignumRadix low' - bignumRadix ^ vs.length * c =
          value bignumRadix low - (guess * value bignumRadix vs + carry)
  | [], [], rest, carry, _, _, _, hc => ⟨[], carry, rfl, by simp, rfl, hc, by simp⟩
  | [], _ :: _, _, _, h, _, _, _ => by simp at h
  | _ :: _, [], _, _, h, _, _, _ => by simp at h
  | v :: vs, u :: low, rest, carry, hl, hv, hlow, hc => by
    obtain ⟨hv0, hvs⟩ := digits_cons.mp hv
    obtain ⟨hu0, hlow'⟩ := digits_cons.mp hlow
    obtain ⟨digit, carry', hstep, hdig, hcar, heq⟩ := divideSubtractStep_spec hg hv0 hu0 hc
    obtain ⟨out, c, hout, hod, hol, hoc, hov⟩ :=
      divideSubtractLoop_spec hg vs low rest carry' (by simpa using hl) hvs hlow' hcar
    refine ⟨digit :: out, c, ?_, digits_cons.mpr ⟨hdig, hod⟩, by simp [hol], hoc, ?_⟩
    · simp only [List.cons_append, divideSubtractLoop, hstep, ok_bind, hout]; rfl
    · simp only [value_cons, List.length_cons, pow_succ]
      linear_combination heq + bignumRadix * hov

theorem bignumDivideSubtract_spec {vs low} (high : List Int) {top guess q}
    (hvs : Digits bignumRadix vs) (hlow : Digits bignumRadix low) (hl : low.length = vs.length)
    (htop : 0 ≤ top ∧ top < bignumRadix) (hg : 0 ≤ guess ∧ guess < bignumRadix)
    (hq : q * value bignumRadix vs ≤ value bignumRadix low + bignumRadix ^ vs.length * top)
    (hq' : value bignumRadix low + bignumRadix ^ vs.length * top <
      (q + 1) * value bignumRadix vs) (hgq : guess = q ∨ guess = q + 1) (hq0 : 0 ≤ q) :
    ∃ low', bignumDivideSubtract vs guess (low ++ top :: high) = .ok (q, low' ++ 0 :: high) ∧
      Digits bignumRadix low' ∧ low'.length = vs.length ∧
      value bignumRadix low' =
        value bignumRadix low + bignumRadix ^ vs.length * top - q * value bignumRadix vs := by
  have hR : bignumRadix = 4611686018427387904 := rfl
  have hW := pow_pos bignumRadix_pos vs.length
  have hVlt := value_lt_pow bignumRadix_pos hvs
  have e1 : (q + 1) * value bignumRadix vs = q * value bignumRadix vs + value bignumRadix vs := by
    ring
  -- a number below the weight of the leading place has a zero there
  have hzero : ∀ {x t : Int}, 0 ≤ x → x < bignumRadix ^ vs.length →
      0 ≤ x + bignumRadix ^ vs.length * t →
      x + bignumRadix ^ vs.length * t < bignumRadix ^ vs.length → t = 0 := by
    intro x t hx hx' h0 h1
    by_contra hne
    rcases lt_or_gt_of_ne hne with h | h
    · have : bignumRadix ^ vs.length * t ≤ bignumRadix ^ vs.length * (-1) :=
        mul_le_mul_of_nonneg_left (by omega) hW.le
      omega
    · have : bignumRadix ^ vs.length * 1 ≤ bignumRadix ^ vs.length * t :=
        mul_le_mul_of_nonneg_left (by omega) hW.le
      omega
  have hlow0 := value_nonneg bignumRadix_pos hlow
  have hlowlt := value_lt_pow bignumRadix_pos hlow
  rw [hl] at hlowlt
  unfold bignumDivideSubtract
  by_cases hz : guess = 0
  · obtain rfl : q = 0 := by omega
    rw [if_pos hz]
    have ht : top = 0 := hzero hlow0 hlowlt (by omega) (by omega)
    subst ht
    exact ⟨low, rfl, hlow, hl, by ring⟩
  rw [if_neg hz]
  obtain ⟨low1, c, hloop, hd1, hl1, hc, hv1⟩ := divideSubtractLoop_spec hg vs low (top :: high) 0
    hl hvs hlow ⟨le_refl 0, bignumRadix_pos⟩
  have h10 := value_nonneg bignumRadix_pos hd1
  have h1lt := value_lt_pow bignumRadix_pos hd1
  rw [hl1] at h1lt
  rw [hloop, ok_bind]
  have hdiff : value bignumRadix low + bignumRadix ^ vs.length * top -
      guess * value bignumRadix vs =
      value bignumRadix low1 + bignumRadix ^ vs.length * (top - c) := by
    linear_combination -hv1
  rcases hgq with rfl | rfl
  · have ht : top - c = 0 := hzero h10 h1lt (by omega) (by omega)
    have hval : value bignumRadix low1 = value bignumRadix low +
        bignumRadix ^ vs.length * top - guess * value bignumRadix vs := by
      rw [hdiff, ht]; ring
    dsimp only
    split
    · exact ⟨low1, by rw [show top = 0 by omega]; rfl, hd1, hl1, hval⟩
    · rw [long_ok (by omega) (by omega), ok_bind, if_neg (by omega), ht]
      exact ⟨low1, rfl, hd1, hl1, hval⟩
  · -- the guess was one too large
    have ht : top - c + 1 = 0 := by
      have hmul : (q + 1) * value bignumRadix vs =
          q * value bignumRadix vs + value bignumRadix vs := e1
      have e2 : bignumRadix ^ vs.length * (top - c + 1) =
          bignumRadix ^ vs.length * (top - c) + bignumRadix ^ vs.length := by ring
      exact hzero h10 h1lt (by omega) (by omega)
    obtain ⟨⟨low2, c2⟩, hadd, hd2, hl2, hc2, hv2⟩ :=
      addLoop_spec (by omega : low1.length ≤ vs.length) hvs hd1 (.inl rfl)
    simp only at hd2 hl2 hc2 hv2
    have h20 := value_nonneg bignumRadix_pos hd2
    have h2lt := value_lt_pow bignumRadix_pos hd2
    rw [hl2] at h2lt
    -- adding the divisor back carries out of the window
    have hsum : value bignumRadix low + bignumRadix ^ vs.length * top -
        q * value bignumRadix vs =
        value bignumRadix low2 + bignumRadix ^ vs.length * (c2 - 1) := by
      have : top - c = -1 := by omega
      rw [this] at hdiff
      linear_combination hdiff - hv2
    have hc1 : c2 - 1 = 0 := hzero h20 h2lt (by omega) (by omega)
    obtain rfl : c2 = 1 := by omega
    dsimp only
    rw [if_neg (by omega), long_ok (by omega) (by omega), ok_bind, if_pos (by omega),
      long_ok (by omega) (by omega), ok_bind, hadd]
    simp only [ok_bind, if_true]
    rw [long_ok (by omega) (by omega), ok_bind, if_neg (by omega),
      long_ok (by omega) (by omega), ok_bind, long_ok (by omega) (by omega), ok_bind]
    refine ⟨low2, ?_, hd2, hl2, by rw [hsum]; ring⟩
    rw [show top - c + bignumRadix + 1 - bignumRadix = 0 by omega, add_sub_cancel_right]
    rfl

/-- A divisor of at least two digits whose leading digit is at least half the
radix. -/
structure Normalized (vs : List Int) (low : List Int) (v2 v1 : Int) : Prop where
  eq : vs = low ++ [v2, v1]
  digits : Digits bignumRadix vs
  lead : 2305843009213693952 ≤ v1

/-- The digits of `u` a quotient digit is computed from. -/
structure Window (vs us : List Int) (low : List Int) (u2 u1 u0 : Int) (high : List Int) :
    Prop where
  eq : us = low ++ [u2, u1] ++ u0 :: high
  digits : Digits bignumRadix us
  length : low.length + 2 = vs.length
  lt : value bignumRadix us < bignumRadix * value bignumRadix vs

section KnuthD
variable {vs low us ulow high : List Int} {v2 v1 u2 u1 u0 : Int}

section
variable (h : Normalized vs low v2 v1)
include h

theorem Normalized.value_eq :
    value bignumRadix vs =
      value bignumRadix low + bignumRadix ^ low.length * (v1 * bignumRadix + v2) := by
  rw [h.eq, value_append]; simp only [value_cons, value_nil]; ring

theorem Window.value_eq (w : Window vs us ulow u2 u1 u0 high) :
    value bignumRadix us = value bignumRadix (ulow ++ [u2, u1]) + bignumRadix ^ vs.length * u0 ∧
      value bignumRadix us = value bignumRadix ulow +
        bignumRadix ^ ulow.length * ((u0 * bignumRadix + u1) * bignumRadix + u2) := by
  have hd := w.digits
  rw [w.eq] at hd
  obtain ⟨hlo, hhi⟩ := digits_append.mp hd
  obtain ⟨hu0, hhigh⟩ := digits_cons.mp hhi
  have hlen : (ulow ++ [u2, u1]).length = vs.length := by simpa using w.length
  have hval : value bignumRadix us = value bignumRadix (ulow ++ [u2, u1]) +
      bignumRadix ^ vs.length * (u0 + bignumRadix * value bignumRadix high) := by
    rw [w.eq, value_append, hlen, value_cons]
  have hlo0 := value_nonneg bignumRadix_pos hlo
  have hhigh0 := value_nonneg bignumRadix_pos hhigh
  have hV := value_lt_pow bignumRadix_pos h.digits
  have hpow := pow_pos bignumRadix_pos vs.length
  have hz : value bignumRadix high = 0 := by
    by_contra hne
    have h1 : bignumRadix * 1 ≤ bignumRadix * value bignumRadix high :=
      mul_le_mul_of_nonneg_left (by omega) bignumRadix_pos.le
    have h2 : bignumRadix ^ vs.length * bignumRadix ≤
        bignumRadix ^ vs.length * (u0 + bignumRadix * value bignumRadix high) :=
      mul_le_mul_of_nonneg_left (by omega) hpow.le
    have h3 : bignumRadix * value bignumRadix vs ≤ bignumRadix * bignumRadix ^ vs.length :=
      mul_le_mul_of_nonneg_left hV.le bignumRadix_pos.le
    have h4 := w.lt
    rw [mul_comm (bignumRadix ^ vs.length) bignumRadix] at h2
    omega
  rw [hz, mul_zero, add_zero] at hval
  refine ⟨hval, ?_⟩
  rw [hval, value_append, ← w.length, pow_add]
  simp only [value_cons, value_nil]
  ring

theorem quotientGuess_digit (w : Window vs us ulow u2 u1 u0 high) :
    ∃ g, quotientGuess v1 v2 u0 u1 u2 = .ok g ∧ (0 ≤ g ∧ g < bignumRadix) ∧
      (g = value bignumRadix us / value bignumRadix vs ∨
        g = value bignumRadix us / value bignumRadix vs + 1) := by
  have hR : bignumRadix = 4611686018427387904 := rfl
  obtain ⟨-, hU⟩ := w.value_eq h
  have hV := h.value_eq
  have hdv := h.digits
  rw [h.eq] at hdv
  obtain ⟨hlow, hv⟩ := digits_append.mp hdv
  simp only [digits_cons, digits_nil, and_true] at hv
  obtain ⟨hv2, hv1⟩ := hv
  have hdu := w.digits
  rw [w.eq] at hdu
  obtain ⟨hlo, hhi⟩ := digits_append.mp hdu
  obtain ⟨hulow, hu⟩ := digits_append.mp hlo
  simp only [digits_cons, digits_nil, and_true] at hu
  obtain ⟨hu2, hu1⟩ := hu
  obtain ⟨hu0, -⟩ := digits_cons.mp hhi
  have hlen : ulow.length = low.length := by
    have h1 := w.length
    rw [h.eq] at h1
    simpa using h1
  rw [hlen] at hU
  have hw := pow_pos bignumRadix_pos low.length
  have hvl0 := value_nonneg bignumRadix_pos hlow
  have hvlt := value_lt_pow bignumRadix_pos hlow
  have hul0 := value_nonneg bignumRadix_pos hulow
  have hult := value_lt_pow bignumRadix_pos hulow
  rw [hlen] at hult
  have hlead := h.lead
  have hVpos : 0 < value bignumRadix vs := by
    have : 0 < bignumRadix ^ low.length * (v1 * bignumRadix + v2) :=
      mul_pos hw (by rw [hR]; omega)
    omega
  set U3 := (u0 * bignumRadix + u1) * bignumRadix + u2 with hU3
  -- the leading digit of the window does not exceed that of the divisor
  have hu0v1 : u0 ≤ v1 := by
    by_contra hc
    have h1 : bignumRadix ^ low.length * ((v1 + 1) * bignumRadix * bignumRadix) ≤
        bignumRadix ^ low.length * U3 := by
      refine mul_le_mul_of_nonneg_left ?_ hw.le
      rw [hU3, hR]; omega
    have h2 : bignumRadix * value bignumRadix vs <
        bignumRadix * (bignumRadix ^ low.length * ((v1 + 1) * bignumRadix)) := by
      refine mul_lt_mul_of_pos_left ?_ bignumRadix_pos
      have h3 : bignumRadix ^ low.length * (v1 * bignumRadix + v2 + 1) ≤
          bignumRadix ^ low.length * ((v1 + 1) * bignumRadix) :=
        mul_le_mul_of_nonneg_left (by rw [hR] at hv2 ⊢; omega) hw.le
      rw [mul_add _ _ (1 : Int), mul_one] at h3
      omega
    have h4 := w.lt
    have h5 : bignumRadix * (bignumRadix ^ low.length * ((v1 + 1) * bignumRadix)) =
        bignumRadix ^ low.length * ((v1 + 1) * bignumRadix * bignumRadix) := by ring
    omega
  obtain ⟨g, hg, hb, hle, hm⟩ := quotientGuess_spec ⟨hlead, hv1.2⟩ hv2 ⟨hu0.1, hu0v1⟩ hu1 hu2 hU3
  set q := value bignumRadix us / value bignumRadix vs with hq
  have hqle : q * value bignumRadix vs ≤ value bignumRadix us := Int.ediv_mul_le _ hVpos.ne'
  have hqlt : value bignumRadix us < (q + 1) * value bignumRadix vs :=
    Int.lt_ediv_add_one_mul_self _ hVpos
  have hqb : q < bignumRadix := by
    apply Int.ediv_lt_of_lt_mul hVpos
    exact w.lt
  have hq0 : 0 ≤ q := Int.ediv_nonneg (value_nonneg bignumRadix_pos w.digits) hVpos.le
  have hqg : q ≤ g := by
    refine hm q hqb (lead_test_of_le hw hvl0 hult hq0 ?_)
    rw [← hV, ← hU]; exact hqle
  have hgq : g ≤ q + 1 := by
    refine le_succ_of_lead_test hw hvl0 hvlt hul0 hb.1 (by rw [hR] at hb ⊢; omega) hle ?_
    rw [← hV, ← hU]; exact hqlt
  exact ⟨g, hg, hb, by omega⟩

/-- **One add-back suffices.** With such a guess `bignum_divide_subtract`
returns the true digit and leaves the remainder in the window. -/
theorem bignumDivideSubtract_digit (w : Window vs us ulow u2 u1 u0 high) {g}
    (hg : 0 ≤ g ∧ g < bignumRadix) (hgq : g = value bignumRadix us / value bignumRadix vs ∨
      g = value bignumRadix us / value bignumRadix vs + 1) :
    ∃ us', bignumDivideSubtract vs g us =
        .ok (value bignumRadix us / value bignumRadix vs, us') ∧
      Digits bignumRadix us' ∧ us'.length = us.length ∧
      value bignumRadix us' = value bignumRadix us % value bignumRadix vs := by
  obtain ⟨hU, -⟩ := w.value_eq h
  have hdu := w.digits
  rw [w.eq] at hdu
  obtain ⟨hlo, hhi⟩ := digits_append.mp hdu
  obtain ⟨hu0, hhigh⟩ := digits_cons.mp hhi
  have hlen : (ulow ++ [u2, u1]).length = vs.length := by simpa using w.length
  have hVpos : 0 < value bignumRadix vs := by
    have h0 := value_nonneg bignumRadix_pos w.digits
    have h1 := w.lt
    by_contra hc
    have := mul_nonpos_of_nonneg_of_nonpos bignumRadix_pos.le (not_lt.mp hc)
    omega
  have hU0 := value_nonneg bignumRadix_pos w.digits
  obtain ⟨low', hr, hd', hl', hv'⟩ := bignumDivideSubtract_spec high h.digits hlo hlen
    hu0 hg (by rw [← hU]; exact Int.ediv_mul_le _ hVpos.ne')
    (by rw [← hU]; exact Int.lt_ediv_add_one_mul_self _ hVpos) hgq
    (Int.ediv_nonneg hU0 hVpos.le)
  have hmod : value bignumRadix us - value bignumRadix us / value bignumRadix vs *
      value bignumRadix vs = value bignumRadix us % value bignumRadix vs := by
    rw [Int.emod_def, mul_comm]
  -- the window keeps its zeros above the divisor's places
  have hz : value bignumRadix (0 :: high) = 0 := by
    have h1 : value bignumRadix us = value bignumRadix (ulow ++ [u2, u1]) +
        bignumRadix ^ vs.length * value bignumRadix (u0 :: high) := by
      rw [← hlen, ← value_append, ← w.eq]
    rw [hU] at h1
    have h2 : bignumRadix ^ vs.length * (bignumRadix * value bignumRadix high) = 0 := by
      simp only [value_cons] at h1
      linarith
    have h3 := (mul_eq_zero.mp h2).resolve_left (pow_pos bignumRadix_pos _).ne'
    rw [value_cons, h3, add_zero]
  refine ⟨low' ++ 0 :: high, ?_, ?_, ?_, ?_⟩
  · rw [← hr, ← w.eq]
  · exact digits_append.mpr ⟨hd', digits_cons.mpr ⟨⟨le_refl 0, bignumRadix_pos⟩, hhigh⟩⟩
  · rw [w.eq]; simp [hl', ← w.length]; omega
  · rw [value_append, hz, mul_zero, add_zero, hv', ← hU, hmod]

end

theorem exists_window {us : List Int} {steps n} (hl : steps + 1 + (n + 2) ≤ us.length) :
    ∃ pre ulow : List Int, ∃ u2 u1 u0 high, us = pre ++ (ulow ++ [u2, u1] ++ u0 :: high) ∧
      pre.length = steps ∧ ulow.length = n := by
  have h1 : (us.drop (steps + n)).length ≥ 3 := by simp; omega
  obtain ⟨a, b, c, rest, he⟩ : ∃ a b c rest, us.drop (steps + n) = a :: b :: c :: rest := by
    match hm : us.drop (steps + n), h1 with
    | a :: b :: c :: rest, _ => exact ⟨a, b, c, rest, rfl⟩
  refine ⟨us.take steps, (us.drop steps).take n, a, b, c, rest, ?_, ?_, ?_⟩
  · have h2 : us.drop steps = (us.drop steps).take n ++ a :: b :: c :: rest := by
      rw [← he, ← List.drop_drop, List.take_append_drop]
    rw [List.append_assoc, List.cons_append, List.cons_append, List.nil_append, ← h2,
      List.take_append_drop]
  · simp; omega
  · simp; omega

theorem value_drop_lt {us vs k} (hd : Digits bignumRadix us) (hk : k < us.length)
    (hlt : value bignumRadix (us.drop (k + 1)) < value bignumRadix vs) :
    value bignumRadix (us.drop k) < bignumRadix * value bignumRadix vs := by
  rw [List.drop_eq_getElem_cons hk, value_cons]
  have h1 := (hd us[k] (List.getElem_mem hk)).2
  have h2 : bignumRadix * (value bignumRadix (us.drop (k + 1)) + 1) ≤
      bignumRadix * value bignumRadix vs := mul_le_mul_of_nonneg_left hlt bignumRadix_pos.le
  rw [mul_add, mul_one] at h2
  omega

theorem normalizedLoop_spec (h : Normalized vs low v2 v1) :
    ∀ (steps : Nat) (us : List Int), Digits bignumRadix us → steps + vs.length ≤ us.length →
      value bignumRadix (us.drop steps) < value bignumRadix vs →
      ∃ us' q, normalizedLoop vs steps us = .ok (us', q) ∧ Digits bignumRadix us' ∧
        us'.length = us.length ∧ Digits bignumRadix q ∧ q.length = steps ∧
        value bignumRadix us' < value bignumRadix vs ∧
        value bignumRadix us = value bignumRadix q * value bignumRadix vs + value bignumRadix us'
  | 0, us, hd, _, hlt => ⟨us, [], rfl, hd, rfl, by simp, rfl, by simpa using hlt, by simp⟩
  | steps + 1, us, hd, hl, hlt => by
    have hvlen : vs.length = low.length + 2 := by rw [h.eq]; simp
    obtain ⟨pre, ulow, u2, u1, u0, high, hus, hpre, hul⟩ :=
      exists_window (show steps + 1 + (low.length + 2) ≤ us.length by omega)
    subst hpre
    have hdrop : us.drop pre.length = ulow ++ [u2, u1] ++ u0 :: high := by
      rw [hus, List.drop_left]
    have htake : us.take pre.length = pre := by rw [hus, List.take_left]
    have hd' := hd
    rw [hus] at hd'
    obtain ⟨hpre, hwin⟩ := digits_append.mp hd'
    have hw : Window vs (us.drop pre.length) ulow u2 u1 u0 high :=
      ⟨hdrop, by rw [hdrop]; exact hwin, by omega, value_drop_lt hd (by omega) hlt⟩
    obtain ⟨g, hg, hgb, hgq⟩ := quotientGuess_digit h hw
    obtain ⟨win, hsub, hwd, hwl, hwv⟩ := bignumDivideSubtract_digit h hw hgb hgq
    set q := value bignumRadix (us.drop pre.length) / value bignumRadix vs with hqdef
    have hVpos : 0 < value bignumRadix vs := by
      by_contra hc
      have := value_nonneg bignumRadix_pos (hd.drop (pre.length + 1))
      omega
    have hq0 : 0 ≤ q := Int.ediv_nonneg (value_nonneg bignumRadix_pos hw.digits) hVpos.le
    have hqb : q < bignumRadix := Int.ediv_lt_of_lt_mul hVpos hw.lt
    obtain ⟨us', qs, hloop, hud, hul', hqd, hql, huv, hval⟩ :=
      normalizedLoop_spec h pre.length (pre ++ win) (digits_append.mpr ⟨hpre, hwd⟩)
        (by
          rw [List.length_append, hwl, hdrop]
          simp; omega)
        (by rw [List.drop_left, hwv]; exact Int.emod_lt_of_pos _ hVpos)
    have hlen' : (pre ++ win).length = us.length := by
      rw [List.length_append, hwl, List.length_drop]
      rw [hus]; simp
    refine ⟨us', qs ++ [q], ?_, hud, hul'.trans hlen', ?_, by simp [hql], huv, ?_⟩
    · have i1 : index vs (vs.length - 1) = .ok v1 :=
        index_of_cut (l := low ++ [v2]) (r := []) (by rw [h.eq]; simp) (by rw [hvlen]; simp)
      have i2 : index vs (vs.length - 2) = .ok v2 :=
        index_of_cut h.eq (by rw [hvlen]; simp)
      have i3 : index us (pre.length + vs.length) = .ok u0 :=
        index_of_cut (l := pre ++ (ulow ++ [u2, u1])) (r := high) (by rw [hus]; simp)
          (by rw [hvlen, ← hul]; simp)
      have i4 : index us (pre.length + vs.length - 1) = .ok u1 :=
        index_of_cut (l := pre ++ (ulow ++ [u2])) (r := u0 :: high) (by rw [hus]; simp)
          (by rw [hvlen, ← hul]; simp)
      have i5 : index us (pre.length + vs.length - 2) = .ok u2 :=
        index_of_cut (l := pre ++ ulow) (r := u1 :: u0 :: high) (by rw [hus]; simp)
          (by rw [hvlen, ← hul]; simp; omega)
      simp only [normalizedLoop, i1, i2, i3, i4, i5, hg, hsub, htake, hloop, ok_bind]
      rfl
    · exact digits_append.mpr ⟨hqd, by simpa using ⟨hq0, hqb⟩⟩
    · have hU : value bignumRadix us = value bignumRadix pre +
          bignumRadix ^ pre.length * value bignumRadix (us.drop pre.length) := by
        conv => lhs; rw [hus]
        rw [value_append, hdrop]
      have hdm := Int.mul_ediv_add_emod (value bignumRadix (us.drop pre.length))
        (value bignumRadix vs)
      rw [value_append, hwv] at hval
      rw [value_append, hql, hU]
      simp only [value_cons, value_nil]
      rw [← hqdef] at hdm
      linear_combination hval - bignumRadix ^ pre.length * hdm

end KnuthD

end MitScheme.Microcode
