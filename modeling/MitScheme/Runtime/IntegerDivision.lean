import MitScheme.Runtime.Integer

/-! # Integer division

The division operators of `division.scm` on exact integers. Each of them splits
on the signs of its operands and divides absolute values; the quotient and the
remainder alone are computed by procedures of their own. -/

namespace MitScheme.Runtime.Arith
open Lib.Quotient

/-! ## Ceiling -/

def ceilingNegNeg (n d : Int) : Result (Int × Int) := do
  let n := 0 - n
  let d := 0 - d
  let q ← intQuotient n d
  let r ← intRemainder n d
  if r = 0 then return (q, r) else return (q + 1, d - r)

/-- The ceiling for two positive operands, `ceiling+/+`. -/
def ceilingPosPos (n d : Int) : Result (Int × Int) := do
  let q ← intQuotient n d
  let r ← intRemainder n d
  if r = 0 then return (q, r) else return (q + 1, r - d)

/-- `ceiling/`. -/
def ceilingSlash (n d : Int) : Result (Int × Int) :=
  if n < 0 ∧ d < 0 then ceilingNegNeg n d
  else if n < 0 then do
    let n := 0 - n
    return (0 - (← intQuotient n d), 0 - (← intRemainder n d))
  else if d < 0 then do
    let d := 0 - d
    return (0 - (← intQuotient n d), ← intRemainder n d)
  else ceilingPosPos n d

def ceilingQuotient (n d : Int) : Result Int :=
  if n < 0 ∧ d < 0 then do
    let (q, _) ← ceilingNegNeg n d
    return q
  else if n < 0 then do return 0 - (← intQuotient (0 - n) d)
  else if d < 0 then do return 0 - (← intQuotient n (0 - d))
  else do
    let (q, _) ← ceilingPosPos n d
    return q

def ceilingRemainder (n d : Int) : Result Int :=
  if n < 0 ∧ d < 0 then do
    let (_, r) ← ceilingNegNeg n d
    return r
  else if n < 0 then do return 0 - (← intRemainder (0 - n) d)
  else if d < 0 then intRemainder n (0 - d)
  else do
    let (_, r) ← ceilingPosPos n d
    return r

/-! ## Floor -/

def floorNegPos (n d : Int) : Result (Int × Int) := do
  let n := 0 - n
  let q ← intQuotient n d
  let r ← intRemainder n d
  if r = 0 then return (0 - q, r) else return (0 - q - 1, d - r)

def floorPosNeg (n d : Int) : Result (Int × Int) := do
  let d := 0 - d
  let q ← intQuotient n d
  let r ← intRemainder n d
  if r = 0 then return (0 - q, r) else return (0 - q - 1, r - d)

/-- `floor/`. -/
def floorSlash (n d : Int) : Result (Int × Int) :=
  if n < 0 ∧ d < 0 then do
    let n := 0 - n
    let d := 0 - d
    return (← intQuotient n d, 0 - (← intRemainder n d))
  else if n < 0 then floorNegPos n d
  else if d < 0 then floorPosNeg n d
  else do return (← intQuotient n d, ← intRemainder n d)

def floorQuotient (n d : Int) : Result Int :=
  if n < 0 ∧ d < 0 then intQuotient (0 - n) (0 - d)
  else if n < 0 then do
    let (q, _) ← floorNegPos n d
    return q
  else if d < 0 then do
    let (q, _) ← floorPosNeg n d
    return q
  else intQuotient n d

def floorRemainder (n d : Int) : Result Int :=
  if n < 0 ∧ d < 0 then do return 0 - (← intRemainder (0 - n) (0 - d))
  else if n < 0 then do
    let (_, r) ← floorNegPos n d
    return r
  else if d < 0 then do
    let (_, r) ← floorPosNeg n d
    return r
  else intRemainder n d

/-! ## Euclidean division -/

/-- `euclidean/`. -/
def euclideanSlash (n d : Int) : Result (Int × Int) :=
  if n < 0 ∧ d < 0 then ceilingNegNeg n d
  else if n < 0 then floorNegPos n d
  else if d < 0 then do
    let d := 0 - d
    return (0 - (← intQuotient n d), ← intRemainder n d)
  else do return (← intQuotient n d, ← intRemainder n d)

def euclideanQuotient (n d : Int) : Result Int :=
  if n < 0 ∧ d < 0 then do
    let (q, _) ← ceilingNegNeg n d
    return q
  else if n < 0 then do
    let (q, _) ← floorNegPos n d
    return q
  else if d < 0 then do return 0 - (← intQuotient n (0 - d))
  else intQuotient n d

def euclideanRemainder (n d : Int) : Result Int :=
  if n < 0 ∧ d < 0 then do
    let (_, r) ← ceilingNegNeg n d
    return r
  else if n < 0 then do
    let (_, r) ← floorNegPos n d
    return r
  else if d < 0 then intRemainder n (0 - d)
  else intRemainder n d

/-! ## Round, ties to even -/

/-- `divisible?`. -/
def divisible (n d : Int) : Result Bool := do return (← intRemainder n d) = 0

/-- `divide` of `round/`. -/
def roundDivide (n d : Int) (adjust leave : Int → Int → Int × Int) : Result (Int × Int) := do
  let q ← intQuotient n d
  let r ← intRemainder n d
  if r = 0 then return leave q r
  else
    let odd := (← intRemainder q 2) ≠ 0
    let even := (← intRemainder d 2) = 0
    let tie ← if odd ∧ even then divisible n (← intQuotient d 2) else pure false
    if tie ∨ d < 2 * r then return adjust (q + 1) (r - d) else return leave q r

/-- `round/`. -/
def roundSlash (n d : Int) : Result (Int × Int) :=
  if n < 0 ∧ d < 0 then
    roundDivide (0 - n) (0 - d) (fun q r => (q, 0 - r)) (fun q r => (q, 0 - r))
  else if n < 0 then
    roundDivide (0 - n) d (fun q r => (0 - q, 0 - r)) (fun q r => (0 - q, 0 - r))
  else if d < 0 then
    roundDivide n (0 - d) (fun q r => (0 - q, r)) (fun q r => (0 - q, r))
  else roundDivide n d (fun q r => (q, r)) (fun q r => (q, r))

def roundQuotient (n d : Int) : Result Int := do
  let (q, _) ← roundSlash n d
  return q

def roundRemainder (n d : Int) : Result Int := do
  let (_, r) ← roundSlash n d
  return r

/-! ## Truncate -/

/-- `truncate/`. -/
def truncateSlash (n d : Int) : Result (Int × Int) :=
  if n < 0 ∧ d < 0 then do
    let n := 0 - n
    let d := 0 - d
    return (← intQuotient n d, 0 - (← intRemainder n d))
  else if n < 0 then do
    let n := 0 - n
    return (0 - (← intQuotient n d), 0 - (← intRemainder n d))
  else if d < 0 then do
    let d := 0 - d
    return (0 - (← intQuotient n d), ← intRemainder n d)
  else do return (← intQuotient n d, ← intRemainder n d)

def truncateQuotient (n d : Int) : Result Int :=
  if n < 0 ∧ d < 0 then intQuotient (0 - n) (0 - d)
  else if n < 0 then do return 0 - (← intQuotient (0 - n) d)
  else if d < 0 then do return 0 - (← intQuotient n (0 - d))
  else intQuotient n d

def truncateRemainder (n d : Int) : Result Int :=
  if n < 0 ∧ d < 0 then do return 0 - (← intRemainder (0 - n) (0 - d))
  else if n < 0 then do return 0 - (← intRemainder (0 - n) d)
  else if d < 0 then intRemainder n (0 - d)
  else intRemainder n d

/-! ## What the three procedures of a family return -/

/-- The three procedures of a family agree on a quotient and a remainder that
make up the dividend and meet `spec`. -/
def Family (slash : Int → Int → Result (Int × Int)) (quotient remainder : Int → Int → Result Int)
    (n d : Int) (spec : Int → Int → Prop) : Prop :=
  ∃ q r, slash n d = .ok (q, r) ∧ quotient n d = .ok q ∧ remainder n d = .ok r ∧
    n = d * q + r ∧ spec q r

theorem Family.imp {slash quotient remainder n d} {spec spec' : Int → Int → Prop}
    (h : Family slash quotient remainder n d spec)
    (himp : ∀ q r, n = d * q + r → spec q r → spec' q r) :
    Family slash quotient remainder n d spec' := by
  obtain ⟨q, r, hslash, hq, hr, hn, hspec⟩ := h
  exact ⟨q, r, hslash, hq, hr, hn, himp q r hn hspec⟩

theorem quotient_remainder {n d : Int} (hn : 0 ≤ n) (hd : 0 < d) : ∃ q r,
    intQuotient n d = .ok q ∧ intRemainder n d = .ok r ∧ n = d * q + r ∧ 0 ≤ r ∧ r < d := by
  have hd' : d ≠ 0 := by omega
  obtain ⟨h, hr, hp, -⟩ := tdiv_parts n hd'
  exact ⟨_, _, intQuotient_ok hd', intRemainder_ok hd', h, hp hn, by omega⟩

section Families
variable {n d : Int}

theorem quotient_remainder_abs (hd : d ≠ 0) : ∃ q r,
    intQuotient (if n < 0 then 0 - n else n) (if d < 0 then 0 - d else d) = .ok q ∧
    intRemainder (if n < 0 then 0 - n else n) (if d < 0 then 0 - d else d) = .ok r ∧
    (if n < 0 then 0 - n else n) = (if d < 0 then 0 - d else d) * q + r ∧
    0 ≤ r ∧ r < (if d < 0 then 0 - d else d) :=
  quotient_remainder (by split <;> omega) (by split <;> omega)

theorem ceiling_family (hd : d ≠ 0) : Family ceilingSlash ceilingQuotient ceilingRemainder n d
    (fun q _ => q = ⌈(n : ℚ) / d⌉) := by
  suffices h : Family ceilingSlash ceilingQuotient ceilingRemainder n d fun _ r =>
      -d < r ∧ r ≤ 0 ∨ 0 ≤ r ∧ r < -d from h.imp fun q r hn hr => (ceil_eq hd hn hr).symm
  unfold ceilingSlash ceilingQuotient ceilingRemainder ceilingNegNeg ceilingPosPos
  obtain ⟨q, r, hq, hr, h, h0, h1⟩ := quotient_remainder_abs (n := n) hd
  by_cases hn : n < 0 <;> by_cases hneg : d < 0 <;>
    simp only [hn, hneg, if_true, if_false] at hq hr h h1 <;>
    simp only [Family, hn, hneg, and_self, and_false, false_and, if_true, if_false, hq, hr, bind,
      Except.bind]
  · split <;> exact ⟨_, _, rfl, rfl, rfl, by linarith, by omega⟩
  · exact ⟨_, _, rfl, rfl, rfl, by linarith, by omega⟩
  · exact ⟨_, _, rfl, rfl, rfl, by linarith, by omega⟩
  · split <;> exact ⟨_, _, rfl, rfl, rfl, by linarith, by omega⟩

theorem floor_family (hd : d ≠ 0) : Family floorSlash floorQuotient floorRemainder n d
    (fun q _ => q = ⌊(n : ℚ) / d⌋) := by
  suffices h : Family floorSlash floorQuotient floorRemainder n d fun _ r =>
      0 ≤ r ∧ r < d ∨ d < r ∧ r ≤ 0 from h.imp fun q r hn hr => (floor_eq hd hn hr).symm
  unfold floorSlash floorQuotient floorRemainder floorNegPos floorPosNeg
  obtain ⟨q, r, hq, hr, h, h0, h1⟩ := quotient_remainder_abs (n := n) hd
  by_cases hn : n < 0 <;> by_cases hneg : d < 0 <;>
    simp only [hn, hneg, if_true, if_false] at hq hr h h1 <;>
    simp only [Family, hn, hneg, and_self, and_false, false_and, if_true, if_false, hq, hr, bind,
      Except.bind]
  · exact ⟨_, _, rfl, rfl, rfl, by linarith, by omega⟩
  · split <;> exact ⟨_, _, rfl, rfl, rfl, by linarith, by omega⟩
  · split <;> exact ⟨_, _, rfl, rfl, rfl, by linarith, by omega⟩
  · exact ⟨_, _, rfl, rfl, rfl, by linarith, by omega⟩

theorem truncate_family (hd : d ≠ 0) : Family truncateSlash truncateQuotient truncateRemainder n d
    (fun q _ => q = truncation ((n : ℚ) / d)) := by
  suffices h : Family truncateSlash truncateQuotient truncateRemainder n d fun _ r =>
      r.natAbs < d.natAbs ∧ (0 ≤ n ∧ 0 ≤ r ∨ n ≤ 0 ∧ r ≤ 0) by
    refine h.imp fun q r hn hr => (truncation_eq hd hn ?_ hr.2).symm
    rw [Int.abs_eq_natAbs, Int.abs_eq_natAbs]
    exact Int.ofNat_lt.mpr hr.1
  unfold truncateSlash truncateQuotient truncateRemainder
  obtain ⟨q, r, hq, hr, h, h0, h1⟩ := quotient_remainder_abs (n := n) hd
  by_cases hn : n < 0 <;> by_cases hneg : d < 0 <;>
    simp only [hn, hneg, if_true, if_false] at hq hr h h1 <;>
    simp only [Family, hn, hneg, and_self, and_false, false_and, if_true, if_false, hq, hr, bind,
      Except.bind]
  · exact ⟨_, _, rfl, rfl, rfl, by linarith, by omega⟩
  · exact ⟨_, _, rfl, rfl, rfl, by linarith, by omega⟩
  · exact ⟨_, _, rfl, rfl, rfl, by linarith, by omega⟩
  · exact ⟨_, _, rfl, rfl, rfl, by linarith, by omega⟩

theorem euclidean_family (hd : d ≠ 0) : Family euclideanSlash euclideanQuotient euclideanRemainder
    n d (fun _ r => 0 ≤ r ∧ r < |d|) := by
  suffices h : Family euclideanSlash euclideanQuotient euclideanRemainder n d fun _ r =>
      0 ≤ r ∧ r < d.natAbs from h.imp fun q r _ hr => by rwa [Int.abs_eq_natAbs]
  unfold euclideanSlash euclideanQuotient euclideanRemainder ceilingNegNeg floorNegPos
  obtain ⟨q, r, hq, hr, h, h0, h1⟩ := quotient_remainder_abs (n := n) hd
  by_cases hn : n < 0 <;> by_cases hneg : d < 0 <;>
    simp only [hn, hneg, if_true, if_false] at hq hr h h1 <;>
    simp only [Family, hn, hneg, and_self, and_false, false_and, if_true, if_false, hq, hr, bind,
      Except.bind]
  · split <;> exact ⟨_, _, rfl, rfl, rfl, by linarith, by omega⟩
  · split <;> exact ⟨_, _, rfl, rfl, rfl, by linarith, by omega⟩
  · exact ⟨_, _, rfl, rfl, rfl, by linarith, by omega⟩
  · exact ⟨_, _, rfl, rfl, rfl, by linarith, by omega⟩

theorem half_dvd_iff {m q r : Int} (h : n = 2 * m * q + r) (h0 : 0 < r) (h1 : r < 2 * m) :
    m ∣ n ↔ r = m := by
  constructor
  · intro hd
    obtain ⟨k, hk⟩ : m ∣ r := by
      have hq : m ∣ 2 * m * q := ⟨2 * q, by ring⟩
      rw [h] at hd
      exact (Int.dvd_iff_dvd_of_dvd_add hd).mp hq
    have hk1 : k = 1 := by nlinarith
    rw [hk, hk1, mul_one]
  · intro he
    exact ⟨2 * q + 1, by rw [h, he]; ring⟩

theorem roundDivide_ok {f : Int → Int → Int × Int} (hn : 0 ≤ n) (hd : 0 < d) :
    ∃ q r, roundDivide n d f f = .ok (f q r) ∧ n = d * q + r ∧
      (2 * r.natAbs < d.natAbs ∨ 2 * r.natAbs = d.natAbs ∧ Even q) := by
  obtain ⟨q, r, hq, hr, h, h0, h1⟩ := quotient_remainder hn hd
  have htwo : ∀ k : Int, k.tmod 2 = 0 ↔ Even k := fun k => by
    rw [even_iff_two_dvd]
    exact ⟨Int.dvd_of_tmod_eq_zero, Int.tmod_eq_zero_of_dvd⟩
  simp only [roundDivide, hq, hr, intRemainder_ok two_ne_zero, intQuotient_ok two_ne_zero,
    bind, Except.bind, htwo, ne_eq, pure, Except.pure]
  by_cases hz : r = 0
  · rw [if_pos hz]
    exact ⟨q, r, rfl, h, .inl (by omega)⟩
  rw [if_neg hz]
  by_cases hodd : ¬ Even q ∧ Even d
  · obtain ⟨hoddq, m, hm⟩ := hodd
    have hhalf : d.tdiv 2 = m := by
      rw [Int.tdiv_eq_ediv_of_nonneg hd.le]
      omega
    have htie : m ∣ n ↔ r = m :=
      half_dvd_iff (show n = 2 * m * q + r by rw [h, hm]; ring) (by omega) (by omega)
    have hdiv : divisible n m = .ok (decide (r = m)) := by
      rw [divisible, intRemainder_ok (by omega)]
      show Except.ok _ = _
      congr 1
      rw [decide_eq_decide, ← htie]
      exact ⟨Int.dvd_of_tmod_eq_zero, Int.tmod_eq_zero_of_dvd⟩
    rw [if_pos ⟨hoddq, m, hm⟩, hhalf, hdiv]
    simp only [decide_eq_true_eq]
    by_cases hc : r = m ∨ d < 2 * r
    · rw [if_pos hc]
      refine ⟨q + 1, r - d, rfl, by rw [h]; ring, ?_⟩
      by_cases ht : r = m
      · exact .inr ⟨by omega, Int.even_add_one.mpr hoddq⟩
      · exact .inl (by omega)
    · rw [if_neg hc]
      exact ⟨q, r, rfl, h, .inl (by omega)⟩
  · rw [if_neg hodd]
    simp only [Bool.false_eq_true, false_or]
    by_cases hc : d < 2 * r
    · rw [if_pos hc]
      exact ⟨q + 1, r - d, rfl, by rw [h]; ring, .inl (by omega)⟩
    · rw [if_neg hc]
      refine ⟨q, r, rfl, h, ?_⟩
      by_cases ht : 2 * r = d
      · exact .inr ⟨by omega, not_not.mp fun ho => hodd ⟨ho, r, by omega⟩⟩
      · exact .inl (by omega)

theorem round_family (hd : d ≠ 0) : Family roundSlash roundQuotient roundRemainder n d
    (fun q _ => NearestEven ((n : ℚ) / d) q) := by
  suffices h : ∃ q r, roundSlash n d = .ok (q, r) ∧ n = d * q + r ∧
      (2 * r.natAbs < d.natAbs ∨ 2 * r.natAbs = d.natAbs ∧ Even q) by
    obtain ⟨q, r, h1, h2, h3⟩ := h
    refine ⟨q, r, h1, by rw [roundQuotient, h1]; rfl, by rw [roundRemainder, h1]; rfl, h2, ?_⟩
    refine nearestEven_of_rem hd h2 ?_
    rw [Int.abs_eq_natAbs, Int.abs_eq_natAbs]
    exact_mod_cast h3
  unfold roundSlash
  by_cases hn : n < 0 <;> by_cases hneg : d < 0
  · obtain ⟨q, r, hq, h, hr⟩ := roundDivide_ok (f := fun q r => (q, 0 - r))
      (show 0 ≤ 0 - n by omega) (show 0 < 0 - d by omega)
    rw [if_pos ⟨hn, hneg⟩, hq]
    exact ⟨_, _, rfl, by linarith, by simpa using hr⟩
  · obtain ⟨q, r, hq, h, hr⟩ := roundDivide_ok (f := fun q r => (0 - q, 0 - r))
      (show 0 ≤ 0 - n by omega) (show 0 < d by omega)
    rw [if_neg (by omega), if_pos hn, hq]
    exact ⟨_, _, rfl, by linarith, by simpa [even_neg] using hr⟩
  · obtain ⟨q, r, hq, h, hr⟩ := roundDivide_ok (f := fun q r => (0 - q, r))
      (show 0 ≤ n by omega) (show 0 < 0 - d by omega)
    rw [if_neg (by omega), if_neg hn, if_pos hneg, hq]
    exact ⟨_, _, rfl, by linarith, by simpa [even_neg] using hr⟩
  · obtain ⟨q, r, hq, h, hr⟩ := roundDivide_ok (f := fun q r => (q, r))
      (show 0 ≤ n by omega) (show 0 < d by omega)
    rw [if_neg (by omega), if_neg hn, if_neg hneg, hq]
    exact ⟨_, _, rfl, h, hr⟩

/-- **Division**: every family returns the quotient that its name promises and the
remainder that goes with it, and the integer roundings of the generic arithmetic
return the same. -/
theorem division_families (n d : Int) (hd : d ≠ 0) :
    Family floorSlash floorQuotient floorRemainder n d (fun q r => q = ⌊(n : ℚ) / d⌋ ∧
      intFloor n d = .ok q ∧ intModulo n d = .ok r) ∧
    Family ceilingSlash ceilingQuotient ceilingRemainder n d (fun q _ => q = ⌈(n : ℚ) / d⌉ ∧
      intCeiling n d = .ok q) ∧
    Family truncateSlash truncateQuotient truncateRemainder n d (fun q r =>
      q = truncation ((n : ℚ) / d) ∧ intQuotient n d = .ok q ∧ intRemainder n d = .ok r) ∧
    Family roundSlash roundQuotient roundRemainder n d (fun q _ =>
      NearestEven ((n : ℚ) / d) q ∧ intRound n d = .ok q) ∧
    Family euclideanSlash euclideanQuotient euclideanRemainder n d (fun _ r => 0 ≤ r ∧ r < |d|) := by
  refine ⟨?_, ?_, ?_, ?_, euclidean_family hd⟩
  · obtain ⟨q, r, h1, h2, h3, h4, h5⟩ := floor_family (n := n) hd
    refine ⟨q, r, h1, h2, h3, h4, h5, by rw [intFloor_ok hd, h5], ?_⟩
    rw [intModulo_ok hd, ← h5]
    congr 1
    omega
  · obtain ⟨q, r, h1, h2, h3, h4, h5⟩ := ceiling_family (n := n) hd
    exact ⟨q, r, h1, h2, h3, h4, h5, by rw [intCeiling_ok hd, h5]⟩
  · obtain ⟨q, r, h1, h2, h3, h4, h5⟩ := truncate_family (n := n) hd
    have hq : intQuotient n d = .ok q := by rw [intQuotient_truncates hd, h5]
    refine ⟨q, r, h1, h2, h3, h4, h5, hq, ?_⟩
    rw [intQuotient_ok hd, Except.ok.injEq] at hq
    obtain ⟨hn, -⟩ := tdiv_parts n hd
    rw [intRemainder_ok hd]
    congr 1
    rw [hq] at hn
    omega
  · obtain ⟨q, r, h1, h2, h3, h4, h5⟩ := round_family (n := n) hd
    obtain ⟨k, hk, hk'⟩ := intRound_ok (n := n) hd
    refine ⟨q, r, h1, h2, h3, h4, h5, ?_⟩
    rw [hk, h5.unique hk']

/-- A division with a negative divisor and a remainder. -/
theorem division_families_seven : ⌊(7 : ℚ) / -2⌋ = -4 ∧ floorSlash 7 (-2) = .ok (-4, -1) := by
  obtain ⟨⟨q, r, h1, -, -, -, h5, -⟩, -⟩ := division_families 7 (-2) (by decide)
  have hq : floorSlash 7 (-2) = .ok (-4, -1) := by decide
  rw [hq, Except.ok.injEq, Prod.mk.injEq] at h1
  refine ⟨?_, hq⟩
  rw [h1.1, h5]
  norm_num

end Families

end MitScheme.Runtime.Arith
