import MitScheme.Runtime.Integer
import MitScheme.Microcode.BignumConvert

/-! # Integer square roots and modular powers

`exact-integer-sqrt`, `fxsqrt` and `modexp` of `primitive-arithmetic.scm`. The
square root is Newton's iteration from above; on fixnums every intermediate
value has to be a fixnum again. -/

namespace MitScheme.Runtime.Arith
open Lib.Outcome

/-! ## Square roots -/

/-- The loop of `exact-integer-sqrt`. -/
def sqrtLoop (n i : Nat) : Result (Nat × Int) :=
  -- the quotient signals an error for a zero divisor
  if i = 0 then .error .divideByZero
  else
    let j := (i + n / i) / 2
    if j ≥ i then .ok (i, n - i * i) else sqrtLoop n j

def exactIntegerSqrt (n : Nat) : Result (Nat × Int) :=
  if n = 0 then .ok (0, 0)
  else
    let nBits := n.size
    sqrtLoop n (1 <<< if nBits % 2 = 0 then nBits / 2 else nBits / 2 + 1)

/-- A fixnum: the integers of `FIXNUM_LENGTH` bits and a sign. -/
structure Fixnum where
  val : Int
  least : -2 ^ Microcode.fixnumLength ≤ val
  greatest : val < 2 ^ Microcode.fixnumLength

def fixnum (v : Int) : Result Fixnum :=
  if h : -2 ^ Microcode.fixnumLength ≤ v ∧ v < 2 ^ Microcode.fixnumLength then .ok ⟨v, h.1, h.2⟩
  else .error .notFixnum

/-- `fx+`. -/
def fxPlus (n m : Fixnum) : Result Fixnum := fixnum (n.val + m.val)

/-- `fx-`. -/
def fxMinus (n m : Fixnum) : Result Fixnum := fixnum (n.val - m.val)

/-- `fx*`. -/
def fxTimes (n m : Fixnum) : Result Fixnum := fixnum (n.val * m.val)

def fxQuotient (n d : Fixnum) : Result Fixnum :=
  if d.val = 0 then .error .divideByZero else fixnum (n.val.tdiv d.val)

def fxLength (n : Fixnum) : Result Fixnum :=
  fixnum (if n.val < 0 then (-1 - n.val) else n.val).toNat.size

def fxArithmeticShiftLeft (n shift : Fixnum) : Result Fixnum :=
  fixnum (n.val * 2 ^ shift.val.toNat)

/-- `fxeven?`. -/
def fxEven (n : Fixnum) : Bool := n.val % 2 = 0

/-- The loop of `fxsqrt`. -/
def fxsqrtLoop (n i : Fixnum) : Result (Fixnum × Fixnum) := do
  let two ← fixnum 2
  let j ← fxQuotient (← fxPlus i (← fxQuotient n i)) two
  if _h : j.val ≥ i.val then return (i, ← fxMinus n (← fxTimes i i))
  else fxsqrtLoop n j
termination_by (i.val + 2 ^ Microcode.fixnumLength).toNat
decreasing_by
  have := j.least
  omega

def fxsqrt (n : Fixnum) : Result (Fixnum × Fixnum) := do
  if n.val = 0 then return (n, n)
  else
    let one ← fixnum 1
    let two ← fixnum 2
    let nBits ← fxLength n
    let half ← if fxEven nBits then fxQuotient nBits two else fxPlus (← fxQuotient nBits two) one
    fxsqrtLoop n (← fxArithmeticShiftLeft one half)

/-! ## Modular powers -/

/-- The loop of `modexp`. -/
def modexpLoop (n : Nat) (r b : Int) (f : Nat) : Result Int := do
  let r ← if f % 2 = 0 then pure r else intModulo (r * b) n
  if _h : f / 2 = 0 then return r
  else modexpLoop n r (← intModulo (b * b) n) (f / 2)
termination_by f

def modexp (a : Int) (e n : Nat) : Result Int :=
  if e = 0 then .ok 1
  else do modexpLoop n 1 (← intModulo a n) e

/-! ## The roots -/

theorem sqrt_le_step {n i : Nat} (hi : 0 < i) : n.sqrt ≤ (i + n / i) / 2 := by
  have hs := Nat.sqrt_le n
  have hdiv : 2 * n.sqrt - i ≤ n / i := by
    rw [Nat.le_div_iff_mul_le hi]
    rcases le_total (2 * n.sqrt) i with h | h
    · rw [Nat.sub_eq_zero_of_le h, zero_mul]
      exact Nat.zero_le n
    · zify [h] at hs ⊢
      nlinarith [sq_nonneg ((n.sqrt : Int) - i)]
  omega

theorem eq_sqrt_of_step {n i : Nat} (hi : 0 < i) (hs : n.sqrt ≤ i)
    (hj : i ≤ (i + n / i) / 2) : i = n.sqrt := by
  refine le_antisymm ?_ hs
  rw [Nat.le_sqrt, ← Nat.le_div_iff_mul_le hi]
  omega

theorem sqrt_remainder (n : Nat) :
    0 ≤ (n : Int) - n.sqrt * n.sqrt ∧ (n : Int) - n.sqrt * n.sqrt ≤ 2 * n.sqrt := by
  have h1 := Nat.sqrt_le n
  have h2 := Nat.sqrt_le_add n
  omega

theorem sqrtLoop_ok {n} (hn : 0 < n) (i : Nat) (hs : n.sqrt ≤ i) :
    sqrtLoop n i = .ok (n.sqrt, n - n.sqrt * n.sqrt) := by
  induction i using Nat.strong_induction_on with
  | _ i ih =>
    have hi : 0 < i := lt_of_lt_of_le (Nat.sqrt_pos.mpr hn) hs
    rw [sqrtLoop, if_neg (by omega)]
    simp only
    split
    · rename_i hj
      rw [← eq_sqrt_of_step hi hs hj]
    · rename_i hj
      exact ih _ (by omega) (sqrt_le_step hi)

def guessBits (n : Nat) : Nat := if n.size % 2 = 0 then n.size / 2 else n.size / 2 + 1

theorem sqrt_le_guess (n : Nat) : n.sqrt ≤ 2 ^ guessBits n := by
  have hlt : n < 2 ^ guessBits n * 2 ^ guessBits n := by
    rw [← pow_add]
    refine lt_of_lt_of_le (Nat.lt_size_self n) (Nat.pow_le_pow_right (by omega) ?_)
    unfold guessBits
    split <;> omega
  exact (Nat.sqrt_lt.mpr hlt).le

theorem exactIntegerSqrt_ok (n : Nat) :
    exactIntegerSqrt n = .ok (n.sqrt, n - n.sqrt * n.sqrt) := by
  rw [exactIntegerSqrt]
  split
  · rename_i hn
    rw [hn]
    rfl
  · rename_i hn
    refine sqrtLoop_ok (by omega) _ ?_
    rw [Nat.one_shiftLeft]
    exact sqrt_le_guess n

/-! ## Square roots of fixnums -/

theorem fixnum_ok {v} (h1 : -2 ^ 57 ≤ v) (h2 : v < 2 ^ 57) :
    ∃ f, fixnum v = .ok f ∧ f.val = v := ⟨⟨v, h1, h2⟩, dif_pos ⟨h1, h2⟩, rfl⟩

theorem fixnum_nat {k : Nat} (h : k < 2 ^ 57) : ∃ f, fixnum k = .ok f ∧ f.val = k :=
  fixnum_ok (by omega) (by omega)

theorem guess_le {n} (hn : n < 2 ^ 57) : 2 ^ guessBits n ≤ 2 ^ 29 := by
  have hs : n.size ≤ 57 := Nat.size_le.mpr hn
  refine Nat.pow_le_pow_right (by omega) ?_
  unfold guessBits
  split <;> omega

theorem div_le_sqrt {n i : Nat} (hi : 0 < i) (hs : n.sqrt ≤ i) : n / i ≤ n.sqrt + 2 := by
  have hle := Nat.sqrt_le_add n
  have hmul : n.sqrt * n.sqrt ≤ n.sqrt * i := Nat.mul_le_mul_left _ hs
  refine Nat.le_of_lt_succ ((Nat.div_lt_iff_lt_mul hi).mpr ?_)
  nlinarith

theorem fxsqrtLoop_ok {n : Fixnum} {m : Nat} (hn : n.val = m) (hm : 0 < m) (k : Nat) (i : Fixnum)
    (hi : i.val = k) (hs : m.sqrt ≤ k) (hk : k ≤ 2 ^ 29) : ∃ s r, fxsqrtLoop n i = .ok (s, r) ∧
      s.val = m.sqrt ∧ r.val = m - m.sqrt * m.sqrt := by
  induction k using Nat.strong_induction_on generalizing i with
  | _ k ih =>
    have hpos : 0 < k := lt_of_lt_of_le (Nat.sqrt_pos.mpr hm) hs
    have hquot := div_le_sqrt hpos hs
    obtain ⟨two, htwo, hv2⟩ := fixnum_ok (v := 2) (by norm_num) (by norm_num)
    obtain ⟨q, hq, hvq⟩ := fixnum_nat (k := m / k) (by omega)
    obtain ⟨sum, hsum, hvs⟩ := fixnum_nat (k := k + m / k) (by omega)
    obtain ⟨j, hj, hvj⟩ := fixnum_nat (k := (k + m / k) / 2) (by omega)
    have e1 : fxQuotient n i = .ok q := by
      rw [fxQuotient, if_neg (by omega), ← hq, hn, hi, ← Int.ofNat_tdiv]
    have e2 : fxPlus i q = .ok sum := by
      rw [fxPlus, ← hsum, hi, hvq, Int.natCast_add]
    have e3 : fxQuotient sum two = .ok j := by
      rw [fxQuotient, if_neg (by omega), ← hj, hvs, hv2, Int.ofNat_tdiv]
      rfl
    rw [fxsqrtLoop]
    simp only [htwo, e1, e2, e3, bind, Except.bind]
    split
    · rename_i hge
      have hk' : k = m.sqrt := eq_sqrt_of_step hpos hs (by omega)
      have hsq := Nat.sqrt_le m
      have hrem := sqrt_remainder m
      have hlt := n.greatest
      simp only [hn, Microcode.fixnumLength] at hlt
      obtain ⟨p, hp, hvp⟩ := fixnum_nat (k := m.sqrt * m.sqrt) (by omega)
      obtain ⟨r, hr, hvr⟩ := fixnum_ok (v := (m : Int) - m.sqrt * m.sqrt) (by omega) (by omega)
      have e4 : fxTimes i i = .ok p := by rw [fxTimes, hi, hk', ← hp, Int.natCast_mul]
      have e5 : fxMinus n p = .ok r := by rw [fxMinus, hn, hvp, Int.natCast_mul, hr]
      rw [e4]
      simp only [e5]
      exact ⟨i, r, rfl, by rw [hi, hk'], hvr⟩
    · rename_i hlt
      exact ih _ (by omega) j hvj (sqrt_le_step hpos) (by omega)

theorem fxsqrt_ok {n : Fixnum} {m : Nat} (hn : n.val = m) : ∃ s r, fxsqrt n = .ok (s, r) ∧
    s.val = m.sqrt ∧ r.val = m - m.sqrt * m.sqrt := by
  rw [fxsqrt]
  split
  · rename_i h0
    have hm : m = 0 := by omega
    rw [hm]
    exact ⟨n, n, rfl, by simpa using h0, by simpa using h0⟩
  · rename_i h0
    have hlt : m < 2 ^ 57 := by
      have := n.greatest
      simp only [Microcode.fixnumLength] at this
      omega
    have hsize : m.size ≤ 57 := Nat.size_le.mpr hlt
    obtain ⟨one, hone, hv1⟩ := fixnum_ok (v := 1) (by norm_num) (by norm_num)
    obtain ⟨two, htwo, hv2⟩ := fixnum_ok (v := 2) (by norm_num) (by norm_num)
    obtain ⟨bits, hbits, hvb⟩ := fixnum_nat (k := m.size) (by omega)
    obtain ⟨low, hlow, hvl⟩ := fixnum_nat (k := m.size / 2) (by omega)
    have hg := guess_le hlt
    obtain ⟨guess, hguess, hvg⟩ := fixnum_nat (k := 2 ^ guessBits m) (by omega)
    have e1 : fxLength n = .ok bits := by
      rw [fxLength, if_neg (by omega), hn, Int.toNat_natCast, hbits]
    have e2 : fxQuotient bits two = .ok low := by
      rw [fxQuotient, if_neg (by omega), ← hlow, hvb, hv2, Int.ofNat_tdiv,
        Nat.cast_ofNat]
    have e3 : ∀ half : Fixnum, half.val = guessBits m →
        fxArithmeticShiftLeft one half = .ok guess := fun half hvh => by
      rw [fxArithmeticShiftLeft, hv1, hvh, ← hguess, Int.toNat_natCast, one_mul, Nat.cast_pow,
        Nat.cast_ofNat]
    simp only [hone, htwo, e1, e2, ok_bind]
    by_cases he : m.size % 2 = 0
    · have heven : fxEven bits = true := by
        rw [fxEven, hvb, decide_eq_true_eq]
        omega
      simp only [heven, if_true]
      rw [e3 low (by rw [hvl, guessBits, if_pos he])]
      exact fxsqrtLoop_ok hn (by omega) _ guess hvg (sqrt_le_guess m) hg
    · have hodd : fxEven bits = false := by
        rw [fxEven, hvb, decide_eq_false_iff_not]
        omega
      obtain ⟨half, hhalf, hvh⟩ := fixnum_nat (k := m.size / 2 + 1) (by omega)
      have e4 : fxPlus low one = .ok half := by
        rw [fxPlus, hvl, hv1, ← hhalf, Nat.cast_add, Nat.cast_one]
      simp only [hodd, Bool.false_eq_true, if_false, e4, ok_bind]
      rw [e3 half (by rw [hvh, guessBits, if_neg he])]
      exact fxsqrtLoop_ok hn (by omega) _ guess hvg (sqrt_le_guess m) hg

/-! ## The powers -/

theorem modexpLoop_ok {n} (hn : 0 < n) (f : Nat) (r b : Int) (hf : 0 < f) :
    modexpLoop n r b f = .ok (r * b ^ f % n) := by
  have hn' : (0 : Int) < n := by exact_mod_cast hn
  induction f using Nat.strong_induction_on generalizing r b with
  | _ f ih =>
    rw [modexpLoop]
    simp only [intModulo_pos hn', bind, Except.bind, pure, Except.pure]
    by_cases hhalf : f / 2 = 0
    · have hone : f = 1 := by omega
      simp [hone]
    · have hsq : (b * b % n) ^ (f / 2) ≡ (b * b) ^ (f / 2) [ZMOD n] := (Int.mod_modEq _ _).pow _
      by_cases heven : f % 2 = 0
      · simp only [heven, hhalf, if_true, dif_neg, not_false_iff]
        rw [ih _ (by omega) r _ (by omega)]
        congr 1
        have hpow : (b * b) ^ (f / 2) = b ^ f := by
          rw [← pow_two, ← pow_mul]
          congr 1
          omega
        rw [hpow] at hsq
        exact hsq.mul_left r
      · simp only [heven, hhalf, if_false, dif_neg, not_false_iff]
        rw [ih _ (by omega) _ _ (by omega)]
        congr 1
        have hpow : r * b * (b * b) ^ (f / 2) = r * b ^ f := by
          rw [mul_assoc, ← pow_two, ← pow_mul, ← pow_succ']
          congr 2
          omega
        rw [← hpow]
        exact (Int.mod_modEq _ _).mul hsq

theorem modexp_ok {n} (hn : 0 < n) (a : Int) {e} (he : 0 < e) : modexp a e n = .ok (a ^ e % n) := by
  have hn' : (0 : Int) < n := by exact_mod_cast hn
  rw [modexp, if_neg (by omega), intModulo_pos hn']
  show modexpLoop n 1 (a % n) e = _
  rw [modexpLoop_ok hn e _ _ he, one_mul]
  congr 1
  exact (Int.mod_modEq a n).pow e

/-- What the three procedures promise: a root with its remainder, the same root
of a fixnum, and the residue of the power. -/
structure RootsAndPowers (m : Nat) (k : Fixnum) (a : Int) (e n : Nat) : Prop where
  root : ∃ s r, exactIntegerSqrt m = .ok (s, r) ∧ (m : Int) = s * s + r ∧ 0 ≤ r ∧ r ≤ 2 * s
  fixnumRoot : ∃ s r i j, fxsqrt k = .ok (s, r) ∧ exactIntegerSqrt k.val.toNat = .ok (i, j) ∧
    s.val = i ∧ r.val = j
  power : ∃ v, modexp a e n = .ok v ∧ v = a ^ e % n ∧ 0 ≤ v ∧ v < n

/-- **Roots and powers**: the square roots always keep their promise, and the
modular power keeps it unless it returns the unreduced 1 for exponent 0 and modulus 1. -/
theorem roots_and_powers_iff (m : Nat) (k : Fixnum) (hk : 0 ≤ k.val) (a : Int) (e n : Nat)
    (hn : 1 ≤ n) : RootsAndPowers m k a e n ↔ e ≠ 0 ∨ n ≠ 1 := by
  have hn' : (0 : Int) < n := by exact_mod_cast hn
  constructor
  · intro h
    by_contra hc
    obtain ⟨he, hone⟩ : e = 0 ∧ n = 1 := by omega
    obtain ⟨v, hv, -, -, hlt⟩ := h.power
    rw [modexp, if_pos he, Except.ok.injEq] at hv
    omega
  · intro h
    refine ⟨?_, ?_, ?_⟩
    · exact ⟨_, _, exactIntegerSqrt_ok m, by ring, sqrt_remainder m⟩
    · obtain ⟨s, r, hsr, hs, hr⟩ := fxsqrt_ok (Int.toNat_of_nonneg hk).symm
      exact ⟨s, r, _, _, hsr, exactIntegerSqrt_ok _, hs, hr⟩
    · by_cases he : e = 0
      · refine ⟨1, by rw [modexp, if_pos he], ?_, by omega, by omega⟩
        rw [he, pow_zero, Int.emod_eq_of_lt (by omega) (by omega)]
      · exact ⟨_, modexp_ok hn a (by omega), rfl, Int.emod_nonneg _ (by omega),
          Int.emod_lt_of_pos _ hn'⟩

/-- The largest fixnum and an exponent of 0. -/
theorem roots_and_powers_largest : ∃ k : Fixnum, k.val = 2 ^ 57 - 1 ∧ RootsAndPowers 10 k 3 0 2 :=
  ⟨⟨2 ^ 57 - 1, by decide, by decide⟩, rfl,
    (roots_and_powers_iff 10 ⟨2 ^ 57 - 1, by decide, by decide⟩ (by decide) 3 0 2 (by decide)).mpr
      (.inr (by decide))⟩

/-- `(modexp 5 0 1)` is 1, which is no residue modulo 1. -/
theorem modexp_zero_one : ¬ ∀ (a : Int) (e n : Nat), 1 ≤ n →
    ∃ v, modexp a e n = .ok v ∧ v = a ^ e % n ∧ 0 ≤ v ∧ v < n := by
  intro h
  obtain ⟨v, hv, -, -, hlt⟩ := h 5 0 1 (by decide)
  rw [modexp, if_pos rfl, Except.ok.injEq] at hv
  omega

end MitScheme.Runtime.Arith
