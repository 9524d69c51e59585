import Mathlib.Data.Int.Bitwise
import Mathlib.Data.Nat.Digits.Defs

/-! # Positional numerals over the integers

A numeral is a list of digits, least significant first. Digits are integers,
so that borrows can be written as the code computes them; `Digits b` says
they lie in `[0, b)`. The last section has the arithmetic of one quotient
digit of long division: what the three leading digits of the dividend and
the two leading digits of the divisor say about the true digit. -/

namespace MitScheme.Lib.Radix

def value (b : Int) : List Int → Int
  | [] => 0
  | d :: ds => d + b * value b ds

def Digits (b : Int) (ds : List Int) : Prop := ∀ d ∈ ds, 0 ≤ d ∧ d < b

variable {b : Int} {xs ys ds : List Int} {d : Int}

@[simp] theorem value_nil : value b [] = 0 := rfl

@[simp] theorem value_cons : value b (d :: ds) = d + b * value b ds := rfl

theorem value_append : value b (xs ++ ys) = value b xs + b ^ xs.length * value b ys := by
  induction xs with
  | nil => simp
  | cons x xs ih => simp only [List.cons_append, value_cons, ih, List.length_cons, pow_succ]; ring

@[simp] theorem value_replicate_zero (n : Nat) : value b (List.replicate n 0) = 0 := by
  induction n with
  | zero => rfl
  | succ n ih => simp [List.replicate_succ, ih]

@[simp] theorem digits_nil : Digits b [] := by simp [Digits]

@[simp] theorem digits_cons : Digits b (d :: ds) ↔ (0 ≤ d ∧ d < b) ∧ Digits b ds := by
  simp [Digits]

@[simp] theorem digits_append : Digits b (xs ++ ys) ↔ Digits b xs ∧ Digits b ys := by
  simp only [Digits, List.mem_append]
  exact ⟨fun h => ⟨fun d hd => h d (.inl hd), fun d hd => h d (.inr hd)⟩,
    fun h d hd => hd.elim (h.1 d) (h.2 d)⟩

theorem digits_replicate_zero (hb : 0 < b) (n : Nat) : Digits b (List.replicate n 0) := by
  intro d hd
  obtain rfl := List.eq_of_mem_replicate hd
  exact ⟨le_refl 0, hb⟩

theorem Digits.take (h : Digits b ds) (n : Nat) : Digits b (ds.take n) :=
  fun d hd => h d (List.mem_of_mem_take hd)

theorem Digits.drop (h : Digits b ds) (n : Nat) : Digits b (ds.drop n) :=
  fun d hd => h d (List.mem_of_mem_drop hd)

section
variable (hb : 0 < b)
include hb

theorem value_nonneg (h : Digits b ds) : 0 ≤ value b ds := by
  induction ds with
  | nil => simp
  | cons d ds ih =>
    obtain ⟨hd, h⟩ := digits_cons.mp h
    have := mul_nonneg hb.le (ih h)
    simp only [value_cons]; omega

theorem value_lt_pow (h : Digits b ds) : value b ds < b ^ ds.length := by
  induction ds with
  | nil => simp
  | cons d ds ih =>
    obtain ⟨hd, h⟩ := digits_cons.mp h
    have h1 : b * (value b ds + 1) ≤ b * b ^ ds.length :=
      mul_le_mul_of_nonneg_left (by have := ih h; omega) hb.le
    simp only [value_cons, List.length_cons, pow_succ, mul_comm (b ^ ds.length) b]
    rw [mul_add, mul_one] at h1
    omega

theorem pow_le_value (h : Digits b xs) (hd : 0 < d) : b ^ xs.length ≤ value b (xs ++ [d]) := by
  have h0 := value_nonneg hb h
  have h1 : b ^ xs.length * 1 ≤ b ^ xs.length * d :=
    mul_le_mul_of_nonneg_left hd (pow_pos hb _).le
  simp only [value_append, value_cons, value_nil, mul_zero, add_zero]
  omega

theorem lead_ne_zero (h : Digits b ds) (hv : b ^ (ds.length - 1) ≤ value b ds) :
    ds.getLast? ≠ some 0 := by
  rcases List.eq_nil_or_concat ds with rfl | ⟨init, top, rfl⟩
  · simp
  rw [List.concat_eq_append] at h hv ⊢
  intro h0
  obtain rfl : top = 0 := by simpa using h0
  have := value_lt_pow hb (digits_append.mp h).1
  simp [value_append] at hv
  omega

theorem value_lt_of_lead {x y : Int} (hx : Digits b xs) (hy : Digits b ys)
    (hl : xs.length = ys.length) (hxy : x < y) : value b (xs ++ [x]) < value b (ys ++ [y]) := by
  have h0 := value_lt_pow hb hx
  have h1 := value_nonneg hb hy
  have h2 : b ^ ys.length * (x + 1) ≤ b ^ ys.length * y :=
    mul_le_mul_of_nonneg_left hxy (pow_pos hb _).le
  rw [hl] at h0
  simp only [value_append, value_cons, value_nil, mul_zero, add_zero, hl]
  rw [mul_add, mul_one] at h2
  omega

theorem eq_of_value_eq (hx : Digits b xs) (hy : Digits b ys) (hl : xs.length = ys.length)
    (h : value b xs = value b ys) : xs = ys := by
  induction xs generalizing ys with
  | nil => exact (List.eq_nil_of_length_eq_zero hl.symm).symm
  | cons x xs ih =>
    cases ys with
    | nil => simp at hl
    | cons y ys =>
      obtain ⟨hdx, hxs⟩ := digits_cons.mp hx
      obtain ⟨hdy, hys⟩ := digits_cons.mp hy
      simp only [value_cons] at h
      have hxy : x = y := by
        have h1 := congrArg (· % b) h
        simpa [Int.add_mul_emod_self_left, Int.emod_eq_of_lt hdx.1 hdx.2,
          Int.emod_eq_of_lt hdy.1 hdy.2] using h1
      subst hxy
      have ht : value b xs = value b ys := by
        have h1 : b * value b xs = b * value b ys := by omega
        exact mul_left_cancel₀ hb.ne' h1
      rw [ih hxs hys (by simpa using hl) ht]

theorem eq_of_value_eq_of_lead (hx : Digits b xs) (hy : Digits b ys) (hlx : xs.getLast? ≠ some 0)
    (hly : ys.getLast? ≠ some 0) (h : value b xs = value b ys) : xs = ys := by
  have key : ∀ {as bs : List Int}, Digits b as → Digits b bs → bs.getLast? ≠ some 0 →
      value b as = value b bs → ¬ as.length < bs.length := by
    intro as bs ha hbs hlast hv hlt
    rcases List.eq_nil_or_concat bs with rfl | ⟨init, top, rfl⟩
    · simp at hlt
    rw [List.concat_eq_append] at hbs hlast hlt hv
    obtain ⟨hi, ht⟩ := digits_append.mp hbs
    have hpos : 0 < top := by
      have := (digits_cons.mp ht).1
      rcases eq_or_lt_of_le this.1 with he | he
      · exact absurd (by simp [← he]) hlast
      · exact he
    have h1 := pow_le_value hb hi hpos
    have h2 := value_lt_pow hb ha
    have h3 : b ^ as.length ≤ b ^ init.length :=
      pow_le_pow_right₀ (by omega) (by simp at hlt; omega)
    omega
  refine eq_of_value_eq hb hx hy ?_ h
  have h1 := key hx hy hly h
  have h2 := key hy hx hlx h.symm
  omega

end

theorem exists_numeral {n : Nat} (hn : 1 < n) (v : Nat) :
    ∃ ds, Digits n ds ∧ ds.getLast? ≠ some 0 ∧ value n ds = v := by
  induction v using Nat.strong_induction_on with
  | _ v ih =>
    rcases Nat.eq_zero_or_pos v with rfl | hv
    · exact ⟨[], by simp, by simp, by simp⟩
    obtain ⟨ds, hd, hl, he⟩ := ih (v / n) (Nat.div_lt_self hv hn)
    refine ⟨(v % n : Nat) :: ds, ?_, ?_, ?_⟩
    · refine digits_cons.mpr ⟨⟨by positivity, ?_⟩, hd⟩
      exact_mod_cast Nat.mod_lt _ (by omega)
    · cases ds with
      | nil =>
        rw [value_nil] at he
        have h0 : v / n = 0 := by exact_mod_cast he.symm
        have h1 : v % n = v := by
          have := Nat.div_add_mod v n
          rw [h0] at this; simpa using this
        simp only [List.getLast?_singleton, h1, ne_eq, Option.some.injEq]
        omega
      | cons e es => simpa [List.getLast?_cons_cons] using hl
    · rw [value_cons, he]
      have := Nat.mod_add_div v n
      exact_mod_cast this

/-! ## One quotient digit

`V2` and `U3` are the two and three leading digits of the divisor and the
dividend, `w` is the weight of the digits below them. -/

section Guess
variable {w V2 U3 vl ul q g : Int}

theorem lead_test_of_le (hw : 0 < w) (hvl : 0 ≤ vl) (hul : ul < w) (hq : 0 ≤ q)
    (h : q * (vl + w * V2) ≤ ul + w * U3) : q * V2 ≤ U3 := by
  have h1 : 0 ≤ q * vl := mul_nonneg hq hvl
  have h2 : w * (q * V2) < w * (U3 + 1) := by
    have e : q * (vl + w * V2) = q * vl + w * (q * V2) := by ring
    rw [e] at h
    rw [mul_add, mul_one]
    omega
  have := lt_of_mul_lt_mul_left h2 hw.le
  omega

theorem le_succ_of_lead_test (hw : 0 < w) (hvl : 0 ≤ vl) (hvw : vl < w) (hul : 0 ≤ ul)
    (hg : 0 ≤ g) (hgb : g ≤ V2) (h : g * V2 ≤ U3)
    (hq : ul + w * U3 < (q + 1) * (vl + w * V2)) : g ≤ q + 1 := by
  by_contra hc
  have hV : 0 < vl + w * V2 := by
    have := mul_nonneg hw.le (hg.trans hgb)
    rcases eq_or_lt_of_le (add_nonneg hvl this) with he | he
    · rw [← he, mul_zero] at hq
      have h1 : 0 ≤ w * U3 := mul_nonneg hw.le (le_trans (mul_nonneg hg (hg.trans hgb)) h)
      omega
    · exact he
  have h1 : (q + 1) * (vl + w * V2) ≤ (g - 1) * (vl + w * V2) :=
    mul_le_mul_of_nonneg_right (by omega) hV.le
  have h2 : w * (g * V2) ≤ w * U3 := mul_le_mul_of_nonneg_left h hw.le
  have h3 : g * vl ≤ g * (w - 1) := mul_le_mul_of_nonneg_left (by omega) hg
  have h4 : w * g ≤ w * V2 := mul_le_mul_of_nonneg_left hgb hw.le
  have h5 : (g - 1) * (vl + w * V2) = g * vl + w * (g * V2) - vl - w * V2 := by ring
  have h6 : g * (w - 1) = w * g - g := by ring
  rw [h5] at h1
  rw [h6] at h3
  omega

end Guess

end MitScheme.Lib.Radix
