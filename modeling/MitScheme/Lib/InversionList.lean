import Mathlib.Data.List.Sort
import Mathlib.Order.Lattice

/-! # Inversion lists

A set over a linear order can be written as the list of the places where membership changes. A
point is in the set when an odd number of the places is at or below it. Strictly increasing
lists of places are canonical: two of them that have the same members are equal. -/

namespace MitScheme.Lib.InversionList

variable {α : Type} [LinearOrder α] {a b x y : α} {l l1 l2 : List α}

def inside : List α → α → Bool
  | [], _ => false
  | a :: l, x => xor (decide (a ≤ x)) (inside l x)

@[simp] theorem inside_nil : inside ([] : List α) x = false := rfl

theorem inside_cons : inside (a :: l) x = xor (decide (a ≤ x)) (inside l x) := rfl

theorem inside_cons_lt (h : x < a) : inside (a :: l) x = inside l x := by
  simp [inside_cons, not_le.mpr h]

theorem inside_cons_le (h : a ≤ x) : inside (a :: l) x = !inside l x := by
  simp [inside_cons, h]

theorem inside_append : inside (l1 ++ l2) x = xor (inside l1 x) (inside l2 x) := by
  induction l1 with
  | nil => simp
  | cons a l1 ih => rw [List.cons_append, inside_cons, inside_cons, ih, Bool.xor_assoc]

theorem inside_reverse : inside l.reverse x = inside l x := by
  induction l with
  | nil => rfl
  | cons a l ih =>
    rw [List.reverse_cons, inside_append, ih, inside_cons, inside_cons, inside_nil, Bool.xor_false,
      Bool.xor_comm]

theorem inside_eq_false (h : ∀ a ∈ l, x < a) : inside l x = false := by
  induction l with
  | nil => rfl
  | cons a l ih =>
    rw [inside_cons_lt (h a List.mem_cons_self)]
    exact ih fun b hb => h b (List.mem_cons_of_mem _ hb)

theorem inside_of_all_le (h : ∀ a ∈ l, a ≤ x) : inside l x = decide (l.length % 2 = 1) := by
  induction l with
  | nil => rfl
  | cons a l ih =>
    rw [inside_cons_le (h a List.mem_cons_self), ih fun b hb => h b (List.mem_cons_of_mem _ hb),
      List.length_cons]
    rcases Nat.mod_two_eq_zero_or_one l.length with h0 | h0 <;> simp [Nat.add_mod, h0]

theorem inside_range (h : a ≤ b) :
    inside (a :: b :: l) x = xor (decide (a ≤ x ∧ x < b)) (inside l x) := by
  rw [inside_cons, inside_cons, ← Bool.xor_assoc]
  congr 1
  rcases lt_or_ge x a with hxa | hxa
  · simp [not_le.mpr hxa, not_le.mpr (hxa.trans_le h)]
  · rcases lt_or_ge x b with hxb | hxb
    · simp [hxa, hxb, not_le.mpr hxb]
    · simp [hxa, hxb, not_lt.mpr hxb]

theorem eq_of_inside (h1 : l1.Pairwise (· < ·)) (h2 : l2.Pairwise (· < ·))
    (h : ∀ x, inside l1 x = inside l2 x) : l1 = l2 := by
  -- the least place is the least member
  have hhead {a : α} {l : List α} (hl : (a :: l).Pairwise (· < ·)) : inside (a :: l) a = true := by
    rw [inside_cons_le le_rfl, inside_eq_false (List.pairwise_cons.mp hl).1]
    rfl
  have hbelow {a x : α} {l : List α} (hl : (a :: l).Pairwise (· < ·)) (hx : x < a) :
      inside (a :: l) x = false := by
    rw [inside_cons_lt hx]
    exact inside_eq_false fun b hb => hx.trans ((List.pairwise_cons.mp hl).1 b hb)
  induction l1 generalizing l2 with
  | nil =>
    cases l2 with
    | nil => rfl
    | cons b l2 => simpa [hhead h2] using h b
  | cons a l1 ih =>
    cases l2 with
    | nil => simpa [hhead h1] using h a
    | cons b l2 =>
      have hab : a = b := by
        rcases lt_trichotomy a b with hlt | heq | hlt
        · have := h a
          rw [hhead h1, hbelow h2 hlt] at this
          cases this
        · exact heq
        · have := h b
          rw [hhead h2, hbelow h1 hlt] at this
          cases this
      subst hab
      congr 1
      refine ih (List.pairwise_cons.mp h1).2 (List.pairwise_cons.mp h2).2 fun x => ?_
      have := h x
      rw [inside_cons, inside_cons] at this
      simpa using this

theorem eq_of_inside_below (h1 : l1.Pairwise (· < ·)) (h2 : l2.Pairwise (· < ·))
    (heven1 : l1.length % 2 = 0) (heven2 : l2.length % 2 = 0) (hb1 : ∀ a ∈ l1, a ≤ b)
    (hb2 : ∀ a ∈ l2, a ≤ b) (h : ∀ x < b, inside l1 x = inside l2 x) : l1 = l2 := by
  refine eq_of_inside h1 h2 fun x => ?_
  rcases lt_or_ge x b with hx | hx
  · exact h x hx
  · rw [inside_of_all_le fun a ha => (hb1 a ha).trans hx,
      inside_of_all_le fun a ha => (hb2 a ha).trans hx, heven1, heven2]

end MitScheme.Lib.InversionList
