import Mathlib.Data.Nat.Size
import Mathlib.Tactic.Ring
import MitScheme.Runtime.WtTree

/-! # Weight-balanced trees: joining

`log2<` compares the lengths of two weights in binary. Two trees can be joined when these
lengths differ by at most two: one rotation brings them to differ by at most one at each
node. -/

namespace MitScheme.Runtime.WtTree
open Lib.SortedMap
open WtTree.Tree (empty node)

/-! ## Lengths of weights -/

theorem log2Lt_iff {a b} : log2Lt a b = true ↔ a.size < b.size := by
  rw [log2Lt, Bool.and_eq_true, decide_eq_true_iff, decide_eq_true_iff, Nat.shiftLeft_eq,
    Nat.pow_one]
  constructor
  · rintro ⟨hab, hand⟩
    by_contra hle
    have hsize : a.size = b.size :=
      Nat.le_antisymm (Nat.size_le_size (Nat.le_of_lt hab)) (Nat.le_of_not_lt hle)
    obtain ⟨m, hm⟩ : ∃ m, b.size = m + 1 := by
      refine ⟨b.size - 1, ?_⟩
      have hpos : 0 < b.size := Nat.size_pos.mpr (Nat.lt_of_le_of_lt (Nat.zero_le a) hab)
      omega
    -- both have the bit `m`, and so has their conjunction
    have hb : b < 2 ^ (m + 1) := Nat.size_le.mp (Nat.le_of_eq hm)
    have hbm : 2 ^ m ≤ b := Nat.lt_size.mp (by omega)
    have ham : 2 ^ m ≤ a := Nat.lt_size.mp (by omega)
    have ha : a < 2 ^ (m + 1) := Nat.size_le.mp (by omega)
    have hbit : (a &&& b).testBit m = true := by
      rw [Nat.testBit_and, Bool.and_eq_true]
      exact ⟨Nat.testBit_of_two_pow_le_and_two_pow_add_one_gt ham ha,
        Nat.testBit_of_two_pow_le_and_two_pow_add_one_gt hbm hb⟩
    have hge : 2 ^ m ≤ a &&& b := Nat.ge_two_pow_of_testBit hbit
    rw [Nat.pow_succ] at hb
    omega
  · intro hlt
    obtain ⟨m, hm⟩ : ∃ m, b.size = m + 1 := ⟨b.size - 1, by omega⟩
    have hb : b < 2 ^ (m + 1) := Nat.size_le.mp (Nat.le_of_eq hm)
    have hbm : 2 ^ m ≤ b := Nat.lt_size.mp (by omega)
    have ha : a < 2 ^ m := Nat.size_le.mp (by omega)
    have hmod : (a &&& b) ≤ b % 2 ^ m := by
      have hle : (a &&& b) < 2 ^ m := Nat.lt_of_le_of_lt Nat.and_le_left ha
      rw [← Nat.mod_eq_of_lt hle, Nat.and_mod_two_pow]
      exact Nat.and_le_right
    have hsub : b % 2 ^ m = b - 2 ^ m := by
      rw [Nat.mod_eq_sub_mod hbm, Nat.mod_eq_of_lt]
      rw [Nat.pow_succ] at hb
      omega
    have hle : (a &&& b) ≤ a := Nat.and_le_left
    refine ⟨Nat.lt_of_lt_of_le ha hbm, ?_⟩
    omega

theorem size_shiftRight (b : Nat) : (b >>> 1).size = b.size - 1 := by
  have hiff : ∀ n, (b >>> 1).size ≤ n ↔ b.size ≤ n + 1 := by
    intro n
    rw [Nat.size_le, Nat.size_le, Nat.shiftRight_eq_div_pow, Nat.pow_one, Nat.pow_succ]
    omega
  have h1 := hiff (b >>> 1).size
  have h2 := hiff (b.size - 1)
  omega

theorem overweight_iff {a b} : overweight a b = true ↔ a.size + 2 ≤ b.size := by
  rw [overweight, log2Lt_iff, size_shiftRight]
  omega

theorem overweight_false {a b} : overweight a b = false ↔ b.size ≤ a.size + 1 := by
  rw [← Bool.not_eq_true, overweight_iff]
  omega

theorem single_iff {a b} : single a b = true ↔ a.size ≤ b.size := by
  rw [single, Bool.not_eq_true', ← Bool.not_eq_true, log2Lt_iff]
  omega

theorem size_join_le {a b s : Nat} (ha : a.size ≤ s) (hb : b.size ≤ s) : (1 + a + b).size ≤ s + 1 := by
  have ha' := Nat.size_le.mp ha
  have hb' := Nat.size_le.mp hb
  refine Nat.size_le.mpr ?_
  rw [Nat.pow_succ]
  omega

theorem left_le_size_join (a b : Nat) : a.size ≤ (1 + a + b).size :=
  Nat.size_le_size (by omega)

theorem right_le_size_join (a b : Nat) : b.size ≤ (1 + a + b).size :=
  Nat.size_le_size (by omega)

theorem lt_size_join {a b s : Nat} (ha : s ≤ a.size) (hb : s ≤ b.size) : s < (1 + a + b).size := by
  cases s with
  | zero => exact Nat.size_pos.mpr (by omega)
  | succ s =>
    have ha' := Nat.lt_size.mp ha
    have hb' := Nat.lt_size.mp hb
    refine Nat.lt_size.mpr ?_
    rw [Nat.pow_succ]
    omega

theorem lt_size_join_join {a b c s : Nat} (ha : s < a.size) (hb : s + 1 < b.size) (hc : s < c.size) :
    s + 2 < (1 + a + (1 + b + c)).size := by
  have ha' := Nat.lt_size.mp ha
  have hb' := Nat.lt_size.mp hb
  have hc' := Nat.lt_size.mp hc
  refine Nat.lt_size.mpr ?_
  rw [Nat.pow_succ, Nat.pow_succ]
  rw [Nat.pow_succ] at hb'
  omega

theorem size_join_bounds (a b : Nat) :
    a.size ≤ (1 + a + b).size ∧ b.size ≤ (1 + a + b).size ∧
      (1 + a + b).size ≤ max a.size b.size + 1 ∧ Min.min a.size b.size < (1 + a + b).size :=
  ⟨left_le_size_join a b, right_le_size_join a b,
    size_join_le (Nat.le_max_left ..) (Nat.le_max_right ..),
    lt_size_join (Nat.min_le_left ..) (Nat.min_le_right ..)⟩

def Close (a b : Nat) : Prop := a.size ≤ b.size + 1 ∧ b.size ≤ a.size + 1

theorem close_single {a b c} (hheavy : (1 + b + c).size = a.size + 2) (hsingle : b.size ≤ c.size)
    (hbc : Close b c) : Close a b ∧ Close (1 + a + b) c := by
  obtain ⟨hcb, hbc⟩ := hbc
  have hheavy' := size_join_bounds b c
  have hlight := size_join_bounds a b
  refine ⟨⟨?_, ?_⟩, ?_, ?_⟩ <;> omega

theorem close_double {a b c e} (hheavy : (1 + (1 + b + c) + e).size = a.size + 2)
    (hdouble : e.size < (1 + b + c).size) (hbe : Close (1 + b + c) e) (hbc : Close b c) :
    Close a b ∧ Close c e ∧ Close (1 + a + b) (1 + c + e) := by
  obtain ⟨hbe, heb⟩ := hbe
  obtain ⟨hcb, hbc⟩ := hbc
  have h1 := size_join_bounds b c
  have h2 := size_join_bounds (1 + b + c) e
  have h3 := size_join_bounds a b
  have h4 := size_join_bounds c e
  -- neither grandchild is as long as the heavy tree
  have hb : e.size = a.size + 1 → b.size ≤ a.size + 1 := by
    intro he
    by_contra hlong
    have hsum := lt_size_join_join (a := e) (b := b) (c := c) (s := a.size)
      (by omega) (by omega) (by omega)
    rw [show 1 + e + (1 + b + c) = 1 + (1 + b + c) + e by omega] at hsum
    omega
  have hc : e.size = a.size + 1 → c.size ≤ a.size + 1 := by
    intro he
    by_contra hlong
    have hsum := lt_size_join_join (a := e) (b := c) (c := b) (s := a.size)
      (by omega) (by omega) (by omega)
    rw [show 1 + e + (1 + c + b) = 1 + (1 + b + c) + e by omega] at hsum
    omega
  refine ⟨⟨?_, ?_⟩, ⟨?_, ?_⟩, ?_, ?_⟩ <;> omega

/-! ## Joining -/

variable {α β : Type}

namespace Tree

def toList : Tree α β → List (α × β)
  | empty => []
  | node k v l r _ => l.toList ++ (k, v) :: r.toList

def count : Tree α β → Nat
  | empty => 0
  | node _ _ l r _ => 1 + l.count + r.count

def Weighted : Tree α β → Prop
  | empty => True
  | node _ _ l r w => w = 1 + l.count + r.count ∧ l.Weighted ∧ r.Weighted

theorem Weighted.size_eq {t : Tree α β} (ht : t.Weighted) : t.size = t.count := by
  cases t with
  | empty => rfl
  | node k v l r w => exact ht.1

theorem count_eq (t : Tree α β) : t.count = t.toList.length := by
  induction t with
  | empty => rfl
  | node k v l r w ihl ihr =>
    rw [count, toList, List.length_append, List.length_cons, ihl, ihr]
    omega

end Tree

structure Shape (t : Tree α β) : Prop where
  weighted : t.Weighted
  balanced : balanced t = true

variable {k : α} {v : β} {l r t : Tree α β} {w : Nat}

theorem Shape.size_eq (ht : Shape t) : t.size = t.toList.length :=
  ht.weighted.size_eq.trans t.count_eq

theorem shape_empty : Shape (empty : Tree α β) := ⟨trivial, rfl⟩

theorem balanced_node : balanced (node k v l r w) = true ↔
    Close l.size r.size ∧ balanced l = true ∧ balanced r = true := by
  rw [balanced, Bool.and_eq_true, Bool.and_eq_true, Bool.and_eq_true, Bool.not_eq_true',
    Bool.not_eq_true', overweight_false, overweight_false]
  constructor
  · rintro ⟨⟨⟨hl, hr⟩, hbl⟩, hbr⟩
    exact ⟨⟨hr, hl⟩, hbl, hbr⟩
  · rintro ⟨⟨hr, hl⟩, hbl, hbr⟩
    exact ⟨⟨⟨hl, hr⟩, hbl⟩, hbr⟩

theorem Shape.node (ht : Shape (node k v l r w)) :
    Shape l ∧ Shape r ∧ Close l.size r.size ∧ w = 1 + l.size + r.size := by
  obtain ⟨⟨hw, hwl, hwr⟩, hb⟩ := ht
  obtain ⟨hclose, hbl, hbr⟩ := balanced_node.mp hb
  exact ⟨⟨hwl, hbl⟩, ⟨hwr, hbr⟩, hclose, by rw [hw, hwl.size_eq, hwr.size_eq]⟩

theorem Shape.nJoin (hl : Shape l) (hr : Shape r) (hclose : Close l.size r.size) :
    Shape (nJoin k v l r) := by
  refine ⟨⟨?_, hl.weighted, hr.weighted⟩, balanced_node.mpr ⟨hclose, hl.balanced, hr.balanced⟩⟩
  rw [hl.weighted.size_eq, hr.weighted.size_eq]

theorem rotateL_spec (hl : Shape l) (hr : Shape r) (hheavy : r.size.size = l.size.size + 2) :
    ∃ t, rotateL k v l r = .ok t ∧ Shape t ∧ t.toList = l.toList ++ (k, v) :: r.toList := by
  cases r with
  | empty =>
    rw [Tree.size, Nat.size_zero] at hheavy
    omega
  | node bk bv b c w =>
    obtain ⟨hb, hc, hbc, rfl⟩ := hr.node
    rw [Tree.size] at hheavy
    by_cases hsingle : b.size.size ≤ c.size.size
    · obtain ⟨hab, habc⟩ := close_single hheavy hsingle hbc
      refine ⟨nJoin bk bv (nJoin k v l b) c, ?_, (hl.nJoin hb hab).nJoin hc habc, ?_⟩
      · exact if_pos (single_iff.mpr hsingle)
      · simp [nJoin, Tree.toList]
    · have hdouble : single b.weight c.weight = false := by
        rw [← Bool.not_eq_true, single_iff]
        exact hsingle
      cases b with
      | empty => exact absurd (Nat.zero_le _) (Nat.size_zero ▸ hsingle)
      | node yk yv y z wy =>
        obtain ⟨hy, hz, hyz, rfl⟩ := hb.node
        rw [Tree.size] at hheavy hsingle hbc
        obtain ⟨h1, h2, h3⟩ := close_double hheavy (Nat.lt_of_not_le hsingle) hbc hyz
        refine ⟨nJoin yk yv (nJoin k v l y) (nJoin bk bv z c), ?_,
          (hl.nJoin hy h1).nJoin (hz.nJoin hc h2) h3, ?_⟩
        · rw [rotateL, hdouble]
          rfl
        · simp [nJoin, Tree.toList]

theorem Close.symm {a b} (h : Close a b) : Close b a := ⟨h.2, h.1⟩

theorem rotateR_spec (hl : Shape l) (hr : Shape r) (hheavy : l.size.size = r.size.size + 2) :
    ∃ t, rotateR k v l r = .ok t ∧ Shape t ∧ t.toList = l.toList ++ (k, v) :: r.toList := by
  cases l with
  | empty =>
    rw [Tree.size, Nat.size_zero] at hheavy
    omega
  | node bk bv c b w =>
    obtain ⟨hc, hb, hcb, rfl⟩ := hl.node
    rw [Tree.size] at hheavy
    by_cases hsingle : b.size.size ≤ c.size.size
    · rw [show 1 + c.size + b.size = 1 + b.size + c.size by omega] at hheavy
      obtain ⟨hab, habc⟩ := close_single hheavy hsingle hcb.symm
      refine ⟨nJoin bk bv c (nJoin k v b r), ?_, hc.nJoin (hb.nJoin hr hab.symm) ?_, ?_⟩
      · exact if_pos (single_iff.mpr hsingle)
      · show Close c.size (1 + b.size + r.size)
        rw [show 1 + b.size + r.size = 1 + r.size + b.size by omega]
        exact habc.symm
      · simp [nJoin, Tree.toList]
    · have hdouble : single b.weight c.weight = false := by
        rw [← Bool.not_eq_true, single_iff]
        exact hsingle
      cases b with
      | empty => exact absurd (Nat.zero_le _) (Nat.size_zero ▸ hsingle)
      | node yk yv z y wy =>
        obtain ⟨hz, hy, hzy, rfl⟩ := hb.node
        rw [Tree.size] at hheavy hsingle hcb
        rw [show 1 + z.size + y.size = 1 + y.size + z.size by omega] at hheavy hsingle hcb
        rw [show 1 + c.size + (1 + y.size + z.size) = 1 + (1 + y.size + z.size) + c.size by omega]
          at hheavy
        obtain ⟨h1, h2, h3⟩ := close_double hheavy (Nat.lt_of_not_le hsingle) hcb.symm hzy.symm
        refine ⟨nJoin yk yv (nJoin bk bv c z) (nJoin k v y r), ?_,
          (hc.nJoin hz h2.symm).nJoin (hy.nJoin hr h1.symm) ?_, ?_⟩
        · rw [rotateR, hdouble]
          rfl
        · show Close (1 + c.size + z.size) (1 + y.size + r.size)
          rw [show 1 + c.size + z.size = 1 + z.size + c.size by omega,
            show 1 + y.size + r.size = 1 + r.size + y.size by omega]
          exact h3.symm
        · simp [nJoin, Tree.toList]

/-- The trees that `t-join` can join. -/
def Joinable (l r : Tree α β) : Prop :=
  l.size.size ≤ r.size.size + 2 ∧ r.size.size ≤ l.size.size + 2

theorem tJoin_spec (hl : Shape l) (hr : Shape r) (hjoin : Joinable l r) (k : α) (v : β) :
    ∃ t, tJoin k v l r = .ok t ∧ Shape t ∧ t.toList = l.toList ++ (k, v) :: r.toList := by
  obtain ⟨h1, h2⟩ := hjoin
  rw [tJoin, Tree.weight, Tree.weight]
  cases hright : overweight l.size r.size with
  | true =>
    have hheavy := overweight_iff.mp hright
    exact rotateL_spec hl hr (by omega)
  | false =>
    cases hleft : overweight r.size l.size with
    | true =>
      have hheavy := overweight_iff.mp hleft
      exact rotateR_spec hl hr (by omega)
    | false =>
      exact ⟨_, rfl, hl.nJoin hr ⟨overweight_false.mp hleft, overweight_false.mp hright⟩, rfl⟩

end MitScheme.Runtime.WtTree
