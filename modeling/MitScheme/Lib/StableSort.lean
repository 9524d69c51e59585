import Mathlib.Data.List.Basic

/-! # Stable sorting

Lists sorted by a strict weak order on keys, with elements of equivalent keys in the order of the
input, and the two ways in which sorted lists are put together. -/

namespace MitScheme.Lib.StableSort

structure StrictWeak (κ : Type) where
  less : κ → κ → Bool
  irrefl : ∀ a, less a a = false
  trans : ∀ a b c, less a b = true → less b c = true → less a c = true
  incomparable_trans : ∀ a b c, less a b = false → less b a = false → less b c = false →
    less c b = false → less a c = false

variable {α κ : Type} {order : StrictWeak κ} {key : α → κ} {a b c : α} {xs ys xs' ys' : List α}

/-- `b` need not come before `a`. -/
def le (order : StrictWeak κ) (key : α → κ) (a b : α) : Bool := !order.less (key b) (key a)

def equivalent (order : StrictWeak κ) (key : α → κ) (a b : α) : Bool :=
  le order key a b && le order key b a

theorem le_total (a b : α) : (le order key a b || le order key b a) = true := by
  cases hab : order.less (key a) (key b) with
  | false => simp [le, hab]
  | true =>
    cases hba : order.less (key b) (key a) with
    | false => simp [le, hba]
    | true =>
      have haa := order.trans _ _ _ hab hba
      rw [order.irrefl] at haa
      cases haa

theorem le_trans (hab : le order key a b = true) (hbc : le order key b c = true) :
    le order key a c = true := by
  simp only [le, Bool.not_eq_true'] at hab hbc ⊢
  cases hca : order.less (key c) (key a) with
  | false => rfl
  | true =>
    -- `b` is not below `a` and `c` not below `b`: were `c` below `a`, neither could be above
    cases hab' : order.less (key a) (key b) with
    | true => exact absurd (order.trans _ _ _ hca hab') (by rw [hbc]; exact Bool.false_ne_true)
    | false =>
      cases hbc' : order.less (key b) (key c) with
      | true => exact absurd (order.trans _ _ _ hbc' hca) (by rw [hab]; exact Bool.false_ne_true)
      | false =>
        rw [order.incomparable_trans _ _ _ hbc hbc' hab hab'] at hca
        cases hca

theorem le_of_less (h : order.less (key a) (key b) = true) : le order key a b = true := by
  have htotal : (le order key a b || le order key b a) = true := le_total a b
  simpa [le, h] using htotal

theorem le_refl (a : α) : le order key a a = true := by simp [le, order.irrefl]

/-- `ys` is `xs` in order. -/
structure Sorting (order : StrictWeak κ) (key : α → κ) (xs ys : List α) : Prop where
  perm : ys.Perm xs
  ordered : ys.Pairwise fun a b => le order key a b = true

structure StableSorting (order : StrictWeak κ) (key : α → κ) (xs ys : List α) : Prop
    extends Sorting order key xs ys where
  stable : ∀ a, ys.filter (equivalent order key a) = xs.filter (equivalent order key a)

theorem StableSorting.short (h : xs.length ≤ 1) : StableSorting order key xs xs where
  perm := .refl xs
  ordered := by
    match xs with
    | [] => exact .nil
    | [a] => exact List.pairwise_singleton _ a
  stable _ := rfl

theorem filter_merge (hxs : xs.Pairwise fun a b => le order key a b = true) (c : α) :
    (xs.merge ys (le order key)).filter (equivalent order key c) =
      xs.filter (equivalent order key c) ++ ys.filter (equivalent order key c) := by
  induction xs generalizing ys with
  | nil => rw [List.nil_merge]; rfl
  | cons x xs ihx =>
    induction ys with
    | nil => rw [List.merge_right, List.filter_nil, List.append_nil]
    | cons y ys ihy =>
      have hcons (z : α) (zs : List α) : (z :: zs).filter (equivalent order key c) =
          if equivalent order key c z then z :: zs.filter (equivalent order key c)
          else zs.filter (equivalent order key c) := List.filter_cons
      rw [List.cons_merge_cons]
      split_ifs with hle
      · rw [hcons x, ihx hxs.of_cons, hcons x]
        split_ifs <;> rfl
      · rw [hcons y (List.merge _ _ _), ihy, hcons y]
        split_ifs with hy
        · -- every element of the left list lies above `y`, so none is in its class
          have hnone : (x :: xs).filter (equivalent order key c) = [] := by
            rw [List.filter_eq_nil_iff]
            intro z hz hzc
            rw [equivalent, Bool.and_eq_true] at hzc hy
            have hxz : le order key x z = true := by
              rcases List.mem_cons.mp hz with rfl | hz
              · exact le_refl _
              · exact List.rel_of_pairwise_cons hxs hz
            exact hle (le_trans hxz (le_trans hzc.2 hy.1))
          rw [hnone, List.nil_append, List.nil_append]
        · rfl

theorem StableSorting.merge (hx : StableSorting order key xs xs')
    (hy : StableSorting order key ys ys') :
    StableSorting order key (xs ++ ys) (xs'.merge ys' (le order key)) where
  perm := (List.merge_perm_append _).trans (hx.perm.append hy.perm)
  ordered := List.pairwise_merge (fun _ _ _ => le_trans) le_total xs' ys' hx.ordered hy.ordered
  stable c := by
    rw [filter_merge hx.ordered, hx.stable, hy.stable, List.filter_append]

theorem Sorting.join (hx : Sorting order key xs xs') (hy : Sorting order key ys ys')
    (hlow : ∀ x ∈ xs, le order key x a = true) (hhigh : ∀ y ∈ ys, le order key a y = true) :
    Sorting order key (xs ++ a :: ys) (xs' ++ a :: ys') where
  perm := hx.perm.append (hy.perm.cons a)
  ordered := by
    have hlow' (x : α) (h : x ∈ xs') : le order key x a = true := hlow x (hx.perm.subset h)
    have hhigh' (y : α) (h : y ∈ ys') : le order key a y = true := hhigh y (hy.perm.subset h)
    refine List.pairwise_append.mpr ⟨hx.ordered, List.pairwise_cons.mpr ⟨hhigh', hy.ordered⟩, ?_⟩
    intro x hx b hb
    rcases List.mem_cons.mp hb with rfl | hb
    · exact hlow' x hx
    · exact le_trans (hlow' x hx) (hhigh' b hb)

theorem Sorting.perm_left (h : Sorting order key xs xs') (hperm : xs.Perm ys) :
    Sorting order key ys xs' :=
  ⟨h.perm.trans hperm, h.ordered⟩

theorem exists_scan (p : α → Bool) (xs : List α) :
    ∃ low high, (∀ x ∈ low, p x = false) ∧ (∀ x ∈ high, p x = true) ∧
      (xs = low ++ high ∨
        ∃ a middle b, p a = true ∧ p b = false ∧ xs = low ++ (a :: (middle ++ [b])) ++ high) := by
  induction xs with
  | nil => exact ⟨[], [], by simp, by simp, .inl rfl⟩
  | cons x xs ih =>
    obtain ⟨low, high, hlow, hhigh, hxs⟩ := ih
    cases hx : p x with
    | false =>
      refine ⟨x :: low, high, List.forall_mem_cons.mpr ⟨hx, hlow⟩, hhigh, ?_⟩
      rcases hxs with rfl | ⟨a, middle, b, ha, hb, rfl⟩
      · exact .inl rfl
      · exact .inr ⟨a, middle, b, ha, hb, rfl⟩
    | true =>
      rcases hxs with rfl | ⟨a, middle, b, ha, hb, rfl⟩
      · rcases List.eq_nil_or_concat low with rfl | ⟨init, last, rfl⟩
        · exact ⟨[], x :: high, by simp, List.forall_mem_cons.mpr ⟨hx, hhigh⟩, .inl rfl⟩
        · have hlast : p last = false := hlow last (by simp)
          exact ⟨[], high, by simp, hhigh, .inr ⟨x, init, last, hx, hlast, by simp⟩⟩
      · exact ⟨[], high, by simp, hhigh, .inr ⟨x, low ++ a :: middle, b, hx, hb, by simp⟩⟩

end MitScheme.Lib.StableSort
