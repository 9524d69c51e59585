import Mathlib.Data.List.TakeWhile
import Mathlib.Data.List.Nodup

/-! # Trees given by their paths

The path of a node is the node, its parent, and so on to the top of the tree. -/

namespace MitScheme.Lib.PathTree

variable {ι : Type} {path : ι → List ι} {V : ι → Prop}

/-- The nodes in `V` have paths that agree with each other. -/
structure Paths (path : ι → List ι) (V : ι → Prop) : Prop where
  self : ∀ x, V x → ∃ t, path x = x :: t
  closed : ∀ x, V x → ∀ y ∈ path x, V y
  suffix : ∀ x, V x → ∀ y ∈ path x, path y <:+ path x
  nodup : ∀ x, V x → (path x).Nodup

theorem Paths.rest (h : Paths path V) {x y a b} (hx : V x) (hpath : path x = a ++ y :: b) :
    path y = y :: b := by
  have hy : y ∈ path x := by rw [hpath]; simp
  obtain ⟨t, ht⟩ := h.self y (h.closed x hx y hy)
  obtain ⟨c, hc⟩ := h.suffix x hx y hy
  have hnodup := h.nodup x hx
  rw [ht, hpath] at hc
  rw [hpath] at hnodup
  have hya : y ∉ a := fun hm => (List.nodup_middle.mp hnodup).notMem (List.mem_append_left _ hm)
  have hyc : y ∉ c := by
    rw [← hc] at hnodup
    exact fun hm => (List.nodup_middle.mp hnodup).notMem (List.mem_append_left _ hm)
  rcases List.append_eq_append_iff.mp hc with ⟨d, ha, hd⟩ | ⟨d, ha, hd⟩
  · cases d with
    | nil =>
      rw [List.nil_append] at hd
      rw [ht, hd]
    | cons z d =>
      obtain ⟨rfl, -⟩ := List.cons_eq_cons.mp hd
      exact absurd (ha ▸ List.mem_append_right _ List.mem_cons_self) hya
  · cases d with
    | nil =>
      rw [List.nil_append] at hd
      rw [ht, ← hd]
    | cons z d =>
      obtain ⟨rfl, -⟩ := List.cons_eq_cons.mp hd
      exact absurd (ha ▸ List.mem_append_right _ List.mem_cons_self) hyc

theorem Paths.inj (h : Paths path V) {x y} (hx : V x) (hy : V y) (hxy : path x = path y) :
    x = y := by
  obtain ⟨t, ht⟩ := h.self x hx
  obtain ⟨u, hu⟩ := h.self y hy
  rw [ht, hu] at hxy
  exact (List.cons_eq_cons.mp hxy).1

variable [DecidableEq ι]

/-- The nodes left on the way from `p` to `q`, the innermost first. -/
def exits (path : ι → List ι) (p q : ι) : List ι := (path p).takeWhile (· ∉ path q)

/-- The nodes entered on the way from `p` to `q`, the outermost first. -/
def entries (path : ι → List ι) (p q : ι) : List ι :=
  ((path q).takeWhile (· ∉ path p)).reverse

theorem exits_notMem {p q x} (hx : x ∈ exits path p q) : x ∉ path q := by
  have hp : decide (x ∉ path q) = true := List.mem_takeWhile_imp (p := (· ∉ path q)) hx
  exact of_decide_eq_true hp

theorem entries_eq (p q : ι) : entries path p q = (exits path q p).reverse := rfl

theorem Paths.exits_append (h : Paths path V) {p q c} (hp : V p) (hcp : c ∈ path p)
    (hcq : c ∈ path q) : ∃ a ∈ path q, path p = exits path p q ++ path a := by
  have hsplit : path p = exits path p q ++ (path p).dropWhile (· ∉ path q) :=
    List.takeWhile_append_dropWhile.symm
  cases hdrop : (path p).dropWhile (· ∉ path q) with
  | nil =>
    rw [hdrop, List.append_nil] at hsplit
    rw [hsplit] at hcp
    exact absurd hcq (exits_notMem hcp)
  | cons a t =>
    rw [hdrop] at hsplit
    have hhead := List.head?_dropWhile_not (· ∉ path q) (path p)
    rw [hdrop] at hhead
    have ha : a ∈ path q := by simpa using hhead
    exact ⟨a, ha, by rw [h.rest hp hsplit]; exact hsplit⟩

theorem Paths.common (h : Paths path V) {p q c} (hp : V p) (hq : V q) (hcp : c ∈ path p)
    (hcq : c ∈ path q) :
    ∃ a, V a ∧ path p = exits path p q ++ path a ∧
      path q = (entries path p q).reverse ++ path a := by
  obtain ⟨a, haq, hpa⟩ := h.exits_append hp hcp hcq
  obtain ⟨b, hbp, hqb⟩ := h.exits_append hq hcq hcp
  have ha := h.closed q hq a haq
  have hb := h.closed p hp b hbp
  have hab : a ∈ path b := by
    rw [hqb] at haq
    refine (List.mem_append.mp haq).resolve_left fun hm => exits_notMem hm ?_
    obtain ⟨t, ht⟩ := h.self a ha
    rw [hpa, ht]
    exact List.mem_append_right _ List.mem_cons_self
  have hba : b ∈ path a := by
    rw [hpa] at hbp
    refine (List.mem_append.mp hbp).resolve_left fun hm => exits_notMem hm ?_
    obtain ⟨t, ht⟩ := h.self b hb
    rw [hqb, ht]
    exact List.mem_append_right _ List.mem_cons_self
  have hsame : path a = path b := (h.suffix b hb a hab).eq_of_length
    (Nat.le_antisymm (h.suffix b hb a hab).length_le (h.suffix a ha b hba).length_le)
  refine ⟨a, ha, hpa, ?_⟩
  rw [entries_eq, List.reverse_reverse, hsame]
  exact hqb

/-! ## What a move preserves -/

section Move

variable {σ : Type} {K : σ → ι → Prop} {leave enter : σ → ι → σ}

omit [DecidableEq ι] in
theorem Paths.leaveAll (h : Paths path V)
    (hleave : ∀ {s r a}, V r → V a → path r = r :: path a → K s r → K (leave s r) a) {a}
    (ha : V a) {up} : ∀ {s : σ} {r : ι}, V r → path r = up ++ path a → K s r →
      K (up.foldl leave s) a := by
  induction up with
  | nil =>
    intro s r hr hpath hs
    exact h.inj hr ha hpath ▸ hs
  | cons x up ih =>
    intro s r hr hpath hs
    obtain ⟨t, ht⟩ := h.self r hr
    obtain rfl : x = r := (List.cons_eq_cons.mp (hpath.symm.trans ht)).1
    have hrest : ∃ b, V b ∧ path b = up ++ path a := by
      obtain ⟨u, hu⟩ := h.self a ha
      cases up with
      | nil => exact ⟨a, ha, rfl⟩
      | cons b up =>
        refine ⟨b, h.closed x hr b (by rw [hpath]; simp), ?_⟩
        exact h.rest hr (show path x = [x] ++ b :: (up ++ path a) from hpath)
    obtain ⟨b, hb, hbpath⟩ := hrest
    have hpathx : path x = x :: path b := by rw [hpath, hbpath, List.cons_append]
    exact ih hb hbpath (hleave hr hb hpathx hs)

omit [DecidableEq ι] in
theorem Paths.enterAll (h : Paths path V)
    (henter : ∀ {s y r}, V y → V r → path y = y :: path r → K s r → K (enter s y) y) {q}
    (hq : V q) {down : List ι} : ∀ {s : σ} {a : ι}, V a → path q = down.reverse ++ path a →
      K s a → K (down.foldl enter s) q := by
  induction down with
  | nil =>
    intro s a ha hpath hs
    exact h.inj hq ha hpath ▸ hs
  | cons x down ih =>
    intro s a ha hpath hs
    have hsplit : path q = down.reverse ++ x :: path a := by
      rw [hpath, List.reverse_cons, List.append_assoc, List.singleton_append]
    have hx : V x := h.closed q hq x (by rw [hsplit]; simp)
    have hpathx : path x = x :: path a := h.rest hq hsplit
    rw [← hpathx] at hsplit
    exact ih hx hsplit (henter hx ha hpathx hs)

theorem Paths.move (h : Paths path V)
    (hleave : ∀ {s r a}, V r → V a → path r = r :: path a → K s r → K (leave s r) a)
    (henter : ∀ {s y r}, V y → V r → path y = y :: path r → K s r → K (enter s y) y) {s p q c}
    (hp : V p) (hq : V q) (hcp : c ∈ path p) (hcq : c ∈ path q) (hs : K s p) :
    K ((entries path p q).foldl enter ((exits path p q).foldl leave s)) q := by
  obtain ⟨a, ha, hup, hdown⟩ := h.common hp hq hcp hcq
  exact h.enterAll henter hq ha hdown (h.leaveAll hleave ha hp hup hs)

end Move

end MitScheme.Lib.PathTree
