import Mathlib.Order.Bounds.Basic

/-! # Borders and prefix functions

How long a beginning of a pattern a text ends in after `i` elements. The pattern and the text are
sequences over any type; the table of the longest proper borders tells which shorter beginnings
a text ends in once a longer one is known. -/

namespace MitScheme.Lib.Border

variable {β : Type} {p t : Nat → β} {n i m k q : Nat} {pi : Nat → Nat}

/-- The `k` elements of `t` before `i` are the first `k` of `p`. -/
def Matched (p t : Nat → β) (i k : Nat) : Prop := k ≤ i ∧ ∀ j < k, t (i - k + j) = p j

theorem matched_zero : Matched p t i 0 := ⟨Nat.zero_le i, fun _ hj => absurd hj (Nat.not_lt_zero _)⟩

theorem matched_succ : Matched p t (i + 1) (k + 1) ↔ Matched p t i k ∧ t i = p k := by
  constructor
  · rintro ⟨hk, hall⟩
    refine ⟨⟨Nat.le_of_succ_le_succ hk, fun j hj => ?_⟩, ?_⟩
    · have := hall j (by omega)
      rwa [Nat.add_sub_add_right] at this
    · have := hall k (Nat.lt_succ_self k)
      rwa [Nat.add_sub_add_right, Nat.sub_add_cancel (by omega)] at this
  · rintro ⟨⟨hk, hall⟩, hlast⟩
    refine ⟨Nat.succ_le_succ hk, fun j hj => ?_⟩
    rw [Nat.add_sub_add_right]
    rcases Nat.lt_succ_iff_lt_or_eq.mp hj with hlt | rfl
    · exact hall j hlt
    · rwa [Nat.sub_add_cancel hk]

theorem Matched.border_iff (h : Matched p t i m) (hk : k ≤ m) :
    Matched p t i k ↔ Matched p p m k := by
  have him := h.1
  have hshift (j : Nat) (hj : j < k) : t (i - k + j) = p (m - k + j) := by
    rw [← h.2 (m - k + j) (by omega)]
    congr 1
    omega
  constructor
  · rintro ⟨-, hall⟩
    exact ⟨hk, fun j hj => by rw [← hshift j hj, hall j hj]⟩
  · rintro ⟨-, hall⟩
    exact ⟨le_trans hk him, fun j hj => by rw [hshift j hj, hall j hj]⟩

theorem matched_shift (hk : k ≤ q) :
    Matched p (fun j => p (j + 1)) q k ↔ Matched p p (q + 1) k := by
  have hindex (j : Nat) : q - k + j + 1 = q + 1 - k + j := by omega
  simp only [Matched, hindex]
  exact and_congr_left fun _ => iff_of_true hk (Nat.le_succ_of_le hk)

/-- `pi q` is the length of the longest proper border of the first `q + 1` elements. -/
def PrefixTable (p : Nat → β) (pi : Nat → Nat) (n : Nat) : Prop :=
  ∀ q < n, IsGreatest {k | k ≤ q ∧ Matched p p (q + 1) k} (pi q)

theorem PrefixTable.lt (h : PrefixTable p pi n) (hm : 0 < m) (hmn : m ≤ n) : pi (m - 1) < m := by
  have := (h (m - 1) (by omega)).1.1
  omega

theorem PrefixTable.congr {pi' : Nat → Nat} (h : PrefixTable p pi n) (he : ∀ q < n, pi' q = pi q) :
    PrefixTable p pi' n := fun q hq => (he q hq).symm ▸ h q hq

/-- The text ends in the first `m` elements, and in no longer beginning that the next element
continues. -/
structure Candidate (p t : Nat → β) (n i m : Nat) : Prop where
  lt : m < n
  matched : Matched p t i m
  le : ∀ k < n, Matched p t i k → t i = p k → k ≤ m

/-- The text ends in the first `m` elements, and in no longer beginning. -/
def Reached (p t : Nat → β) (n i m : Nat) : Prop := IsGreatest {k | k ≤ n ∧ Matched p t i k} m

theorem Candidate.start (hn : 0 < n) : Candidate p t n 0 0 :=
  ⟨hn, matched_zero, fun _ _ h _ => h.1⟩

theorem Candidate.hit (h : Candidate p t n i m) (heq : t i = p m) : Reached p t n (i + 1) (m + 1) := by
  refine ⟨⟨h.lt, matched_succ.mpr ⟨h.matched, heq⟩⟩, ?_⟩
  rintro (_ | k) ⟨hk, hmatch⟩
  · exact Nat.zero_le _
  · obtain ⟨hk', hnext⟩ := matched_succ.mp hmatch
    exact Nat.succ_le_succ (h.le k hk hk' hnext)

theorem Candidate.miss_zero (h : Candidate p t n i 0) (hne : t i ≠ p 0) :
    Reached p t n (i + 1) 0 := by
  refine ⟨⟨Nat.zero_le n, matched_zero⟩, ?_⟩
  rintro (_ | k) ⟨hk, hmatch⟩
  · exact le_rfl
  · obtain ⟨hk', hnext⟩ := matched_succ.mp hmatch
    rw [Nat.le_zero.mp (h.le k hk hk' hnext)] at hnext
    exact absurd hnext hne

theorem Candidate.miss (h : Candidate p t n i m) (hne : t i ≠ p m) (hm : 0 < m)
    (htable : PrefixTable p pi m) : Candidate p t n i (pi (m - 1)) := by
  obtain ⟨⟨hle, hborder⟩, hgreatest⟩ := htable (m - 1) (by omega)
  rw [Nat.sub_add_cancel hm] at hborder
  have hlt := h.lt
  refine ⟨by omega, (h.matched.border_iff (by omega)).mpr hborder, fun k hk hmatch hnext => ?_⟩
  have hkm : k ≠ m := fun hkm => hne (hkm ▸ hnext)
  have hkm' : k < m := lt_of_le_of_ne (h.le k hk hmatch hnext) hkm
  refine hgreatest ⟨by omega, ?_⟩
  rw [Nat.sub_add_cancel hm]
  exact (h.matched.border_iff hkm'.le).mp hmatch

theorem Reached.candidate (h : Reached p t n i m) (hm : m < n) : Candidate p t n i m :=
  ⟨hm, h.1.2, fun _ hk hmatch _ => h.2 ⟨hk.le, hmatch⟩⟩

theorem Reached.restart (h : Reached p t n i n) (hn : 0 < n) (htable : PrefixTable p pi n) :
    Candidate p t n i (pi (n - 1)) := by
  obtain ⟨⟨hle, hborder⟩, hgreatest⟩ := htable (n - 1) (by omega)
  rw [Nat.sub_add_cancel hn] at hborder
  refine ⟨by omega, (h.1.2.border_iff (by omega)).mpr hborder, fun k hk hmatch _ => ?_⟩
  refine hgreatest ⟨by omega, ?_⟩
  rw [Nat.sub_add_cancel hn]
  exact (h.1.2.border_iff hk.le).mp hmatch

theorem Reached.matched_iff (h : Reached p t n i m) : Matched p t i n ↔ m = n := by
  constructor
  · intro hn
    exact le_antisymm h.1.1 (h.2 ⟨le_rfl, hn⟩)
  · rintro rfl
    exact h.1.2

/-! ## Building the table -/

theorem PrefixTable.one (h : pi 0 = 0) : PrefixTable p pi 1 := by
  intro q hq
  rw [Nat.lt_one_iff.mp hq, h]
  exact ⟨⟨le_rfl, matched_zero⟩, fun k hk => hk.1⟩

theorem PrefixTable.candidate (h : PrefixTable p pi (q + 1)) (hq : q + 1 < n) :
    Candidate p (fun j => p (j + 1)) n q (pi q) := by
  obtain ⟨⟨hle, hborder⟩, hgreatest⟩ := h q (Nat.lt_succ_self q)
  exact ⟨by omega, (matched_shift hle).mpr hborder, fun k _ hmatch _ =>
    hgreatest ⟨hmatch.1, (matched_shift hmatch.1).mp hmatch⟩⟩

theorem PrefixTable.succ (h : PrefixTable p pi (q + 1)) (hq : q + 1 < n)
    (hnext : Reached p (fun j => p (j + 1)) n (q + 1) (pi (q + 1))) : PrefixTable p pi (q + 2) := by
  intro r hr
  rcases Nat.lt_succ_iff_lt_or_eq.mp hr with hlt | rfl
  · exact h r hlt
  · obtain ⟨⟨-, hmatch⟩, hgreatest⟩ := hnext
    exact ⟨⟨hmatch.1, (matched_shift hmatch.1).mp hmatch⟩, fun k hk =>
      hgreatest ⟨le_trans hk.1 hq.le, (matched_shift hk.1).mpr hk.2⟩⟩

end MitScheme.Lib.Border
