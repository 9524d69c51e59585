import Mathlib.Data.List.Perm.Basic
import Mathlib.Data.List.Pairwise

/-! # Association lists up to a key equivalence

Lists of records, each with a key, in which no two keys are equivalent. What a
list holds for a key does not depend on the order of the records. -/

namespace MitScheme.Lib.Assoc

structure KeyEquiv (K : Type) where
  eq : K → K → Bool
  refl : ∀ k, eq k k = true
  symm : ∀ {j k}, eq j k = true → eq k j = true
  trans : ∀ {i j k}, eq i j = true → eq j k = true → eq i k = true

section
variable {α β K : Type} (E : KeyEquiv K) (key : α → K) {l l' : List α}

theorem KeyEquiv.comm (j k : K) : E.eq j k = E.eq k j := by
  rw [Bool.eq_iff_iff]
  exact ⟨E.symm, E.symm⟩

theorem KeyEquiv.congr_right {j k : K} (h : E.eq j k = true) (i : K) : E.eq i j = E.eq i k := by
  rw [Bool.eq_iff_iff]
  exact ⟨fun hi => E.trans hi h, fun hi => E.trans hi (E.symm h)⟩

def Distinct (l : List α) : Prop := l.Pairwise fun a b => E.eq (key a) (key b) = false

def lookup (l : List α) (x : K) : Option α := l.find? fun a => E.eq (key a) x

variable {E key}

@[simp] theorem distinct_nil : Distinct E key [] := List.Pairwise.nil

theorem distinct_cons {a : α} :
    Distinct E key (a :: l) ↔ (∀ b ∈ l, E.eq (key a) (key b) = false) ∧ Distinct E key l :=
  List.pairwise_cons

theorem Distinct.perm (h : Distinct E key l) (hp : l.Perm l') : Distinct E key l' :=
  (hp.pairwise_iff fun {_ _} hxy => (E.comm _ _).trans hxy).mp h

theorem Distinct.sublist (h : Distinct E key l) (hs : List.Sublist l' l) : Distinct E key l' :=
  List.Pairwise.sublist hs h

theorem Distinct.filter (h : Distinct E key l) (p : α → Bool) : Distinct E key (l.filter p) :=
  h.sublist List.filter_sublist

theorem Distinct.map {key' : β → K} (h : Distinct E key l) {f : α → β}
    (hf : ∀ a, key' (f a) = key a) : Distinct E key' (l.map f) := by
  unfold Distinct at h ⊢
  rw [List.pairwise_map]
  simpa only [hf] using h

@[simp] theorem lookup_nil (x : K) : lookup E key [] x = none := rfl

theorem lookup_cons (a : α) (l : List α) (x : K) :
    lookup E key (a :: l) x = if E.eq (key a) x then some a else lookup E key l x := by
  unfold lookup
  rw [List.find?_cons]
  cases E.eq (key a) x <;> rfl

theorem lookup_eq_none {x : K} :
    lookup E key l x = none ↔ ∀ a ∈ l, E.eq (key a) x = false := by
  unfold lookup
  rw [List.find?_eq_none]
  simp only [Bool.not_eq_true]

theorem lookup_eq_some (h : Distinct E key l) {x : K} {a : α} :
    lookup E key l x = some a ↔ a ∈ l ∧ E.eq (key a) x = true := by
  induction l with
  | nil => simp
  | cons b l ih =>
    obtain ⟨hb, hl⟩ := distinct_cons.mp h
    rw [lookup_cons]
    cases hbx : E.eq (key b) x with
    | false =>
      simp only [Bool.false_eq_true, if_false, ih hl, List.mem_cons]
      constructor
      · rintro ⟨ha, hax⟩
        exact ⟨.inr ha, hax⟩
      · rintro ⟨rfl | ha, hax⟩
        · rw [hbx] at hax
          cases hax
        · exact ⟨ha, hax⟩
    | true =>
      simp only [if_true, Option.some.injEq, List.mem_cons]
      constructor
      · rintro rfl
        exact ⟨.inl rfl, hbx⟩
      · rintro ⟨rfl | ha, hax⟩
        · rfl
        · have := hb a ha
          rw [E.trans hbx (E.symm hax)] at this
          cases this

theorem lookup_perm (h : Distinct E key l) (hp : l.Perm l') (x : K) :
    lookup E key l x = lookup E key l' x := by
  apply Option.ext
  intro a
  rw [lookup_eq_some h, lookup_eq_some (h.perm hp), hp.mem_iff]

theorem lookup_append (l l' : List α) (x : K) :
    lookup E key (l ++ l') x = (lookup E key l x).or (lookup E key l' x) :=
  List.find?_append

theorem lookup_filter (h : Distinct E key l) (p : α → Bool) (x : K) :
    lookup E key (l.filter p) x = (lookup E key l x).filter p := by
  apply Option.ext
  intro a
  rw [lookup_eq_some (h.filter p), Option.filter_eq_some_iff, lookup_eq_some h, List.mem_filter]
  tauto

theorem lookup_map {key' : β → K} {f : α → β} (hf : ∀ a, key' (f a) = key a) (x : K) :
    lookup E key' (l.map f) x = (lookup E key l x).map f := by
  unfold lookup
  rw [List.find?_map]
  simp only [Function.comp_def, hf]

theorem length_filter_key (h : Distinct E key l) (x : K) :
    (l.filter fun a => E.eq (key a) x).length = if (lookup E key l x).isSome then 1 else 0 := by
  induction l with
  | nil => simp
  | cons b l ih =>
    obtain ⟨hb, hl⟩ := distinct_cons.mp h
    rw [lookup_cons, List.filter_cons]
    cases hbx : E.eq (key b) x with
    | false => simpa using ih hl
    | true =>
      have hnone : l.filter (fun a => E.eq (key a) x) = [] := by
        rw [List.filter_eq_nil_iff]
        intro a ha hax
        have := hb a ha
        rw [E.trans hbx (E.symm hax)] at this
        cases this
      simp [hnone]

end

/-! ## Lists of chains -/

section Chains
variable {α : Type} {chains : List (List α)} {i : Nat}

theorem flatten_perm_getD (h : i < chains.length) :
    chains.flatten.Perm (chains.getD i [] ++ (chains.eraseIdx i).flatten) := by
  induction chains generalizing i with
  | nil => simp at h
  | cons c chains ih =>
    cases i with
    | zero => simp
    | succ i =>
      have hi := ih (i := i) (by simpa using h)
      simp only [List.flatten_cons, List.getD_cons_succ, List.eraseIdx_cons_succ]
      exact (hi.append_left c).trans
        (by
          rw [← List.append_assoc, ← List.append_assoc]
          exact List.perm_append_comm.append_right _)

theorem flatten_set_perm (h : i < chains.length) (c : List α) :
    (chains.set i c).flatten.Perm (c ++ (chains.eraseIdx i).flatten) := by
  have h' : i < (chains.set i c).length := by simpa using h
  have hp := flatten_perm_getD h'
  have he : (chains.set i c).eraseIdx i = chains.eraseIdx i := by
    rw [List.eraseIdx_set_eq]
  have hg : (chains.set i c).getD i [] = c := by
    rw [List.getD_eq_getElem?_getD, List.getElem?_set_self h, Option.getD_some]
  rwa [he, hg] at hp

end Chains

end MitScheme.Lib.Assoc
