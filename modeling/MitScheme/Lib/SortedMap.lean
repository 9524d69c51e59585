import Mathlib.Data.List.Pairwise
import Mathlib.Data.List.TakeWhile

/-! # Maps as lists sorted by key

A strict order of keys may leave some keys apart from each other only by an equivalence.
A map is a list of pairs with increasing keys. -/

namespace MitScheme.Lib.SortedMap

/-- A strict order, and the equivalence of the keys it does not tell apart. -/
structure KeyOrder (K : Type) where
  lt : K → K → Bool
  eq : K → K → Bool
  irrefl : ∀ k, lt k k = false
  trans : ∀ {i j k}, lt i j = true → lt j k = true → lt i k = true
  eq_iff : ∀ {j k}, eq j k = true ↔ lt j k = false ∧ lt k j = false
  lt_of_eq_of_lt : ∀ {i j k}, eq i j = true → lt j k = true → lt i k = true
  lt_of_lt_of_eq : ∀ {i j k}, lt i j = true → eq j k = true → lt i k = true

section
variable {K V : Type} (O : KeyOrder K)

def Sorted (l : List (K × V)) : Prop := l.Pairwise fun p q => O.lt p.1 q.1 = true

def find (l : List (K × V)) (k : K) : Option (K × V) := l.find? fun p => O.eq k p.1

def put (l : List (K × V)) (k : K) (v : V) : List (K × V) :=
  if (find O l k).isSome then l.map fun p => if O.eq k p.1 then (p.1, v) else p
  else l.takeWhile (fun p => O.lt p.1 k) ++ (k, v) :: l.dropWhile (fun p => O.lt p.1 k)

def remove (l : List (K × V)) (k : K) : List (K × V) := l.filter fun p => !O.eq k p.1

structure Around (k : K) (a b : List (K × V)) : Prop where
  below : ∀ p ∈ a, O.lt p.1 k = true
  above : ∀ p ∈ b, O.lt k p.1 = true

variable {O}

theorem KeyOrder.lt_of_not {j k} (heq : O.eq j k = false) (hlt : O.lt j k = false) :
    O.lt k j = true := by
  cases hkj : O.lt k j with
  | true => rfl
  | false => exact absurd (O.eq_iff.mpr ⟨hlt, hkj⟩) (by rw [heq]; exact Bool.false_ne_true)

theorem KeyOrder.eq_symm {j k} (h : O.eq j k = true) : O.eq k j = true :=
  O.eq_iff.mpr (O.eq_iff.mp h).symm

theorem KeyOrder.ne_of_lt {j k} (h : O.lt j k = true) : O.eq j k = false := by
  cases heq : O.eq j k with
  | false => rfl
  | true => exact absurd h (by rw [(O.eq_iff.mp heq).1]; exact Bool.false_ne_true)

theorem KeyOrder.ne_of_gt {j k} (h : O.lt j k = true) : O.eq k j = false := by
  cases heq : O.eq k j with
  | false => rfl
  | true => exact absurd h (by rw [(O.eq_iff.mp heq).2]; exact Bool.false_ne_true)

theorem KeyOrder.not_lt_of_lt {j k} (h : O.lt j k = true) : O.lt k j = false := by
  cases hkj : O.lt k j with
  | false => rfl
  | true => exact absurd (O.trans h hkj) (by rw [O.irrefl]; exact Bool.false_ne_true)

variable {a b l : List (K × V)} {k k' : K} {v w : V}

theorem sorted_middle : Sorted O (a ++ (k, v) :: b) ↔
    Sorted O a ∧ Sorted O b ∧ Around O k a b := by
  rw [Sorted, List.pairwise_append, List.pairwise_cons]
  constructor
  · rintro ⟨ha, ⟨hkb, hb⟩, hab⟩
    exact ⟨ha, hb, fun p hp => hab p hp (k, v) List.mem_cons_self, hkb⟩
  · rintro ⟨ha, hb, hbelow, habove⟩
    refine ⟨ha, ⟨habove, hb⟩, ?_⟩
    intro p hp q hq
    rcases List.mem_cons.mp hq with rfl | hq
    · exact hbelow p hp
    · exact O.trans (hbelow p hp) (habove q hq)

theorem sorted_append : Sorted O (a ++ b) ↔
    Sorted O a ∧ Sorted O b ∧ ∀ p ∈ a, ∀ q ∈ b, O.lt p.1 q.1 = true :=
  List.pairwise_append

theorem Sorted.around (h : Sorted O (a ++ (k', v) :: b)) (hk : O.eq k k' = true) :
    Around O k a b := by
  obtain ⟨-, -, hbelow, habove⟩ := sorted_middle.mp h
  exact ⟨fun p hp => O.lt_of_lt_of_eq (hbelow p hp) (O.eq_symm hk),
    fun p hp => O.lt_of_eq_of_lt hk (habove p hp)⟩

theorem find_below (h : ∀ p ∈ a, O.lt p.1 k = true) : find O (a ++ b) k = find O b k := by
  rw [find, List.find?_append, List.find?_eq_none.mpr, Option.none_or]
  · rfl
  · intro p hp
    rw [O.ne_of_gt (h p hp)]
    exact Bool.false_ne_true

theorem find_above (h : ∀ p ∈ b, O.lt k p.1 = true) : find O b k = none := by
  refine List.find?_eq_none.mpr fun p hp => ?_
  rw [O.ne_of_lt (h p hp)]
  exact Bool.false_ne_true

theorem find_left (h : ∀ p ∈ b, O.lt k p.1 = true) : find O (a ++ b) k = find O a k := by
  rw [find, List.find?_append]
  exact (congrArg _ (find_above h)).trans Option.or_none

theorem find_congr (hk : O.eq k k' = true) : find O l k = find O l k' := by
  refine congrArg (l.find? ·) (funext fun p => ?_)
  rw [Bool.eq_iff_iff, O.eq_iff, O.eq_iff]
  have hk' := O.eq_symm hk
  constructor
  · rintro ⟨h1, h2⟩
    refine ⟨?_, ?_⟩
    · exact Bool.eq_false_iff.mpr fun h => by rw [O.lt_of_eq_of_lt hk h] at h1; cases h1
    · exact Bool.eq_false_iff.mpr fun h => by rw [O.lt_of_lt_of_eq h hk'] at h2; cases h2
  · rintro ⟨h1, h2⟩
    refine ⟨?_, ?_⟩
    · exact Bool.eq_false_iff.mpr fun h => by rw [O.lt_of_eq_of_lt hk' h] at h1; cases h1
    · exact Bool.eq_false_iff.mpr fun h => by rw [O.lt_of_lt_of_eq h hk] at h2; cases h2

theorem find_eq_some {p} (h : find O l k = some p) : p ∈ l ∧ O.eq k p.1 = true :=
  ⟨List.mem_of_find?_eq_some h, List.find?_some (p := fun q : K × V => O.eq k q.1) h⟩

theorem find_filter_lt {x} (h : O.lt k x = true) :
    find O (l.filter fun p => O.lt p.1 x) k = find O l k := by
  rw [find, List.find?_filter]
  refine congrArg (l.find? ·) (funext fun p => ?_)
  cases hk : O.eq k p.1 with
  | false => rw [decide_eq_false (by simp)]
  | true => simp [O.lt_of_eq_of_lt (O.eq_symm hk) h]

theorem find_filter_gt {x} (h : O.lt x k = true) :
    find O (l.filter fun p => O.lt x p.1) k = find O l k := by
  rw [find, List.find?_filter]
  refine congrArg (l.find? ·) (funext fun p => ?_)
  cases hk : O.eq k p.1 with
  | false => rw [decide_eq_false (by simp)]
  | true => simp [O.lt_of_lt_of_eq h hk]

theorem Around.find_none (h : Around O k a b) : find O (a ++ b) k = none := by
  rw [find_below h.below, find_above h.above]

theorem Around.find_some (h : Around O k a b) (hk : O.eq k k' = true) :
    find O (a ++ (k', v) :: b) k = some (k', v) := by
  rw [find_below h.below, find, List.find?_cons, hk]

theorem Sorted.find_mem {p} (h : Sorted O l) (hp : p ∈ l) : find O l p.1 = some p := by
  obtain ⟨a, b, rfl⟩ := List.append_of_mem hp
  have hself : O.eq p.1 p.1 = true := O.eq_iff.mpr ⟨O.irrefl _, O.irrefl _⟩
  exact (Sorted.around h hself).find_some hself

theorem Around.put_absent (h : Around O k a b) : put O (a ++ b) k v = a ++ (k, v) :: b := by
  have htake : (a ++ b).takeWhile (fun p => O.lt p.1 k) = a := by
    rw [List.takeWhile_append_of_pos h.below]
    cases b with
    | nil => exact List.append_nil a
    | cons q b =>
      have hq : O.lt q.1 k = false := O.not_lt_of_lt (h.above q List.mem_cons_self)
      rw [List.takeWhile_cons, hq]
      exact List.append_nil a
  have hdrop : (a ++ b).dropWhile (fun p => O.lt p.1 k) = b := by
    have hboth := List.takeWhile_append_dropWhile (p := fun p => O.lt p.1 k) (l := a ++ b)
    rw [htake] at hboth
    exact List.append_cancel_left hboth
  rw [put, h.find_none, htake, hdrop]
  rfl

theorem Around.put_present (h : Around O k a b) (hk : O.eq k k' = true) :
    put O (a ++ (k', w) :: b) k v = a ++ (k', v) :: b := by
  have hkeep : ∀ l : List (K × V), (∀ p ∈ l, O.eq k p.1 = false) →
      l.map (fun p => if O.eq k p.1 then (p.1, v) else p) = l := by
    intro l hl
    refine (List.map_congr_left fun p hp => ?_).trans (List.map_id l)
    rw [hl p hp]
    rfl
  rw [put, h.find_some hk, Option.isSome_some, if_pos rfl, List.map_append, List.map_cons,
    hkeep a fun p hp => O.ne_of_gt (h.below p hp), hkeep b fun p hp => O.ne_of_lt (h.above p hp),
    if_pos hk]

theorem Around.remove_absent (h : Around O k a b) : remove O (a ++ b) k = a ++ b := by
  refine List.filter_eq_self.mpr fun p hp => ?_
  rcases List.mem_append.mp hp with hp | hp
  · rw [O.ne_of_gt (h.below p hp)]
    rfl
  · rw [O.ne_of_lt (h.above p hp)]
    rfl

theorem Around.remove_present (h : Around O k a b) (hk : O.eq k k' = true) :
    remove O (a ++ (k', v) :: b) k = a ++ b := by
  rw [remove, List.filter_append, List.filter_cons, hk]
  show a.filter _ ++ b.filter _ = a ++ b
  rw [← List.filter_append]
  exact h.remove_absent

end

def natOrder : KeyOrder Nat where
  lt := fun j k => decide (j < k)
  eq := fun j k => decide (j = k)
  irrefl := fun k => decide_eq_false (Nat.lt_irrefl k)
  trans := fun hij hjk => decide_eq_true (Nat.lt_trans (of_decide_eq_true hij)
    (of_decide_eq_true hjk))
  eq_iff := by
    intro j k
    rw [decide_eq_true_iff, decide_eq_false_iff_not, decide_eq_false_iff_not]
    omega
  lt_of_eq_of_lt := fun heq hlt => by
    rw [of_decide_eq_true heq]
    exact hlt
  lt_of_lt_of_eq := fun hlt heq => by
    rw [← of_decide_eq_true heq]
    exact hlt

end MitScheme.Lib.SortedMap
