import Mathlib.Data.List.Nodup

/-! # Intrusive linked queues

A queue of the members of a type, each with a link to the next, and pointers to
the first and the last. `Linked` says that the pointers spell out a list. -/

namespace MitScheme.Lib.LinkedQueue
open Function

structure Queue (ι : Type) where
  first : Option ι
  last : Option ι
  next : ι → Option ι

namespace Queue
variable {ι : Type}

def empty : Queue ι := ⟨none, none, fun _ => none⟩

variable [DecidableEq ι]

/-- Put `i` after the last member. -/
def append (Q : Queue ι) (i : ι) : Queue ι :=
  match Q.last with
  | some p => { Q with next := update Q.next p (some i), last := some i }
  | none => { Q with first := some i, last := some i }

/-- Take the first member `i` out. -/
def removeFirst (Q : Queue ι) (i : ι) : Queue ι :=
  match Q.next i with
  | some j => { Q with first := some j, next := update Q.next i none }
  | none => { first := none, last := none, next := update Q.next i none }

/-- Move the first member `i` behind the last; `j` follows it. -/
def rotate (Q : Queue ι) (i j : ι) : Queue ι :=
  match Q.last with
  | some p =>
    { first := some j
      last := some i
      next := update (update Q.next i none) p (some i) }
  | none => { Q with first := some j, last := some i, next := update Q.next i none }

end Queue

section
variable {ι : Type} {Q : Queue ι} {l : List ι} {i j : ι}

/-- The links of the members of a list, up to the end of the queue. -/
def Links (next : ι → Option ι) : List ι → Prop
  | [] => True
  | i :: l => next i = l.head? ∧ Links next l

/-- The queue holds the members of `l` in this order, each once. -/
structure Linked (Q : Queue ι) (l : List ι) : Prop where
  first : Q.first = l.head?
  last : Q.last = l.getLast?
  links : Links Q.next l
  outside : ∀ i, i ∉ l → Q.next i = none
  nodup : l.Nodup

theorem linked_empty : Linked (Queue.empty : Queue ι) [] :=
  ⟨rfl, rfl, trivial, fun _ _ => rfl, List.nodup_nil⟩

theorem Links.congr {next next' : ι → Option ι} :
    ∀ {l : List ι}, Links next l → (∀ i ∈ l, next' i = next i) → Links next' l
  | [], _, _ => trivial
  | i :: l, h, he =>
    ⟨(he i (by simp)).trans h.1, h.2.congr fun k hk => he k (List.mem_cons_of_mem _ hk)⟩

theorem Linked.next_head (h : Linked Q (i :: l)) : Q.next i = l.head? := h.links.1

theorem Links.unique {next : ι → Option ι} : ∀ {l l' : List ι}, Links next l → Links next l' →
    l.head? = l'.head? → l = l'
  | [], [], _, _, _ => rfl
  | i :: l, j :: l', h, h', he => by
    obtain rfl : i = j := by simpa using he
    rw [h.2.unique h'.2 (h.1.symm.trans h'.1)]

theorem Linked.unique {l' : List ι} (h : Linked Q l) (h' : Linked Q l') : l = l' :=
  h.links.unique h'.links (h.first.symm.trans h'.first)

variable [DecidableEq ι]

theorem Links.append {next : ι → Option ι} :
    ∀ {l : List ι} {p : ι}, Links next (l ++ [p]) → (l ++ [p]).Nodup → ∀ i, i ∉ l ++ [p] →
      next i = none → Links (update next p (some i)) (l ++ [p] ++ [i])
  | [], p, h, _, i, hi, hn => by
    have hne : i ≠ p := by simpa using hi
    exact ⟨by simp, by simp [update_of_ne hne, hn], trivial⟩
  | k :: l, p, h, hnd, i, hi, hn => by
    have hkp : k ≠ p := by
      rintro rfl
      simp at hnd
    refine ⟨?_, h.2.append (List.nodup_cons.mp hnd).2 i (fun hm => hi (by simp_all)) hn⟩
    rw [update_of_ne hkp, h.1]
    cases l <;> rfl

theorem Linked.append (h : Linked Q l) (hi : i ∉ l) : Linked (Q.append i) (l ++ [i]) := by
  have hnd : (l ++ [i]).Nodup := by
    rw [List.nodup_append]
    exact ⟨h.nodup, by simp, by
      rintro a ha b hb rfl
      rw [List.mem_singleton] at hb
      exact hi (hb ▸ ha)⟩
  obtain rfl | ⟨l, p, rfl⟩ := List.eq_nil_or_concat' l
  · have hl : Q.last = none := h.last
    rw [Queue.append, hl]
    refine ⟨rfl, rfl, ⟨h.outside i hi, trivial⟩, fun k hk => h.outside k (by simp), hnd⟩
  · have hl : Q.last = some p := by rw [h.last]; simp
    rw [Queue.append, hl]
    refine ⟨?_, by simp, h.links.append h.nodup i hi (h.outside i hi), ?_, hnd⟩
    · rw [h.first]
      cases l <;> rfl
    · intro k hk
      have hkp : k ≠ p := by
        rintro rfl
        simp at hk
      change update Q.next p (some i) k = none
      rw [update_of_ne hkp]
      exact h.outside k fun hm => hk (List.mem_append_left _ hm)

theorem Linked.removeFirst (h : Linked Q (i :: l)) : Linked (Q.removeFirst i) l := by
  obtain ⟨hi, hnd⟩ := List.nodup_cons.mp h.nodup
  have hnext : ∀ k ∈ l, update Q.next i none k = Q.next k := by
    intro k hk
    refine update_of_ne ?_ _ _
    rintro rfl
    exact hi hk
  have hout : ∀ k, k ∉ l → update Q.next i none k = none := by
    intro k hk
    by_cases hki : k = i
    · rw [hki, update_self]
    · rw [update_of_ne hki]
      exact h.outside k (by simp [hki, hk])
  rw [Queue.removeFirst, h.next_head]
  cases l with
  | nil => exact ⟨rfl, rfl, trivial, hout, hnd⟩
  | cons j l =>
    refine ⟨rfl, ?_, h.links.2.congr hnext, hout, hnd⟩
    rw [h.last]
    rfl

theorem Linked.rotate (h : Linked Q (i :: j :: l)) : Linked (Q.rotate i j) (j :: l ++ [i]) := by
  obtain ⟨hi, -⟩ := List.nodup_cons.mp h.nodup
  have hr := h.removeFirst.append hi
  have hn : Q.next i = some j := h.next_head
  obtain ⟨p, hp⟩ : ∃ p, Q.last = some p := by
    rw [h.last]
    exact ⟨_, List.getLast?_eq_getLast_of_ne_nil (by simp)⟩
  have he : Q.rotate i j = (Q.removeFirst i).append i := by
    simp only [Queue.append, Queue.rotate, Queue.removeFirst, hn, hp]
  rw [he]
  exact hr

end

end MitScheme.Lib.LinkedQueue
