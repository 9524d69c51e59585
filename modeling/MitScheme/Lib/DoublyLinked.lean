import MitScheme.Lib.LinkedQueue

/-! # Doubly linked lists

Members of a type with links to the next and to the previous one. `DLinked` says
that the links spell out a list; the edits are stated by what the new links are, so
that they fit any order of assignments. -/

namespace MitScheme.Lib.DoublyLinked
open Lib.LinkedQueue (Links)

variable {ι : Type} {next next' prev prev' : ι → Option ι}

/-! ## One direction -/

theorem Links.next_eq : ∀ {a : List ι} {x : ι} {b : List ι}, Links next (a ++ x :: b) →
    next x = b.head?
  | [], _, _, h => h.1
  | _ :: _, _, _, h => Links.next_eq h.2

theorem Links.of_append : ∀ {a b : List ι}, Links next (a ++ b) → Links next b
  | [], _, h => h
  | _ :: _, _, h => Links.of_append h.2

theorem Links.delete : ∀ {a : List ι} {x : ι} {b : List ι}, Links next (a ++ x :: b) →
    (a ++ b).Nodup → (∀ p, a.getLast? = some p → next' p = b.head?) →
    (∀ j ∈ a ++ b, a.getLast? ≠ some j → next' j = next j) → Links next' (a ++ b)
  | [], x, b, h, _, _, hsame =>
    LinkedQueue.Links.congr h.2 fun j hj => hsame j hj (Option.some_ne_none j).symm
  | [p], x, b, h, hnodup, hlink, hsame => by
    refine ⟨hlink p rfl, LinkedQueue.Links.congr h.2.2 ?_⟩
    intro j hj
    refine hsame j (List.mem_cons_of_mem _ hj) ?_
    intro hpj
    obtain rfl : p = j := Option.some.inj hpj
    exact (List.nodup_cons.mp hnodup).1 hj
  | p :: q :: a, x, b, h, hnodup, hlink, hsame => by
    obtain ⟨hp, hnodup'⟩ := List.nodup_cons.mp hnodup
    have hlast : (p :: q :: a).getLast? = (q :: a).getLast? := List.getLast?_cons_cons
    rw [hlast] at hlink hsame
    refine ⟨?_, Links.delete h.2 hnodup' hlink fun j hj => hsame j (List.mem_cons_of_mem _ hj)⟩
    rw [hsame p List.mem_cons_self]
    · exact h.1
    · intro hpl
      exact hp (List.mem_append_left _ (List.mem_of_getLast? hpl))

theorem Links.insert : ∀ {a : List ι} {x : ι} {b : List ι}, Links next (a ++ b) →
    (a ++ b).Nodup → next' x = b.head? → (∀ p, a.getLast? = some p → next' p = some x) →
    (∀ j ∈ a ++ b, a.getLast? ≠ some j → next' j = next j) → Links next' (a ++ x :: b)
  | [], x, b, h, _, hx, _, hsame =>
    ⟨hx, LinkedQueue.Links.congr h fun j hj => hsame j hj (Option.some_ne_none j).symm⟩
  | [p], x, b, h, hnodup, hx, hlink, hsame => by
    refine ⟨hlink p rfl, hx, LinkedQueue.Links.congr h.2 ?_⟩
    intro j hj
    refine hsame j (List.mem_cons_of_mem _ hj) ?_
    intro hpj
    obtain rfl : p = j := Option.some.inj hpj
    exact (List.nodup_cons.mp hnodup).1 hj
  | p :: q :: a, x, b, h, hnodup, hx, hlink, hsame => by
    obtain ⟨hp, hnodup'⟩ := List.nodup_cons.mp hnodup
    have hlast : (p :: q :: a).getLast? = (q :: a).getLast? := List.getLast?_cons_cons
    rw [hlast] at hlink hsame
    refine ⟨?_, Links.insert h.2 hnodup' hx hlink fun j hj => hsame j (List.mem_cons_of_mem _ hj)⟩
    rw [hsame p List.mem_cons_self]
    · exact h.1
    · intro hpl
      exact hp (List.mem_append_left _ (List.mem_of_getLast? hpl))

theorem Links.concat : ∀ {l : List ι} {x : ι}, Links next l → l.Nodup →
    next' x = none → (∀ p, l.getLast? = some p → next' p = some x) →
    (∀ j ∈ l, l.getLast? ≠ some j → next' j = next j) → Links next' (l ++ [x])
  | [], x, _, _, hx, _, _ => ⟨hx, trivial⟩
  | [p], x, _, _, hx, hlink, _ => ⟨hlink p rfl, hx, trivial⟩
  | p :: q :: l, x, h, hnodup, hx, hlink, hsame => by
    obtain ⟨hp, hnodup'⟩ := List.nodup_cons.mp hnodup
    have hlast : (p :: q :: l).getLast? = (q :: l).getLast? := List.getLast?_cons_cons
    rw [hlast] at hlink hsame
    refine ⟨?_, Links.concat h.2 hnodup' hx hlink fun j hj => hsame j (List.mem_cons_of_mem _ hj)⟩
    rw [hsame p List.mem_cons_self]
    · exact h.1
    · intro hpl
      exact hp (List.mem_of_getLast? hpl)

/-! ## Both directions -/

/-- The members of `l`, each once, linked both ways. -/
structure DLinked (prev next : ι → Option ι) (l : List ι) : Prop where
  next : Links next l
  prev : Links prev l.reverse
  nodup : l.Nodup

theorem dlinked_nil : DLinked prev next [] := ⟨trivial, trivial, List.nodup_nil⟩

variable {l a b : List ι} {x : ι}

theorem DLinked.next_eq (h : DLinked prev next (a ++ x :: b)) : next x = b.head? :=
  Links.next_eq h.next

theorem DLinked.prev_eq (h : DLinked prev next (a ++ x :: b)) : prev x = a.getLast? := by
  have hrev : (a ++ x :: b).reverse = b.reverse ++ x :: a.reverse := by simp
  have hprev := h.prev
  rw [hrev] at hprev
  rw [Links.next_eq hprev, List.head?_reverse]

theorem DLinked.congr (h : DLinked prev next l) (hprev : ∀ j ∈ l, prev' j = prev j)
    (hnext : ∀ j ∈ l, next' j = next j) : DLinked prev' next' l :=
  ⟨LinkedQueue.Links.congr h.next hnext,
    LinkedQueue.Links.congr h.prev fun j hj => hprev j (List.mem_reverse.mp hj), h.nodup⟩

theorem DLinked.delete (h : DLinked prev next (a ++ x :: b))
    (hnext : ∀ p, a.getLast? = some p → next' p = b.head?)
    (hprev : ∀ n, b.head? = some n → prev' n = a.getLast?)
    (hnext' : ∀ j ∈ a ++ b, a.getLast? ≠ some j → next' j = next j)
    (hprev' : ∀ j ∈ a ++ b, b.head? ≠ some j → prev' j = prev j) :
    DLinked prev' next' (a ++ b) := by
  have hnodup : (a ++ b).Nodup := h.nodup.sublist
    (List.Sublist.append_left (List.sublist_cons_self x b) a)
  refine ⟨Links.delete h.next hnodup hnext hnext', ?_, hnodup⟩
  have hold : Links prev (b.reverse ++ x :: a.reverse) := by
    have hrev : (a ++ x :: b).reverse = b.reverse ++ x :: a.reverse := by simp
    rw [← hrev]
    exact h.prev
  have hrev : (a ++ b).reverse = b.reverse ++ a.reverse := by simp
  rw [hrev]
  refine Links.delete hold ?_ ?_ ?_
  · rw [← hrev]
    exact List.nodup_reverse.mpr hnodup
  · intro n hn
    rw [List.head?_reverse]
    rw [List.getLast?_reverse] at hn
    exact hprev n hn
  · intro j hj hne
    rw [List.getLast?_reverse] at hne
    refine hprev' j ?_ hne
    rw [← List.mem_reverse, hrev]
    exact hj

theorem DLinked.insert (h : DLinked prev next (a ++ b)) (hx : x ∉ a ++ b)
    (hxn : next' x = b.head?) (hxp : prev' x = a.getLast?)
    (hnext : ∀ p, a.getLast? = some p → next' p = some x)
    (hprev : ∀ n, b.head? = some n → prev' n = some x)
    (hnext' : ∀ j ∈ a ++ b, a.getLast? ≠ some j → next' j = next j)
    (hprev' : ∀ j ∈ a ++ b, b.head? ≠ some j → prev' j = prev j) :
    DLinked prev' next' (a ++ x :: b) := by
  have hrev : (a ++ b).reverse = b.reverse ++ a.reverse := by simp
  have hold : Links prev (b.reverse ++ a.reverse) := by
    rw [← hrev]
    exact h.prev
  refine ⟨Links.insert h.next h.nodup hxn hnext hnext', ?_, ?_⟩
  · have hrev' : (a ++ x :: b).reverse = b.reverse ++ x :: a.reverse := by simp
    rw [hrev']
    refine Links.insert hold ?_ ?_ ?_ ?_
    · rw [← hrev]
      exact List.nodup_reverse.mpr h.nodup
    · rw [List.head?_reverse]
      exact hxp
    · intro n hn
      rw [List.getLast?_reverse] at hn
      exact hprev n hn
    · intro j hj hne
      rw [List.getLast?_reverse] at hne
      refine hprev' j ?_ hne
      rw [← List.mem_reverse, hrev]
      exact hj
  · have hmove : (a ++ x :: b).Perm (x :: (a ++ b)) := List.perm_middle
    exact hmove.nodup_iff.mpr (List.nodup_cons.mpr ⟨hx, h.nodup⟩)

theorem DLinked.concat (h : DLinked prev next l) (hx : x ∉ l) (hxn : next' x = none)
    (hxp : prev' x = l.getLast?) (hlink : ∀ p, l.getLast? = some p → next' p = some x)
    (hnext : ∀ j ∈ l, l.getLast? ≠ some j → next' j = next j)
    (hprev : ∀ j ∈ l, prev' j = prev j) : DLinked prev' next' (l ++ [x]) := by
  refine ⟨Links.concat h.next h.nodup hxn hlink hnext, ?_, ?_⟩
  · rw [List.reverse_append]
    refine ⟨?_, LinkedQueue.Links.congr h.prev fun j hj => hprev j (List.mem_reverse.mp hj)⟩
    show prev' x = l.reverse.head?
    rw [List.head?_reverse]
    exact hxp
  · refine List.nodup_append.mpr ⟨h.nodup, List.nodup_singleton x, ?_⟩
    intro i hi j hj
    rw [List.mem_singleton.mp hj]
    exact fun hix => hx (hix ▸ hi)

theorem DLinked.cons (h : DLinked prev next l) (hx : x ∉ l) (hxp : prev' x = none)
    (hxn : next' x = l.head?) (hlink : ∀ n, l.head? = some n → prev' n = some x)
    (hprev : ∀ j ∈ l, l.head? ≠ some j → prev' j = prev j)
    (hnext : ∀ j ∈ l, next' j = next j) : DLinked prev' next' (x :: l) := by
  refine ⟨⟨hxn, LinkedQueue.Links.congr h.next hnext⟩, ?_, List.nodup_cons.mpr ⟨hx, h.nodup⟩⟩
  rw [List.reverse_cons]
  refine Links.concat h.prev (List.nodup_reverse.mpr h.nodup) hxp ?_ ?_
  · intro n hn
    rw [List.getLast?_reverse] at hn
    exact hlink n hn
  · intro j hj hne
    rw [List.getLast?_reverse] at hne
    exact hprev j (List.mem_reverse.mp hj) hne

end MitScheme.Lib.DoublyLinked
