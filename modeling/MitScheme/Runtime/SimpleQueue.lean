import Mathlib.Data.List.Basic

/-! # Simple queues

`queue.scm` without the serial operations: a queue is a pair of pointers to the first and to the
last of a chain of pairs. -/

namespace MitScheme.Runtime.SimpleQueue
open Function

variable {α : Type}

/-- The pairs by their addresses, those from `fresh` on not yet allocated, and the two pointers. -/
structure Queue (α : Type) where
  car : Nat → Option α
  cdr : Nat → Option Nat
  fresh : Nat
  first : Option Nat
  last : Option Nat

/-- `make-queue`. -/
def make : Queue α := ⟨fun _ => none, fun _ => none, 0, none, none⟩

/-- `queue-empty?`. -/
def Queue.isEmpty (queue : Queue α) : Bool := queue.first.isNone

/-- `enqueue!/unsafe`. -/
def Queue.enqueue (queue : Queue α) (object : α) : Queue α :=
  let next := queue.fresh
  { car := update queue.car next (some object)
    cdr := match queue.last with
      | some p => update queue.cdr p (some next)
      | none => queue.cdr
    fresh := queue.fresh + 1
    first := if queue.last.isSome then queue.first else some next
    last := some next }

/-- `dequeue!/unsafe`, which signals an error on an empty queue. -/
def Queue.dequeue (queue : Queue α) : Option (α × Queue α) :=
  match queue.first with
  | none => none
  | some next =>
    match queue.car next with
    | none => none
    | some object =>
      match queue.cdr next with
      | some p => some (object, { queue with first := some p })
      | none => some (object, { queue with first := none, last := none })

def Spells (queue : Queue α) : Option Nat → List Nat → Prop
  | start, [] => start = none
  | start, p :: pairs => start = some p ∧ Spells queue (queue.cdr p) pairs

structure Represents (queue : Queue α) (objects : List α) (pairs : List Nat) : Prop where
  spells : Spells queue queue.first pairs
  cars : pairs.map queue.car = objects.map some
  last : queue.last = pairs.getLast?
  allocated : ∀ p ∈ pairs, p < queue.fresh
  nodup : pairs.Nodup
  unlinked : ∀ p, queue.fresh ≤ p → queue.cdr p = none

def Holds (queue : Queue α) (objects : List α) : Prop :=
  ∃ pairs, Represents queue objects pairs

variable {queue : Queue α} {objects : List α} {pairs : List Nat}

theorem holds_make : Holds (make : Queue α) [] :=
  ⟨[], rfl, rfl, rfl, by simp, .nil, fun _ _ => rfl⟩

theorem Represents.length_eq (h : Represents queue objects pairs) : pairs.length = objects.length := by
  simpa using congrArg List.length h.cars

theorem Holds.isEmpty (h : Holds queue objects) : queue.isEmpty = objects.isEmpty := by
  obtain ⟨pairs, h⟩ := h
  have hlen := h.length_eq
  have hspells := h.spells
  match pairs, objects with
  | [], [] => rw [Queue.isEmpty, hspells]; rfl
  | p :: pairs, x :: objects => rw [Queue.isEmpty, hspells.1]; rfl
  | [], _ :: _ | _ :: _, [] => simp at hlen

theorem Spells.append {queue' : Queue α} {start last next} (h : Spells queue start pairs)
    (hlast : pairs.getLast? = some last) (hnodup : pairs.Nodup) (hnext : next ∉ pairs)
    (hlink : queue'.cdr last = some next) (hend : queue'.cdr next = none)
    (hsame : ∀ p, p ≠ last → p ≠ next → queue'.cdr p = queue.cdr p) :
    Spells queue' start (pairs ++ [next]) := by
  induction pairs generalizing start with
  | nil => cases hlast
  | cons p pairs ih =>
    obtain ⟨hp, hrest⟩ := h
    rw [List.nodup_cons] at hnodup
    rw [List.mem_cons, not_or] at hnext
    refine ⟨hp, ?_⟩
    match pairs with
    | [] =>
      obtain rfl : p = last := Option.some.inj hlast
      exact ⟨hlink, hend⟩
    | q :: pairs =>
      have hlast' : (q :: pairs).getLast? = some last := by rwa [List.getLast?_cons_cons] at hlast
      have hne : p ≠ last := fun heq =>
        hnodup.1 (heq ▸ List.mem_of_getLast? hlast')
      rw [hsame p hne (Ne.symm hnext.1)]
      exact ih hrest hlast' hnodup.2 hnext.2

theorem Spells.congr {queue' : Queue α} {start} (h : Spells queue start pairs)
    (hsame : queue'.cdr = queue.cdr) : Spells queue' start pairs := by
  induction pairs generalizing start with
  | nil => exact h
  | cons p pairs ih => exact ⟨h.1, hsame ▸ ih h.2⟩

theorem Holds.enqueue (h : Holds queue objects) (object : α) :
    Holds (queue.enqueue object) (objects ++ [object]) := by
  obtain ⟨pairs, h⟩ := h
  have hfresh : queue.fresh ∉ pairs := fun hmem => Nat.lt_irrefl _ (h.allocated _ hmem)
  refine ⟨pairs ++ [queue.fresh], ?_, ?_, ?_, ?_, ?_, ?_⟩
  · cases hlast : pairs.getLast? with
    | none =>
      obtain rfl := List.getLast?_eq_none_iff.mp hlast
      have hnone : queue.last = none := h.last
      simp [Queue.enqueue, Spells, hnone, h.unlinked queue.fresh (Nat.le_refl _)]
    | some last =>
      have hsome : queue.last = some last := h.last.trans hlast
      have hne : queue.fresh ≠ last := fun heq => hfresh (heq ▸ List.mem_of_getLast? hlast)
      have hfirst : (queue.enqueue object).first = queue.first := by simp [Queue.enqueue, hsome]
      have hcdr : (queue.enqueue object).cdr = update queue.cdr last (some queue.fresh) := by
        simp [Queue.enqueue, hsome]
      rw [hfirst]
      refine h.spells.append hlast h.nodup hfresh ?_ ?_ fun p hp _ => ?_
      · rw [hcdr, update_self]
      · rw [hcdr, update_of_ne hne, h.unlinked _ (Nat.le_refl _)]
      · rw [hcdr, update_of_ne hp]
  · have hold (p : Nat) (hp : p ∈ pairs) :
        update queue.car queue.fresh (some object) p = queue.car p :=
      update_of_ne (ne_of_mem_of_not_mem hp hfresh) ..
    rw [List.map_append, List.map_append, ← h.cars]
    change List.map (update queue.car queue.fresh (some object)) pairs ++
      [update queue.car queue.fresh (some object) queue.fresh] = _
    rw [List.map_congr_left hold, update_self]
    rfl
  · rw [List.getLast?_append]
    rfl
  · intro p hp
    rcases List.mem_append.mp hp with hp | hp
    · exact Nat.lt_succ_of_lt (h.allocated p hp)
    · rw [List.mem_singleton.mp hp]
      exact Nat.lt_succ_self _
  · exact List.nodup_append.mpr ⟨h.nodup, List.pairwise_singleton _ _, by
      intro p hp q hq heq
      rw [List.mem_singleton] at hq
      exact hfresh (hq ▸ heq ▸ hp)⟩
  · intro p hp
    have hne : p ≠ queue.fresh := Nat.ne_of_gt hp
    have hold := h.unlinked p (Nat.le_of_succ_le hp)
    cases hlast : queue.last with
    | none => simpa [Queue.enqueue, hlast] using hold
    | some last =>
      have hmem : last ∈ pairs := List.mem_of_getLast? (h.last.symm.trans hlast)
      have hne' : p ≠ last := fun heq =>
        Nat.lt_irrefl _ (Nat.lt_of_lt_of_le (h.allocated last hmem) (heq ▸ Nat.le_of_succ_le hp))
      simpa [Queue.enqueue, hlast, update_of_ne hne'] using hold

theorem Holds.dequeue {object} (h : Holds queue (object :: objects)) :
    ∃ queue', queue.dequeue = some (object, queue') ∧ Holds queue' objects := by
  obtain ⟨pairs, h⟩ := h
  match pairs with
  | [] => exact absurd h.length_eq (by simp)
  | p :: pairs =>
    obtain ⟨hfirst, hrest⟩ := h.spells
    obtain ⟨hcar, hcars⟩ := List.cons.inj h.cars
    have hnodup := (List.nodup_cons.mp h.nodup).2
    have halloc (q : Nat) (hq : q ∈ pairs) := h.allocated q (List.mem_cons_of_mem p hq)
    match pairs with
    | [] =>
      refine ⟨{ queue with first := none, last := none }, ?_, [], rfl, hcars, rfl, halloc, hnodup,
        h.unlinked⟩
      have hcdr : queue.cdr p = none := hrest
      simp [Queue.dequeue, hfirst, hcar, hcdr]
    | q :: pairs =>
      have hcdr : queue.cdr p = some q := hrest.1
      refine ⟨{ queue with first := some q }, by simp [Queue.dequeue, hfirst, hcar, hcdr],
        q :: pairs, ?_, hcars, ?_, halloc, hnodup, h.unlinked⟩
      · rw [hcdr] at hrest
        exact hrest.congr rfl
      · rw [h.last, List.getLast?_cons_cons]

end MitScheme.Runtime.SimpleQueue
