import Mathlib
import MitScheme.Lib.Machine
import MitScheme.Lib.DoublyLinked

/-! # Timer events

The list `timer-records` of `thread.scm` with its registrations, deliveries and
discards, under any interleaving. A section without interrupts is one step.
Times are the members of a linear order. -/

namespace MitScheme.Runtime.TimerEvents
open Lib Lib.Machine Lib.LinkedQueue Function

abbrev ThreadId := Nat
abbrev RecordId := Nat

/-- An event is `#f` or a thunk; thunks are named by a number. -/
abbrev Event := Option Nat

/-- A `timer-record`. -/
structure TimerRecord (τ : Type) where
  time : τ
  thread : Option ThreadId
  event : Event
  next : Option RecordId

/-- A call of `%signal-thread-event` on behalf of a record. -/
structure Delivery (τ : Type) where
  record : RecordId
  time : τ
  thread : Option ThreadId
  event : Event

/-- `exit-current-thread` discards the records of the thread and then calls the
event constructors of the threads that have joined it; `exiting` is the time of
these calls. -/
inductive Life
  | alive
  | exiting
  | dead
  deriving DecidableEq

/-- Records are numbered in the order in which they are made. -/
structure Timers (τ : Type) where
  records : RecordId → TimerRecord τ
  count : Nat
  timerRecords : Option RecordId
  clock : τ
  life : ThreadId → Life
  delivered : List (Delivery τ)

inductive Action (τ : Type)
  /-- `register-time-event` in the code of a thread. -/
  | register (t : ThreadId) (time : τ) (event : Event)
  | deregister (registration : RecordId)
  | deliver (time : τ)
  /-- `exit-current-thread` up to `release-joined-threads`. -/
  | exit (t : ThreadId)
  /-- The thread is dead. -/
  | die (t : ThreadId)

namespace Timers
variable {τ : Type}

def setRecord (s : Timers τ) (r : RecordId) (x : TimerRecord τ) : Timers τ :=
  { s with records := update s.records r x }

/-- `set-timer-record/next!`. -/
def setNext (s : Timers τ) (r : RecordId) (next : Option RecordId) : Timers τ :=
  s.setRecord r { s.records r with next }

/-- What follows `prev`, or the head of the list, becomes `next`. -/
def link (s : Timers τ) (prev next : Option RecordId) : Timers τ :=
  match prev with
  | some p => s.setNext p next
  | none => { s with timerRecords := next }

/-! ## The loops

`fuel` bounds the number of turns. -/

/-- The loop of `deregister-time-event`. -/
def deregisterLoop (registration : RecordId) :
    Nat → Timers τ → (record prev : Option RecordId) → Option (Timers τ)
  | 0, _, _, _ => none
  | fuel + 1, s, record, prev =>
    match record with
    | none => some s
    | some r =>
      let next := (s.records r).next
      if r = registration then some (s.link prev next)
      else deregisterLoop registration fuel s next (some r)

/-- The loop of `%discard-thread-timer-records`. -/
def discardLoop (thread : ThreadId) :
    Nat → Timers τ → (record prev : Option RecordId) → Option (Timers τ)
  | 0, _, _, _ => none
  | fuel + 1, s, record, prev =>
    match record with
    | none => some s
    | some r =>
      let next := (s.records r).next
      if some thread = (s.records r).thread then discardLoop thread fuel (s.link prev next) next prev
      else discardLoop thread fuel s next (some r)

section
variable [LinearOrder τ]

/-- The loop of `register-time-event`: the record before which the new one goes,
and the one before that. -/
def insertLoop (s : Timers τ) (time : τ) :
    Nat → (record prev : Option RecordId) → Option (Option RecordId × Option RecordId)
  | 0, _, _ => none
  | fuel + 1, record, prev =>
    match record with
    | none => some (none, prev)
    | some r =>
      if time < (s.records r).time then some (some r, prev)
      else s.insertLoop time fuel (s.records r).next (some r)

/-- The loop of `deliver-timer-events`. -/
def deliverLoop (time : τ) : Nat → Timers τ → (record : Option RecordId) → Option (Timers τ)
  | 0, _, _ => none
  | fuel + 1, s, record =>
    match record with
    | none => some { s with timerRecords := none }
    | some r =>
      let x := s.records r
      if time < x.time then some { s with timerRecords := some r }
      else
        let s := s.setRecord r { x with thread := none, event := none }
        deliverLoop time fuel
          { s with delivered := s.delivered ++ [⟨r, x.time, x.thread, x.event⟩] } x.next

/-! ## The operations -/

def makeTimerRecord (s : Timers τ) (time : τ) (t : ThreadId) (event : Event) : Timers τ :=
  { s.setRecord s.count ⟨time, some t, event, none⟩ with count := s.count + 1 }

def registerTimeEvent (s : Timers τ) (t : ThreadId) (time : τ) (event : Event) :
    Option (Timers τ) := do
  let newRecord := s.count
  let s := s.makeTimerRecord time t event
  let (record, prev) ← s.insertLoop time s.count s.timerRecords none
  return (s.setNext newRecord record).link prev (some newRecord)

def deregisterTimeEvent (s : Timers τ) (registration : RecordId) : Option (Timers τ) :=
  deregisterLoop registration (s.count + 1) s s.timerRecords none

def deliverTimerEvents (s : Timers τ) (time : τ) : Option (Timers τ) :=
  deliverLoop time (s.count + 1) s s.timerRecords

def discardThreadTimerRecords (s : Timers τ) (thread : ThreadId) : Option (Timers τ) :=
  discardLoop thread (s.count + 1) s s.timerRecords none

def setLife (s : Timers τ) (t : ThreadId) (l : Life) : Timers τ :=
  { s with life := update s.life t l }

/-- What the order of events allows: a thread that is not dead registers, a
registration exists, and the clock does not run backwards. -/
def Allowed (s : Timers τ) : Action τ → Prop
  | .register t _ _ => s.life t ≠ .dead
  | .deregister registration => registration < s.count
  | .deliver time => s.clock ≤ time
  | .exit t => s.life t = .alive
  | .die t => s.life t = .exiting

instance (s : Timers τ) : (a : Action τ) → Decidable (s.Allowed a)
  | .register .. => inferInstanceAs (Decidable (_ ≠ _))
  | .deregister _ => inferInstanceAs (Decidable (_ < _))
  | .deliver _ => inferInstanceAs (Decidable (_ ≤ _))
  | .exit _ => inferInstanceAs (Decidable (_ = _))
  | .die _ => inferInstanceAs (Decidable (_ = _))

def perform (s : Timers τ) : Action τ → Option (Timers τ)
  | .register t time event => s.registerTimeEvent t time event
  | .deregister registration => s.deregisterTimeEvent registration
  | .deliver time => { s with clock := time }.deliverTimerEvents time
  | .exit t => (s.discardThreadTimerRecords t).map (·.setLife t .exiting)
  | .die t => some (s.setLife t .dead)

def step (s : Timers τ) (a : Action τ) : Option (Timers τ) :=
  if s.Allowed a then s.perform a else none

/-- `initialize-high!`, at some time. -/
def initial (clock : τ) : Timers τ where
  records := fun _ => ⟨clock, none, none, none⟩
  count := 0
  timerRecords := none
  clock := clock
  life := fun _ => .alive
  delivered := []

end

/-! ## The list of records -/

variable {s s' : Timers τ} {a b l : List RecordId} {t : ThreadId} {x : RecordId}

def next (s : Timers τ) (r : RecordId) : Option RecordId := (s.records r).next

/-- `timer-records` spells out `l`. -/
structure Chain (s : Timers τ) (l : List RecordId) : Prop where
  first : s.timerRecords = l.head?
  links : Links s.next l
  nodup : l.Nodup

structure Relinked (s s' : Timers τ) : Prop where
  records : ∀ r, { s'.records r with next := (s.records r).next } = s.records r
  count : s'.count = s.count
  clock : s'.clock = s.clock
  life : s'.life = s.life
  delivered : s'.delivered = s.delivered

theorem Relinked.refl (s : Timers τ) : Relinked s s := ⟨fun _ => rfl, rfl, rfl, rfl, rfl⟩

theorem Relinked.time (h : Relinked s s') (r) :
    (s'.records r).time = (s.records r).time := by rw [← h.records r]

theorem Relinked.thread (h : Relinked s s') (r) :
    (s'.records r).thread = (s.records r).thread := by rw [← h.records r]

theorem Relinked.event (h : Relinked s s') (r) :
    (s'.records r).event = (s.records r).event := by rw [← h.records r]

theorem Relinked.trans {s''} (h : Relinked s s') (h' : Relinked s' s'') :
    Relinked s s'' where
  records r := by
    rw [← h.records r, ← h'.records r]
  count := h'.count.trans h.count
  clock := h'.clock.trans h.clock
  life := h'.life.trans h.life
  delivered := h'.delivered.trans h.delivered

theorem relinked_setNext (s : Timers τ) (r n) : Relinked s (s.setNext r n) := by
  refine ⟨fun k => ?_, rfl, rfl, rfl, rfl⟩
  by_cases hk : k = r
  · subst hk
    simp [setNext, setRecord]
  · simp [setNext, setRecord, hk]

theorem relinked_link (s : Timers τ) (prev n) : Relinked s (s.link prev n) := by
  cases prev with
  | none => exact ⟨fun _ => rfl, rfl, rfl, rfl, rfl⟩
  | some p => exact relinked_setNext s p n

theorem next_setNext (s : Timers τ) (r n) : (s.setNext r n).next = update s.next r n := by
  funext k
  by_cases hk : k = r
  · subst hk
    simp [next, setNext, setRecord]
  · simp [next, setNext, setRecord, hk]

theorem next_link_of_ne {prev n k} (hk : prev ≠ some k) : (s.link prev n).next k = s.next k := by
  cases prev with
  | none => rfl
  | some p =>
    have hkp : k ≠ p := fun he => hk (he ▸ rfl)
    rw [link, next_setNext, update_of_ne hkp]

theorem next_link_some {p n} :
    (s.link (some p) n).next p = n := by rw [link, next_setNext, update_self]

theorem first_link {n} (h : s.timerRecords = (a ++ b).head?) :
    (s.link a.getLast? n).timerRecords = if a = [] then n else a.head? := by
  rcases List.eq_nil_or_concat' a with rfl | ⟨c, p, rfl⟩
  · rfl
  · rw [if_neg (by simp), List.getLast?_concat]
    change s.timerRecords = _
    rw [h]
    cases c <;> simp

theorem Chain.splice (h : s.Chain (a ++ x :: b)) :
    (s.link a.getLast? b.head?).Chain (a ++ b) := by
  have hnodup : (a ++ b).Nodup :=
    h.nodup.sublist (List.Sublist.append_left (List.sublist_cons_self x b) a)
  refine ⟨?_, ?_, hnodup⟩
  · rw [first_link h.first]
    cases a <;> simp
  · refine DoublyLinked.Links.delete h.links hnodup (fun p hp => ?_) fun j _ hj => next_link_of_ne hj
    rw [hp]
    exact next_link_some

theorem Chain.put (h : s.Chain (a ++ b)) (hx : x ∉ a ++ b) (hn : s.next x = b.head?) :
    (s.link a.getLast? (some x)).Chain (a ++ x :: b) := by
  have hnodup : (a ++ x :: b).Nodup := by
    rw [List.nodup_middle]
    exact List.nodup_cons.mpr ⟨hx, h.nodup⟩
  refine ⟨?_, ?_, hnodup⟩
  · rw [first_link h.first]
    cases a <;> simp
  · refine DoublyLinked.Links.insert h.links h.nodup ?_ (fun p hp => ?_)
      fun j _ hj => next_link_of_ne hj
    · rw [next_link_of_ne ?_, hn]
      intro hp
      exact hx (List.mem_append_left _ (List.mem_of_getLast? hp))
    · rw [hp]
      exact next_link_some

/-! ## What the loops do -/

theorem filter_ne_self {r} (h : r ∉ a) : a.filter (· ≠ r) = a :=
  List.filter_eq_self.mpr fun _ hk => decide_eq_true fun he => h (he ▸ hk)

theorem deregisterLoop_spec (registration : RecordId) : ∀ (b : List RecordId) {fuel : Nat}
    {a : List RecordId}, s.Chain (a ++ b) → b.length < fuel → registration ∉ a → ∃ s',
      deregisterLoop registration fuel s b.head? a.getLast? = some s' ∧ Relinked s s' ∧
        s'.Chain ((a ++ b).filter (· ≠ registration))
  | [], fuel + 1, a, h, _, ha => by
    refine ⟨s, rfl, .refl s, ?_⟩
    rw [List.append_nil] at h ⊢
    rwa [filter_ne_self ha]
  | r :: b, fuel + 1, a, h, hfuel, ha => by
    have hnext : (s.records r).next = b.head? := DoublyLinked.Links.next_eq h.links
    simp only [List.head?_cons, deregisterLoop, hnext]
    by_cases hr : r = registration
    · subst hr
      refine ⟨_, if_pos rfl, relinked_link s _ _, ?_⟩
      have hb : r ∉ b := (List.nodup_cons.mp h.nodup.of_append_right).1
      rw [List.filter_append, List.filter_cons_of_neg (by simp), filter_ne_self ha,
        filter_ne_self hb]
      exact h.splice
    · rw [if_neg hr]
      have h' : s.Chain ((a ++ [r]) ++ b) := by rwa [List.append_assoc]
      obtain ⟨s', hs', hrel, hchain⟩ := deregisterLoop_spec registration b h'
        (Nat.lt_of_succ_lt_succ hfuel) (by simpa using ⟨ha, Ne.symm hr⟩)
      refine ⟨s', ?_, hrel, by rwa [List.append_assoc] at hchain⟩
      rwa [List.getLast?_concat] at hs'

theorem discardLoop_spec (thread : ThreadId) : ∀ (b : List RecordId) {fuel : Nat}
    {s : Timers τ} {a : List RecordId}, s.Chain (a ++ b) → b.length < fuel → ∃ s',
      discardLoop thread fuel s b.head? a.getLast? = some s' ∧ Relinked s s' ∧
        s'.Chain (a ++ b.filter fun r => (s.records r).thread ≠ some thread)
  | [], fuel + 1, s, a, h, _ => ⟨s, rfl, .refl s, h⟩
  | r :: b, fuel + 1, s, a, h, hfuel => by
    have hnext : (s.records r).next = b.head? := DoublyLinked.Links.next_eq h.links
    simp only [List.head?_cons, discardLoop, hnext]
    by_cases hr : some thread = (s.records r).thread
    · rw [if_pos hr, List.filter_cons_of_neg (by simp [← hr])]
      obtain ⟨s', hs', hrel, hchain⟩ := discardLoop_spec thread b h.splice
        (Nat.lt_of_succ_lt_succ hfuel)
      have hlink := relinked_link s a.getLast? b.head?
      refine ⟨s', hs', hlink.trans hrel, ?_⟩
      simpa only [hlink.thread] using hchain
    · rw [if_neg hr, List.filter_cons_of_pos (by simpa using Ne.symm hr)]
      have h' : s.Chain ((a ++ [r]) ++ b) := by rwa [List.append_assoc]
      obtain ⟨s', hs', hrel, hchain⟩ := discardLoop_spec thread b h'
        (Nat.lt_of_succ_lt_succ hfuel)
      refine ⟨s', ?_, hrel, by rwa [List.append_assoc] at hchain⟩
      rwa [List.getLast?_concat] at hs'

/-- A record as `deliver-timer-events` signals it. -/
def entry (s : Timers τ) (r : RecordId) : Delivery τ :=
  ⟨r, (s.records r).time, (s.records r).thread, (s.records r).event⟩

theorem Relinked.entry (h : Relinked s s') : s'.entry = s.entry := by
  funext r
  rw [Timers.entry, h.time, h.thread, h.event, Timers.entry]

section Ordered
variable [LinearOrder τ] {c d : List RecordId} {time : τ} {event : Event}

theorem insertLoop_spec (hd : ∀ r ∈ d, time < (s.records r).time) :
    ∀ {c a : List RecordId} {fuel : Nat}, Links s.next (c ++ d) →
      (∀ r ∈ c, (s.records r).time ≤ time) → c.length < fuel →
      s.insertLoop time fuel (c ++ d).head? a.getLast? = some (d.head?, (a ++ c).getLast?)
  | [], a, fuel + 1, _, _, _ => by
    cases d with
    | nil => simp [insertLoop]
    | cons r d => simp [insertLoop, hd r List.mem_cons_self]
  | r :: c, a, fuel + 1, h, hc, hfuel => by
    have hnext : (s.records r).next = (c ++ d).head? := h.1
    have hle : ¬time < (s.records r).time := not_lt.mpr (hc r List.mem_cons_self)
    rw [List.cons_append, List.head?_cons, insertLoop]
    simp only [if_neg hle, hnext]
    have ih := insertLoop_spec (a := a ++ [r]) hd h.2
      (fun k hk => hc k (List.mem_cons_of_mem r hk)) (Nat.lt_of_succ_lt_succ hfuel)
    rwa [List.getLast?_concat, List.append_assoc] at ih

/-- The records of `c` are delivered. -/
structure Delivers (s s' : Timers τ) (c d : List RecordId) : Prop where
  first : s'.timerRecords = d.head?
  next : s'.next = s.next
  others : ∀ r, r ∉ c → s'.records r = s.records r
  count : s'.count = s.count
  clock : s'.clock = s.clock
  life : s'.life = s.life
  delivered : s'.delivered = s.delivered ++ c.map s.entry

theorem deliverLoop_spec : ∀ {c : List RecordId} {fuel : Nat} {s : Timers τ}, (∀ r ∈ d, time < (s.records r).time) →
      Links s.next (c ++ d) → (c ++ d).Nodup → (∀ r ∈ c, (s.records r).time ≤ time) →
      c.length < fuel → ∃ s', deliverLoop time fuel s (c ++ d).head? = some s' ∧ Delivers s s' c d
  | [], fuel + 1, s, hd, _, _, _, _ => by
    cases d with
    | nil => exact ⟨_, rfl, rfl, rfl, fun _ _ => rfl, rfl, rfl, rfl, by simp⟩
    | cons r d =>
      refine ⟨{ s with timerRecords := some r }, ?_, rfl, rfl, fun _ _ => rfl, rfl, rfl, rfl,
        by simp⟩
      simp [deliverLoop, hd r List.mem_cons_self]
  | r :: c, fuel + 1, s, hd, h, hnodup, hc, hfuel => by
    have hnext : (s.records r).next = (c ++ d).head? := h.1
    have hle : ¬time < (s.records r).time := not_lt.mpr (hc r List.mem_cons_self)
    rw [List.cons_append] at hnodup
    obtain ⟨hr, hnodup'⟩ := List.nodup_cons.mp hnodup
    generalize hs1 : ({ s.setRecord r { s.records r with thread := none, event := none } with
      delivered := s.delivered ++ [s.entry r] } : Timers τ) = s1
    have hother {k : RecordId} (hk : k ≠ r) : s1.records k = s.records k := by
      rw [← hs1]
      exact update_of_ne hk _ _
    have hne {k : RecordId} (hk : k ∈ c ++ d) : k ≠ r := fun he => hr (he ▸ hk)
    have hnext1 : s1.next = s.next := by
      funext k
      by_cases hk : k = r
      · subst hk
        rw [← hs1]
        simp [Timers.next, setRecord]
      · rw [Timers.next, hother hk]
        rfl
    obtain ⟨s', hs', hdel⟩ := deliverLoop_spec (s := s1)
      (fun k hk => by rw [hother (hne (List.mem_append_right c hk))]; exact hd k hk)
      (hnext1 ▸ h.2) hnodup'
      (fun k hk => by
        rw [hother (hne (List.mem_append_left d hk))]
        exact hc k (List.mem_cons_of_mem r hk))
      (Nat.lt_of_succ_lt_succ hfuel)
    have hentries : c.map s1.entry = c.map s.entry := by
      refine List.map_congr_left fun k hk => ?_
      rw [entry, hother (hne (List.mem_append_left d hk)), entry]
    refine ⟨s', ?_, hdel.first, hdel.next.trans hnext1, fun k hk => ?_, ?_, ?_, ?_, ?_⟩
    · subst hs1
      rw [List.cons_append, List.head?_cons, deliverLoop]
      dsimp only
      rw [if_neg hle]
      exact (congrArg (deliverLoop time fuel _) hnext).trans hs'
    · rw [List.mem_cons, not_or] at hk
      rw [hdel.others k hk.2, hother hk.1]
    · rw [hdel.count, ← hs1]
      rfl
    · rw [hdel.clock, ← hs1]
      rfl
    · rw [hdel.life, ← hs1]
      rfl
    · rw [hdel.delivered, hentries, ← hs1, List.map_cons, List.append_assoc]
      rfl

end Ordered

end Timers

/-! ## What is pending -/

section
variable {τ : Type} [LinearOrder τ]

def Delivery.Before (x y : Delivery τ) : Prop :=
  x.time < y.time ∨ x.time = y.time ∧ x.record < y.record

/-- The registrations that are still to be delivered, as they were made, and the
number of registrations so far. -/
structure Pending (τ : Type) where
  events : List (Delivery τ)
  count : Nat

def Pending.step (p : Pending τ) : Action τ → Pending τ
  | .register t time event => ⟨p.events ++ [⟨p.count, time, some t, event⟩], p.count + 1⟩
  | .deregister registration => { p with events := p.events.filter (·.record ≠ registration) }
  | .deliver time => { p with events := p.events.filter (time < ·.time) }
  | .exit t => { p with events := p.events.filter (·.thread ≠ some t) }
  | .die _ => p

def pendingAfter (actions : List (Action τ)) : Pending τ := actions.foldl Pending.step ⟨[], 0⟩

end

namespace Timers
section Invariant
variable {τ : Type} [LinearOrder τ] {s s' : Timers τ} {p : Pending τ} {l c d : List RecordId}
  {time : τ} {t : ThreadId} {event : Event}

/-- `timer-records` holds what is pending, in order. -/
structure Inv (s : Timers τ) (p : Pending τ) (l : List RecordId) : Prop where
  chain : s.Chain l
  pending : (l.map s.entry).Perm p.events
  sorted : (l.map s.entry).Pairwise Delivery.Before
  lt : ∀ r ∈ l, r < s.count
  count : p.count = s.count
  alive : ∀ e ∈ p.events, ∀ t, e.thread = some t → s.life t = .alive
  once : (s.delivered.map (·.record)).Nodup
  done : ∀ e ∈ s.delivered, e.record < s.count ∧ e.record ∉ l

theorem initial_inv (clock : τ) : (initial clock).Inv ⟨[], 0⟩ [] where
  chain := ⟨rfl, trivial, List.nodup_nil⟩
  pending := .nil
  sorted := .nil
  lt := by simp
  count := rfl
  alive := by simp
  once := .nil
  done := by simp [initial]

theorem Inv.length_le (h : s.Inv p l) : l.length ≤ s.count := by
  have := (List.subperm_of_subset h.chain.nodup fun r hr => List.mem_range.mpr (h.lt r hr)).length_le
  rwa [List.length_range] at this

theorem exists_split (s : Timers τ) (time : τ) : ∀ {l : List RecordId},
    (l.Pairwise fun a b => (s.records a).time ≤ (s.records b).time) → ∃ c d, l = c ++ d ∧
      (∀ r ∈ c, (s.records r).time ≤ time) ∧ ∀ r ∈ d, time < (s.records r).time
  | [], _ => ⟨[], [], rfl, by simp, by simp⟩
  | x :: l, h => by
    obtain ⟨hx, hl⟩ := List.pairwise_cons.mp h
    by_cases hlt : time < (s.records x).time
    · refine ⟨[], x :: l, rfl, by simp, fun r hr => ?_⟩
      rcases List.mem_cons.mp hr with rfl | hr
      · exact hlt
      · exact lt_of_lt_of_le hlt (hx r hr)
    · obtain ⟨c, d, rfl, hc, hd⟩ := exists_split s time hl
      refine ⟨x :: c, d, rfl, fun r hr => ?_, hd⟩
      rcases List.mem_cons.mp hr with rfl | hr
      · exact not_lt.mp hlt
      · exact hc r hr

section
variable (h : s.Inv p l)
include h

theorem Inv.exists_split (time) : ∃ c d, l = c ++ d ∧
    (∀ r ∈ c, (s.records r).time ≤ time) ∧ ∀ r ∈ d, time < (s.records r).time := by
  refine Timers.exists_split s time ((List.pairwise_map.mp h.sorted).imp fun {a b} hab => ?_)
  rcases hab with hlt | ⟨heq, -⟩
  · exact le_of_lt hlt
  · exact le_of_eq heq

theorem Inv.filtered (keep) (hrel : Relinked s s')
    (hchain : s'.Chain (l.filter fun r => keep (s.entry r))) :
    s'.Inv ⟨p.events.filter keep, p.count⟩ (l.filter fun r => keep (s.entry r)) where
  chain := hchain
  pending := by
    rw [hrel.entry]
    have := h.pending.filter keep
    rwa [List.filter_map] at this
  sorted := by
    rw [hrel.entry]
    exact h.sorted.sublist (List.filter_sublist.map _)
  lt r hr := by
    rw [hrel.count]
    exact h.lt r (List.mem_filter.mp hr).1
  count := h.count.trans hrel.count.symm
  alive e he := by
    rw [hrel.life]
    exact h.alive e (List.mem_filter.mp he).1
  once := by
    rw [hrel.delivered]
    exact h.once
  done e he := by
    rw [hrel.delivered] at he
    rw [hrel.count]
    exact ⟨(h.done e he).1, fun hm => (h.done e he).2 (List.mem_filter.mp hm).1⟩

theorem Inv.deregister (registration) : ∃ s' l',
    s.deregisterTimeEvent registration = some s' ∧ s'.delivered = s.delivered ∧
      s'.Inv (p.step (.deregister registration)) l' := by
  obtain ⟨s', hs', hrel, hchain⟩ := deregisterLoop_spec registration l (a := []) h.chain
    (Nat.lt_succ_of_le h.length_le) (by simp)
  exact ⟨s', _, by rw [deregisterTimeEvent, h.chain.first]; exact hs', hrel.delivered,
    h.filtered (fun e => e.record ≠ registration) hrel hchain⟩

theorem Inv.exit (t) : ∃ s' l',
    s.discardThreadTimerRecords t = some s' ∧ s'.delivered = s.delivered ∧
      (s'.setLife t .exiting).Inv (p.step (.exit t)) l' := by
  obtain ⟨s', hs', hrel, hchain⟩ := discardLoop_spec t l (a := []) h.chain
    (Nat.lt_succ_of_le h.length_le)
  have hinv := h.filtered (fun e => e.thread ≠ some t) hrel hchain
  refine ⟨s', _, by rw [discardThreadTimerRecords, h.chain.first]; exact hs', hrel.delivered,
    ⟨⟨hinv.chain.first, hinv.chain.links, hinv.chain.nodup⟩, hinv.pending, hinv.sorted, hinv.lt,
      hinv.count, fun e he u hu => ?_, hinv.once, hinv.done⟩⟩
  have hne : u ≠ t := fun he' => by
    have := of_decide_eq_true (List.mem_filter.mp he).2
    rw [hu, he'] at this
    exact this rfl
  change update s'.life t .exiting u = .alive
  rw [update_of_ne hne]
  exact hinv.alive e he u hu

theorem Inv.register (ht : s.life t = .alive) (time event) :
    ∃ s' l', s.registerTimeEvent t time event = some s' ∧ s'.delivered = s.delivered ∧
      s'.Inv (p.step (.register t time event)) l' := by
  obtain ⟨c, d, rfl, hc, hd⟩ := h.exists_split time
  generalize hs1 : s.makeTimerRecord time t event = s1
  have hother {r : RecordId} (hr : r ≠ s.count) : s1.records r = s.records r := by
    rw [← hs1]
    exact update_of_ne hr _ _
  have hfirst1 : s1.timerRecords = (c ++ d).head? := by
    rw [← hs1]
    exact h.chain.first
  have hne {r : RecordId} (hr : r ∈ c ++ d) : r ≠ s.count := Nat.ne_of_lt (h.lt r hr)
  have hlinks : Links s1.next (c ++ d) := h.chain.links.congr fun r hr => by
    rw [next, hother (hne hr), next]
  have hd1 : ∀ r ∈ d, time < (s1.records r).time := fun r hr => by
    rw [hother (hne (List.mem_append_right c hr))]
    exact hd r hr
  have hc1 : ∀ r ∈ c, (s1.records r).time ≤ time := fun r hr => by
    rw [hother (hne (List.mem_append_left d hr))]
    exact hc r hr
  have hlen : c.length < s1.count := by
    have := h.length_le
    rw [List.length_append] at this
    rw [← hs1]
    exact Nat.lt_succ_of_le (Nat.le_trans (Nat.le_add_right c.length d.length) this)
  have hloop := insertLoop_spec (a := []) hd1 hlinks hc1 hlen
  rw [← hfirst1] at hloop
  have hnew : s.count ∉ c ++ d := fun hm => Nat.lt_irrefl _ (h.lt s.count hm)
  -- the new record gets its link, and is linked from its place
  have hrel2 := relinked_setNext s1 s.count d.head?
  have hchain2 : (s1.setNext s.count d.head?).Chain (c ++ d) := by
    refine ⟨hfirst1, ?_, h.chain.nodup⟩
    rw [next_setNext]
    exact hlinks.congr fun r hr => update_of_ne (hne hr) _ _
  have hrel := hrel2.trans (relinked_link (s1.setNext s.count d.head?) c.getLast? (some s.count))
  have hchain := hchain2.put hnew (by rw [next_setNext, update_self])
  generalize hs' : (s1.setNext s.count d.head?).link c.getLast? (some s.count) = s' at hrel hchain
  have hentry {r : RecordId} (hr : r ∈ c ++ d) : s'.entry r = s.entry r := by
    rw [hrel.entry, entry, hother (hne hr), entry]
  have hentryNew : s'.entry s.count = ⟨s.count, time, some t, event⟩ := by
    rw [hrel.entry, entry, ← hs1]
    simp [makeTimerRecord, setRecord]
  have hmap : (c ++ s.count :: d).map s'.entry =
      c.map s.entry ++ ⟨s.count, time, some t, event⟩ :: d.map s.entry := by
    rw [List.map_append, List.map_cons, hentryNew,
      List.map_congr_left fun r hr => hentry (List.mem_append_left d hr),
      List.map_congr_left fun r hr => hentry (List.mem_append_right c hr)]
  have hcount : s'.count = s.count + 1 := by
    rw [hrel.count, ← hs1]
    rfl
  have hdelivered : s'.delivered = s.delivered := by
    rw [hrel.delivered, ← hs1]
    rfl
  have hlife : s'.life = s.life := by
    rw [hrel.life, ← hs1]
    rfl
  have hsorted := h.sorted
  rw [List.map_append, List.pairwise_append] at hsorted
  refine ⟨s', c ++ s.count :: d, ?_, hdelivered, ⟨hchain, ?_, ?_, ?_, ?_, ?_, ?_, ?_⟩⟩
  · rw [registerTimeEvent, hs1]
    change Option.bind _ _ = _
    rw [show s1.insertLoop time s1.count s1.timerRecords none = _ from hloop, ← hs']
    rfl
  · rw [hmap, Pending.step, h.count]
    refine List.perm_middle.trans (.trans (.cons _ ?_) (List.perm_append_singleton _ _).symm)
    rw [← List.map_append]
    exact h.pending
  · rw [hmap]
    refine List.pairwise_append.mpr ⟨hsorted.1, List.pairwise_cons.mpr ⟨fun e he => ?_, hsorted.2.1⟩,
      fun e he e' he' => ?_⟩
    · obtain ⟨r, hr, rfl⟩ := List.mem_map.mp he
      exact .inl (hd r hr)
    · obtain ⟨r, hr, rfl⟩ := List.mem_map.mp he
      rcases List.mem_cons.mp he' with rfl | he'
      · rcases lt_or_eq_of_le (hc r hr) with hlt | heq
        · exact .inl hlt
        · exact .inr ⟨heq, h.lt r (List.mem_append_left d hr)⟩
      · exact hsorted.2.2 _ he _ he'
  · intro r hr
    rw [hcount]
    rcases List.mem_append.mp hr with hr | hr
    · exact Nat.lt_succ_of_lt (h.lt r (List.mem_append_left d hr))
    · rcases List.mem_cons.mp hr with rfl | hr
      · exact Nat.lt_succ_self _
      · exact Nat.lt_succ_of_lt (h.lt r (List.mem_append_right c hr))
  · rw [hcount, ← h.count]
    rfl
  · intro e he u hu
    rw [hlife]
    rcases List.mem_append.mp he with he | he
    · exact h.alive e he u hu
    · rw [List.mem_singleton.mp he] at hu
      rw [← Option.some.inj hu]
      exact ht
  · rw [hdelivered]
    exact h.once
  · intro e he
    rw [hdelivered] at he
    obtain ⟨hlt, hout⟩ := h.done e he
    refine ⟨hcount ▸ Nat.lt_succ_of_lt hlt, fun hm => ?_⟩
    rcases List.mem_append.mp hm with hm | hm
    · exact hout (List.mem_append_left d hm)
    · rcases List.mem_cons.mp hm with heq | hm
      · exact absurd heq (Nat.ne_of_lt hlt)
      · exact hout (List.mem_append_right c hm)

theorem Inv.deliver (time) : ∃ s' l' due,
    { s with clock := time }.deliverTimerEvents time = some s' ∧
      s'.Inv (p.step (.deliver time)) l' ∧ s'.delivered = s.delivered ++ due ∧
        due.Perm (p.events.filter (·.time ≤ time)) ∧ due.Pairwise Delivery.Before := by
  obtain ⟨c, d, rfl, hc, hd⟩ := h.exists_split time
  have hlen : c.length < s.count + 1 := by
    have := h.length_le
    rw [List.length_append] at this
    omega
  obtain ⟨s', hs', hdel⟩ := deliverLoop_spec (s := { s with clock := time }) hd h.chain.links
    h.chain.nodup hc hlen
  have hnodup := List.nodup_append.mp h.chain.nodup
  have hrecords {r : RecordId} (hr : r ∈ d) : s'.records r = s.records r :=
    hdel.others r fun hrc => hnodup.2.2 r hrc r hr rfl
  have hentry : d.map s'.entry = d.map s.entry := List.map_congr_left fun r hr => by
    rw [entry, hrecords hr, entry]
  have hsorted := h.sorted
  rw [List.map_append, List.pairwise_append] at hsorted
  -- the two parts of the list are the two parts of what is pending
  have hdue : ((c ++ d).map s.entry).filter (·.time ≤ time) = c.map s.entry := by
    rw [List.map_append, List.filter_append, List.filter_eq_self.mpr, List.filter_eq_nil_iff.mpr,
      List.append_nil]
    · intro e he hle
      obtain ⟨r, hr, rfl⟩ := List.mem_map.mp he
      exact absurd (of_decide_eq_true hle) (not_le.mpr (hd r hr))
    · intro e he
      obtain ⟨r, hr, rfl⟩ := List.mem_map.mp he
      exact decide_eq_true (hc r hr)
  have hlater : ((c ++ d).map s.entry).filter (time < ·.time) = d.map s.entry := by
    rw [List.map_append, List.filter_append, List.filter_eq_nil_iff.mpr, List.filter_eq_self.mpr,
      List.nil_append]
    · intro e he
      obtain ⟨r, hr, rfl⟩ := List.mem_map.mp he
      exact decide_eq_true (hd r hr)
    · intro e he hlt
      obtain ⟨r, hr, rfl⟩ := List.mem_map.mp he
      exact absurd (of_decide_eq_true hlt) (not_lt.mpr (hc r hr))
  refine ⟨s', d, c.map s.entry, ?_, ⟨⟨hdel.first, ?_, hnodup.2.1⟩, ?_, ?_, ?_, ?_, ?_, ?_, ?_⟩,
    hdel.delivered, hdue ▸ h.pending.filter _, hsorted.1⟩
  · exact (congrArg (deliverLoop time (s.count + 1) _) h.chain.first).trans hs'
  · rw [hdel.next]
    exact DoublyLinked.Links.of_append h.chain.links
  · rw [hentry, ← hlater]
    exact h.pending.filter _
  · rw [hentry]
    exact hsorted.2.1
  · intro r hr
    rw [hdel.count]
    exact h.lt r (List.mem_append_right c hr)
  · rw [hdel.count]
    exact h.count
  · intro e he
    rw [hdel.life]
    exact h.alive e (List.mem_filter.mp he).1
  · rw [hdel.delivered, List.map_append]
    refine h.once.append ?_ fun r hr hrc => ?_
    · rw [List.map_map]
      exact (List.map_id c).symm ▸ hnodup.1
    · obtain ⟨e, he, rfl⟩ := List.mem_map.mp hr
      rw [List.map_map] at hrc
      obtain ⟨k, hk, hke⟩ := List.mem_map.mp hrc
      exact (h.done e he).2 (List.mem_append_left d (hke ▸ hk))
  · intro e he
    rw [hdel.delivered] at he
    rw [hdel.count]
    rcases List.mem_append.mp he with he | he
    · exact ⟨(h.done e he).1, fun hm => (h.done e he).2 (List.mem_append_right c hm)⟩
    · obtain ⟨r, hr, rfl⟩ := List.mem_map.mp he
      exact ⟨h.lt r (List.mem_append_left d hr), fun hm => hnodup.2.2 r hr r hm rfl⟩

end

/-- No event constructor that `exit-current-thread` calls registers an event. -/
def NotExiting (s : Timers τ) : Action τ → Prop
  | .register t _ _ => s.life t = .alive
  | _ => True

instance (s : Timers τ) : (a : Action τ) → Decidable (s.NotExiting a)
  | .register .. => inferInstanceAs (Decidable (_ = _))
  | .deregister _ | .deliver _ | .exit _ | .die _ => isTrue trivial

def dueNow (p : Pending τ) : Action τ → List (Delivery τ)
  | .deliver time => p.events.filter (·.time ≤ time)
  | _ => []

theorem Inv.perform (h : s.Inv p l) {a} (ha : s.Allowed a) (hn : s.NotExiting a) :
    ∃ s' l' due, s.step a = some s' ∧ s'.Inv (p.step a) l' ∧ s'.delivered = s.delivered ++ due ∧
      due.Perm (dueNow p a) ∧ due.Pairwise Delivery.Before := by
  rw [step, if_pos ha]
  cases a with
  | register t time event =>
    obtain ⟨s', l', hs', hdel, hinv⟩ := h.register hn time event
    exact ⟨s', l', [], hs', hinv, by rw [hdel, List.append_nil], .nil, .nil⟩
  | deregister registration =>
    obtain ⟨s', l', hs', hdel, hinv⟩ := h.deregister registration
    exact ⟨s', l', [], hs', hinv, by rw [hdel, List.append_nil], .nil, .nil⟩
  | deliver time =>
    obtain ⟨s', l', due, hs', hinv, hdel, hperm, hsorted⟩ := h.deliver time
    exact ⟨s', l', due, hs', hinv, hdel, hperm, hsorted⟩
  | exit t =>
    obtain ⟨s', l', hs', hdel, hinv⟩ := h.exit t
    refine ⟨_, l', [], ?_, hinv, by rw [List.append_nil]; exact hdel, .nil, .nil⟩
    rw [Timers.perform, hs']
    rfl
  | die t =>
    refine ⟨_, l, [], rfl, ⟨⟨h.chain.first, h.chain.links, h.chain.nodup⟩, h.pending, h.sorted, h.lt,
      h.count, fun e he u hu => ?_, h.once, h.done⟩, (List.append_nil _).symm, .nil, .nil⟩
    -- the thread had no record left when it began to exit
    have hne : u ≠ t := by
      rintro rfl
      have hexit : s.life u = .exiting := ha
      rw [h.alive e he u hu] at hexit
      cases hexit
    change update s.life t .dead u = .alive
    rw [update_of_ne hne]
    exact h.alive e he u hu

theorem run_inv : ∀ {actions : List (Action τ)} {s : Timers τ} {p : Pending τ} {l : List RecordId},
    s.Inv p l → Along step NotExiting s actions → run step s actions = some s' →
      ∃ l', s'.Inv (actions.foldl Pending.step p) l'
  | [], s, p, l, h, _, hr => by
    cases hr
    exact ⟨l, h⟩
  | a :: actions, s, p, l, h, hc, hr => by
    obtain ⟨s1, h1, hrest⟩ := Option.bind_eq_some_iff.mp hr
    have ha : s.Allowed a := by
      by_contra ha
      rw [step, if_neg ha] at h1
      cases h1
    obtain ⟨s2, l2, -, h2, hinv, -⟩ := h.perform ha hc.1
    obtain rfl : s2 = s1 := Option.some.inj (h2.symm.trans h1)
    have hrun := run_inv hinv (hc.2 s2 h1) hrest
    exact hrun

/-- What the timer promises about a state with the pending events `p`. -/
structure Sound (s : Timers τ) (p : Pending τ) : Prop where
  /-- `timer-records` is sorted by time, with registrations of equal time in the
  order of registration, and holds what is pending. -/
  list : ∃ l, s.Chain l ∧ (l.map s.entry).Perm p.events ∧
    (l.map s.entry).Pairwise Delivery.Before
  /-- No registration is delivered twice, and none that is delivered is pending. -/
  once : (s.delivered.map (·.record)).Nodup
  gone : ∀ e ∈ s.delivered, ∀ e' ∈ p.events, e.record ≠ e'.record
  dead : ∀ t, s.life t = .dead → ∀ e ∈ p.events, e.thread ≠ some t

theorem Inv.sound (h : s.Inv p l) : s.Sound p := by
  refine ⟨⟨l, h.chain, h.pending, h.sorted⟩, h.once, fun e he e' he' heq => ?_,
    fun t ht e he hthread => ?_⟩
  · obtain ⟨r, hr, hre⟩ := List.mem_map.mp (h.pending.mem_iff.mpr he')
    refine (h.done e he).2 ?_
    rw [heq, ← hre]
    exact hr
  · rw [h.alive e he t hthread] at ht
    cases ht

/-- **Timer events are delivered in order, each once**, in every run in which no
thread registers an event while it exits. -/
theorem timer_events_sound (clock : τ) (actions : List (Action τ)) {s : Timers τ}
    (hr : run step (initial clock) actions = some s)
    (hc : Along step NotExiting (initial clock) actions) :
    s.Sound (pendingAfter actions) ∧ ∀ a, s.Allowed a → s.NotExiting a → ∃ s' due,
      s.step a = some s' ∧ s'.delivered = s.delivered ++ due ∧
        due.Perm (dueNow (pendingAfter actions) a) ∧ due.Pairwise Delivery.Before := by
  obtain ⟨l, hinv⟩ := run_inv (initial_inv clock) hc hr
  refine ⟨hinv.sound, fun a ha hn => ?_⟩
  obtain ⟨s', -, due, hs', -, hdel, hperm, hsorted⟩ := hinv.perform ha hn
  exact ⟨s', due, hs', hdel, hperm, hsorted⟩

/-- Three registrations, two of them for the same time. -/
theorem timer_events_sound_three :
    ∃ s, run step (initial 0) [.register 0 5 (some 1), .register 1 3 (some 2),
        .register 2 5 (some 3), .deliver 5] = some s ∧
      s.delivered.map (·.record) = [1, 0, 2] ∧ s.Sound (pendingAfter [.register 0 5 (some 1),
        .register 1 3 (some 2), .register 2 5 (some 3), .deliver 5]) := by
  refine ⟨_, rfl, rfl, ?_⟩
  exact (timer_events_sound 0 [.register 0 5 (some 1), .register 1 3 (some 2),
    .register 2 5 (some 3), .deliver 5] rfl (by decide)).1

/-- An event constructor of a thread that has joined thread 0 registers an event
while thread 0 exits: the record of the dead thread remains. -/
theorem timer_record_of_dead_thread :
    ∃ s, run step (initial 0) [.exit 0, .register 0 5 (some 1), .die 0] = some s ∧
      s.life 0 = .dead ∧ s.timerRecords = some 0 ∧ (s.records 0).thread = some 0 :=
  ⟨_, rfl, rfl, rfl, rfl⟩

end Invariant

end Timers

end MitScheme.Runtime.TimerEvents
