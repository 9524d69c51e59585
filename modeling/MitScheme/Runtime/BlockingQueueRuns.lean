import MitScheme.Runtime.BlockingQueue

/-! # Runs of thread queues

Each locked section does on the chain what its operation means on the list of
items; from that, every run of threads that use a queue. -/

namespace MitScheme.Runtime.BlockingQueue
open Lib.LinkedQueue Lib.Machine

namespace ThreadQueue
variable {α : Type} {q : ThreadQueue α} {c : List PairId} {l : List (Item α)} {item : Item α}
  {p : PairId} {dead : ThreadId → Bool} {self : ThreadId}

/-! ## Locked sections -/

def resumed (q : ThreadQueue α) : Op α → List ThreadId
  | .queue _ | .queueNoHang _ | .push _ => if q.isFull then [] else q.waitingDequeuers
  | .dequeue | .dequeueUntil _ | .empty => if q.isEmpty then [] else q.waitingQueuers
  | .peek | .peekUntil _ => []

/-- No thread that the section signals is dead, and no push finds a queue of
maximum size 1 full. -/
def Ready (q : ThreadQueue α) (dead : ThreadId → Bool) (self : ThreadId) (op : Op α) : Prop :=
  (∀ t ∈ q.resumed op, t = self ∨ ¬ dead t) ∧
    (op.isPush → q.isFull → q.maxElements ≠ some 1)

instance (q : ThreadQueue α) (dead : ThreadId → Bool) (self : ThreadId) (op : Op α) :
    Decidable (q.Ready dead self op) := by
  unfold Ready
  infer_instance

theorem signals_iff : ∀ {threads : List ThreadId},
    signals dead self threads ↔ ∀ t ∈ threads, t = self ∨ ¬ dead t
  | [] => by simp [signals]
  | t :: threads => by
    rw [signals, List.forall_mem_cons]
    split
    case isTrue ht => rw [signals_iff, and_iff_right ht]
    case isFalse ht => exact iff_of_false Bool.false_ne_true fun h => ht h.1

def Ends (max : Option Int) (l : List (Item α)) (o : Outcome α) :
    Option (List (Item α) × Option (Item α)) → Prop
  | some (l', v) =>
    o.result = .value v ∧ o.queue.maxElements = max ∧ ∃ c, o.queue.Holds c l'
  | none => o.result = .wait ∧ o.queue.maxElements = max ∧ ∃ c, o.queue.Holds c l

/-- The section ends as it should when `ok`, and else signals an error. -/
structure Settles (ok : Prop) (max : Option Int) (l : List (Item α)) (o : Outcome α)
    (m : Option (List (Item α) × Option (Item α))) : Prop where
  ends : ok → Ends max l o m
  error : ¬ ok → o.result = .error

theorem Settles.congr {ok ok' : Prop} {max o m} (h : Settles ok max l o m) (he : ok' ↔ ok) :
    Settles ok' max l o m :=
  ⟨fun hok => h.ends (he.mp hok), fun hok => h.error (mt he.mpr hok)⟩

theorem settles_of_ends {ok : Prop} {max o m} (hok : ok) (h : Ends max l o m) :
    Settles ok max l o m :=
  ⟨fun _ => h, fun hn => absurd hok hn⟩

theorem Holds.waiting (h : q.Holds c l) (queuers dequeuers) :
    Holds { q with waitingQueuers := queuers, waitingDequeuers := dequeuers } c l :=
  ⟨h.first, h.last, h.links, h.nodup, h.lt, h.cars, h.count⟩

theorem Holds.resumeQueuers (h : q.Holds c l) (l₀ v) :
    Settles (∀ t ∈ q.waitingQueuers, t = self ∨ ¬ dead t) q.maxElements l₀
      (q.resumeQueuers dead self v) (some (l, v)) := by
  unfold ThreadQueue.resumeQueuers
  constructor
  · intro hs
    rw [if_pos (signals_iff.mpr hs)]
    exact ⟨rfl, rfl, c, h.waiting [] q.waitingDequeuers⟩
  · intro hs
    rw [if_neg (mt signals_iff.mp hs)]

theorem Holds.resumeDequeuers (h : q.Holds c l) (l₀ v) :
    Settles (∀ t ∈ q.waitingDequeuers, t = self ∨ ¬ dead t) q.maxElements l₀
      (q.resumeDequeuers dead self v) (some (l, v)) := by
  unfold ThreadQueue.resumeDequeuers
  constructor
  · intro hs
    rw [if_pos (signals_iff.mpr hs)]
    exact ⟨rfl, rfl, c, h.waiting q.waitingQueuers []⟩
  · intro hs
    rw [if_neg (mt signals_iff.mp hs)]

theorem Holds.queue' (h : q.Holds c l) (item) :
    Settles (∀ t ∈ q.waitingDequeuers, t = self ∨ ¬ dead t) q.maxElements l
      (q.queue' dead self item) (some (l ++ [item], some item)) := by
  obtain ⟨q', hq, h', hmax, hwait⟩ := h.enqueue item
  unfold ThreadQueue.queue'
  rw [hq, ← hmax, ← hwait]
  exact h'.resumeDequeuers l (some item)

theorem Holds.dequeue' {item} (h : q.Holds c (item :: l)) (l₀) :
    Settles (∀ t ∈ q.waitingQueuers, t = self ∨ ¬ dead t) q.maxElements l₀
      (q.dequeue' dead self) (some (l, some item)) := by
  obtain ⟨p, c, rfl⟩ : ∃ p c', c = p :: c' := by
    cases c with
    | nil => cases h.cars
    | cons p c => exact ⟨p, c, rfl⟩
  obtain ⟨q', hq, h', hmax, hwait⟩ := h.removeFirst
  unfold ThreadQueue.dequeue'
  rw [hq, ← hmax, ← hwait]
  exact h'.resumeQueuers l₀ (some item)

theorem Holds.peek' {item} (h : q.Holds c (item :: l)) (l₀) :
    Ends q.maxElements l₀ q.peek' (some (item :: l, some item)) := by
  obtain ⟨p, c, rfl⟩ : ∃ p c', c = p :: c' := by
    cases c with
    | nil => cases h.cars
    | cons p c => exact ⟨p, c, rfl⟩
  have hfirst : q.firstPair = .pair p := h.first
  have hcar : q.car p = some item := (List.cons.inj h.cars).1
  unfold ThreadQueue.peek'
  rw [hfirst]
  dsimp only
  rw [hcar]
  exact ⟨rfl, rfl, _, h⟩

section
variable (h : q.Holds c l)
include h

theorem Holds.awaitItem : Ends q.maxElements l (q.awaitItem self) none :=
  ⟨rfl, rfl, c, h.waiting q.waitingQueuers (q.waitingDequeuers ++ [self])⟩

theorem Holds.empty :
    Settles (∀ t ∈ (if q.isEmpty then [] else q.waitingQueuers), t = self ∨ ¬ dead t)
      q.maxElements l (q.empty dead self) (some ([], none)) := by
  unfold ThreadQueue.empty
  rw [h.isEmpty_eq]
  cases l with
  | nil => exact settles_of_ends nofun ⟨rfl, rfl, c, h⟩
  | cons item l =>
    have hnone : Holds { q with firstPair := .false, lastPair := .false, elementCount := 0 } []
        ([] : List (Item α)) := ⟨rfl, rfl, trivial, List.nodup_nil, nofun, rfl, rfl⟩
    exact hnone.resumeQueuers (item :: l) none

theorem Holds.queueNoHang (item) :
    Settles (∀ t ∈ (if q.isFull then [] else q.waitingDequeuers), t = self ∨ ¬ dead t)
      q.maxElements l (q.queueNoHang dead self item)
      (if q.isFull then some (l, none) else some (l ++ [item], some item)) := by
  unfold ThreadQueue.queueNoHang
  split
  · exact settles_of_ends nofun ⟨rfl, rfl, c, h⟩
  · exact h.queue' item

theorem Holds.queue (item) :
    Settles (∀ t ∈ (if q.isFull then [] else q.waitingDequeuers), t = self ∨ ¬ dead t)
      q.maxElements l (q.queue dead self item)
      (if q.isFull then none else some (l ++ [item], some item)) := by
  have hno : Settles _ _ _ (q.queueNoHang dead self item) _ := h.queueNoHang item
  unfold ThreadQueue.queue
  by_cases hfull : q.isFull
  · simp only [ThreadQueue.queueNoHang, hfull, if_true]
    exact settles_of_ends nofun ⟨rfl, rfl, c, h.waiting (q.waitingQueuers ++ [self]) _⟩
  · simp only [hfull] at hno ⊢
    constructor
    · intro hs
      have he := hno.ends hs
      rw [he.1]
      exact he
    · intro hs
      rw [hno.error hs]
      exact hno.error hs

theorem Holds.pushFull_settles (item) {m} (hm : q.maxElements = some m) (hpos : 1 ≤ m)
    (hlen : (l.length : Int) = m) :
    Settles (q.maxElements ≠ some 1) q.maxElements l (q.pushFull item)
      (some (item :: l.dropLast, some item)) := by
  have hclen : (c.length : Int) = m := by rw [h.length_eq, hlen]
  obtain rfl | ⟨b, last, rfl⟩ := List.eq_nil_or_concat' c
  · rw [← hclen] at hpos
    exact absurd hpos (by simp)
  obtain rfl | ⟨a, p, rfl⟩ := List.eq_nil_or_concat' b
  · have hone : q.maxElements = some 1 := by rw [hm, ← hclen]; rfl
    refine ⟨fun hne => absurd hone hne, fun _ => ?_⟩
    have hfirst : q.firstPair = .pair last := h.first
    have hlast : q.lastPair = .pair last := h.last
    unfold ThreadQueue.pushFull
    rw [hfirst, hlast, beforeLast_single _ h.links.1]
  · have hne : q.maxElements ≠ some 1 := by
      rw [hm, ← hclen]
      simp only [List.length_append, List.length_cons, List.length_nil, ne_eq, Option.some.injEq]
      omega
    have hsplit : a ++ [p] ++ [last] = a ++ [p, last] := by simp
    obtain ⟨q', hq', h', hmax'⟩ := h.pushFull item hsplit
    refine settles_of_ends hne ?_
    rw [hq']
    exact ⟨rfl, hmax', _, h'⟩

theorem Holds.push (item) (hpos : ∀ m ∈ q.maxElements, 1 ≤ m)
    (hmax : ∀ m ∈ q.maxElements, (l.length : Int) ≤ m) :
    Settles ((∀ t ∈ (if q.isFull then [] else q.waitingDequeuers), t = self ∨ ¬ dead t) ∧
        (q.isFull → q.maxElements ≠ some 1))
      q.maxElements l (q.push dead self item)
      (some (item :: if q.isFull then l.dropLast else l, some item)) := by
  unfold ThreadQueue.push
  by_cases hfull : q.isFull
  · simp only [hfull, if_true, List.not_mem_nil, false_implies, forall_const, true_and]
    have hcount := hfull
    rw [h.isFull_eq] at hcount
    cases hm : q.maxElements with
    | none =>
      rw [hm] at hcount
      cases hcount
    | some m =>
      rw [← hm]
      refine h.pushFull_settles item hm (hpos m hm) ?_
      have hle := hmax m hm
      rw [hm] at hcount
      have hge : m ≤ (l.length : Int) := by simpa [full] using hcount
      omega
  · simp only [hfull, Bool.false_eq_true, if_false, false_implies, and_true]
    exact (h.pushFirst item).resumeDequeuers l (some item)

end

/-! With no item the thread waits, or gives up when its time has come. -/

theorem Holds.whenNonEmpty_nil (h : q.Holds c []) (o) :
    Ends q.maxElements [] (q.whenNonEmpty self o) none := by
  rw [ThreadQueue.whenNonEmpty, h.isEmpty_eq]
  exact h.awaitItem

theorem Holds.whenNonEmptyBefore_nil (h : q.Holds c []) (time now o) :
    Ends q.maxElements [] (q.whenNonEmptyBefore self time now o)
      (if time ≤ now then some ([], none) else none) := by
  rw [ThreadQueue.whenNonEmptyBefore, h.isEmpty_eq]
  simp only [List.isEmpty_nil, if_true]
  split
  · exact ⟨rfl, rfl, c, h⟩
  · exact h.awaitItem

theorem Holds.whenNonEmpty_cons {item} (h : q.Holds c (item :: l)) (o) :
    q.whenNonEmpty self o = o := by
  rw [ThreadQueue.whenNonEmpty, h.isEmpty_eq]
  rfl

theorem Holds.whenNonEmptyBefore_cons {item} (h : q.Holds c (item :: l)) (time now o) :
    q.whenNonEmptyBefore self time now o = o := by
  rw [ThreadQueue.whenNonEmptyBefore, h.isEmpty_eq]
  rfl

theorem ready_of_quiet {op} (hop : q.resumed op = []) (hpush : op.isPush = false) :
    q.Ready dead self op := by
  refine ⟨?_, ?_⟩
  · rw [hop]
    nofun
  · rw [hpush]
    nofun

theorem Holds.perform (h : q.Holds c l) (hpos : ∀ m ∈ q.maxElements, 1 ≤ m)
    (hmax : ∀ m ∈ q.maxElements, (l.length : Int) ≤ m) (now n op) :
    Settles (q.Ready dead self op) q.maxElements l (q.perform dead self now n op)
      (meaning q.maxElements now n l op) := by
  have hfull := h.isFull_eq
  have hempty := h.isEmpty_eq
  cases op with
  | queue object =>
    rw [meaning, ← hfull]
    exact (h.queue ⟨n, object⟩).congr (and_iff_left nofun)
  | queueNoHang object =>
    rw [meaning, ← hfull]
    exact (h.queueNoHang ⟨n, object⟩).congr (and_iff_left nofun)
  | push object =>
    rw [meaning, ← hfull]
    exact (h.push ⟨n, object⟩ hpos hmax).congr (by simp [Ready, resumed, Op.isPush])
  | dequeue =>
    cases l with
    | nil =>
      exact settles_of_ends (ready_of_quiet (by rw [resumed, hempty]; rfl) rfl)
        (h.whenNonEmpty_nil _)
    | cons item l =>
      rw [ThreadQueue.perform, h.whenNonEmpty_cons]
      refine (h.dequeue' (item :: l)).congr ?_
      simp [Ready, resumed, Op.isPush, hempty]
  | dequeueUntil time =>
    cases l with
    | nil =>
      exact settles_of_ends (ready_of_quiet (by rw [resumed, hempty]; rfl) rfl)
        (h.whenNonEmptyBefore_nil time now _)
    | cons item l =>
      rw [ThreadQueue.perform, h.whenNonEmptyBefore_cons]
      refine (h.dequeue' (item :: l)).congr ?_
      simp [Ready, resumed, Op.isPush, hempty]
  | peek =>
    refine settles_of_ends (ready_of_quiet rfl rfl) ?_
    cases l with
    | nil => exact h.whenNonEmpty_nil _
    | cons item l =>
      rw [ThreadQueue.perform, h.whenNonEmpty_cons]
      exact h.peek' (item :: l)
  | peekUntil time =>
    refine settles_of_ends (ready_of_quiet rfl rfl) ?_
    cases l with
    | nil => exact h.whenNonEmptyBefore_nil time now _
    | cons item l =>
      rw [ThreadQueue.perform, h.whenNonEmptyBefore_cons]
      exact h.peek' (item :: l)
  | empty => exact h.empty.congr (and_iff_left nofun)

end ThreadQueue

/-! ## Runs -/

namespace System
variable {α : Type} {s s' : System α} {max : Option Int} {l l' : List (Item α)}

def Allowed (s : System α) (a : Action α) : Prop :=
  ∀ x ∈ s.section? a, s.queue.Ready (fun u => (s.threads u).isDead) x.1 x.2.1

instance (s : System α) (a : Action α) : Decidable (s.Allowed a) := by
  unfold Allowed
  infer_instance

/-- Where the items accepted are, when the queue has those of `l`. -/
structure Accounts (s : System α) (l : List (Item α)) : Prop where
  conserved : (s.delivered ++ s.replaced ++ s.discarded ++ l).Perm s.accepted
  numbered : s.accepted.map Item.number = List.range s.accepted.length

structure Inv (max : Option Int) (s : System α) (l : List (Item α)) : Prop where
  size : s.queue.maxElements = max
  holds : ∃ c, s.queue.Holds c l
  bound : ∀ m ∈ max, (l.length : Int) ≤ m
  accounts : s.Accounts l
  quiet : s.signalled = false

theorem initial_inv (hpos : ∀ m ∈ max, 1 ≤ m) : Inv max (initial max : System α) [] := by
  refine ⟨rfl, ⟨_, ThreadQueue.make_holds max⟩, ?_, ⟨.refl _, rfl⟩, rfl⟩
  intro m hm
  have := hpos m hm
  simp only [List.length_nil]
  omega

theorem Inv.items_eq (h : Inv max s l) : s.queue.items = l := by
  obtain ⟨c, hc⟩ := h.holds
  exact hc.items_eq

theorem Inv.isFull_eq (h : Inv max s l) : s.queue.isFull = full max l := by
  obtain ⟨c, hc⟩ := h.holds
  rw [hc.isFull_eq, h.size]

theorem meaning_bound {now n op v} (hpos : ∀ m ∈ max, 1 ≤ m)
    (hb : ∀ m ∈ max, (l.length : Int) ≤ m) (hm : meaning max now n l op = some (l', v)) :
    ∀ m ∈ max, (l'.length : Int) ≤ m := by
  intro m hmax
  have hpos := hpos m hmax
  have hb := hb m hmax
  have hfull : full max l = decide (m ≤ l.length) := by
    rw [Option.mem_def.mp hmax]
    simp [full]
  cases op <;> cases l <;> simp only [meaning, hfull] at hm <;> grind

theorem numbered_concat {l} (h : l.map Item.number = List.range l.length) (object : α) :
    (l ++ [Item.mk l.length object]).map Item.number =
      List.range (l ++ [Item.mk l.length object]).length := by
  rw [List.map_append, h, List.length_append, List.length_singleton, List.range_succ]
  rfl

/-! Where an item goes. -/

section
variable {d r e a : List (Item α)}

theorem perm_accept (h : (d ++ r ++ e ++ l).Perm a) (x) :
    (d ++ r ++ e ++ (l ++ [x])).Perm (a ++ [x]) := by
  rw [← List.append_assoc]
  exact h.append_right [x]

theorem perm_push (h : (d ++ r ++ e ++ l).Perm a) (x) : (d ++ r ++ e ++ x :: l).Perm (a ++ [x]) :=
  (List.Perm.append_left _ (List.perm_append_singleton x l).symm).trans (perm_accept h x)

theorem perm_replace (h : (d ++ r ++ e ++ l).Perm a) (x) :
    (d ++ (r ++ l.getLast?.toList) ++ e ++ x :: l.dropLast).Perm (a ++ [x]) := by
  refine perm_push (List.Perm.trans ?_ h) x
  obtain rfl | ⟨l, y, rfl⟩ := List.eq_nil_or_concat' l
  · simp
  · rw [List.getLast?_concat, List.dropLast_concat]
    have hmove : ([y] ++ (e ++ l)).Perm ((e ++ l) ++ [y]) := List.perm_append_comm
    simpa [List.append_assoc] using (hmove.append_left r).append_left d

theorem perm_deliver {x} (h : (d ++ r ++ e ++ x :: l).Perm a) :
    (d ++ [x] ++ r ++ e ++ l).Perm a := by
  refine List.Perm.trans ?_ h
  have hmove : ([x] ++ (r ++ e)).Perm ((r ++ e) ++ [x]) := List.perm_append_comm
  simpa [List.append_assoc] using (hmove.append_right l).append_left d

theorem perm_discard (h : (d ++ r ++ e ++ l).Perm a) : (d ++ r ++ (e ++ l) ++ []).Perm a := by
  simpa [List.append_assoc] using h

end

theorem Inv.record (h : Inv max s l) {now op v}
    (hm : meaning max now s.accepted.length l op = some (l', v)) :
    (s.record op v).Accounts l' ∧ (s.record op v).signalled = false ∧
      (s.record op v).threads = s.threads := by
  obtain ⟨hcons, hnum⟩ := h.accounts
  have hfull := h.isFull_eq
  have hitems := h.items_eq
  cases op with simp only [meaning] at hm
  | queue object =>
    split at hm
    · cases hm
    · cases hm
      exact ⟨⟨perm_accept hcons _, numbered_concat hnum object⟩, h.quiet, rfl⟩
  | queueNoHang object =>
    split at hm
    · cases hm
      exact ⟨h.accounts, h.quiet, rfl⟩
    · cases hm
      exact ⟨⟨perm_accept hcons _, numbered_concat hnum object⟩, h.quiet, rfl⟩
  | push object =>
    cases hm
    refine ⟨⟨?_, numbered_concat hnum object⟩, h.quiet, rfl⟩
    simp only [System.record, hfull, hitems]
    split
    · exact perm_replace hcons _
    · exact perm_push hcons _
  | dequeue =>
    cases l with
    | nil => cases hm
    | cons item l =>
      cases hm
      exact ⟨⟨perm_deliver hcons, hnum⟩, h.quiet, rfl⟩
  | dequeueUntil time =>
    cases l with
    | nil =>
      simp only [List.isEmpty_nil, if_true] at hm
      split at hm
      · cases hm
        exact ⟨h.accounts, h.quiet, rfl⟩
      · cases hm
    | cons item l =>
      cases hm
      exact ⟨⟨perm_deliver hcons, hnum⟩, h.quiet, rfl⟩
  | peek =>
    cases l with
    | nil => cases hm
    | cons item l =>
      cases hm
      exact ⟨h.accounts, h.quiet, rfl⟩
  | peekUntil time =>
    split at hm
    · split at hm
      · cases hm
        exact ⟨h.accounts, h.quiet, rfl⟩
      · cases hm
    · cases hm
      exact ⟨h.accounts, h.quiet, rfl⟩
  | empty =>
    cases hm
    refine ⟨⟨?_, hnum⟩, h.quiet, rfl⟩
    simp only [System.record, hitems]
    exact perm_discard hcons

theorem Inv.perform (h : Inv max s l) (hpos : ∀ m ∈ max, 1 ≤ m) {t op} (now)
    (hr : s.queue.Ready (fun u => (s.threads u).isDead) t op) :
    (∀ l' v, meaning max now s.accepted.length l op = some (l', v) →
      Inv max (s.perform t op now) l' ∧ (s.perform t op now).threads t = .idle v) ∧
    (meaning max now s.accepted.length l op = none →
      Inv max (s.perform t op now) l ∧ (s.perform t op now).threads t = .blocked op) := by
  obtain ⟨c, hc⟩ := h.holds
  have hset := (hc.perform (h.size ▸ hpos) (h.size ▸ h.bound) now s.accepted.length op).ends hr
  rw [h.size] at hset
  unfold System.perform
  constructor
  · intro l' v hm
    rw [hm] at hset
    obtain ⟨hres, hmax, hholds⟩ := hset
    obtain ⟨haccounts, hquiet, -⟩ := h.record hm
    dsimp only
    rw [hres]
    exact ⟨⟨hmax, hholds, meaning_bound hpos h.bound hm, ⟨haccounts.1, haccounts.2⟩, hquiet⟩,
      Function.update_self _ _ _⟩
  · intro hm
    rw [hm] at hset
    obtain ⟨hres, hmax, hholds⟩ := hset
    dsimp only
    rw [hres]
    exact ⟨⟨hmax, hholds, h.bound, ⟨h.accounts.1, h.accounts.2⟩, h.quiet⟩,
      Function.update_self _ _ _⟩

theorem Inv.signalled (h : Inv max s l) (hpos : ∀ m ∈ max, 1 ≤ m) {t op now}
    (hr : ¬ s.queue.Ready (fun u => (s.threads u).isDead) t op) :
    (s.perform t op now).signalled = true := by
  obtain ⟨c, hc⟩ := h.holds
  have hset := (hc.perform (h.size ▸ hpos) (h.size ▸ h.bound) now s.accepted.length op).error hr
  unfold System.perform
  dsimp only
  rw [hset]
  rfl

theorem step_eq {a} (hs : s.step a = some s') :
    (∃ x ∈ s.section? a, s' = s.perform x.1 x.2.1 x.2.2) ∨
      s.section? a = none ∧ ∃ t status, s' = s.setThread t status := by
  cases a with
  | call t op now =>
    obtain ⟨x, hx, rfl⟩ := Option.map_eq_some_iff.mp hs
    exact .inl ⟨x, hx, rfl⟩
  | resume t now =>
    obtain ⟨x, hx, rfl⟩ := Option.map_eq_some_iff.mp hs
    exact .inl ⟨x, hx, rfl⟩
  | abandon t =>
    refine .inr ⟨rfl, t, .idle none, ?_⟩
    simp only [step] at hs
    split at hs <;> cases hs
    rfl
  | exit t =>
    refine .inr ⟨rfl, t, .dead, ?_⟩
    simp only [step] at hs
    split at hs <;> cases hs
    rfl

theorem Inv.setThread (h : Inv max s l) (t status) : Inv max (s.setThread t status) l :=
  ⟨h.size, h.holds, h.bound, ⟨h.accounts.1, h.accounts.2⟩, h.quiet⟩

theorem Inv.step (h : Inv max s l) (hpos : ∀ m ∈ max, 1 ≤ m) {a} (ha : s.Allowed a)
    (hs : s.step a = some s') : ∃ l', Inv max s' l' := by
  obtain ⟨x, hx, rfl⟩ | ⟨-, t, status, rfl⟩ := step_eq hs
  · obtain ⟨hdone, hwait⟩ := h.perform hpos x.2.2 (ha x hx)
    cases hm : meaning max x.2.2 s.accepted.length l x.2.1 with
    | none => exact ⟨l, (hwait hm).1⟩
    | some r => exact ⟨r.1, (hdone r.1 r.2 hm).1⟩
  · exact ⟨l, h.setThread t status⟩

/-- What a queue and its history promise in every state. -/
structure QueueOk (max : Option Int) (s : System α) : Prop where
  /-- `element-count` counts the pairs on the chain from `first-pair`, -/
  count : s.queue.elementCount = s.queue.chain.length
  first : s.queue.firstPair = .ofPair s.queue.chain.head?
  /-- `last-pair` is the last of them, and no pair follows it, -/
  last : s.queue.lastPair = .ofPair s.queue.chain.getLast?
  links : Links (fun p => (s.queue.cdr p).pair?) s.queue.chain
  nodup : s.queue.chain.Nodup
  /-- each holds an item, -/
  cars : s.queue.chain.map s.queue.car = s.queue.items.map some
  /-- and they are not too many. -/
  bound : ∀ m ∈ max, s.queue.elementCount ≤ m
  /-- Every accepted item is in the queue, or has been dequeued, replaced or
  discarded, once. -/
  conserved : (s.delivered ++ s.replaced ++ s.discarded ++ s.queue.items).Perm s.accepted
  numbered : s.accepted.map Item.number = List.range s.accepted.length
  quiet : s.signalled = false

theorem Inv.queueOk (h : Inv max s l) : QueueOk max s := by
  obtain ⟨c, hc⟩ := h.holds
  have hitems := hc.items_eq
  have hchain := hc.chain_eq
  refine ⟨?_, ?_, ?_, ?_, ?_, ?_, ?_, ?_, h.accounts.numbered, h.quiet⟩
  · rw [hchain, hc.count]
  · rw [hchain, hc.first]
  · rw [hchain, hc.last]
  · rw [hchain]
    exact hc.links
  · rw [hchain]
    exact hc.nodup
  · rw [hchain, hitems, hc.cars]
  · rw [hc.count, hc.length_eq]
    exact h.bound
  · rw [hitems]
    exact h.accounts.conserved

theorem run_inv (hpos : ∀ m ∈ max, 1 ≤ m) {actions}
    (hr : run System.step (initial max) actions = some s)
    (ha : Along System.step Allowed (initial max) actions) : ∃ l, Inv max s l :=
  run_invariant (I := fun s => ∃ l, Inv max s l)
    (fun hi hc hs => hi.elim fun _ hl => hl.step hpos hc hs) ⟨[], initial_inv hpos⟩ ha hr

/-- **Thread queues are bounded first-in first-out queues**, in every run in which
no section signals a dead thread and no push finds a queue of maximum size 1
full; exactly then no operation signals an error. Every section does on the
items of the queue what its operation means. -/
theorem thread_queue_sound (max : Option Int) (hpos : ∀ m ∈ max, 1 ≤ m)
    (actions : List (Action α)) {s : System α}
    (hr : run System.step (initial max) actions = some s)
    (ha : Along System.step Allowed (initial max) actions) :
    QueueOk max s ∧ ∀ a s', s.step a = some s' →
      (s'.signalled = false ↔ s.Allowed a) ∧
      ∀ t op now, s.section? a = some (t, op, now) → s.Allowed a →
        (∀ l v, meaning max now s.accepted.length s.queue.items op = some (l, v) →
          s'.queue.items = l ∧ s'.threads t = .idle v) ∧
        (meaning max now s.accepted.length s.queue.items op = none →
          s'.queue.items = s.queue.items ∧ s'.threads t = .blocked op) := by
  obtain ⟨l, h⟩ := run_inv hpos hr ha
  refine ⟨h.queueOk, ?_⟩
  intro a s' hs
  constructor
  · constructor
    · intro hquiet x hx
      by_contra hn
      obtain ⟨y, hy, rfl⟩ | ⟨hnone, -⟩ := step_eq hs
      · cases Option.mem_unique hx hy
        rw [h.signalled hpos hn] at hquiet
        cases hquiet
      · rw [hnone] at hx
        cases hx
    · intro hallowed
      obtain ⟨l', h'⟩ := h.step hpos hallowed hs
      exact h'.quiet
  · intro t op now hsection hallowed
    obtain ⟨y, hy, rfl⟩ | ⟨hnone, -⟩ := step_eq hs
    · rw [hsection] at hy
      cases hy
      obtain ⟨hdone, hwait⟩ := h.perform hpos now (hallowed _ hsection)
      rw [h.items_eq]
      constructor
      · intro l' v hm
        obtain ⟨h', hthread⟩ := hdone l' v hm
        exact ⟨h'.items_eq, hthread⟩
      · intro hm
        obtain ⟨h', hthread⟩ := hwait hm
        exact ⟨h'.items_eq, hthread⟩
    · rw [hnone] at hsection
      cases hsection

/-- One thread waits for an item, another queues two and pushes a third on the
full queue. -/
theorem thread_queue_sound_two :
    ∃ s : System Nat, run System.step (initial (some 2))
        [.call 0 .dequeue 0, .call 1 (.queue 10) 0, .call 1 (.queue 11) 0, .call 1 (.push 12) 0,
          .resume 0 0] = some s ∧
      s.delivered = [⟨2, 12⟩] ∧ s.replaced = [⟨1, 11⟩] ∧ QueueOk (some 2) s := by
  refine ⟨_, rfl, rfl, rfl, ?_⟩
  exact (thread_queue_sound (some 2) (by simp)
    [.call 0 .dequeue 0, .call 1 (.queue 10) 0, .call 1 (.queue 11) 0, .call 1 (.push 12) 0,
      .resume 0 0] rfl (by decide)).1

/-- A second push on a queue of maximum size 1; and an item queued after a thread
that gave up waiting for one has exited. -/
theorem thread_queue_signals_errors :
    (∃ s : System Nat, run System.step (initial (some 1))
        [.call 0 (.push 10) 0, .call 0 (.push 11) 0] = some s ∧ s.signalled = true) ∧
      ∃ s : System Nat, run System.step (initial none)
        [.call 0 (.dequeueUntil 5) 0, .resume 0 5, .exit 0, .call 1 (.queue 10) 6] = some s ∧
        s.signalled = true :=
  ⟨⟨_, rfl, rfl⟩, ⟨_, rfl, rfl⟩⟩

end System
end MitScheme.Runtime.BlockingQueue
