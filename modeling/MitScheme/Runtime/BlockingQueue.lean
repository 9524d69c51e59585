import MitScheme.Lib.LinkedQueue
import MitScheme.Lib.Machine
import Mathlib.Data.List.Perm.Subperm

/-! # Thread queues

The queues of `thread-queue.scm`: a chain of pairs edited in place, with the
operations that block a thread while the queue is empty or full. A section that
runs with the queue locked is one step; a blocked thread runs its section again
at any later time. -/

namespace MitScheme.Runtime.BlockingQueue
open Lib.LinkedQueue Lib.Machine Function

abbrev ThreadId := Nat
abbrev PairId := Nat

/-- What `first-pair`, `last-pair` and the cdr of a pair hold. -/
inductive Ref
  | nil
  | false
  | pair (p : PairId)
  deriving DecidableEq

namespace Ref

def pair? : Ref → Option PairId
  | pair p => some p
  | _ => none

/-- A pair, or `#f`. -/
def ofPair : Option PairId → Ref
  | some p => pair p
  | none => false

@[simp] theorem pair?_ofPair (o) : (ofPair o).pair? = o := by cases o <;> rfl

end Ref

/-- An item; `number` is a history, it counts the items accepted before. -/
structure Item (α : Type) where
  number : Nat
  object : α

/-- A queue with the pairs made for it, the first `pairs` numbers. -/
structure ThreadQueue (α : Type) where
  firstPair : Ref
  lastPair : Ref
  elementCount : Int
  maxElements : Option Int
  waitingQueuers : List ThreadId
  waitingDequeuers : List ThreadId
  car : PairId → Option (Item α)
  cdr : PairId → Ref
  pairs : Nat

inductive Result (α : Type)
  /-- It returns an item or `#f`, -/
  | value (v : Option (Item α))
  /-- suspends the thread, -/
  | wait
  /-- or signals an error. -/
  | error

structure Outcome (α : Type) where
  queue : ThreadQueue α
  result : Result α

/-- The operations; `time` is on the real-time clock. -/
inductive Op (α : Type)
  | queue (object : α)
  | queueNoHang (object : α)
  | push (object : α)
  | dequeue
  | dequeueUntil (time : Int)
  | peek
  | peekUntil (time : Int)
  | empty

def Op.isPush {α : Type} : Op α → Bool
  | push _ => true
  | _ => false

namespace ThreadQueue
variable {α : Type}

/-- `make-thread-queue`. -/
def make (max : Option Int) : ThreadQueue α :=
  ⟨.false, .false, 0, max, [], [], fun _ => none, fun _ => .nil, 0⟩

def cons (q : ThreadQueue α) (item : Item α) (rest : Ref) : ThreadQueue α :=
  { q with
    car := update q.car q.pairs (some item)
    cdr := update q.cdr q.pairs rest
    pairs := q.pairs + 1 }

/-- `set-cdr!`, which wants a pair. -/
def setCdr (q : ThreadQueue α) (place value : Ref) : Option (ThreadQueue α) :=
  match place with
  | .pair p => some { q with cdr := update q.cdr p value }
  | _ => none

/-- `%empty?`. -/
def isEmpty (q : ThreadQueue α) : Bool := q.elementCount = 0

def isFull (q : ThreadQueue α) : Bool :=
  match q.maxElements with
  | some max => ¬ q.elementCount < max
  | none => false

/-- `signal-thread-event` on each thread of a list, which signals an error for a
dead thread. The thread that runs is not dead. -/
def signals (dead : ThreadId → Bool) (self : ThreadId) : List ThreadId → Bool
  | [] => true
  | t :: threads => if t = self ∨ ¬ dead t then signals dead self threads else false

/-- `%resume-queuers`, then the value of the operation. -/
def resumeQueuers (q : ThreadQueue α) (dead : ThreadId → Bool) (self : ThreadId)
    (v : Option (Item α)) : Outcome α :=
  if signals dead self q.waitingQueuers then ⟨{ q with waitingQueuers := [] }, .value v⟩
  else ⟨q, .error⟩

/-- `%resume-dequeuers`, then the value of the operation. -/
def resumeDequeuers (q : ThreadQueue α) (dead : ThreadId → Bool) (self : ThreadId)
    (v : Option (Item α)) : Outcome α :=
  if signals dead self q.waitingDequeuers then ⟨{ q with waitingDequeuers := [] }, .value v⟩
  else ⟨q, .error⟩

/-- `%queue!` up to its `%resume-dequeuers`. -/
def enqueue (q : ThreadQueue α) (item : Item α) : Option (ThreadQueue α) :=
  let new := Ref.pair q.pairs
  let linked := if q.lastPair = .false then some (q.cons item .nil)
    else (q.cons item .nil).setCdr q.lastPair new
  linked.map fun q => { q with
    lastPair := new
    firstPair := if q.firstPair = .false then new else q.firstPair
    elementCount := q.elementCount + 1 }

def queue' (q : ThreadQueue α) (dead : ThreadId → Bool) (self : ThreadId) (item : Item α) :
    Outcome α :=
  match q.enqueue item with
  | some q => q.resumeDequeuers dead self (some item)
  | none => ⟨q, .error⟩

def queueNoHang (q : ThreadQueue α) (dead : ThreadId → Bool) (self : ThreadId) (item : Item α) :
    Outcome α :=
  if q.isFull then ⟨q, .value none⟩ else q.queue' dead self item

/-- The locked section of `thread-queue/queue!`, once around its loop. -/
def queue (q : ThreadQueue α) (dead : ThreadId → Bool) (self : ThreadId) (item : Item α) :
    Outcome α :=
  let o := q.queueNoHang dead self item
  match o.result with
  | .value none =>
    ⟨{ o.queue with waitingQueuers := o.queue.waitingQueuers ++ [self] }, .wait⟩
  | _ => o

def removeFirst (q : ThreadQueue α) : Option (ThreadQueue α × Item α) :=
  match q.firstPair with
  | .pair first =>
    (q.car first).map fun item =>
      (if q.firstPair = q.lastPair then
        { q with firstPair := .false, lastPair := .false, elementCount := q.elementCount - 1 }
      else { q with firstPair := q.cdr first, elementCount := q.elementCount - 1 }, item)
  | _ => none

def dequeue' (q : ThreadQueue α) (dead : ThreadId → Bool) (self : ThreadId) : Outcome α :=
  match q.removeFirst with
  | some (q, item) => q.resumeQueuers dead self (some item)
  | none => ⟨q, .error⟩

def peek' (q : ThreadQueue α) : Outcome α :=
  match q.firstPair with
  | .pair first =>
    match q.car first with
    | some item => ⟨q, .value (some item)⟩
    | none => ⟨q, .error⟩
  | _ => ⟨q, .error⟩

def awaitItem (q : ThreadQueue α) (self : ThreadId) : Outcome α :=
  ⟨{ q with waitingDequeuers := q.waitingDequeuers ++ [self] }, .wait⟩

/-- The locked section of `thread-queue/dequeue!` and `thread-queue/peek`, once
around their loop. -/
def whenNonEmpty (q : ThreadQueue α) (self : ThreadId) (operation : Outcome α) : Outcome α :=
  if q.isEmpty then q.awaitItem self else operation

/-- `when-non-empty-before`, once around its loop. -/
def whenNonEmptyBefore (q : ThreadQueue α) (self : ThreadId) (time now : Int)
    (operation : Outcome α) : Outcome α :=
  if q.isEmpty then if time ≤ now then ⟨q, .value none⟩ else q.awaitItem self
  else operation

/-- The locked section of `thread-queue/empty!`. -/
def empty (q : ThreadQueue α) (dead : ThreadId → Bool) (self : ThreadId) : Outcome α :=
  if q.isEmpty then ⟨q, .value none⟩
  else { q with firstPair := .false, lastPair := .false, elementCount := 0 }.resumeQueuers dead
    self none

/-- `%push!` up to its `%resume-dequeuers`. -/
def pushFirst (q : ThreadQueue α) (item : Item α) : ThreadQueue α :=
  let new := Ref.pair q.pairs
  { q.cons item q.firstPair with
    firstPair := new
    lastPair := if q.lastPair = .false then new else q.lastPair
    elementCount := q.elementCount + 1 }

/-- The loop `before-last`; a chain has no more pairs than were made. -/
def beforeLast (q : ThreadQueue α) (last : Ref) : Nat → Ref → Option PairId
  | fuel + 1, .pair p => if q.cdr p = last then some p else q.beforeLast last fuel (q.cdr p)
  | _, _ => none

/-- `thread-queue/push!` on a full queue: the last pair gets the item and is
moved to the front. -/
def pushFull (q : ThreadQueue α) (item : Item α) : Outcome α :=
  match q.beforeLast q.lastPair q.pairs q.firstPair, q.lastPair with
  | some newLast, .pair last =>
    ⟨{ q with
        cdr := update (update q.cdr newLast .nil) last q.firstPair
        lastPair := .pair newLast
        car := update q.car last (some item)
        firstPair := .pair last }, .value (some item)⟩
  | _, _ => ⟨q, .error⟩

/-- The locked section of `thread-queue/push!`. -/
def push (q : ThreadQueue α) (dead : ThreadId → Bool) (self : ThreadId) (item : Item α) :
    Outcome α :=
  if q.isFull then q.pushFull item else (q.pushFirst item).resumeDequeuers dead self (some item)

/-- The locked section of an operation; `n` items were accepted before. -/
def perform (q : ThreadQueue α) (dead : ThreadId → Bool) (self : ThreadId) (now : Int) (n : Nat) :
    Op α → Outcome α
  | .queue object => q.queue dead self ⟨n, object⟩
  | .queueNoHang object => q.queueNoHang dead self ⟨n, object⟩
  | .push object => q.push dead self ⟨n, object⟩
  | .dequeue => q.whenNonEmpty self (q.dequeue' dead self)
  | .dequeueUntil time => q.whenNonEmptyBefore self time now (q.dequeue' dead self)
  | .peek => q.whenNonEmpty self q.peek'
  | .peekUntil time => q.whenNonEmptyBefore self time now q.peek'
  | .empty => q.empty dead self

/-! ## The chain -/

def chainFrom (q : ThreadQueue α) : Nat → Ref → List PairId
  | fuel + 1, .pair p => p :: q.chainFrom fuel (q.cdr p)
  | _, _ => []

/-- The pairs on the chain from `first-pair`. -/
def chain (q : ThreadQueue α) : List PairId := q.chainFrom q.pairs q.firstPair

def items (q : ThreadQueue α) : List (Item α) := q.chain.filterMap q.car

end ThreadQueue

/-! ## Threads that use a queue -/

/-- What a thread does: it has the value of its last operation, is suspended in
an operation, or is dead. -/
inductive Status (α : Type)
  | idle (value : Option (Item α))
  | blocked (op : Op α)
  | dead

def Status.isDead {α : Type} : Status α → Bool
  | dead => true
  | _ => false

/-- A queue and its threads. The other fields are a history: the items accepted,
dequeued, replaced by a push and discarded by `thread-queue/empty!`, and whether
an operation signalled an error. -/
structure System (α : Type) where
  queue : ThreadQueue α
  threads : ThreadId → Status α
  accepted : List (Item α)
  delivered : List (Item α)
  replaced : List (Item α)
  discarded : List (Item α)
  signalled : Bool

inductive Action (α : Type)
  /-- A thread calls an operation. -/
  | call (t : ThreadId) (op : Op α) (now : Int)
  /-- A suspended thread goes on, for whatever reason. -/
  | resume (t : ThreadId) (now : Int)
  /-- A suspended thread leaves its operation by a non-local exit. -/
  | abandon (t : ThreadId)
  | exit (t : ThreadId)

namespace System
variable {α : Type}

def initial (max : Option Int) : System α :=
  ⟨.make max, fun _ => .idle none, [], [], [], [], false⟩

/-- The history of an operation that returns `v`. -/
def record (s : System α) : Op α → Option (Item α) → System α
  | .queue _, some item => { s with accepted := s.accepted ++ [item] }
  | .queueNoHang _, some item => { s with accepted := s.accepted ++ [item] }
  | .push _, some item =>
    { s with
      accepted := s.accepted ++ [item]
      replaced := if s.queue.isFull then s.replaced ++ s.queue.items.getLast?.toList
        else s.replaced }
  | .dequeue, some item => { s with delivered := s.delivered ++ [item] }
  | .dequeueUntil _, some item => { s with delivered := s.delivered ++ [item] }
  | .empty, _ => { s with discarded := s.discarded ++ s.queue.items }
  | _, _ => s

def setThread (s : System α) (t : ThreadId) (status : Status α) : System α :=
  { s with threads := update s.threads t status }

/-- Thread `t` runs the locked section of its operation. -/
def perform (s : System α) (t : ThreadId) (op : Op α) (now : Int) : System α :=
  let o := s.queue.perform (fun u => (s.threads u).isDead) t now s.accepted.length op
  match o.result with
  | .value v => { s.record op v with queue := o.queue }.setThread t (.idle v)
  | .wait => { s with queue := o.queue }.setThread t (.blocked op)
  | .error => { s with queue := o.queue, signalled := true }.setThread t (.idle none)

def section? (s : System α) : Action α → Option (ThreadId × Op α × Int)
  | .call t op now =>
    match s.threads t with
    | .idle _ => some (t, op, now)
    | _ => none
  | .resume t now =>
    match s.threads t with
    | .blocked op => some (t, op, now)
    | _ => none
  | _ => none

def step (s : System α) : Action α → Option (System α)
  | .abandon t =>
    match s.threads t with
    | .blocked _ => some (s.setThread t (.idle none))
    | _ => none
  | .exit t => if (s.threads t).isDead then none else some (s.setThread t .dead)
  | a => (s.section? a).map fun x => s.perform x.1 x.2.1 x.2.2

end System

/-! ## What the operations are for -/

section
variable {α : Type}

def full (max : Option Int) (l : List (Item α)) : Bool :=
  match max with
  | some m => ¬ (l.length : Int) < m
  | none => false

/-- The operations on the list of items in the queue: the new list and the value,
or nothing when the thread has to wait. -/
def meaning (max : Option Int) (now : Int) (n : Nat) (l : List (Item α)) :
    Op α → Option (List (Item α) × Option (Item α))
  | .queue object => if full max l then none else some (l ++ [⟨n, object⟩], some ⟨n, object⟩)
  | .queueNoHang object =>
    if full max l then some (l, none) else some (l ++ [⟨n, object⟩], some ⟨n, object⟩)
  | .push object =>
    some (⟨n, object⟩ :: if full max l then l.dropLast else l, some ⟨n, object⟩)
  | .dequeue => l.head?.map fun item => (l.tail, some item)
  | .dequeueUntil time =>
    if l.isEmpty then if time ≤ now then some (l, none) else none else some (l.tail, l.head?)
  | .peek => l.head?.map fun item => (l, some item)
  | .peekUntil time =>
    if l.isEmpty then if time ≤ now then some (l, none) else none else some (l, l.head?)
  | .empty => some ([], none)

end

namespace ThreadQueue
variable {α : Type} {q : ThreadQueue α} {c : List PairId} {l : List (Item α)} {item : Item α}
  {p : PairId} {dead : ThreadId → Bool} {self : ThreadId}

/-- The fields and the pairs of the queue spell out the list `l`, in the pairs `c`. -/
structure Holds (q : ThreadQueue α) (c : List PairId) (l : List (Item α)) : Prop where
  first : q.firstPair = .ofPair c.head?
  last : q.lastPair = .ofPair c.getLast?
  links : Links (fun p => (q.cdr p).pair?) c
  nodup : c.Nodup
  lt : ∀ p ∈ c, p < q.pairs
  cars : c.map q.car = l.map some
  count : q.elementCount = c.length

theorem make_holds (max) : (make max : ThreadQueue α).Holds [] [] :=
  ⟨rfl, rfl, trivial, List.nodup_nil, nofun, rfl, rfl⟩

theorem Holds.length_eq (h : q.Holds c l) : c.length = l.length := by
  simpa using congrArg List.length h.cars

theorem Holds.isEmpty_eq (h : q.Holds c l) : q.isEmpty = l.isEmpty := by
  rw [isEmpty, h.count, h.length_eq]
  cases l with
  | nil => rfl
  | cons item l =>
    rw [List.length_cons]
    simp
    omega

theorem Holds.isFull_eq (h : q.Holds c l) : q.isFull = full q.maxElements l := by
  unfold isFull full
  rw [h.count, h.length_eq]

theorem Holds.lastPair_eq_false (h : q.Holds c l) : q.lastPair = .false ↔ c = [] := by
  rw [h.last]
  cases hc : c.getLast? with
  | none => simpa [Ref.ofPair] using hc
  | some p =>
    simp only [Ref.ofPair, reduceCtorEq, false_iff]
    rintro rfl
    cases hc

theorem chainFrom_links : ∀ {c : List PairId} {fuel : Nat},
    Links (fun p => (q.cdr p).pair?) c → c.length ≤ fuel → ∀ r : Ref, r.pair? = c.head? →
      q.chainFrom fuel r = c
  | [], fuel, _, _, r, hr => by
    cases r with
    | pair p => cases hr
    | nil => cases fuel <;> rfl
    | false => cases fuel <;> rfl
  | p :: c, 0, _, hf, _, _ => absurd hf (Nat.not_succ_le_zero _)
  | p :: c, fuel + 1, hl, hf, r, hr => by
    cases r with
    | pair p' =>
      cases hr
      rw [chainFrom, chainFrom_links hl.2 (Nat.le_of_succ_le_succ hf) (q.cdr p) hl.1]
    | nil => cases hr
    | false => cases hr

theorem nodup_length_le {c : List PairId} {n} (hn : c.Nodup) (hlt : ∀ p ∈ c, p < n) :
    c.length ≤ n := by
  have := (List.subperm_of_subset hn fun p hp => List.mem_range.mpr (hlt p hp)).length_le
  rwa [List.length_range] at this

theorem Holds.chain_eq (h : q.Holds c l) : q.chain = c :=
  chainFrom_links h.links (nodup_length_le h.nodup h.lt) _ (by rw [h.first, Ref.pair?_ofPair])

theorem filterMap_of_map_eq {β γ : Type} {f : β → Option γ} : ∀ {c : List β} {l : List γ},
    c.map f = l.map some → c.filterMap f = l
  | [], [], _ => rfl
  | p :: c, x :: l, h => by
    simp only [List.map_cons, List.cons.injEq] at h
    rw [List.filterMap_cons_some h.1, filterMap_of_map_eq h.2]

theorem Holds.items_eq (h : q.Holds c l) : q.items = l := by
  rw [items, h.chain_eq]
  exact filterMap_of_map_eq h.cars

/-! The operations on the chain. -/

theorem Holds.fresh (h : q.Holds c l) : q.pairs ∉ c := fun hp => Nat.lt_irrefl _ (h.lt _ hp)

theorem Holds.car_cons (h : q.Holds c l) (item rest) :
    c.map (q.cons item rest).car = l.map some := by
  rw [← h.cars]
  refine List.map_congr_left ?_
  intro p hp
  have hne : p ≠ q.pairs := fun heq => h.fresh (heq ▸ hp)
  exact update_of_ne hne _ _

theorem links_congr {cdr cdr' : PairId → Ref} (h : Links (fun p => (cdr p).pair?) c)
    (he : ∀ p ∈ c, cdr' p = cdr p) : Links (fun p => (cdr' p).pair?) c :=
  h.congr fun p hp => by rw [he p hp]

theorem Holds.links_cons (h : q.Holds c l) (item rest) :
    Links (fun p => ((q.cons item rest).cdr p).pair?) c := by
  refine links_congr h.links ?_
  intro p hp
  have hne : p ≠ q.pairs := fun heq => h.fresh (heq ▸ hp)
  exact update_of_ne hne _ _

theorem update_pair? (cdr : PairId → Ref) (p : PairId) (r : Ref) :
    (fun k => (update cdr p r k).pair?) =
      update (fun k => (cdr k).pair?) p r.pair? := by
  funext k
  by_cases hk : k = p
  · subst hk
    simp
  · simp [hk]

theorem Holds.enqueue (h : q.Holds c l) (item : Item α) :
    ∃ q', q.enqueue item = some q' ∧ q'.Holds (c ++ [q.pairs]) (l ++ [item]) ∧
      q'.maxElements = q.maxElements ∧ q'.waitingDequeuers = q.waitingDequeuers := by
  have hnodup : (c ++ [q.pairs]).Nodup := by
    refine List.nodup_append.mpr ⟨h.nodup, List.nodup_singleton _, ?_⟩
    intro p hp p' hp' heq
    rw [List.mem_singleton] at hp'
    exact h.fresh (hp' ▸ heq ▸ hp)
  have hlt : ∀ p ∈ c ++ [q.pairs], p < q.pairs + 1 := by
    intro p hp
    rw [List.mem_append, List.mem_singleton] at hp
    obtain hp | rfl := hp
    · exact Nat.lt_succ_of_lt (h.lt p hp)
    · exact Nat.lt_succ_self _
  have hcars : (c ++ [q.pairs]).map (q.cons item .nil).car = (l ++ [item]).map some := by
    rw [List.map_append, List.map_append, h.car_cons]
    simp [ThreadQueue.cons]
  have hcount : q.elementCount + 1 = ((c ++ [q.pairs]).length : Int) := by
    rw [h.count, List.length_append]
    simp
  unfold ThreadQueue.enqueue
  dsimp only
  obtain rfl | ⟨a, p, rfl⟩ := List.eq_nil_or_concat' c
  · have hlast : q.lastPair = .false := h.last
    have hfirst : q.firstPair = .false := h.first
    rw [if_pos hlast]
    refine ⟨_, rfl, ⟨?_, rfl, ⟨?_, trivial⟩, hnodup, hlt, hcars, hcount⟩, rfl, rfl⟩
    · simp [ThreadQueue.cons, hfirst, Ref.ofPair]
    · simp [ThreadQueue.cons, Ref.pair?]
  · have hlast : q.lastPair = .pair p := by rw [h.last]; simp [Ref.ofPair]
    have hfirst : q.firstPair = .ofPair ((a ++ [p]) ++ [q.pairs]).head? := by
      rw [h.first]
      cases a <;> rfl
    have hne : q.firstPair ≠ .false := by
      rw [hfirst]
      cases a <;> simp [Ref.ofPair]
    rw [if_neg (by rw [hlast]; nofun), hlast]
    refine ⟨_, rfl, ⟨?_, ?_, ?_, hnodup, hlt, hcars, hcount⟩, rfl, rfl⟩
    · simp only [ThreadQueue.cons, hne, if_false]
      exact hfirst
    · simp [Ref.ofPair]
    · dsimp only
      rw [update_pair?]
      refine (h.links_cons item .nil).append h.nodup q.pairs h.fresh ?_
      simp [ThreadQueue.cons, Ref.pair?]

theorem Holds.pushFirst (h : q.Holds c l) (item) :
    (q.pushFirst item).Holds (q.pairs :: c) (item :: l) := by
  refine ⟨rfl, ?_, ⟨?_, h.links_cons item q.firstPair⟩, List.nodup_cons.mpr ⟨h.fresh, h.nodup⟩, ?_,
    ?_, ?_⟩
  · simp only [ThreadQueue.pushFirst, h.lastPair_eq_false]
    split
    case isTrue hc =>
      subst hc
      rfl
    case isFalse hc =>
      obtain ⟨a, p, rfl⟩ := (List.eq_nil_or_concat' c).resolve_left hc
      rw [h.last, ← List.cons_append, List.getLast?_concat, List.getLast?_concat]
  · simp [ThreadQueue.pushFirst, ThreadQueue.cons, h.first]
  · intro p hp
    obtain rfl | hp := List.mem_cons.mp hp
    · exact Nat.lt_succ_self _
    · exact Nat.lt_succ_of_lt (h.lt p hp)
  · rw [List.map_cons, List.map_cons]
    refine congrArg₂ _ ?_ (h.car_cons item q.firstPair)
    simp [ThreadQueue.pushFirst, ThreadQueue.cons]
  · simp [ThreadQueue.pushFirst, h.count]

theorem Holds.removeFirst (h : q.Holds (p :: c) (item :: l)) :
    ∃ q', q.removeFirst = some (q', item) ∧ q'.Holds c l ∧ q'.maxElements = q.maxElements ∧
      q'.waitingQueuers = q.waitingQueuers := by
  obtain ⟨hp, hnodup⟩ := List.nodup_cons.mp h.nodup
  obtain ⟨hcar, hcars⟩ := List.cons.inj h.cars
  have hfirst : q.firstPair = .pair p := h.first
  have hcount : q.elementCount - 1 = (c.length : Int) := by
    rw [h.count, List.length_cons]
    omega
  have hlt : ∀ p ∈ c, p < q.pairs := fun p hp => h.lt p (List.mem_cons_of_mem _ hp)
  unfold ThreadQueue.removeFirst
  rw [hfirst]
  dsimp only
  rw [hcar]
  cases c with
  | nil =>
    have hlast : q.lastPair = .pair p := h.last
    rw [if_pos hlast.symm]
    exact ⟨_, rfl, ⟨rfl, rfl, trivial, hnodup, hlt, hcars, hcount⟩, rfl, rfl⟩
  | cons p' c =>
    have hlast : q.lastPair = .ofPair (p' :: c).getLast? := h.last
    have hne : Ref.pair p ≠ q.lastPair := by
      rw [hlast, List.getLast?_eq_getLast_of_ne_nil (List.cons_ne_nil p' c)]
      rintro heq
      cases heq
      exact hp (List.getLast_mem _)
    rw [if_neg hne]
    refine ⟨_, rfl, ⟨?_, hlast, h.links.2, hnodup, hlt, hcars, hcount⟩, rfl, rfl⟩
    have hnext : (q.cdr p).pair? = some p' := h.links.1
    cases hcdr : q.cdr p with rw [hcdr] at hnext
    | pair p'' =>
      cases hnext
      rfl
    | nil =>
      cases hnext
    | false =>
      cases hnext

theorem beforeLast_spec {last} : ∀ {a : List PairId} {p : PairId} {fuel : Nat} {r : Ref},
    Links (fun p => (q.cdr p).pair?) (a ++ [p, last]) → (a ++ [p, last]).Nodup →
      a.length < fuel → r.pair? = (a ++ [p, last]).head? →
        q.beforeLast (.pair last) fuel r = some p
  | _, _, 0, _, _, _, hf, _ => absurd hf (Nat.not_lt_zero _)
  | [], p, fuel + 1, r, hl, hn, _, hr => by
    obtain rfl : r = .pair p := by
      cases r <;> cases hr
      rfl
    have hcdr : q.cdr p = .pair last := by
      have hnext : (q.cdr p).pair? = some last := hl.1
      cases hc : q.cdr p <;> rw [hc] at hnext <;> cases hnext
      rfl
    rw [beforeLast, if_pos hcdr]
  | p' :: a, p, fuel + 1, r, hl, hn, hf, hr => by
    obtain rfl : r = .pair p' := by
      cases r <;> cases hr
      rfl
    have hnext : (q.cdr p').pair? = (a ++ [p, last]).head? := hl.1
    have hne : q.cdr p' ≠ .pair last := by
      intro heq
      rw [heq] at hnext
      have hn := (List.nodup_cons.mp hn).2
      cases a with
      | nil =>
        cases hnext
        simp at hn
      | cons p'' a =>
        cases hnext
        exact (List.nodup_cons.mp hn).1 (by simp)
    rw [beforeLast, if_neg hne]
    exact beforeLast_spec hl.2 (List.nodup_cons.mp hn).2 (Nat.lt_of_succ_lt_succ hf) hnext

theorem beforeLast_single {last} (fuel) (hl : (q.cdr last).pair? = none) :
    q.beforeLast (.pair last) fuel (.pair last) = none := by
  cases fuel with
  | zero => rfl
  | succ fuel =>
    have hne : q.cdr last ≠ .pair last := by
      intro heq
      rw [heq] at hl
      cases hl
    rw [beforeLast, if_neg hne]
    cases hc : q.cdr last with
    | pair p =>
      rw [hc] at hl
      cases hl
    | nil => cases fuel <;> rfl
    | false => cases fuel <;> rfl

theorem links_dropLast {next : PairId → Option PairId} : ∀ {a : List PairId} {p last : PairId},
    Links next (a ++ [p, last]) → (a ++ [p]).Nodup →
      Links (update next p none) (a ++ [p])
  | [], p, last, _, _ => ⟨by simp, trivial⟩
  | p' :: a, p, last, h, hn => by
    obtain ⟨hp', hn⟩ := List.nodup_cons.mp hn
    have hne : p' ≠ p := by
      rintro rfl
      exact hp' (by simp)
    refine ⟨?_, links_dropLast h.2 hn⟩
    rw [update_of_ne hne, h.1]
    cases a <;> rfl

theorem Holds.pushFull (h : q.Holds c l) (item : Item α) {a p last} (hc : c = a ++ [p, last]) :
    ∃ q', q.pushFull item = ⟨q', .value (some item)⟩ ∧
      q'.Holds (last :: (a ++ [p])) (item :: l.dropLast) ∧ q'.maxElements = q.maxElements := by
  have hsplit : c = (a ++ [p]) ++ [last] := by simp [hc]
  have hperm : (last :: (a ++ [p])).Nodup := by
    have hn := h.nodup
    rw [hsplit] at hn
    have hcomm : ((a ++ [p]) ++ [last]).Perm ([last] ++ (a ++ [p])) := List.perm_append_comm
    exact hcomm.nodup_iff.mp hn
  obtain ⟨hlast, hn⟩ := List.nodup_cons.mp hperm
  have hlastPair : q.lastPair = .pair last := by
    rw [h.last, hsplit, List.getLast?_concat]
    rfl
  have hfuel : a.length < q.pairs := by
    have := nodup_length_le h.nodup h.lt
    rw [hc, List.length_append] at this
    exact Nat.lt_of_lt_of_le (by simp) this
  have hbefore : q.beforeLast q.lastPair q.pairs q.firstPair = some p := by
    rw [hlastPair]
    refine beforeLast_spec (a := a) (hc ▸ h.links) (hc ▸ h.nodup) hfuel ?_
    rw [h.first, hc, Ref.pair?_ofPair]
  have hlt : ∀ k ∈ last :: (a ++ [p]), k < q.pairs := by
    intro k hk
    refine h.lt k ?_
    rw [hsplit]
    exact List.mem_append.mpr ((List.mem_cons.mp hk).symm.imp_right (by simp))
  unfold ThreadQueue.pushFull
  rw [hbefore, hlastPair]
  refine ⟨_, rfl, ⟨rfl, ?_, ⟨?_, ?_⟩, hperm, hlt, ?_, ?_⟩, rfl⟩
  · rw [← List.cons_append, List.getLast?_concat]
    rfl
  · simp only [update_self, h.first, Ref.pair?_ofPair, hc]
    cases a <;> rfl
  · have hlinks := links_dropLast (hc ▸ h.links) hn
    have hnil : (none : Option PairId) = Ref.nil.pair? := rfl
    rw [hnil, ← update_pair?] at hlinks
    refine links_congr hlinks ?_
    intro k hk
    exact update_of_ne (by rintro rfl; exact hlast hk) _ _
  · have hcars : (a ++ [p]).map q.car = l.dropLast.map some := by
      have hdrop := congrArg List.dropLast h.cars
      rwa [hsplit, List.map_append, List.map_singleton, List.dropLast_concat,
        ← List.map_dropLast] at hdrop
    rw [List.map_cons, List.map_cons, ← hcars]
    refine congrArg₂ _ (update_self _ _ _) (List.map_congr_left ?_)
    intro k hk
    exact update_of_ne (by rintro rfl; exact hlast hk) _ _
  · rw [h.count, hsplit, List.length_append, List.length_cons]
    rfl

end ThreadQueue
end MitScheme.Runtime.BlockingQueue
