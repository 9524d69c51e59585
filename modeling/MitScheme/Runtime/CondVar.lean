import Mathlib
import MitScheme.Lib.DoublyLinked
import MitScheme.Lib.Machine

/-! # Condition variables

`condvar.scm` under any interleaving. The waiter list is read and edited by the
owner of the lock of the condition variable only; the mark `done?` of a waiter is
read without it. A suspended thread goes on at any time, so wake-ups are not kept,
and neither are the timer events. -/

namespace MitScheme.Runtime.CondVar
open Lib.LinkedQueue (Links)
open Lib.DoublyLinked Lib.Machine Function

abbrev ThreadId := Nat
abbrev MutexId := Nat
abbrev WaiterId := Nat

/-! ## The condition variable and its callers -/

/-- The sentinels `waiter-head` and `waiter-tail`. -/
def waiterHead : WaiterId := 0

def waiterTail : WaiterId := 1

/-- A call of `condition-variable-wait!`, or of `unlock-thread-mutex-and-wait`
when `relock` is false. -/
structure Wait (τ : Type) where
  waiter : WaiterId
  mutex : MutexId
  timeout : Option τ
  relock : Bool

inductive Phase (τ : Type)
  /-- Outside, with the value of its last call when that was a wait. -/
  | outside (last : Option (Wait τ × Bool))
  /-- Before `enqueue-waiter!`, with the lock still to be taken. -/
  | enqueuing (x : Wait τ)
  /-- Before the caller's mutex is unlocked. -/
  | releasing (x : Wait τ)
  /-- At the first test of the loop, of the clock, -/
  | testing (x : Wait τ)
  /-- and at the second, of `done?`. -/
  | checking (x : Wait τ)
  | suspended (x : Wait τ)
  /-- Out of the loop with a value, before the clean-up. -/
  | cleaning (x : Wait τ) (value : Bool)
  /-- Before the caller's mutex is locked again. -/
  | relocking (x : Wait τ) (value : Bool)
  /-- `condition-variable-signal!` or `condition-variable-broadcast!`, with the
  lock still to be taken. -/
  | locking (broadcast : Bool)
  /-- At the test of their loop. -/
  | scanning (broadcast : Bool) (waiter : WaiterId)
  /-- The thread of the waiter has been signalled; `next` follows the waiter. -/
  | signalling (broadcast : Bool) (waiter : WaiterId) (next : Option WaiterId)
  /-- Before `remove-waiter!`, and then back to the loop if there is a `loop`. -/
  | removing (waiter : WaiterId) (loop : Option (Bool × Option WaiterId))
  /-- An assertion has failed, or an error has been signalled. -/
  | failed

/-- A condition variable, its waiters, the callers' mutexes, the clock and the
threads. `enqueued` is a history of the waiters in the order of
`enqueue-waiter!`. -/
structure Condvar (τ : Type) where
  next : WaiterId → Option WaiterId
  previous : WaiterId → Option WaiterId
  done : WaiterId → Bool
  thread : WaiterId → ThreadId
  waiters : Nat
  lock : Option ThreadId
  owner : MutexId → Option ThreadId
  clock : τ
  phase : ThreadId → Phase τ
  enqueued : List WaiterId

inductive Action (τ : Type)
  /-- Thread `t`, which owns the mutex, waits. -/
  | wait (t : ThreadId) (mutex : MutexId) (timeout : Option τ) (relock : Bool)
  | signal (t : ThreadId) (broadcast : Bool)
  /-- The thread goes on; where it wants a mutex it gets it. -/
  | advance (t : ThreadId)
  | lockMutex (t : ThreadId) (mutex : MutexId)
  | unlockMutex (t : ThreadId) (mutex : MutexId)
  /-- Time passes. -/
  | tick (clock : τ)

namespace Condvar
variable {τ : Type}

/-- `make-condition-variable`. -/
def make (clock : τ) : Condvar τ where
  next := update (fun _ => none) waiterHead (some waiterTail)
  previous := update (fun _ => none) waiterTail (some waiterHead)
  done := fun _ => false
  thread := fun _ => 0
  waiters := 2
  lock := none
  owner := fun _ => none
  clock
  phase := fun _ => .outside none
  enqueued := []

def setPhase (s : Condvar τ) (t : ThreadId) (p : Phase τ) : Condvar τ :=
  { s with phase := update s.phase t p }

/-- `waiter-detached?`. -/
def waiterDetached (s : Condvar τ) (w : WaiterId) : Bool :=
  (s.previous w).isNone && (s.next w).isNone

/-- `enqueue-waiter!`, unless one of its assertions fails. -/
def enqueueWaiter (s : Condvar τ) (w : WaiterId) : Option (Condvar τ) :=
  match s.previous waiterTail with
  | some p =>
    if s.previous w = none ∧ s.next w = none ∧ s.next waiterTail = none ∧ waiterTail ≠ p ∧
        s.next p = some waiterTail then
      some { s with
        previous := update (update s.previous waiterTail (some w)) w (some p)
        next := update (update s.next p (some w)) w (some waiterTail)
        enqueued := s.enqueued ++ [w] }
    else none
  | none => none

/-- `remove-waiter!`, unless one of its assertions fails. -/
def removeWaiter (s : Condvar τ) (w : WaiterId) : Option (Condvar τ) :=
  match s.previous w, s.next w with
  | some p, some n =>
    if w ≠ p ∧ w ≠ n ∧ s.next p = some w ∧ s.previous n = some w then
      some { s with
        next := update (update s.next p (some n)) w none
        previous := update (update s.previous n (some p)) w none }
    else none
  | _, _ => none

def finishWait (s : Condvar τ) (t : ThreadId) (x : Wait τ) (value : Bool) : Condvar τ :=
  s.setPhase t (if x.relock then .relocking x value else .outside (some (x, value)))

def advance [LE τ] [DecidableLE τ] (s : Condvar τ) (t : ThreadId) : Option (Condvar τ) :=
  match s.phase t with
  | .enqueuing x =>
    if s.lock = none then
      match s.enqueueWaiter x.waiter with
      | some s => some (s.setPhase t (.releasing x))
      | none => some (s.setPhase t .failed)
    else none
  | .releasing x =>
    if s.owner x.mutex = some t then
      some ({ s with owner := update s.owner x.mutex none }.setPhase t (.testing x))
    else some (s.setPhase t .failed)
  | .testing x =>
    match x.timeout with
    | some timeout =>
      if s.clock ≤ timeout then some (s.setPhase t (.cleaning x false))
      else some (s.setPhase t (.checking x))
    | none => some (s.setPhase t (.checking x))
  | .checking x => some (s.setPhase t (if s.done x.waiter then .cleaning x true else .suspended x))
  | .suspended x => some (s.setPhase t (.testing x))
  | .cleaning x value =>
    if s.lock = none then
      if s.waiterDetached x.waiter then some (s.finishWait t x value)
      else
        match s.removeWaiter x.waiter with
        | some s => some (s.finishWait t x value)
        | none => some (s.setPhase t .failed)
    else none
  | .relocking x value =>
    if s.owner x.mutex = none then
      some ({ s with owner := update s.owner x.mutex (some t) }.setPhase t
        (.outside (some (x, value))))
    else none
  | .locking broadcast =>
    if s.lock = none then
      match s.next waiterHead with
      | some w => some ({ s with lock := some t }.setPhase t (.scanning broadcast w))
      | none => some (s.setPhase t .failed)
    else none
  | .scanning broadcast w =>
    if w = waiterTail then some ({ s with lock := none }.setPhase t (.outside none))
    else if s.done w then some (s.setPhase t (.removing w (some (broadcast, s.next w))))
    else some (s.setPhase t (.signalling broadcast w (s.next w)))
  | .signalling broadcast w next =>
    some ({ s with done := update s.done w true }.setPhase t
      (.removing w (if broadcast then some (broadcast, next) else none)))
  | .removing w loop =>
    match s.removeWaiter w, loop with
    | some s, none => some ({ s with lock := none }.setPhase t (.outside none))
    | some s, some (broadcast, some next) => some (s.setPhase t (.scanning broadcast next))
    | _, _ => some (s.setPhase t .failed)
  | .outside _ => none
  | .failed => none

def step [LE τ] [DecidableLE τ] (s : Condvar τ) : Action τ → Option (Condvar τ)
  | .wait t mutex timeout relock =>
    match s.phase t with
    | .outside _ =>
      if s.owner mutex = some t then
        some ({ s with
          thread := update s.thread s.waiters t
          waiters := s.waiters + 1 }.setPhase t (.enqueuing ⟨s.waiters, mutex, timeout, relock⟩))
      else none
    | _ => none
  | .signal t broadcast =>
    match s.phase t with
    | .outside _ => some (s.setPhase t (.locking broadcast))
    | _ => none
  | .advance t => s.advance t
  | .lockMutex t mutex =>
    match s.phase t with
    | .outside _ =>
      if s.owner mutex = none then
        some { s with owner := update s.owner mutex (some t) }
      else none
    | _ => none
  | .unlockMutex t mutex =>
    match s.phase t with
    | .outside _ =>
      if s.owner mutex = some t then
        some { s with owner := update s.owner mutex none }
      else none
    | _ => none
  | .tick clock => if s.clock ≤ clock then some { s with clock } else none

end Condvar
end MitScheme.Runtime.CondVar
