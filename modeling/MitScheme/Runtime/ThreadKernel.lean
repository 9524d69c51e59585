import Mathlib
import MitScheme.Lib.Machine
import MitScheme.Lib.LinkedQueue

/-! # The thread kernel

The scheduler, the thread events and the thread mutexes of `thread.scm` as one
machine. Sections that run with interrupts masked are steps of the machine; the
code of the threads, of the events and of the unwind thunks is arbitrary, and
calls the kernel in any order. A ring is modelled by the list of its items. -/

namespace MitScheme.Runtime.ThreadKernel
open Lib.LinkedQueue

/-! ## Threads -/

abbrev ThreadId := Nat
abbrev MutexId := Nat

/-- An event is `#f` or a thunk; thunks are named by a number. -/
abbrev Event := Option Nat

inductive ExecutionState
  | running
  | runningWithoutPreemption
  | waiting
  | stopped
  | dead
  deriving DecidableEq

/-- The values `#f`, `#t` and `'suspended` of `block-events?`. -/
inductive BlockEvents
  | no
  | yes
  | suspended
  deriving DecidableEq

/-- `thread/exit-value`: the marker, a value, or the mark of a detached thread. -/
inductive ExitValue
  | none
  | value
  | detached
  deriving DecidableEq

/-- What the caller of `handle-thread-events` does when the ring is empty. -/
inductive AfterEvents
  /-- `set-thread-event-block!` in the switch to the thread, then
  `%resume-current-thread`. -/
  | switchIn (block : BlockEvents)
  /-- `%resume-current-thread`, for a thread that suspended with events
  blocked or not. -/
  | resume (suspended : Bool)
  /-- `%suspend-current-thread`, with the value to restore. -/
  | suspend (block : BlockEvents)
  /-- `%set-thread-event-block!` and its callers. -/
  | setBlock (block : BlockEvents)
  deriving DecidableEq

/-- The kernel procedures on a thread's stack that wait for code of the thread
to return, or for the thread to be resumed. -/
inductive Frame
  /-- `handle-thread-events` has called an event. -/
  | event (block : BlockEvents) (after : AfterEvents)
  /-- The loop of `%lock-thread-mutex`. -/
  | lockWait (mutex : MutexId)
  /-- `exit-current-thread` has called `translate-to-state-point`. -/
  | exiting
  deriving DecidableEq

/-- The fields of a thread that the scheduler, the events and the mutexes use.
`thread/next` is in the run queue. A saved continuation holds the event block
that was in force; its stack is `frames`. -/
structure Thread where
  executionState : ExecutionState
  continuation : Option BlockEvents
  blockEvents : BlockEvents
  pendingEvents : List Event
  joinedThreads : List (ThreadId × Event)
  joinedTo : List ThreadId
  exitValue : ExitValue
  mutexes : List MutexId
  frames : List Frame

def makeThread : Thread := ⟨.running, none, .no, [], [], [], .none, [], []⟩

structure Mutex where
  owner : Option ThreadId
  waitingThreads : List ThreadId

inductive Control
  /-- In code of the current thread. -/
  | user
  /-- In the loop of `handle-thread-events`; `any` is `any-events?`. -/
  | events (after : AfterEvents) (any : Bool)
  /-- Returning to the frame on top of the stack. -/
  | return
  /-- In `wait-for-io`, with no current thread. -/
  | idle
  /-- The assertion of `run-thread` failed, or it found no continuation. -/
  | fault
  deriving DecidableEq

/-- The kernel. The last two fields are a history of `lock-thread-mutex`: the
number of calls that had to wait, and for each thread and mutex the number of
the latest such call. -/
structure Kernel where
  threads : ThreadId → Thread
  threadCount : Nat
  queue : Queue ThreadId
  mutexes : MutexId → Mutex
  control : Control
  lockCalls : Nat
  lockCall : ThreadId → MutexId → Nat

namespace Kernel

def modify (s : Kernel) (t : ThreadId) (f : Thread → Thread) : Kernel :=
  { s with threads := Function.update s.threads t (f (s.threads t)) }

def setMutex (s : Kernel) (m : MutexId) (x : Mutex) : Kernel :=
  { s with mutexes := Function.update s.mutexes m x }

def setBlockEvents (s : Kernel) (t : ThreadId) (b : BlockEvents) : Kernel :=
  s.modify t fun x => { x with blockEvents := b }

def setState (s : Kernel) (t : ThreadId) (e : ExecutionState) : Kernel :=
  s.modify t fun x => { x with executionState := e }

def setContinuation (s : Kernel) (t : ThreadId) (k : Option BlockEvents) : Kernel :=
  s.modify t fun x => { x with continuation := k }

def setFrames (s : Kernel) (t : ThreadId) (frames : List Frame) : Kernel :=
  s.modify t fun x => { x with frames }

/-! ## Signalling -/

def threadRunning (s : Kernel) (t : ThreadId) : Kernel :=
  { s.setState t .running with queue := s.queue.append t }

/-- `%add-pending-event`: a `#f` event is kept only while it is alone. -/
def addPendingEvent (event : Event) (ring : List Event) : List Event :=
  match event with
  | some e => if ring = [none] then [some e] else ring ++ [some e]
  | none => if ring = [] then [none] else ring

def signalThreadEvent (s : Kernel) (t : ThreadId) (event : Event) : Kernel :=
  let s := s.modify t fun x => { x with pendingEvents := addPendingEvent event x.pendingEvents }
  if (s.threads t).blockEvents ≠ .yes ∧ (s.threads t).executionState = .waiting then
    s.threadRunning t
  else s

/-- `maybe-signal-io-thread-events` and `deliver-timer-events`: which threads get
which events is up to the environment. -/
def deliver (s : Kernel) : List (ThreadId × Event) → Kernel
  | [] => s
  | (t, event) :: signals =>
    if t < s.threadCount then (s.signalThreadEvent t event).deliver signals
    else s.deliver signals

/-! ## Switching threads -/

def resumeCurrentThread (s : Kernel) (t : ThreadId) : Kernel :=
  match (s.threads t).blockEvents with
  | .no => { s with control := .events (.resume false) false }
  | .suspended => { s with control := .events (.resume true) false }
  | .yes => { s with control := .return }

/-- `run-thread`: the switch to the continuation restores its event block,
which handles events when that is `#f`. -/
def runThread (s : Kernel) (t : ThreadId) : Kernel :=
  if s.queue.first = some t then
    match (s.threads t).continuation with
    | some .no => { s.setContinuation t none with control := .events (.switchIn .no) false }
    | some block => ((s.setContinuation t none).setBlockEvents t block).resumeCurrentThread t
    | none => { s with control := .fault }
  else { s with control := .fault }

def runFirstThread (s : Kernel) : Kernel :=
  match s.queue.first with
  | some t => s.runThread t
  | none => { s with control := .idle }

/-- `call-with-current-continuation` as the kernel uses it. -/
def saveContinuation (s : Kernel) (t : ThreadId) : Kernel :=
  s.setContinuation t (some (s.threads t).blockEvents)

def threadNotRunning (s : Kernel) (t : ThreadId) (e : ExecutionState) : Kernel :=
  { s.setState t e with queue := s.queue.removeFirst t }.runFirstThread

def yieldThread (s : Kernel) (t : ThreadId) : Kernel :=
  match s.queue.next t with
  | none => s.resumeCurrentThread t
  | some next => { s.saveContinuation t with queue := s.queue.rotate t next }.runThread next

/-- `%suspend-current-thread` up to its `handle-thread-events`. -/
def suspendCurrentThread (s : Kernel) (t : ThreadId) (io : List (ThreadId × Event)) : Kernel :=
  let block := (s.threads t).blockEvents
  let s := s.setBlockEvents t (if block = .no then .no else .suspended)
  { s.deliver io with control := .events (.suspend block) false }

/-- One turn of the loop of `handle-thread-events`, or what its caller does
after it. -/
def handleThreadEvents (s : Kernel) (t : ThreadId) (after : AfterEvents) (any : Bool) : Kernel :=
  match (s.threads t).pendingEvents with
  | some _ :: ring =>
    { s.modify t (fun x => { x with
        pendingEvents := ring
        blockEvents := .yes
        frames := .event x.blockEvents after :: x.frames }) with control := .user }
  | none :: ring =>
    { s.modify t (fun x => { x with pendingEvents := ring }) with control := .events after true }
  | [] =>
    match after with
    | .switchIn block => (s.setBlockEvents t block).resumeCurrentThread t
    | .resume suspended =>
      if suspended then { s.setBlockEvents t .yes with control := .return }
      else { s with control := .return }
    | .suspend block =>
      if any then { s.setBlockEvents t block with control := .return }
      else (s.saveContinuation t).threadNotRunning t .waiting
    | .setBlock block => { s.setBlockEvents t block with control := .user }

def setThreadEventBlock (s : Kernel) (t : ThreadId) (block : BlockEvents) : Kernel :=
  if block = .no then { s with control := .events (.setBlock .no) false }
  else s.setBlockEvents t block

/-! ## Mutexes -/

/-- `%%unlock-thread-mutex`. -/
def handOff (s : Kernel) (m : MutexId) : Kernel :=
  match (s.mutexes m).waitingThreads with
  | [] => s.setMutex m ⟨none, []⟩
  | t :: ring => (s.setMutex m ⟨some t, ring⟩).signalThreadEvent t none

/-- `lock-thread-mutex`. When the caller owns the mutex it signals an error. -/
def lockThreadMutex (s : Kernel) (t : ThreadId) (m : MutexId) : Kernel :=
  let mutex := s.mutexes m
  if mutex.owner = some t then s
  else
    let s := s.modify t fun x => { x with mutexes := m :: x.mutexes }
    match mutex.owner with
    | none => s.setMutex m ⟨some t, mutex.waitingThreads⟩
    | some _ =>
      let s := s.setMutex m { mutex with waitingThreads := mutex.waitingThreads ++ [t] }
      { s.modify t (fun x => { x with frames := .lockWait m :: x.frames }) with
        control := .return
        lockCalls := s.lockCalls + 1
        lockCall := Function.update s.lockCall t (Function.update (s.lockCall t) m s.lockCalls) }

/-- `unlock-thread-mutex`. When the caller does not own the mutex it signals an
error. `delq!` removes every occurrence. -/
def unlockThreadMutex (s : Kernel) (t : ThreadId) (m : MutexId) : Kernel :=
  if (s.mutexes m).owner = some t then
    (s.modify t fun x => { x with mutexes := x.mutexes.filter (· ≠ m) }).handOff m
  else s

def tryLockThreadMutex (s : Kernel) (t : ThreadId) (m : MutexId) : Kernel :=
  if (s.mutexes m).owner = none then
    (s.setMutex m { s.mutexes m with owner := some t }).modify t
      fun x => { x with mutexes := m :: x.mutexes }
  else s

/-- The loop of `%disassociate-thread-mutexes`. -/
def disassociateLoop (s : Kernel) (t : ThreadId) : List MutexId → Kernel
  | [] => s
  | m :: ms =>
    let s :=
      if (s.mutexes m).owner = some t then s.handOff m
      else s.setMutex m
        { s.mutexes m with waitingThreads := (s.mutexes m).waitingThreads.erase t }
    s.disassociateLoop t ms

def disassociateThreadMutexes (s : Kernel) (t : ThreadId) : Kernel :=
  (s.disassociateLoop t (s.threads t).mutexes).modify t fun x => { x with mutexes := [] }

/-- The return to the frame on top of the stack. In `%lock-thread-mutex` this
is the test of its loop. -/
def returnToFrame (s : Kernel) (t : ThreadId) (io : List (ThreadId × Event)) : Kernel :=
  match (s.threads t).frames with
  | .lockWait m :: frames =>
    if (s.mutexes m).owner = some t then { s.setFrames t frames with control := .user }
    else s.suspendCurrentThread t io
  | _ => { s with control := .user }

/-! ## Joining and leaving -/

/-- The loop of `release-joined-threads`. -/
def releaseLoop (s : Kernel) (t : ThreadId) : List (ThreadId × Event) → Kernel
  | [] => s
  | (joined, event) :: rest =>
    ((s.modify joined fun x => { x with joinedTo := x.joinedTo.filter (· ≠ t) }).signalThreadEvent
      joined event).releaseLoop t rest

def releaseJoinedThreads (s : Kernel) (t : ThreadId) (exitValue : ExitValue) : Kernel :=
  let s := s.modify t fun x => { x with exitValue }
  s.releaseLoop t (s.threads t).joinedThreads

/-- `signal-thread-event` for the current thread. -/
def signalSelf (s : Kernel) (self : ThreadId) (event : Event) : Kernel :=
  let block := (s.threads self).blockEvents
  let s := s.modify self fun x => { x with
    blockEvents := .yes
    pendingEvents := addPendingEvent event x.pendingEvents }
  if block = .no then { s with control := .events (.setBlock .no) false } else s

/-- `signal-thread-event` from a thread. For a dead thread it signals an error
or does nothing. -/
def signal (s : Kernel) (self t : ThreadId) (event : Event) : Kernel :=
  if t = self then s.signalSelf self event
  else if (s.threads t).executionState = .dead then s
  else s.signalThreadEvent t event

/-- `join-thread`, which signals an error for the thread itself and for a
detached one. -/
def joinThread (s : Kernel) (self t : ThreadId) (event : Event) : Kernel :=
  if t = self then s
  else
    match (s.threads t).exitValue with
    | .none =>
      (s.modify t fun x => { x with joinedThreads := (self, event) :: x.joinedThreads }).modify self
        fun x => { x with joinedTo := t :: x.joinedTo }
    | .detached => s
    | .value => s.signalSelf self event

def detachThread (s : Kernel) (t : ThreadId) : Kernel :=
  if (s.threads t).exitValue = .detached then s else s.releaseJoinedThreads t .detached

/-- The loop of `%disassociate-joined-threads`. -/
def disassociateJoined (s : Kernel) (t : ThreadId) : List ThreadId → Kernel
  | [] => s
  | u :: rest =>
    (s.modify u fun x => { x with
      joinedThreads := x.joinedThreads.filter (·.1 ≠ t) }).disassociateJoined t rest

/-- `exit-current-thread` up to its `translate-to-state-point`. -/
def beginExit (s : Kernel) (t : ThreadId) : Kernel :=
  { s.modify t (fun x => { x with
      blockEvents := .yes
      pendingEvents := []
      frames := .exiting :: x.frames }) with control := .user }

/-- The rest of `exit-current-thread`; no frame of the thread is left. -/
def finishExit (s : Kernel) (t : ThreadId) : Kernel :=
  let s := s.disassociateJoined t (s.threads t).joinedTo
  let s := s.modify t fun x => { x with joinedTo := [], frames := [] }
  let s := s.disassociateThreadMutexes t
  let s := if (s.threads t).exitValue = .none then s.releaseJoinedThreads t .value else s
  s.threadNotRunning t .dead

/-- `make-thread`, called by `create-thread`; `block` is the event block of the
root continuation. -/
def createThread (s : Kernel) (block : BlockEvents) : Kernel :=
  { s with
    threads := Function.update s.threads s.threadCount { makeThread with continuation := some block }
    threadCount := s.threadCount + 1
    queue := s.queue.append s.threadCount }

/-- `restart-thread`, which signals an error unless the thread is stopped. -/
def restartThread (s : Kernel) (t : ThreadId) (discardEvents : Bool) (event : Event) : Kernel :=
  if (s.threads t).executionState = .stopped then
    let s := if discardEvents then s.modify t fun x => { x with pendingEvents := [] } else s
    let s := if event = none then s else s.signalThreadEvent t event
    s.threadRunning t
  else s

/-- `thread-timer-interrupt-handler`. -/
def timerInterrupt (s : Kernel) (io : List (ThreadId × Event)) : Kernel :=
  let s := s.deliver io
  match s.queue.first with
  | none => s
  | some t =>
    if (s.threads t).continuation.isSome then s.runThread t
    else if (s.threads t).executionState ≠ .runningWithoutPreemption then s.yieldThread t
    else s.resumeCurrentThread t

/-- `wait-for-io` when the registry test returns. -/
def waitForIo (s : Kernel) (io : List (ThreadId × Event)) : Kernel :=
  (s.deliver io).runFirstThread

end Kernel

/-! ## Steps -/

/-- What the current thread's code, an interrupt or the kernel itself does
next. `io` are the events found by the calls of `maybe-signal-io-thread-events`
and `deliver-timer-events`. -/
inductive Action
  | createThread (block : BlockEvents)
  | suspend (io : List (ThreadId × Event))
  | stop
  | restart (t : ThreadId) (discardEvents : Bool) (event : Event)
  | yield (io : List (ThreadId × Event))
  | exit
  | signal (t : ThreadId) (event : Event)
  | join (t : ThreadId) (event : Event)
  | detach (t : ThreadId)
  | setEventBlock (block : BlockEvents)
  | allowDelivery (io : List (ThreadId × Event))
  | allowPreempt (allow : Bool)
  | lock (m : MutexId)
  | unlock (m : MutexId)
  | tryLock (m : MutexId)
  /-- An event, an unwind thunk or the thread's own thunk returns. -/
  | return
  /-- The code invokes a continuation of an outer call, with its event block:
  that many frames are left. -/
  | escape (depth : Nat) (block : BlockEvents)
  /-- A timer interrupt, in code of a thread or in `wait-for-io`. -/
  | timer (io : List (ThreadId × Event))
  /-- The kernel's next step. -/
  | kernel (io : List (ThreadId × Event))

namespace Kernel

/-- The code of thread `t` calls the kernel. -/
def userStep (s : Kernel) (t : ThreadId) : Action → Option Kernel
  | .createThread block => some (s.createThread block)
  | .suspend io => some (s.suspendCurrentThread t io)
  | .stop => some ((s.saveContinuation t).threadNotRunning t .stopped)
  | .restart u discardEvents event =>
    if u < s.threadCount then some (s.restartThread u discardEvents event) else none
  | .yield io => some (((s.setState t .running).deliver io).yieldThread t)
  | .exit => some (s.beginExit t)
  | .signal u event => if u < s.threadCount then some (s.signal t u event) else none
  | .join u event => if u < s.threadCount then some (s.joinThread t u event) else none
  | .detach u => if u < s.threadCount then some (s.detachThread u) else none
  | .setEventBlock block => some (s.setThreadEventBlock t block)
  | .allowDelivery io =>
    some { (s.setBlockEvents t .no).deliver io with
      control := .events (.setBlock (s.threads t).blockEvents) false }
  | .allowPreempt allow =>
    some (s.setState t (if allow then .running else .runningWithoutPreemption))
  | .lock m => some (s.lockThreadMutex t m)
  | .unlock m => some (s.unlockThreadMutex t m)
  | .tryLock m => some (s.tryLockThreadMutex t m)
  | .return =>
    match (s.threads t).frames with
    | .event block after :: frames =>
      some { (s.setFrames t frames).setBlockEvents t block with control := .events after true }
    | .exiting :: _ => some (s.finishExit t)
    | [] => some (s.beginExit t)
    | .lockWait _ :: _ => none
  | .escape depth block =>
    match (s.threads t).frames.drop depth with
    | .lockWait _ :: _ => none
    | frames => some ((s.setFrames t frames).setThreadEventBlock t block)
  | .timer io => some (s.timerInterrupt io)
  | .kernel _ => none

/-- In `wait-for-io`: the registry test returns or the timer interrupts it. -/
def idleStep (s : Kernel) : Action → Option Kernel
  | .timer io => some (s.timerInterrupt io)
  | .kernel io => some (s.waitForIo io)
  | _ => none

/-- The kernel's own steps for thread `t`. -/
def kernelStep (s : Kernel) (t : ThreadId) : Action → Option Kernel
  | .kernel io =>
    match s.control with
    | .events after any => some (s.handleThreadEvents t after any)
    | .return => some (s.returnToFrame t io)
    | _ => none
  | _ => none

def step (s : Kernel) (a : Action) : Option Kernel :=
  match s.control, s.queue.first with
  | .user, some t => s.userStep t a
  | .idle, _ => s.idleStep a
  | .fault, _ => none
  | _, some t => s.kernelStep t a
  | _, none => none

/-- `initialize-low!`: the first thread is running, and it is detached. -/
def initial : Kernel where
  threads := Function.update (fun _ => { makeThread with executionState := .dead }) 0
    { makeThread with exitValue := .detached }
  threadCount := 1
  queue := Queue.empty.append 0
  mutexes := fun _ => ⟨none, []⟩
  control := .user
  lockCalls := 0
  lockCall := fun _ _ => 0

end Kernel

end MitScheme.Runtime.ThreadKernel
