import MitScheme.Runtime.ThreadMutex
import MitScheme.Runtime.TaskGroup
import MitScheme.Runtime.AsyncStream

/-! # Waiting

`%wait`, the sections that change the objects waited on, and `cancel-task!`, over
any number of threads and objects. Of the events of a thread only matters whether
some are pending: an event without a thunk wakes the thread, and so does any
other one. The thunk of an event runs on top of what it interrupts, may wait
itself, and may leave what it interrupted by a non-local exit. -/

namespace MitScheme.Runtime.TaskWait
open Lib.Machine Function
open ThreadKernel (ThreadId Mutex Kernel)
open List (mem_cons_of_mem mem_cons_self)

/-! ## Objects -/

/-- An object that threads wait on: whether TRY succeeds and what it then does,
the waiters, and the sections that change the object, with the waiters they take
to wake. A section that wakes nobody does not make TRY succeed. -/
structure Waitable (σ κ : Type) where
  ready : σ → Bool
  take : ThreadId → σ → σ
  waiters : σ → List ThreadId
  setWaiters : List ThreadId → σ → σ
  change : κ → σ → σ × Option (List ThreadId)
  waiters_setWaiters : ∀ l x, waiters (setWaiters l x) = l
  ready_setWaiters : ∀ l x, ready (setWaiters l x) = ready x
  waiters_take : ∀ t x, ready x = true → waiters (take t x) = waiters x
  change_taken : ∀ k x l, (change k x).2 = some l →
    l = waiters x ∧ waiters (change k x).1 = []
  change_quiet : ∀ k x, (change k x).2 = none →
    waiters (change k x).1 = waiters x ∧ (ready (change k x).1 = true → ready x = true)

def Waitable.sum {σ κ σ' κ' : Type} (W : Waitable σ κ) (W' : Waitable σ' κ') :
    Waitable (σ ⊕ σ') (κ ⊕ κ') where
  ready := Sum.elim W.ready W'.ready
  take t := Sum.map (W.take t) (W'.take t)
  waiters := Sum.elim W.waiters W'.waiters
  setWaiters l := Sum.map (W.setWaiters l) (W'.setWaiters l)
  change
    | .inl k, .inl x => let r := W.change k x; (.inl r.1, r.2)
    | .inr k, .inr x => let r := W'.change k x; (.inr r.1, r.2)
    | _, x => (x, none)
  waiters_setWaiters := by
    intro l x
    cases x with
    | inl x => exact W.waiters_setWaiters l x
    | inr x => exact W'.waiters_setWaiters l x
  ready_setWaiters := by
    intro l x
    cases x with
    | inl x => exact W.ready_setWaiters l x
    | inr x => exact W'.ready_setWaiters l x
  waiters_take := by
    intro t x
    cases x with
    | inl x => exact W.waiters_take t x
    | inr x => exact W'.waiters_take t x
  change_taken := by
    intro k x
    cases k with
    | inl k =>
      cases x with
      | inl x => exact W.change_taken k x
      | inr x => nofun
    | inr k =>
      cases x with
      | inl x => nofun
      | inr x => exact W'.change_taken k x
  change_quiet := by
    intro k x
    cases k with
    | inl k =>
      cases x with
      | inl x => exact W.change_quiet k x
      | inr x => exact fun _ => ⟨rfl, id⟩
    | inr k =>
      cases x with
      | inl x => exact fun _ => ⟨rfl, id⟩
      | inr x => exact W'.change_quiet k x

/-! ### Tasks -/

/-- The fields of a task that `await` and `%finish-task!` use. -/
structure TaskCell where
  state : TaskGroup.TaskState
  waiters : List ThreadId

inductive TaskChange
  | finish (failed : Bool)
  /-- `%add-child!`, `%remove-child!` and the sections of
  `with-task-cancellation-handler`, which touch neither field. -/
  | other

/-- The section of `%finish-task!` and the others. -/
def taskChange (x : TaskCell) : TaskChange → TaskCell × Option (List ThreadId)
  | .finish failed => (⟨if failed then .failed else .completed, []⟩, some x.waiters)
  | .other => (x, none)

/-- `await`. -/
def taskWaitable : Waitable TaskCell TaskChange where
  ready x := decide (x.state ≠ .running)
  take _ x := x
  waiters x := x.waiters
  setWaiters l x := { x with waiters := l }
  change k x := taskChange x k
  waiters_setWaiters _ _ := rfl
  ready_setWaiters _ _ := rfl
  waiters_take _ _ _ := rfl
  change_taken := by
    intro k x l h
    cases k <;> cases h
    exact ⟨rfl, rfl⟩
  change_quiet := by
    intro k x h
    cases k with
    | finish failed => cases h
    | other => exact ⟨rfl, id⟩

/-! ### Task groups -/

inductive ContinuationState
  | pending
  | completed
  | failed
  deriving DecidableEq

structure TaskContinuation where
  state : ContinuationState
  waiters : List ThreadId

abbrev Object (α φ : Type) :=
  ((TaskCell ⊕ TaskGroup.Group) ⊕ AsyncStream.Stream α φ) ⊕ TaskContinuation

abbrev ObjectId := Nat

/-- The sections of `%wait` that lock the mutex of the object. -/
inductive Section
  | try
  /-- `remove-waiter!`, because the task is cancelled or after a wake-up. -/
  | remove (cancelled : Bool)

/-- What `%wait` does after it has unlocked the mutex. -/
inductive After
  | leave
  | check
  | loop

/-- Where a thread is in `%wait`. -/
inductive WaitPoint
  /-- Before `lock-thread-mutex`. -/
  | lock (sec : Section)
  /-- In the loop of `lock-thread-mutex`. -/
  | lockLoop (sec : Section)
  | locked (sec : Section)
  /-- Before `unlock-thread-mutex`. -/
  | unlock (after : After)
  /-- Before the test of `%task-cancelled?`. -/
  | check
  /-- Before `suspend-current-thread`. -/
  | suspend
  | suspended
  /-- `suspend-current-thread` has called an event, and returns after it. -/
  | handling

/-- Where a thread is in a section that changes an object. -/
inductive ChangePoint
  | lock
  | lockLoop
  | locked
  /-- The section has taken these threads. -/
  | unlock (taken : List ThreadId)

/-- Where a thread is in `cancel-task!`. -/
inductive CancelPoint
  | lock
  | lockLoop
  | locked
  /-- `work` says whether this call has set the flag. -/
  | unlock (work : Bool)
  /-- Before `%wake-task!`. -/
  | wake

inductive Activity (κ : Type)
  | outside
  /-- `%wait`; `task` says whether it has a TASK argument, the task of the thread. -/
  | wait (object : ObjectId) (task : Bool) (point : WaitPoint)
  /-- A section, with the threads that an earlier one has taken: `%finish-task!`
  calls the hook before it wakes the waiters of the task. -/
  | change (object : ObjectId) (change : κ) (held : List ThreadId) (point : ChangePoint)
  /-- `%wake-threads!`. -/
  | waking (threads : List ThreadId)
  /-- `cancel-task!` for the task of a thread. -/
  | cancel (object : ObjectId) (target : ThreadId) (point : CancelPoint)

/-- A thread, with what the events it is handling have interrupted. -/
structure Thread (κ : Type) where
  activity : Activity κ
  frames : List (Activity κ)
  /-- The ring of pending events is not empty. -/
  pending : Bool

/-- The flags are those of the tasks of the threads. -/
structure World (σ κ : Type) where
  objects : ObjectId → σ
  mutexes : ObjectId → Mutex
  threads : ThreadId → Thread κ
  cancelled : ThreadId → Bool

inductive Action (κ : Type)
  | wait (t : ThreadId) (object : ObjectId) (task : Bool)
  | change (t : ThreadId) (object : ObjectId) (change : κ)
  | cancel (t : ThreadId) (object : ObjectId) (target : ThreadId)
  | advance (t : ThreadId)
  /-- Any other event for the thread. -/
  | event (t : ThreadId)
  /-- The thread handles its events outside of the suspension of `%wait`. -/
  | handle (t : ThreadId)
  /-- The thread calls the thunk of an event; `more` says whether the ring holds
  another one. -/
  | interrupt (t : ThreadId) (more : Bool)
  /-- The thunk of an event returns. -/
  | resume (t : ThreadId)
  /-- A non-local exit. -/
  | escape (t : ThreadId)

namespace Activity

variable {κ : Type}

def locks : Activity κ → Option ObjectId
  | .wait o _ (.lock _) => some o
  | .change o _ _ .lock => some o
  | .cancel o _ .lock => some o
  | _ => none

def holds : Activity κ → Option ObjectId
  | .wait o _ (.locked _) => some o
  | .wait o _ (.unlock _) => some o
  | .change o _ _ .locked => some o
  | .change o _ _ (.unlock _) => some o
  | .cancel o _ .locked => some o
  | .cancel o _ (.unlock _) => some o
  | _ => none

/-- What an event leaves behind when it interrupts. `%wait` blocks thread events:
it handles them in a suspension only. -/
def interrupted : Activity κ → Option (Activity κ)
  | .wait o task .suspend => some (.wait o task .handling)
  | .wait o task .suspended => some (.wait o task .handling)
  | .wait o task .handling => some (.wait o task .handling)
  | .wait o task (.lockLoop sec) => some (.wait o task (.lockLoop sec))
  | .wait _ _ _ => none
  | a => some a

/-- Events that do nothing but wake the thread may be handled here, and the
thread goes on as before. -/
def MayHandle : Activity κ → Bool
  | .wait _ _ (.lockLoop _) => true
  | .wait _ _ _ => false
  | _ => true

end Activity

namespace World

variable {σ κ : Type}

def setObject (s : World σ κ) (o : ObjectId) (x : σ) : World σ κ :=
  { s with objects := update s.objects o x }

def setMutex (s : World σ κ) (o : ObjectId) (m : Mutex) : World σ κ :=
  { s with mutexes := update s.mutexes o m }

def setThread (s : World σ κ) (t : ThreadId) (x : Thread κ) : World σ κ :=
  { s with threads := update s.threads t x }

def setActivity (s : World σ κ) (t : ThreadId) (activity : Activity κ) : World σ κ :=
  s.setThread t { s.threads t with activity }

/-- `signal-thread-event` with `#f`. -/
def signal (s : World σ κ) (t : ThreadId) : World σ κ :=
  s.setThread t { s.threads t with pending := true }

def drain (s : World σ κ) (t : ThreadId) (activity : Activity κ) : World σ κ :=
  s.setThread t { s.threads t with activity, pending := false }

/-- `lock-thread-mutex`, which signals an error when the thread owns the mutex. -/
def lock (s : World σ κ) (t : ThreadId) (o : ObjectId) (locked wait : Activity κ) :
    Option (World σ κ) :=
  match (s.mutexes o).owner with
  | none => some ((s.setMutex o { s.mutexes o with owner := some t }).setActivity t locked)
  | some owner =>
    if owner = t then none
    else
      some ((s.setMutex o { s.mutexes o with
        waitingThreads := (s.mutexes o).waitingThreads ++ [t] }).setActivity t wait)

/-- The test of the loop of `lock-thread-mutex`. -/
def lockLoop (s : World σ κ) (t : ThreadId) (o : ObjectId) (locked : Activity κ) :
    Option (World σ κ) :=
  if (s.mutexes o).owner = some t then some (s.setActivity t locked) else none

/-- `%%unlock-thread-mutex`. -/
def handOff (s : World σ κ) (o : ObjectId) : World σ κ :=
  match (s.mutexes o).waitingThreads with
  | [] => s.setMutex o (s.mutexes o).passOn
  | head :: _ => (s.setMutex o (s.mutexes o).passOn).signal head

/-- `unlock-thread-mutex`, which signals an error when the thread does not own the
mutex. -/
def unlock (s : World σ κ) (t : ThreadId) (o : ObjectId) (next : Activity κ) :
    Option (World σ κ) :=
  if (s.mutexes o).owner = some t then some ((s.handOff o).setActivity t next) else none

variable (W : Waitable σ κ)

/-- The next step of a thread in `%wait`. -/
def waitStep (s : World σ κ) (t : ThreadId) (o : ObjectId) (task : Bool) :
    WaitPoint → Option (World σ κ)
  | .lock sec => s.lock t o (.wait o task (.locked sec)) (.wait o task (.lockLoop sec))
  | .lockLoop sec => s.lockLoop t o (.wait o task (.locked sec))
  | .locked .try =>
    let x := s.objects o
    if W.ready x then
      some ((s.setObject o (W.take t x)).setActivity t (.wait o task (.unlock .leave)))
    else
      some ((s.setObject o (W.setWaiters (t :: W.waiters x) x)).setActivity t
        (.wait o task (.unlock .check)))
  | .locked (.remove cancelled) =>
    let x := s.objects o
    some ((s.setObject o (W.setWaiters ((W.waiters x).filter (· ≠ t)) x)).setActivity t
      (.wait o task (.unlock (if cancelled then .leave else .loop))))
  | .unlock .leave => s.unlock t o .outside
  | .unlock .check => s.unlock t o (.wait o task .check)
  | .unlock .loop => s.unlock t o (.wait o task (.lock .try))
  | .check =>
    if task ∧ s.cancelled t then some (s.setActivity t (.wait o task (.lock (.remove true))))
    else some (s.setActivity t (.wait o task .suspend))
  | .suspend =>
    if (s.threads t).pending then some (s.drain t (.wait o task (.lock (.remove false))))
    else some (s.setActivity t (.wait o task .suspended))
  | .suspended =>
    if (s.threads t).pending then some (s.drain t (.wait o task (.lock (.remove false))))
    else none
  | .handling => some (s.drain t (.wait o task (.lock (.remove false))))

def changeStep (s : World σ κ) (t : ThreadId) (o : ObjectId) (k : κ) (held : List ThreadId) :
    ChangePoint → Option (World σ κ)
  | .lock => s.lock t o (.change o k held .locked) (.change o k held .lockLoop)
  | .lockLoop => s.lockLoop t o (.change o k held .locked)
  | .locked =>
    let r := W.change k (s.objects o)
    some ((s.setActivity t (.change o k held (.unlock (r.2.getD [])))).setObject o r.1)
  | .unlock taken => s.unlock t o (.waking (taken ++ held))

/-- The next step of a thread in `cancel-task!`, up to `%wake-task!`. -/
def cancelStep (s : World σ κ) (t : ThreadId) (o : ObjectId) (target : ThreadId) :
    CancelPoint → Option (World σ κ)
  | .lock => s.lock t o (.cancel o target .locked) (.cancel o target .lockLoop)
  | .lockLoop => s.lockLoop t o (.cancel o target .locked)
  | .locked =>
    if s.cancelled target then some (s.setActivity t (.cancel o target (.unlock false)))
    else
      some { s.setActivity t (.cancel o target (.unlock true)) with
        cancelled := update s.cancelled target true }
  | .unlock work => s.unlock t o (if work then .cancel o target .wake else .outside)
  | .wake => some ((s.signal target).setActivity t .outside)

def advance (s : World σ κ) (t : ThreadId) : Option (World σ κ) :=
  match (s.threads t).activity with
  | .outside => none
  | .wait o task point => s.waitStep W t o task point
  | .change o k held point => s.changeStep W t o k held point
  | .waking [] => some (s.setActivity t .outside)
  | .waking (u :: rest) => some ((s.signal u).setActivity t (.waking rest))
  | .cancel o target point => s.cancelStep t o target point

/-- The thread leaves an activity, and `dynamic-wind` unlocks its mutex. -/
def abandon (s : World σ κ) (t : ThreadId) (a : Activity κ) : World σ κ :=
  match a.holds with
  | some o => if (s.mutexes o).owner = some t then s.handOff o else s
  | none => s

/-- A non-local exit: from the thunk of an event, or by the error of
`lock-thread-mutex`. -/
def escape (s : World σ κ) (t : ThreadId) : Option (World σ κ) :=
  match (s.threads t).activity, (s.threads t).frames with
  | .outside, [] => none
  | .outside, a :: frames =>
    let s := s.abandon t a
    some (s.setThread t ⟨.outside, frames, (s.threads t).pending⟩)
  | a, _ =>
    match a.locks with
    | some o =>
      if (s.mutexes o).owner = some t then some ((s.abandon t a).setActivity t .outside) else none
    | none => none

def step (s : World σ κ) : Action κ → Option (World σ κ)
  | .wait t o task =>
    match (s.threads t).activity with
    | .outside => some (s.setActivity t (.wait o task (.lock .try)))
    | _ => none
  | .change t o k =>
    match (s.threads t).activity with
    | .outside => some (s.setActivity t (.change o k [] .lock))
    | .waking held => some (s.setActivity t (.change o k held .lock))
    | _ => none
  | .cancel t o target =>
    match (s.threads t).activity with
    | .outside => some (s.setActivity t (.cancel o target .lock))
    | _ => none
  | .advance t => s.advance W t
  | .event t => some (s.signal t)
  | .handle t =>
    if (s.threads t).activity.MayHandle then some (s.drain t (s.threads t).activity) else none
  | .interrupt t more =>
    if (s.threads t).pending then
      match (s.threads t).activity.interrupted with
      | some a => some (s.setThread t ⟨.outside, a :: (s.threads t).frames, more⟩)
      | none => none
    else none
  | .resume t =>
    match (s.threads t).activity, (s.threads t).frames with
    | .outside, a :: frames => some (s.setThread t ⟨a, frames, (s.threads t).pending⟩)
    | _, _ => none
  | .escape t => s.escape t

def initial (objects : ObjectId → σ) : World σ κ where
  objects := objects
  mutexes := fun _ => ⟨none, []⟩
  threads := fun _ => ⟨.outside, [], false⟩
  cancelled := fun _ => false

/-! ### The kernel

The mutexes are those of the thread kernel. -/

/-- The call of the kernel that a step makes. A non-local exit unlocks what the
interrupted section holds. -/
def kernelCall (s : World σ κ) (k : Kernel) : Action κ → Kernel
  | .advance t =>
    match (s.threads t).activity with
    | .wait o _ (.lock _) | .change o _ _ .lock | .cancel o _ .lock => k.lockThreadMutex t o
    | .wait o _ (.unlock _) | .change o _ _ (.unlock _) | .cancel o _ (.unlock _) =>
      k.unlockThreadMutex t o
    | _ => k
  | .escape t =>
    match (s.threads t).activity, (s.threads t).frames with
    | .outside, a :: _ => a.holds.elim k (k.unlockThreadMutex t)
    | _, _ => k
  | _ => k

section Kernel

variable {s s' : World σ κ} {t : ThreadId} {o : ObjectId} {k : Kernel}

theorem abandon_locks {a} (hl : a.locks = some o) : (s.abandon t a).mutexes = s.mutexes := by
  have hh : a.holds = none := by
    unfold Activity.locks at hl
    split at hl <;> first | rfl | cases hl
  rw [abandon, hh]

variable (hk : k.mutexes = s.mutexes)
include hk

theorem lock_kernel {locked wait} (h : s.lock t o locked wait = some s') :
    (k.lockThreadMutex t o).mutexes = s'.mutexes := by
  unfold lock at h
  split at h
  case h_1 free =>
    cases h
    rw [Kernel.lockThreadMutex_mutexes (by simp [hk, free]), hk, if_pos free]
    rfl
  case h_2 owner owned =>
    split at h
    · cases h
    case isFalse other =>
      cases h
      rw [Kernel.lockThreadMutex_mutexes (by simp [hk, owned, other]), hk,
        if_neg (by simp [owned])]
      rfl

theorem handOff_kernel (owner : (s.mutexes o).owner = some t) :
    (k.unlockThreadMutex t o).mutexes = (s.handOff o).mutexes := by
  rw [Kernel.unlockThreadMutex_mutexes (hk ▸ owner), hk, handOff]
  split <;> rfl

theorem unlock_kernel {next} (h : s.unlock t o next = some s') :
    (k.unlockThreadMutex t o).mutexes = s'.mutexes := by
  unfold unlock at h
  split at h
  case isTrue owner =>
    cases h
    exact handOff_kernel hk owner
  case isFalse => cases h

theorem abandon_kernel (a) :
    (a.holds.elim k (k.unlockThreadMutex t)).mutexes = (s.abandon t a).mutexes := by
  unfold abandon
  cases a.holds with
  | none => exact hk
  | some o =>
    dsimp only [Option.elim]
    split
    case isTrue owner => exact handOff_kernel hk owner
    case isFalse owner =>
      rw [Kernel.unlockThreadMutex, if_neg (hk ▸ owner)]
      exact hk

theorem advance_kernel (h : s.advance W t = some s') :
    (s.kernelCall k (.advance t)).mutexes = s'.mutexes := by
  simp only [kernelCall]
  unfold advance at h
  cases hact : (s.threads t).activity with rw [hact] at h
  | outside =>
    cases h
  | wait o task p =>
    cases p with
    | lock sec => exact lock_kernel hk h
    | unlock after => cases after <;> exact unlock_kernel hk h
    | locked sec =>
      cases sec with
      | «try» =>
        simp only [waitStep] at h
        split at h <;> cases h <;> exact hk
      | remove cancelled => cases h; exact hk
    | handling => cases h; exact hk
    | lockLoop | check | suspend | suspended =>
      simp only [waitStep, lockLoop] at h
      split at h <;> cases h <;> exact hk
  | change o c held p =>
    cases p with
    | lock => exact lock_kernel hk h
    | unlock taken => exact unlock_kernel hk h
    | locked => cases h; exact hk
    | lockLoop =>
      simp only [changeStep, lockLoop] at h
      split at h <;> cases h
      exact hk
  | waking l =>
    cases l <;> cases h <;> exact hk
  | cancel o target p =>
    cases p with
    | lock => exact lock_kernel hk h
    | unlock work => exact unlock_kernel hk h
    | wake => cases h; exact hk
    | locked | lockLoop =>
      simp only [cancelStep, lockLoop] at h
      split at h <;> cases h <;> exact hk

theorem escape_kernel (h : s.escape t = some s') :
    (s.kernelCall k (.escape t)).mutexes = s'.mutexes := by
  simp only [kernelCall]
  unfold escape at h
  split at h
  · cases h
  case _ a frames hact hframes =>
    cases h
    rw [hact, hframes]
    exact abandon_kernel hk a
  case _ hnil hcons =>
    split
    case _ a frames hact hframes => exact absurd hframes (hcons a frames hact)
    -- the error of `lock-thread-mutex`: the section holds nothing yet
    split at h
    case _ o hl =>
      split at h
      · cases h
        exact hk.trans (abandon_locks hl).symm
      · cases h
    · cases h

theorem step_kernel {a} (h : s.step W a = some s') : (s.kernelCall k a).mutexes = s'.mutexes := by
  cases a with
  | advance t => exact advance_kernel W hk h
  | escape t => exact escape_kernel hk h
  | event t => cases h; exact hk
  | _ =>
    simp only [step] at h
    repeat' split at h
    all_goals cases h <;> exact hk

end Kernel

/-- **The mutexes that `%wait`, the sections and `cancel-task!` lock are those of the thread
kernel**: in every run, the kernel that performs the calls of the run has their owners and
rings. -/
theorem wait_mutexes_refine_kernel (objects : ObjectId → σ) (actions : List (Action κ))
    {s : World σ κ} (k : Kernel) (hk : k.mutexes = fun _ => ⟨none, []⟩)
    (hr : run (step W) (initial objects) actions = some s) :
    (follow (step W) kernelCall (initial objects) k actions).mutexes = s.mutexes :=
  follow_related (R := fun s k => Kernel.mutexes k = s.mutexes)
    (fun hk hs => step_kernel W hk hs) hk hr

/-- Thread 0 waits for the mutex that thread 1 holds while it registers. -/
theorem wait_mutexes_refine_kernel_registering :
    ∃ s, run (step taskWaitable) (initial fun _ => ⟨.running, []⟩)
        [.wait 1 0 true, .advance 1, .change 0 0 (.finish false), .advance 0, .advance 1,
          .advance 1] = some s ∧
      (s.mutexes 0).owner = some 0 ∧
      (follow (step taskWaitable) kernelCall (initial fun _ => ⟨.running, []⟩) Kernel.initial
        [.wait 1 0 true, .advance 1, .change 0 0 (.finish false), .advance 0, .advance 1,
          .advance 1]).mutexes = s.mutexes :=
  ⟨_, rfl, rfl, wait_mutexes_refine_kernel _ _ _ _ rfl rfl⟩

end World

/-! ## What is going on -/

def WaitPoint.Registered : WaitPoint → Bool
  | .lock .try => false
  | .lockLoop .try => false
  | .unlock .leave => false
  | .unlock .loop => false
  | _ => true

def WaitPoint.Committed : WaitPoint → Bool
  | .unlock .check => true
  | .check => true
  | .suspend => true
  | .suspended => true
  | _ => false

/-- The thread is past the test of `%task-cancelled?`. -/
def WaitPoint.Suspending : WaitPoint → Bool
  | .suspend => true
  | .suspended => true
  | _ => false

namespace Activity

variable {κ : Type}

def taken : Activity κ → List ThreadId
  | .change _ _ held (.unlock l) => l ++ held
  | .change _ _ held _ => held
  | .waking l => l
  | _ => []

/-- `cancel-task!` has set the flag of the thread's task and not yet signalled
the thread. -/
def Cancels (t : ThreadId) : Activity κ → Prop
  | .cancel _ u (.unlock true) => u = t
  | .cancel _ u .wake => u = t
  | _ => False

/-- The section has taken threads or set a flag, and not yet signalled. -/
def owes : Activity κ → Bool
  | .cancel _ _ (.unlock work) => work
  | .cancel _ _ .wake => true
  | a => !a.taken.isEmpty

theorem of_not_owes {a : Activity κ} (h : a.owes = false) :
    a.taken = [] ∧ ∀ t, ¬ a.Cancels t := by
  cases a with
  | cancel o u p =>
    refine ⟨rfl, fun t hc => ?_⟩
    cases p with
    | unlock work =>
      obtain rfl : work = false := h
      cases hc
    | wake => cases h
    | _ => cases hc
  | _ => exact ⟨by simpa [owes] using h, nofun⟩

def Registered (o : ObjectId) : Activity κ → Prop
  | .wait o' _ p => o' = o ∧ p.Registered = true
  | _ => False

def Committed (o : ObjectId) : Activity κ → Prop
  | .wait o' _ p => o' = o ∧ p.Committed = true
  | _ => False

def Heedless : Activity κ → Prop
  | .wait _ task p => task = true ∧ p.Suspending = true
  | _ => False

theorem not_heedless {a : Activity κ} (h : ∀ o, ¬ a.Committed o) : ¬ a.Heedless := by
  intro hh
  cases a with
  | wait o task p =>
    refine h o ⟨rfl, ?_⟩
    have hp : p.Suspending = true := hh.2
    cases p <;> first | rfl | cases hp
  | _ => cases hh

/-- What a step of a thread that neither looks at an object nor suspends
respects. -/
structure Follows (a a' : Activity κ) : Prop where
  taken : ∀ t ∈ a.taken, t ∈ a'.taken
  cancels : ∀ t, a.Cancels t → a'.Cancels t
  registered : ∀ o, a.Registered o → a'.Registered o
  committed : ∀ o, a'.Committed o → a.Committed o
  heedless : a'.Heedless → a.Heedless

theorem Follows.wait {o task p p'} (hr : p.Registered = true → p'.Registered = true)
    (hc : p'.Committed = true → p.Committed = true)
    (hs : p'.Suspending = true → p.Suspending = true) :
    (Activity.wait o task p : Activity κ).Follows (.wait o task p') :=
  ⟨nofun, nofun, fun _ h => ⟨h.1, hr h.2⟩, fun _ h => ⟨h.1, hc h.2⟩, fun h => ⟨h.1, hs h.2⟩⟩

end Activity

def Thread.stack {κ : Type} (x : Thread κ) : List (Activity κ) := x.activity :: x.frames

namespace World

variable {σ κ : Type}

def Doing (s : World σ κ) (a : Activity κ) : Prop := ∃ t, a ∈ (s.threads t).stack

/-- Some thread is in a section that has taken the thread from a waiters list and
not yet signalled it. -/
def Taken (s : World σ κ) (t : ThreadId) : Prop := ∃ a, s.Doing a ∧ t ∈ a.taken

/-- The canceller of the thread's task has set the flag and not yet signalled the
thread. -/
def Cancelling (s : World σ κ) (t : ThreadId) : Prop := ∃ a, s.Doing a ∧ a.Cancels t

/-- What a non-local exit leaves. -/
def exited (s : World σ κ) (t : ThreadId) : Activity κ :=
  match (s.threads t).activity, (s.threads t).frames with
  | .outside, a :: _ => a
  | a, _ => a

/-- A non-local exit leaves no section that has still to signal. -/
def LeavesPaid (s : World σ κ) : Action κ → Prop
  | .escape t => (s.exited t).owes = false
  | _ => True

/-- No wake-up is lost. The threads of `E` may leave `%wait` by a non-local exit. -/
structure Inv (W : Waitable σ κ) (E : Set ThreadId) (s : World σ κ) : Prop where
  registered : ∀ t ∉ E, ∀ o, t ∈ W.waiters (s.objects o) →
    ∃ a ∈ (s.threads t).stack, a.Registered o
  unready : ∀ o, W.ready (s.objects o) = true → W.waiters (s.objects o) = []
  awake : ∀ t o, (s.threads t).activity.Committed o →
    t ∈ W.waiters (s.objects o) ∨ (s.threads t).pending = true ∨ s.Taken t
  heeded : ∀ t, (s.threads t).activity.Heedless → s.cancelled t = true →
    (s.threads t).pending = true ∨ s.Cancelling t
  frames : ∀ t, ∀ a ∈ (s.threads t).frames, ∀ o, ¬ a.Committed o

variable {W : Waitable σ κ} {E : Set ThreadId} {s s' : World σ κ} {t : ThreadId} {o : ObjectId}
  {task : Bool} {a : Activity κ}

theorem initial_inv (objects) (h : ∀ o, W.waiters (objects o) = []) :
    (initial objects : World σ κ).Inv W E where
  registered t _ o ht := by
    rw [show W.waiters ((initial objects : World σ κ).objects o) = [] from h o] at ht
    cases ht
  unready o _ := h o
  awake _ _ hc := hc.elim
  heeded _ hh := hh.elim
  frames _ _ ha := nomatch ha

/-! ### Updates -/

theorem doing_setThread {x} {f : Activity κ → Prop}
    (hkeep : ∀ a ∈ (s.threads t).stack, f a → ∃ a' ∈ x.stack, f a') (h : ∃ a, s.Doing a ∧ f a) :
    ∃ a, (s.setThread t x).Doing a ∧ f a := by
  obtain ⟨a, ⟨u, hu⟩, hf⟩ := h
  by_cases hut : u = t
  · subst hut
    obtain ⟨a', ha', hf'⟩ := hkeep a hu hf
    refine ⟨a', ⟨u, ?_⟩, hf'⟩
    rwa [show (s.setThread u x).threads u = x from update_self ..]
  · refine ⟨a, ⟨u, ?_⟩, hf⟩
    rwa [show (s.setThread t x).threads u = s.threads u from update_of_ne hut ..]

section
variable (hi : s.Inv W E)
include hi

theorem Inv.setThread (t x)
    (hreg : t ∉ E → ∀ o, t ∈ W.waiters (s.objects o) → ∃ a ∈ x.stack, a.Registered o)
    (hawake : ∀ o, x.activity.Committed o →
      t ∈ W.waiters (s.objects o) ∨ x.pending = true ∨ s.Taken t)
    (hheed : x.activity.Heedless → s.cancelled t = true → x.pending = true ∨ s.Cancelling t)
    (htaken : ∀ u, s.Taken u →
      ((s.setThread t x).threads u).pending = true ∨ (s.setThread t x).Taken u)
    (hcancel : ∀ u, s.Cancelling u →
      ((s.setThread t x).threads u).pending = true ∨ (s.setThread t x).Cancelling u)
    (hframes : ∀ a ∈ x.frames, ∀ o, ¬ a.Committed o) : (s.setThread t x).Inv W E := by
  have hself : (s.setThread t x).threads t = x := update_self ..
  have hother : ∀ u ≠ t, (s.setThread t x).threads u = s.threads u :=
    fun u hu => update_of_ne hu ..
  refine ⟨?_, hi.unready, ?_, ?_, ?_⟩
  · intro u hu o ho
    by_cases hut : u = t
    · subst hut
      rw [hself]
      exact hreg hu o ho
    · rw [hother u hut]
      exact hi.registered u hu o ho
  · intro u o hc
    have hcases : u ∈ W.waiters (s.objects o) ∨
        ((s.setThread t x).threads u).pending = true ∨ s.Taken u := by
      by_cases hut : u = t
      · subst hut
        rw [hself] at hc ⊢
        exact hawake o hc
      · rw [hother u hut] at hc ⊢
        exact hi.awake u o hc
    rcases hcases with hw | hp | htk
    · exact .inl hw
    · exact .inr (.inl hp)
    · exact .inr (htaken u htk)
  · intro u hh hcn
    have hcases : ((s.setThread t x).threads u).pending = true ∨ s.Cancelling u := by
      by_cases hut : u = t
      · subst hut
        rw [hself] at hh ⊢
        exact hheed hh hcn
      · rw [hother u hut] at hh ⊢
        exact hi.heeded u hh hcn
    rcases hcases with hp | hcl
    · exact .inl hp
    · exact hcancel u hcl
  · intro u
    by_cases hut : u = t
    · subst hut
      rw [hself]
      exact hframes
    · rw [hother u hut]
      exact hi.frames u

theorem Inv.setThread_keep (t x)
    (hreg : t ∉ E → ∀ o, t ∈ W.waiters (s.objects o) → ∃ a ∈ x.stack, a.Registered o)
    (hawake : ∀ o, x.activity.Committed o →
      t ∈ W.waiters (s.objects o) ∨ x.pending = true ∨ s.Taken t)
    (hheed : x.activity.Heedless → s.cancelled t = true → x.pending = true ∨ s.Cancelling t)
    (hkeep : ∀ a ∈ (s.threads t).stack, ∃ a' ∈ x.stack,
      (∀ u ∈ a.taken, u ∈ a'.taken) ∧ ∀ u, a.Cancels u → a'.Cancels u)
    (hframes : ∀ a ∈ x.frames, ∀ o, ¬ a.Committed o) : (s.setThread t x).Inv W E := by
  refine hi.setThread t x hreg hawake hheed ?_ ?_ hframes
  · intro u hu
    refine .inr (doing_setThread ?_ hu)
    intro a ha hf
    obtain ⟨a', ha', htk, -⟩ := hkeep a ha
    exact ⟨a', ha', htk u hf⟩
  · intro u hu
    refine .inr (doing_setThread ?_ hu)
    intro a ha hf
    obtain ⟨a', ha', -, hcn⟩ := hkeep a ha
    exact ⟨a', ha', hcn u hf⟩

theorem Inv.signal (t) : (s.signal t).Inv W E := by
  refine hi.setThread_keep t _ (fun ht o ho => hi.registered t ht o ho)
    (fun _ _ => .inr (.inl rfl)) (fun _ _ => .inl rfl) ?_ (hi.frames t)
  intro a ha
  exact ⟨a, ha, fun _ => id, fun _ => id⟩

theorem Inv.setMutex (o m) : (s.setMutex o m).Inv W E :=
  ⟨hi.registered, hi.unready, hi.awake, hi.heeded, hi.frames⟩

theorem Inv.handOff (o) : (s.handOff o).Inv W E := by
  unfold World.handOff
  split
  · exact hi.setMutex o _
  · exact (hi.setMutex o _).signal _

theorem Inv.setHead {pending}
    (hreg : ∀ o, t ∈ W.waiters (s.objects o) → (s.threads t).activity.Registered o → a.Registered o)
    (hawake : ∀ o, a.Committed o → t ∈ W.waiters (s.objects o) ∨ pending = true ∨ s.Taken t)
    (hheed : a.Heedless → s.cancelled t = true → pending = true ∨ s.Cancelling t)
    (htaken : ∀ u ∈ (s.threads t).activity.taken, u ∈ a.taken)
    (hcancels : ∀ u, (s.threads t).activity.Cancels u → a.Cancels u) :
    (s.setThread t ⟨a, (s.threads t).frames, pending⟩).Inv W E := by
  refine hi.setThread_keep t _ ?_ hawake hheed ?_ (hi.frames t)
  · intro ht o ho
    obtain ⟨b, hb, hr⟩ := hi.registered t ht o ho
    rcases List.mem_cons.mp hb with rfl | hb
    · exact ⟨a, mem_cons_self, hreg o ho hr⟩
    · exact ⟨b, mem_cons_of_mem _ hb, hr⟩
  · intro b hb
    rcases List.mem_cons.mp hb with rfl | hb
    · exact ⟨a, mem_cons_self, htaken, hcancels⟩
    · exact ⟨b, mem_cons_of_mem _ hb, fun _ => id, fun _ => id⟩

theorem Inv.setActivity (hf : (s.threads t).activity.Follows a) : (s.setActivity t a).Inv W E :=
  hi.setHead (fun o _ => hf.registered o) (fun o hc => hi.awake t o (hf.committed o hc))
    (fun hh => hi.heeded t (hf.heedless hh)) hf.taken hf.cancels

theorem Inv.drain (hf : (s.threads t).activity.Follows a) (hc : ∀ o, ¬ a.Committed o) :
    (s.drain t a).Inv W E :=
  hi.setHead (fun o _ => hf.registered o) (fun o hco => absurd hco (hc o))
    (fun hh => absurd hh (Activity.not_heedless hc)) hf.taken hf.cancels

theorem Inv.setObject (o x)
    (hreg : ∀ t ∉ E, t ∈ W.waiters x → ∃ a ∈ (s.threads t).stack, a.Registered o)
    (hready : W.ready x = true → W.waiters x = [])
    (hawake : ∀ t, (s.threads t).activity.Committed o → t ∈ W.waiters (s.objects o) →
      t ∈ W.waiters x ∨ s.Taken t) : (s.setObject o x).Inv W E := by
  have hself : (s.setObject o x).objects o = x := update_self ..
  have hother : ∀ o' ≠ o, (s.setObject o x).objects o' = s.objects o' :=
    fun o' ho' => update_of_ne ho' ..
  refine ⟨?_, ?_, ?_, hi.heeded, hi.frames⟩
  · intro t ht o' hm
    by_cases ho' : o' = o
    · subst ho'
      rw [hself] at hm
      exact hreg t ht hm
    · rw [hother o' ho'] at hm
      exact hi.registered t ht o' hm
  · intro o' hr
    by_cases ho' : o' = o
    · subst ho'
      rw [hself] at hr ⊢
      exact hready hr
    · rw [hother o' ho'] at hr ⊢
      exact hi.unready o' hr
  · intro t o' hc
    have hcases := hi.awake t o' hc
    by_cases ho' : o' = o
    · subst ho'
      rw [hself]
      rcases hcases with hw | hp | htk
      · rcases hawake t hc hw with hw' | htk
        · exact .inl hw'
        · exact .inr (.inr htk)
      · exact .inr (.inl hp)
      · exact .inr (.inr htk)
    · rw [hother o' ho']
      exact hcases

theorem Inv.release (hreg : ∀ o, ¬ (s.threads t).activity.Registered o)
    (hc : ∀ o, ¬ a.Committed o)
    (htaken : ∀ u ∈ (s.threads t).activity.taken, (s.threads u).pending = true ∨ u ∈ a.taken)
    (hcancel : ∀ u, (s.threads t).activity.Cancels u →
      (s.threads u).pending = true ∨ a.Cancels u) : (s.setActivity t a).Inv W E := by
  have hpending : ∀ u, ((s.setActivity t a).threads u).pending = (s.threads u).pending := by
    intro u
    by_cases hut : u = t
    · subst hut
      simp [World.setActivity, World.setThread]
    · simp [World.setActivity, World.setThread, hut]
  -- what holds of the activity holds of the new one, or its object has an event
  have hkeep : ∀ {f : Activity κ → Prop} {u : ThreadId},
      (f (s.threads t).activity → (s.threads u).pending = true ∨ f a) →
      (∃ b, s.Doing b ∧ f b) →
      ((s.setActivity t a).threads u).pending = true ∨
        ∃ b, (s.setActivity t a).Doing b ∧ f b := by
    intro f u hf h
    rw [hpending u]
    by_cases hp : (s.threads u).pending = true
    · exact .inl hp
    refine .inr (doing_setThread ?_ h)
    intro b hb hfb
    rcases List.mem_cons.mp hb with rfl | hb
    · exact ⟨a, mem_cons_self, (hf hfb).resolve_left hp⟩
    · exact ⟨b, mem_cons_of_mem _ hb, hfb⟩
  refine hi.setThread t _ ?_ (fun o hco => absurd hco (hc o))
    (fun hh => absurd hh (Activity.not_heedless hc)) (fun u => hkeep (htaken u))
    (fun u => hkeep (hcancel u)) (hi.frames t)
  intro ht o ho
  obtain ⟨b, hb, hr⟩ := hi.registered t ht o ho
  rcases List.mem_cons.mp hb with rfl | hb
  · exact absurd hr (hreg o)
  · exact ⟨b, mem_cons_of_mem _ hb, hr⟩

theorem Inv.deregister {p} (ha : (s.threads t).activity = .wait o task p)
    (ho : t ∉ W.waiters (s.objects o)) (hc : ∀ o, ¬ a.Committed o) :
    (s.setActivity t a).Inv W E := by
  refine hi.setHead ?_ (fun o hco => absurd hco (hc o))
    (fun hh => absurd hh (Activity.not_heedless hc)) ?_ ?_
  · intro o' ho' hr
    rw [ha] at hr
    rw [hr.1] at ho
    exact absurd ho' ho
  · rw [ha]
    nofun
  · rw [ha]
    nofun

end

/-! ### Mutexes -/

@[simp] theorem signal_activity (u t) :
    ((s.signal u).threads t).activity = (s.threads t).activity := by
  by_cases h : t = u
  · subst h
    simp [World.signal, World.setThread]
  · simp [World.signal, World.setThread, h]

@[simp] theorem signal_frames (u t) : ((s.signal u).threads t).frames = (s.threads t).frames := by
  by_cases h : t = u
  · subst h
    simp [World.signal, World.setThread]
  · simp [World.signal, World.setThread, h]

@[simp] theorem handOff_activity (o t) :
    ((s.handOff o).threads t).activity = (s.threads t).activity := by
  unfold World.handOff
  split
  · rfl
  · exact signal_activity ..

@[simp] theorem handOff_frames (o t) : ((s.handOff o).threads t).frames = (s.threads t).frames := by
  unfold World.handOff
  split
  · rfl
  · exact signal_frames ..

section
variable (hi : s.Inv W E)
include hi

theorem Inv.lock {locked wait} (hl : (s.threads t).activity.Follows locked)
    (hw : (s.threads t).activity.Follows wait) (h : s.lock t o locked wait = some s') :
    s'.Inv W E := by
  unfold World.lock at h
  split at h
  · cases h
    exact (hi.setMutex o _).setActivity hl
  · split at h
    · cases h
    · cases h
      exact (hi.setMutex o _).setActivity hw

theorem Inv.lockLoop {locked} (hl : (s.threads t).activity.Follows locked)
    (h : s.lockLoop t o locked = some s') : s'.Inv W E := by
  unfold World.lockLoop at h
  split at h
  · cases h
    exact hi.setActivity hl
  · cases h

theorem Inv.unlock {next} (hn : (s.threads t).activity.Follows next)
    (h : s.unlock t o next = some s') : s'.Inv W E := by
  unfold World.unlock at h
  split at h
  · cases h
    refine (hi.handOff o).setActivity ?_
    rw [handOff_activity]
    exact hn
  · cases h

/-! ### Steps -/

theorem Inv.take (ha : (s.threads t).activity = .wait o task (.locked .try))
    (hready : W.ready (s.objects o) = true) :
    ((s.setObject o (W.take t (s.objects o))).setActivity t
      (.wait o task (.unlock .leave))).Inv W E := by
  have hnil : W.waiters (W.take t (s.objects o)) = [] :=
    (W.waiters_take t _ hready).trans (hi.unready o hready)
  have hobject : (s.setObject o (W.take t (s.objects o))).Inv W E := by
    refine hi.setObject o _ ?_ (fun _ => hnil) ?_
    · intro u _ hu
      rw [hnil] at hu
      cases hu
    · intro u _ hu
      rw [hi.unready o hready] at hu
      cases hu
  refine hobject.deregister ha ?_ nofun
  rw [show (s.setObject o _).objects o = _ from update_self .., hnil]
  exact List.not_mem_nil

theorem Inv.register (ha : (s.threads t).activity = .wait o task (.locked .try))
    (hready : ¬ W.ready (s.objects o) = true) :
    ((s.setObject o (W.setWaiters (t :: W.waiters (s.objects o)) (s.objects o))).setActivity t
      (.wait o task (.unlock .check))).Inv W E := by
  have hwaiters := W.waiters_setWaiters (t :: W.waiters (s.objects o)) (s.objects o)
  have hobject : (s.setObject o (W.setWaiters (t :: W.waiters (s.objects o))
      (s.objects o))).Inv W E := by
    refine hi.setObject o _ ?_ ?_ ?_
    · intro u hu hm
      rw [hwaiters] at hm
      rcases List.mem_cons.mp hm with rfl | hm
      · refine ⟨_, mem_cons_self, ?_⟩
        rw [ha]
        exact ⟨rfl, rfl⟩
      · exact hi.registered u hu o hm
    · intro hr
      rw [W.ready_setWaiters] at hr
      exact absurd hr hready
    · intro u _ hu
      rw [hwaiters]
      exact .inl (mem_cons_of_mem _ hu)
  have hact : ((s.setObject o (W.setWaiters (t :: W.waiters (s.objects o))
      (s.objects o))).threads t).activity = .wait o task (.locked .try) := ha
  refine hobject.setHead ?_ ?_ nofun ?_ ?_
  · intro o' _ hr
    rw [hact] at hr
    exact ⟨hr.1, rfl⟩
  · intro o' hc
    obtain rfl : o = o' := hc.1
    rw [show (s.setObject o _).objects o = _ from update_self .., hwaiters]
    exact .inl mem_cons_self
  · rw [hact]
    nofun
  · rw [hact]
    nofun

theorem Inv.tryStep (ha : (s.threads t).activity = .wait o task (.locked .try))
    (h : s.waitStep W t o task (.locked .try) = some s') : s'.Inv W E := by
  simp only [World.waitStep] at h
  split at h
  case isTrue hready =>
    cases h
    exact hi.take ha hready
  case isFalse hready =>
    cases h
    exact hi.register ha hready

theorem Inv.removeStep {task cancelled}
    (ha : (s.threads t).activity = .wait o task (.locked (.remove cancelled)))
    (h : s.waitStep W t o task (.locked (.remove cancelled)) = some s') : s'.Inv W E := by
  cases h
  have hwaiters := W.waiters_setWaiters ((W.waiters (s.objects o)).filter (· ≠ t)) (s.objects o)
  have hobject : (s.setObject o (W.setWaiters ((W.waiters (s.objects o)).filter (· ≠ t))
      (s.objects o))).Inv W E := by
    refine hi.setObject o _ ?_ ?_ ?_
    · intro u hu hm
      rw [hwaiters] at hm
      exact hi.registered u hu o (List.mem_of_mem_filter hm)
    · intro hr
      rw [W.ready_setWaiters] at hr
      rw [hwaiters, hi.unready o hr]
      rfl
    · intro u hc hu
      have hut : u ≠ t := by
        rintro rfl
        rw [ha] at hc
        exact absurd hc.2 nofun
      rw [hwaiters]
      exact .inl (List.mem_filter.mpr ⟨hu, decide_eq_true hut⟩)
  refine hobject.deregister ha ?_ ?_
  · rw [show (s.setObject o _).objects o = _ from update_self .., hwaiters]
    intro hm
    exact of_decide_eq_true (List.mem_filter.mp hm).2 rfl
  · intro o' hc
    cases cancelled
    · exact absurd hc.2 nofun
    · exact absurd hc.2 nofun

theorem Inv.checkStep (ha : (s.threads t).activity = .wait o task .check)
    (h : s.waitStep W t o task .check = some s') : s'.Inv W E := by
  simp only [World.waitStep] at h
  split at h
  case isTrue =>
    cases h
    refine hi.setActivity ?_
    rw [ha]
    exact .wait (fun _ => rfl) nofun nofun
  case isFalse hcancelled =>
    cases h
    refine hi.setHead ?_ ?_ ?_ ?_ ?_
    · intro o' _ hr
      rw [ha] at hr
      exact ⟨hr.1, rfl⟩
    · intro o' hc
      refine hi.awake t o' ?_
      rw [ha]
      exact ⟨hc.1, rfl⟩
    · intro hh hcn
      exact absurd ⟨hh.1, hcn⟩ hcancelled
    · rw [ha]
      nofun
    · rw [ha]
      nofun

theorem Inv.waitStep {p} (ha : (s.threads t).activity = .wait o task p)
    (h : s.waitStep W t o task p = some s') : s'.Inv W E := by
  cases p with
  | lock sec =>
    refine hi.lock ?_ ?_ h
    · rw [ha]
      exact .wait (fun _ => rfl) nofun nofun
    · rw [ha]
      exact .wait (by cases sec <;> exact id) nofun nofun
  | lockLoop sec =>
    refine hi.lockLoop ?_ h
    rw [ha]
    exact .wait (fun _ => rfl) nofun nofun
  | locked sec =>
    cases sec with
    | «try» => exact hi.tryStep ha h
    | remove cancelled => exact hi.removeStep ha h
  | unlock after =>
    cases after with
    | leave =>
      refine hi.unlock ?_ h
      rw [ha]
      exact ⟨nofun, nofun, fun _ hr => absurd hr.2 nofun, nofun, nofun⟩
    | check =>
      refine hi.unlock ?_ h
      rw [ha]
      exact .wait (fun _ => rfl) (fun _ => rfl) nofun
    | loop =>
      refine hi.unlock ?_ h
      rw [ha]
      exact .wait nofun nofun nofun
  | check => exact hi.checkStep ha h
  | suspend =>
    simp only [World.waitStep] at h
    split at h
    · cases h
      refine hi.drain ?_ nofun
      rw [ha]
      exact .wait (fun _ => rfl) nofun nofun
    · cases h
      refine hi.setActivity ?_
      rw [ha]
      exact .wait (fun _ => rfl) (fun _ => rfl) (fun _ => rfl)
  | suspended =>
    simp only [World.waitStep] at h
    split at h
    · cases h
      refine hi.drain ?_ nofun
      rw [ha]
      exact .wait (fun _ => rfl) nofun nofun
    · cases h
  | handling =>
    cases h
    refine hi.drain ?_ nofun
    rw [ha]
    exact .wait (fun _ => rfl) nofun nofun

theorem Inv.changeLocked {k held} (ha : (s.threads t).activity = .change o k held .locked)
    (h : s.changeStep W t o k held .locked = some s') : s'.Inv W E := by
  cases h
  have hactivity : (s.setActivity t (.change o k held
      (.unlock ((W.change k (s.objects o)).2.getD [])))).Inv W E := by
    refine hi.setActivity ?_
    rw [ha]
    exact ⟨fun _ => List.mem_append_right _, nofun, nofun, nofun, nofun⟩
  cases hr : (W.change k (s.objects o)).2 with
  | none =>
    obtain ⟨hwaiters, hready⟩ := W.change_quiet k _ hr
    rw [hr] at hactivity
    refine hactivity.setObject o _ ?_ ?_ ?_
    · rw [hwaiters]
      exact fun u hu => hactivity.registered u hu o
    · intro hx
      rw [hwaiters]
      exact hi.unready o (hready hx)
    · intro u _ hu
      rw [hwaiters]
      exact .inl hu
  | some l =>
    obtain ⟨hl, hwaiters⟩ := W.change_taken k _ l hr
    rw [hr] at hactivity
    refine hactivity.setObject o _ ?_ (fun _ => hwaiters) ?_
    · intro u _ hu
      rw [hwaiters] at hu
      cases hu
    · intro u _ hu
      refine .inr ⟨.change o k held (.unlock l), ⟨t, ?_⟩, ?_⟩
      · rw [show (s.setActivity t _).threads t = _ from update_self ..]
        exact mem_cons_self
      · rw [show (s.setActivity t _).objects = s.objects from rfl, ← hl] at hu
        exact List.mem_append_left _ hu

theorem Inv.changeStep {k held p} (ha : (s.threads t).activity = .change o k held p)
    (h : s.changeStep W t o k held p = some s') : s'.Inv W E := by
  cases p with
  | lock =>
    refine hi.lock ?_ ?_ h
    · rw [ha]
      exact ⟨fun _ => id, nofun, nofun, nofun, nofun⟩
    · rw [ha]
      exact ⟨fun _ => id, nofun, nofun, nofun, nofun⟩
  | lockLoop =>
    refine hi.lockLoop ?_ h
    rw [ha]
    exact ⟨fun _ => id, nofun, nofun, nofun, nofun⟩
  | locked => exact hi.changeLocked ha h
  | unlock taken =>
    refine hi.unlock ?_ h
    rw [ha]
    exact ⟨fun _ => id, nofun, nofun, nofun, nofun⟩

theorem Inv.setCancelled (h : s.Cancelling t) :
    { s with cancelled := update s.cancelled t true }.Inv W E := by
  refine ⟨hi.registered, hi.unready, hi.awake, ?_, hi.frames⟩
  intro u hh hcn
  by_cases hut : u = t
  · subst hut
    exact .inr h
  · exact hi.heeded u hh ((update_of_ne hut ..).symm.trans hcn)

theorem Inv.cancelStep {target p} (ha : (s.threads t).activity = .cancel o target p)
    (h : s.cancelStep t o target p = some s') : s'.Inv W E := by
  cases p with
  | lock =>
    refine hi.lock ?_ ?_ h
    · rw [ha]
      exact ⟨nofun, nofun, nofun, nofun, nofun⟩
    · rw [ha]
      exact ⟨nofun, nofun, nofun, nofun, nofun⟩
  | lockLoop =>
    refine hi.lockLoop ?_ h
    rw [ha]
    exact ⟨nofun, nofun, nofun, nofun, nofun⟩
  | locked =>
    simp only [World.cancelStep] at h
    split at h
    · cases h
      refine hi.setActivity ?_
      rw [ha]
      exact ⟨nofun, nofun, nofun, nofun, nofun⟩
    · cases h
      have hactivity : (s.setActivity t (.cancel o target (.unlock true))).Inv W E := by
        refine hi.setActivity ?_
        rw [ha]
        exact ⟨nofun, nofun, nofun, nofun, nofun⟩
      refine hactivity.setCancelled ⟨.cancel o target (.unlock true), ⟨t, ?_⟩, rfl⟩
      rw [show (s.setActivity t _).threads t = _ from update_self ..]
      exact mem_cons_self
  | unlock work =>
    refine hi.unlock ?_ h
    rw [ha]
    cases work with
    | false => exact ⟨nofun, nofun, nofun, nofun, nofun⟩
    | true => exact ⟨nofun, fun _ => id, nofun, nofun, nofun⟩
  | wake =>
    cases h
    have hact : ((s.signal target).threads t).activity = .cancel o target .wake :=
      (signal_activity target t).trans ha
    refine (hi.signal target).release ?_ nofun ?_ ?_
    · rw [hact]
      nofun
    · rw [hact]
      nofun
    · rw [hact]
      intro u hu
      obtain rfl : target = u := hu
      exact .inl (by simp [World.signal, World.setThread])

theorem Inv.wakeStep {t u rest} (ha : (s.threads t).activity = .waking (u :: rest)) :
    ((s.signal u).setActivity t (.waking rest)).Inv W E := by
  have hact : ((s.signal u).threads t).activity = .waking (u :: rest) :=
    (signal_activity u t).trans ha
  refine (hi.signal u).release ?_ nofun ?_ ?_
  · rw [hact]
    nofun
  · rw [hact]
    intro v hv
    rcases List.mem_cons.mp hv with rfl | hv
    · exact .inl (by simp [World.signal, World.setThread])
    · exact .inr hv
  · rw [hact]
    nofun

theorem Inv.advance (h : s.advance W t = some s') : s'.Inv W E := by
  unfold World.advance at h
  split at h
  case h_1 => cases h
  case h_2 o task point ha => exact hi.waitStep ha h
  case h_3 o k held point ha => exact hi.changeStep ha h
  case h_4 ha =>
    cases h
    refine hi.setActivity ?_
    rw [ha]
    exact ⟨nofun, nofun, nofun, nofun, nofun⟩
  case h_5 u rest ha =>
    cases h
    exact hi.wakeStep ha
  case h_6 o target point ha => exact hi.cancelStep ha h

/-! ### Non-local exits -/

theorem Inv.abandon (t a) : (s.abandon t a).Inv W E := by
  unfold World.abandon
  split
  · split
    · exact hi.handOff _
    · exact hi
  · exact hi

end

theorem abandon_stack (t a u) : ((s.abandon t a).threads u).stack = (s.threads u).stack := by
  unfold World.abandon
  split
  · split
    · simp [Thread.stack]
    · rfl
  · rfl

theorem Inv.leave (hi : s.Inv W E) (ht : t ∈ E) {x : Thread κ} (hpaid : a.owes = false)
    (hout : x.activity = .outside) (hstack : ∀ b ∈ (s.threads t).stack, b ∈ x.stack ∨ b = a)
    (hframes : ∀ b ∈ x.frames, b ∈ (s.threads t).frames) :
    ((s.abandon t a).setThread t x).Inv W E := by
  obtain ⟨htaken, hcancels⟩ := Activity.of_not_owes hpaid
  refine (hi.abandon t a).setThread_keep t x (fun hne => absurd ht hne) ?_ ?_ ?_ ?_
  · rw [hout]
    nofun
  · rw [hout]
    nofun
  · rw [abandon_stack]
    intro b hb
    rcases hstack b hb with hb | rfl
    · exact ⟨b, hb, fun _ => id, fun _ => id⟩
    · refine ⟨x.activity, mem_cons_self, ?_, fun u hu => absurd hu (hcancels u)⟩
      rw [htaken]
      nofun
  · exact fun b hb => hi.frames t b (hframes b hb)

theorem Inv.escape (hi : s.Inv W E) (ht : t ∈ E) (hpaid : (s.exited t).owes = false)
    (h : s.escape t = some s') : s'.Inv W E := by
  unfold World.escape at h
  unfold exited at hpaid
  split at h
  case h_1 => cases h
  case h_2 a frames ha hf =>
    cases h
    rw [ha, hf] at hpaid
    refine hi.leave ht hpaid rfl ?_ ?_
    · intro b hb
      rw [Thread.stack, ha, hf] at hb
      rcases List.mem_cons.mp hb with rfl | hb
      · exact .inl mem_cons_self
      rcases List.mem_cons.mp hb with rfl | hb
      · exact .inr rfl
      · exact .inl (mem_cons_of_mem _ hb)
    · intro b hb
      rw [hf]
      exact mem_cons_of_mem _ hb
  case h_3 hcons =>
    have hpaid : (s.threads t).activity.owes = false := by
      split at hpaid
      case h_1 a frames ha hf => exact absurd hf (hcons a frames ha)
      case h_2 => exact hpaid
    split at h
    · split at h
      · cases h
        have hst := abandon_stack (s := s) t (s.threads t).activity t
        have hfr : ((s.abandon t (s.threads t).activity).threads t).frames =
            (s.threads t).frames := (List.cons.inj hst).2
        refine hi.leave ht hpaid rfl ?_ ?_
        · intro b hb
          rcases List.mem_cons.mp hb with rfl | hb
          · exact .inr rfl
          · refine .inl (mem_cons_of_mem _ ?_)
            rw [hfr]
            exact hb
        · intro b hb
          rwa [hfr] at hb
      · cases h
    · cases h

/-! ### Events -/

theorem interrupted_spec {a a' : Activity κ} (h : a.interrupted = some a') :
    (∀ t ∈ a.taken, t ∈ a'.taken) ∧ (∀ t, a.Cancels t → a'.Cancels t) ∧
      (∀ o, a.Registered o → a'.Registered o) ∧ ∀ o, ¬ a'.Committed o := by
  cases a with
  | wait o task p =>
    cases p with
    | lockLoop sec =>
      cases h
      exact ⟨nofun, nofun, fun _ => id, nofun⟩
    | lock sec => cases h
    | locked sec => cases h
    | unlock after => cases h
    | check => cases h
    | suspend =>
      cases h
      exact ⟨nofun, nofun, fun _ hr => ⟨hr.1, rfl⟩, nofun⟩
    | suspended =>
      cases h
      exact ⟨nofun, nofun, fun _ hr => ⟨hr.1, rfl⟩, nofun⟩
    | handling =>
      cases h
      exact ⟨nofun, nofun, fun _ => id, nofun⟩
  | outside =>
    cases h
    exact ⟨nofun, nofun, nofun, nofun⟩
  | change o k held p =>
    cases h
    exact ⟨fun _ => id, nofun, nofun, nofun⟩
  | waking l =>
    cases h
    exact ⟨fun _ => id, nofun, nofun, nofun⟩
  | cancel o target p =>
    cases h
    exact ⟨nofun, fun _ => id, nofun, nofun⟩

theorem Inv.interrupt (hi : s.Inv W E) (more) (h : (s.threads t).activity.interrupted = some a) :
    (s.setThread t ⟨.outside, a :: (s.threads t).frames, more⟩).Inv W E := by
  obtain ⟨htaken, hcancels, hreg, hc⟩ := interrupted_spec h
  refine hi.setThread_keep t _ ?_ nofun nofun ?_ ?_
  · intro ht o ho
    obtain ⟨b, hb, hr⟩ := hi.registered t ht o ho
    rcases List.mem_cons.mp hb with rfl | hb
    · exact ⟨a, mem_cons_of_mem _ mem_cons_self, hreg o hr⟩
    · exact ⟨b, mem_cons_of_mem _ (mem_cons_of_mem _ hb), hr⟩
  · intro b hb
    rcases List.mem_cons.mp hb with rfl | hb
    · exact ⟨a, mem_cons_of_mem _ mem_cons_self, htaken, hcancels⟩
    · exact ⟨b, mem_cons_of_mem _ (mem_cons_of_mem _ hb), fun _ => id,
        fun _ => id⟩
  · intro b hb
    rcases List.mem_cons.mp hb with rfl | hb
    · exact hc
    · exact hi.frames t b hb

theorem Inv.resume (hi : s.Inv W E) {frames} (ha : (s.threads t).activity = .outside)
    (hf : (s.threads t).frames = a :: frames) :
    (s.setThread t ⟨a, frames, (s.threads t).pending⟩).Inv W E := by
  have hc : ∀ o, ¬ a.Committed o := hi.frames t a (hf ▸ mem_cons_self)
  have hstack : (s.threads t).stack = .outside :: a :: frames := by rw [Thread.stack, ha, hf]
  refine hi.setThread_keep t _ ?_ (fun o hco => absurd hco (hc o))
    (fun hh => absurd hh (Activity.not_heedless hc)) ?_ ?_
  · intro ht o ho
    obtain ⟨b, hb, hr⟩ := hi.registered t ht o ho
    rw [hstack] at hb
    rcases List.mem_cons.mp hb with rfl | hb
    · cases hr
    · exact ⟨b, hb, hr⟩
  · intro b hb
    rw [hstack] at hb
    rcases List.mem_cons.mp hb with rfl | hb
    · exact ⟨a, mem_cons_self, nofun, nofun⟩
    · exact ⟨b, hb, fun _ => id, fun _ => id⟩
  · exact fun b hb => hi.frames t b (hf ▸ mem_cons_of_mem _ hb)

theorem mayHandle_uncommitted (h : a.MayHandle = true) (o) : ¬ a.Committed o := by
  cases a with
  | wait o' task p =>
    cases p with
    | lockLoop sec => nofun
    | _ => cases h
  | _ => nofun

theorem step_inv {action} (hi : s.Inv W E)
    (hE : s.LeavesPaid action ∧ ∀ t, action = .escape t → t ∈ E) (h : s.step W action = some s') :
    s'.Inv W E := by
  cases action with simp only [step] at h
  | wait t o task =>
    split at h
    case h_1 ha =>
      cases h
      refine hi.setActivity ?_
      rw [ha]
      exact ⟨nofun, nofun, nofun, nofun, nofun⟩
    case h_2 => cases h
  | change t o k =>
    split at h
    case h_1 ha =>
      cases h
      refine hi.setActivity ?_
      rw [ha]
      exact ⟨nofun, nofun, nofun, nofun, nofun⟩
    case h_2 held ha =>
      cases h
      refine hi.setActivity ?_
      rw [ha]
      exact ⟨fun _ => id, nofun, nofun, nofun, nofun⟩
    case h_3 => cases h
  | cancel t o target =>
    split at h
    case h_1 ha =>
      cases h
      refine hi.setActivity ?_
      rw [ha]
      exact ⟨nofun, nofun, nofun, nofun, nofun⟩
    case h_2 => cases h
  | advance t => exact hi.advance h
  | event t =>
    cases h
    exact hi.signal t
  | handle t =>
    split at h
    case isTrue hm =>
      cases h
      exact hi.drain ⟨fun _ => id, fun _ => id, fun _ => id, fun _ => id, id⟩
        (mayHandle_uncommitted hm)
    case isFalse => cases h
  | interrupt t more =>
    split at h
    · split at h
      case h_1 a ha =>
        cases h
        exact hi.interrupt more ha
      case h_2 => cases h
    · cases h
  | resume t =>
    split at h
    case h_1 a frames ha hf =>
      cases h
      exact hi.resume ha hf
    case h_2 => cases h
  | escape t => exact hi.escape (hE.2 t rfl) hE.1 h

theorem run_inv {objects : ObjectId → σ} (hobjects : ∀ o, W.waiters (objects o) = []) {actions}
    (hc : Along (step W) LeavesPaid (initial objects) actions)
    (hE : ∀ t, .escape t ∈ actions → t ∈ E) (hr : run (step W) (initial objects) actions = some s) :
    s.Inv W E := by
  refine run_invariant (C := fun s a => s.LeavesPaid a ∧ ∀ t, a = .escape t → t ∈ E)
    (fun hi hc hs => step_inv hi hc hs) (initial_inv objects hobjects) (hc.and ?_) hr
  refine along_of_forall ?_
  rintro _ ha _ t rfl
  exact hE t ha

end World

/-! ## The main result -/

end MitScheme.Runtime.TaskWait
