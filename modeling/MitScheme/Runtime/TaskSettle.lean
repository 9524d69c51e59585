import MitScheme.Runtime.TaskGroup

/-! # How a task is settled

`%spawn`, `%run-task` and `%finish-task!` over any number of tasks and threads. What runs with the
mutex of a task locked is one step, which a thread event may cut short. The code of a task and of
an event may invoke any continuation that was captured before, and exit. -/

namespace MitScheme.Runtime.TaskSettle
open Lib.Machine
open TaskGroup (TaskId TaskState)

variable {V : Type}

abbrev ThreadId := Nat
abbrev HandlerId := Nat

abbrev ContinuationId := Nat

/-! ## Places -/

/-- The symbol that `%finish-task!` is called with. -/
def outcome (failed : Bool) : TaskState := if failed then .failed else .completed

/-- Where a call of `%finish-task!` is. -/
inductive Stage (V : Type)
  /-- Before it locks the mutex of the task. -/
  | locking (failed : Bool) (result : V)
  /-- In the locked section, when not all of its assignments are made. -/
  | cut
  /-- Before `%remove-child!`. -/
  | settled (waiters : List ThreadId)
  /-- Before the finish hook. -/
  | removed (waiters : List ThreadId)
  /-- In `%wake-threads!`. -/
  | hooked (waiters : List ThreadId)

def Stage.busy : Stage V → Bool
  | .locking _ _ | .hooked [] => false
  | _ => true

def Stage.isLocking : Stage V → Bool
  | .locking _ _ => true
  | _ => false

inductive Place (V : Type)
  /-- The thread does not exist. -/
  | unborn
  /-- Code outside any `%run-task`, with the local state space of the task's thread or of no
  task. -/
  | outside (space : Option TaskId)
  /-- The thread of the task, before `%run-task`. -/
  | starting (task : TaskId)
  /-- The thunk of the task. -/
  | body (task : TaskId)
  /-- `%finish-task!` in the extent of `%run-task`. -/
  | finishing (task : TaskId) (stage : Stage V)
  /-- The thunk that `%run-task` runs when its extent is left, on the way to a place. -/
  | checking (task : TaskId) (next : Place V)
  /-- `%finish-task!` called by that thunk. -/
  | aborting (task : TaskId) (stage : Stage V) (next : Place V)
  | dead

def Place.space : Place V → Option TaskId
  | .unborn | .dead => none
  | .outside space => space
  | .starting t | .body t | .finishing t _ | .checking t _ | .aborting t _ _ => some t

/-- The code is in the extent of `%run-task`. -/
def Place.inExtent : Place V → Bool
  | .body _ | .finishing _ _ => true
  | _ => false

/-- The task, if the place is in `%finish-task!`, and the stage. -/
def Place.stage : Place V → Option (TaskId × Stage V)
  | .finishing t stage | .aborting t stage _ => some (t, stage)
  | _ => none

def Place.setStage : Place V → Stage V → Place V
  | .finishing t _, stage => .finishing t stage
  | .aborting t _ next, stage => .aborting t stage next
  | p, _ => p

/-! ## Tasks -/

/-- A task. `inside` is true when the point of the local state space of its thread is in the extent
of `%run-task`. The last four fields are a history: how often the state has been set and the hook
been called, the waiters at the first time, and the threads woken. -/
structure Task (V : Type) where
  thread : Option ThreadId
  parent : Option TaskId
  finishHook : Bool
  state : TaskState
  result : Option V
  cancelled : Bool
  cancelHandlers : List HandlerId
  children : List TaskId
  waiters : List ThreadId
  inside : Bool
  changes : Nat
  hookRuns : Nat
  registered : List ThreadId
  woken : List ThreadId

def newTask (parent : Option TaskId) (finishHook cancelled : Bool) : Task V :=
  ⟨none, parent, finishHook, .running, none, cancelled, [], [], [], false, 0, 0, [], []⟩

namespace Task

/-- `set-task-state!`. -/
def setState (x : Task V) (state : TaskState) : Task V :=
  { x with
    state
    changes := x.changes + 1
    registered := if x.changes = 0 then x.waiters else x.registered }

/-- The first `n` assignments of the locked section of `%finish-task!`. -/
def assignments (x : Task V) (state : TaskState) (result : V) : Nat → Task V
  | 0 => x
  | 1 => x.setState state
  | 2 => { x.setState state with result := some result }
  | 3 => { x.setState state with result := some result, cancelHandlers := [] }
  | _ => { x.setState state with result := some result, cancelHandlers := [], waiters := [] }

end Task

/-- The tasks, what each thread runs and the task it was made for, and the continuations that have
been captured. -/
structure World (V : Type) where
  tasks : TaskId → Task V
  taskCount : Nat
  place : ThreadId → Place V
  home : ThreadId → Option TaskId
  captured : List (Place V)

namespace World

def setTask (s : World V) (t : TaskId) (x : Task V) : World V :=
  { s with tasks := Function.update s.tasks t x }

def setPlace (s : World V) (i : ThreadId) (p : Place V) : World V :=
  { s with place := Function.update s.place i p }

/-- `%new-task` and `%add-child!`. -/
def newTask (s : World V) (parent : Option TaskId) (finishHook : Bool) : World V :=
  match parent with
  | none =>
    { s with
      tasks := Function.update s.tasks s.taskCount (TaskSettle.newTask none finishHook false)
      taskCount := s.taskCount + 1 }
  | some p =>
    let x := s.tasks p
    let child := TaskSettle.newTask parent finishHook x.cancelled
    let x := if x.cancelled then x else { x with children := s.taskCount :: x.children }
    { s with
      tasks := Function.update (Function.update s.tasks p x) s.taskCount child
      taskCount := s.taskCount + 1 }

/-- `%remove-child!`, when the task has a parent. -/
def removeChild (s : World V) (t : TaskId) : World V :=
  match (s.tasks t).parent with
  | none => s
  | some p => s.setTask p { s.tasks p with children := (s.tasks p).children.filter (· ≠ t) }

/-- Thread `i` goes on at a place: the local state space of the place is moved to its point. -/
def goTo (s : World V) (i : ThreadId) (p : Place V) : World V :=
  match p.space with
  | none => s.setPlace i p
  | some t =>
    if p.inExtent then (s.setTask t { s.tasks t with inside := true }).setPlace i p
    else if (s.tasks t).inside then
      (s.setTask t { s.tasks t with inside := false }).setPlace i (.checking t p)
    else s.setPlace i p

/-- `exit-current-thread`: the local state space of the thread is moved to its root. -/
def exit (s : World V) (i : ThreadId) : World V :=
  match s.home i with
  | none => s.setPlace i .dead
  | some t =>
    if (s.tasks t).inside then
      (s.setTask t { s.tasks t with inside := false }).setPlace i (.checking t .dead)
    else s.setPlace i .dead

def start : World V :=
  ⟨fun _ => TaskSettle.newTask none false false, 0, Function.update (fun _ => .unborn) 0 (.outside none),
    fun _ => none, []⟩

end World

/-! ## Steps -/

inductive Action (V : Type)
  | createThread (i : ThreadId)
  | newTask (parent : Option TaskId) (finishHook : Bool)
  /-- `create-thread` in `%spawn`. -/
  | createTaskThread (t : TaskId) (i : ThreadId)
  /-- `%run-task` is called. -/
  | enter (i : ThreadId)
  /-- `%call-catching-errors` has returned. -/
  | finish (i : ThreadId) (failed : Bool) (value : V)
  | settle (i : ThreadId)
  | removeChild (i : ThreadId)
  | runHook (i : ThreadId)
  | wake (i : ThreadId)
  /-- `%finish-task!` returns. -/
  | leave (i : ThreadId)
  | check (i : ThreadId)
  /-- An event runs after `n` assignments of the locked section, and does not return. -/
  | cut (i : ThreadId) (n : Nat)
  | capture (i : ThreadId)
  | invoke (i : ThreadId) (k : ContinuationId)
  | exit (i : ThreadId)
  | addWaiter (t : TaskId) (i : ThreadId)
  | removeWaiter (t : TaskId) (i : ThreadId)
  | cancel (t : TaskId)
  | setCancelHandlers (t : TaskId) (handlers : List HandlerId)

/-- One step; `exited` is the condition of a task that has exited abnormally. -/
def step (exited : TaskId → V) (s : World V) : Action V → Option (World V)
  | .createThread i =>
    match s.place i with
    | .unborn => some (s.setPlace i (.outside none))
    | _ => none
  | .newTask parent finishHook =>
    if ∀ p ∈ parent, p < s.taskCount then some (s.newTask parent finishHook) else none
  | .createTaskThread t i =>
    match s.place i, (s.tasks t).thread with
    | .unborn, none =>
      if t < s.taskCount then
        some { s.setTask t { s.tasks t with thread := some i } with
          place := Function.update s.place i (.starting t)
          home := Function.update s.home i (some t) }
      else none
    | _, _ => none
  | .enter i =>
    match s.place i with
    | .starting t =>
      some ((s.setTask t { s.tasks t with inside := true }).setPlace i (.body t))
    | _ => none
  | .finish i failed value =>
    match s.place i with
    | .body t =>
      some (s.setPlace i (.finishing t (.locking failed value)))
    | _ => none
  | .settle i =>
    match (s.place i).stage with
    | some (t, .locking failed result) =>
      some ((s.setTask t ((s.tasks t).assignments (outcome failed) result 4)).setPlace i
        ((s.place i).setStage (.settled (s.tasks t).waiters)))
    | _ => none
  | .removeChild i =>
    match (s.place i).stage with
    | some (t, .settled waiters) =>
      some ((s.removeChild t).setPlace i ((s.place i).setStage (.removed waiters)))
    | _ => none
  | .runHook i =>
    match (s.place i).stage with
    | some (t, .removed waiters) =>
      let x := s.tasks t
      let hookRuns := if x.finishHook then x.hookRuns + 1 else x.hookRuns
      some ((s.setTask t { x with hookRuns }).setPlace i ((s.place i).setStage (.hooked waiters)))
    | _ => none
  | .wake i =>
    match (s.place i).stage with
    | some (t, .hooked (u :: waiters)) =>
      some ((s.setTask t { s.tasks t with woken := u :: (s.tasks t).woken }).setPlace i
        ((s.place i).setStage (.hooked waiters)))
    | _ => none
  | .leave i =>
    match s.place i with
    | .finishing t (.hooked []) => some (s.goTo i (.outside (some t)))
    | .aborting _ (.hooked []) next => some (s.setPlace i next)
    | _ => none
  | .check i =>
    match s.place i with
    | .checking t next =>
      some (s.setPlace i (if (s.tasks t).state = .running then
        .aborting t (.locking true (exited t)) next else next))
    | _ => none
  | .cut i n =>
    match (s.place i).stage with
    | some (t, .locking failed result) =>
      some ((s.setTask t ((s.tasks t).assignments (outcome failed) result n)).setPlace i
        ((s.place i).setStage .cut))
    | _ => none
  | .capture i => some { s with captured := s.captured ++ [s.place i] }
  | .invoke i k =>
    match s.place i with
    | .unborn | .dead => none
    | _ => s.captured[k]?.map (s.goTo i)
  | .exit i =>
    match s.place i with
    | .unborn | .dead => none
    | _ => some (s.exit i)
  | .addWaiter t i =>
    if t < s.taskCount ∧ (s.tasks t).state = .running then
      some (s.setTask t { s.tasks t with waiters := i :: (s.tasks t).waiters })
    else none
  | .removeWaiter t i =>
    if t < s.taskCount then
      some (s.setTask t { s.tasks t with waiters := (s.tasks t).waiters.filter (· ≠ i) })
    else none
  | .cancel t =>
    if t < s.taskCount then
      some (s.setTask t { s.tasks t with cancelled := true, cancelHandlers := [] })
    else none
  | .setCancelHandlers t handlers =>
    if t < s.taskCount then some (s.setTask t { s.tasks t with cancelHandlers := handlers })
    else none

/-! ## What a run may do -/

def Place.isPlain : Place V → Bool
  | .outside _ | .starting _ | .body _ => true
  | _ => false

/-- A thread can leave the place: nothing is left to do there for a task, or the task has been
settled by another thread. -/
def World.leavable (s : World V) : Place V → Bool
  | .starting t | .checking t _ | .aborting t (.locking _ _) _ =>
    (s.tasks t).state ≠ .running
  | .finishing _ stage | .aborting _ stage _ => !stage.busy
  | _ => true

/-- A call of `%finish-task!` finds the task running, and nothing makes a thread leave while it
finishes a task or before it is in `%run-task`. -/
def orderly (s : World V) : Action V → Bool
  | .settle i =>
    match (s.place i).stage with
    | some (t, _) => (s.tasks t).state = .running
    | none => true
  | .cut _ _ => false
  | .invoke i k => s.leavable (s.place i) && (s.captured[k]?).all Place.isPlain
  | .exit i => s.leavable (s.place i)
  | _ => true

def Place.aborts (t : TaskId) : Place V → Bool
  | .checking t' _ | .aborting t' (.locking _ _) _ => t' = t
  | _ => false

structure Settles (s : World V) (t : TaskId) : Prop where
  once : (s.tasks t).changes = if (s.tasks t).state = .running then 0 else 1
  hookOnce : (s.tasks t).hookRuns ≤ 1
  removed : 0 < (s.tasks t).hookRuns → ∀ p ∈ (s.tasks t).parent, t ∉ (s.tasks p).children
  complete : (s.tasks t).state ≠ .running →
    (∃ i stage, (s.place i).stage = some (t, stage) ∧ stage.busy = true) ∨
      (s.tasks t).hookRuns = (if (s.tasks t).finishHook then 1 else 0) ∧
        ∀ u ∈ (s.tasks t).registered, u ∈ (s.tasks t).woken
  exited : ∀ i ∈ (s.tasks t).thread, s.place i = .dead →
    (s.tasks t).state ≠ .running ∨ ∃ j, (s.place j).aborts t = true

end MitScheme.Runtime.TaskSettle
