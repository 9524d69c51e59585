import MitScheme.Runtime.StateSpaceHistory

/-! # Task-local values

`with-task-local` and the operations that spawn tasks, on the state spaces of `wind.scm`: each
thread has a local state space of its own, and the windings of a call set the field of the task
that called it, whichever thread moves the state space. -/

namespace MitScheme.Runtime.TaskLocals
open Lib.Machine StateSpace Function

variable {V : Type}

/-! ## Tasks -/

abbrev TaskId := Nat
abbrev LocalId := Nat

abbrev Bindings (V : Type) := List (LocalId × V)

/-- What the windings of a call of `with-task-local` set. -/
structure Winding (V : Type) where
  task : TaskId
  inner : Bindings V
  outer : Bindings V

/-- The state spaces, with the space of each point and the calls of `with-task-local`, the fields
`locals` and `parent` of the tasks, and the local state space of the code that each thread runs. -/
structure World (V : Type) where
  spaces : Spaces
  pointSpace : PointId → SpaceId
  windings : PointId → Option (Winding V)
  locals : TaskId → Bindings V
  parent : TaskId → Option TaskId
  taskCount : Nat
  space : TaskId → SpaceId

def lookup (bindings : Bindings V) (key : LocalId) : Option V :=
  (bindings.find? (·.1 = key)).map Prod.snd

namespace World

def taskLocalRef (s : World V) (i : TaskId) (key : LocalId) (default : V) : V :=
  (lookup (s.locals i) key).getD default

/-- A winding is called: the before-thunk of point `x` has the number `2 * x`, the after-thunk the
next one. -/
def call (s : World V) : Thunk → World V
  | .user code =>
    match s.windings (code / 2) with
    | some w =>
      { s with locals := update s.locals w.task (if code % 2 = 0 then w.inner else w.outer) }
    | none => s
  | .bound _ _ => s

/-- The state after an operation on the state spaces, with what it has called. -/
def winding (s : World V) (space : SpaceId) (spaces : Except Fault Spaces) : Option (World V) :=
  match spaces with
  | .ok spaces =>
    some (((spaces.log.drop s.spaces.log.length).filterMap (callsOf space)).foldl call
      { s with spaces })
  | .error _ => none

/-- A call of `dynamic-wind` in the code of thread `i`. -/
def dynamicWind (s : World V) (i : TaskId) (w : Option (Winding V)) : Option (World V) :=
  let x := s.spaces.pointCount
  { s with
    pointSpace := update s.pointSpace x (s.space i)
    windings := update s.windings x w
  }.winding (s.space i)
    (s.spaces.executeAtNewStatePoint (s.space i) (.user (2 * x)) (.user (2 * x + 1)))

/-- `with-task-local`, up to the call of the thunk. -/
def withTaskLocal (s : World V) (i : TaskId) (key : LocalId) (value : V) : Option (World V) :=
  let outer := s.locals i
  let inner := (key, value) :: outer
  s.dynamicWind i (some ⟨i, inner, outer⟩)

/-- Thread `i` returns, escapes or goes back to a point. -/
def translate (s : World V) (i : TaskId) (point : PointId) : Option (World V) :=
  { s with space := update s.space i (s.pointSpace point) }.winding (s.pointSpace point)
    (s.spaces.translateToStatePoint point)

/-- `%new-task`, with the thread. -/
def newTask (s : World V) (locals : Bindings V) (parent : Option TaskId) : World V :=
  { s with
    spaces := s.spaces.makeStateSpace
    pointSpace := update s.pointSpace s.spaces.pointCount s.spaces.spaceCount
    windings := update s.windings s.spaces.pointCount none
    locals := update s.locals s.taskCount locals
    parent := update s.parent s.taskCount parent
    taskCount := s.taskCount + 1
    space := update s.space s.taskCount s.spaces.spaceCount }

def spawnTask (s : World V) (i : TaskId) : World V := s.newTask (s.locals i) none

/-- `spawn-detached-task`, and `current-task` in a thread without a task. -/
def spawnDetachedTask (s : World V) : World V := s.newTask [] none

/-- `%task-group-add`, called by thread `i`. -/
def taskGroupAdd (s : World V) (i owner : TaskId) : World V := s.newTask (s.locals i) (some owner)

def start : World V :=
  ⟨.initial, fun x => if x = 1 then stateSpaceLocal else stateSpaceGlobal, fun _ => none,
    fun _ => [], fun _ => none, 1, fun _ => stateSpaceLocal⟩

end World

inductive Action (V : Type)
  | withTaskLocal (i : TaskId) (key : LocalId) (value : V)
  | dynamicWind (i : TaskId)
  | translate (i : TaskId) (point : PointId)
  | spawnTask (i : TaskId)
  | spawnDetachedTask (i : TaskId)
  | taskGroupAdd (i owner : TaskId)

def Action.task : Action V → TaskId
  | .withTaskLocal i _ _ | .dynamicWind i | .translate i _ | .spawnTask i | .spawnDetachedTask i
  | .taskGroupAdd i _ => i

def World.step (s : World V) (action : Action V) : Option (World V) :=
  if action.task < s.taskCount then
    match action with
    | .withTaskLocal i key value => s.withTaskLocal i key value
    | .dynamicWind i => s.dynamicWind i none
    | .translate i point =>
      if point < s.spaces.pointCount ∧ point ≠ 0 then s.translate i point else none
    | .spawnTask i => some (s.spawnTask i)
    | .spawnDetachedTask _ => some s.spawnDetachedTask
    | .taskGroupAdd i owner => some (s.taskGroupAdd i owner)
  else none

/-! ## Scopes -/

/-- Each task has a tree of extents, some of which bind a value, and what it has inherited. -/
structure Scopes (V : Type) where
  path : PointId → List PointId
  pointCount : Nat
  task : PointId → Option TaskId
  binding : PointId → Option (LocalId × V)
  current : TaskId → PointId
  taskCount : Nat
  inherited : TaskId → LocalId → Option V

namespace Scopes

def bound (d : Scopes V) (key : LocalId) (x : PointId) : Option V :=
  (d.binding x).bind fun b => if b.1 = key then some b.2 else none

/-- The value of the innermost extent that binds the key, or the inherited one. -/
def value (d : Scopes V) (i : TaskId) (key : LocalId) : Option V :=
  ((d.path (d.current i)).findSome? (d.bound key)).or (d.inherited i key)

def extend (d : Scopes V) (i : TaskId) (binding : Option (LocalId × V)) : Scopes V :=
  let x := d.pointCount
  { d with
    path := update d.path x (x :: d.path (d.current i))
    pointCount := x + 1
    task := update d.task x (some i)
    binding := update d.binding x binding
    current := update d.current i x }

def newTask (d : Scopes V) (inherited : LocalId → Option V) : Scopes V :=
  let x := d.pointCount
  { path := update d.path x [x]
    pointCount := x + 1
    task := update d.task x (some d.taskCount)
    binding := update d.binding x none
    current := update d.current d.taskCount x
    taskCount := d.taskCount + 1
    inherited := update d.inherited d.taskCount inherited }

def start : Scopes V :=
  { path := Extents.initial.path
    pointCount := 2
    task := fun x => if x = 1 then some 0 else none
    binding := fun _ => none
    current := fun _ => 1
    taskCount := 1
    inherited := fun _ _ => none }

/-- A thread goes to points that were captured in the same thread only, and a task inherits from
the one that spawns it. -/
def step (d : Scopes V) (action : Action V) : Option (Scopes V) :=
  if action.task < d.taskCount then
    match action with
    | .withTaskLocal i key value => some (d.extend i (some (key, value)))
    | .dynamicWind i => some (d.extend i none)
    | .translate i point =>
      if point < d.pointCount ∧ d.task point = some i then
        some { d with current := update d.current i point }
      else none
    | .spawnTask i => some (d.newTask (d.value i))
    | .spawnDetachedTask _ => some (d.newTask fun _ => none)
    | .taskGroupAdd i _ => some (d.newTask (d.value i))
  else none

end Scopes

end MitScheme.Runtime.TaskLocals
