import MitScheme.Lib.PathTree

/-! # State spaces

A state space is a tree of points whose links lead to its root, the current point.
Moving the root turns the links around. `Spaces` is the code, `Extents` what it is
for: each point has the path of the dynamic extents it is in, and a move leaves and
enters extents. -/

namespace MitScheme.Runtime.StateSpace
open Lib.PathTree Function

/-! ## Points and spaces -/

abbrev PointId := Nat
abbrev SpaceId := Nat

/-- The procedures of a winding: a procedure of the caller, or the closure that
`dynamic-wind` makes of one and of the fluid bindings at the call. -/
inductive Thunk
  | user (code : Nat)
  | bound (fluidBindings : PointId) (code : Nat)
  deriving DecidableEq

/-- What the fields `to-nearer` and `from-nearer` hold. -/
inductive Field
  | none
  | space (space : SpaceId)
  | thunk (thunk : Thunk)
  deriving DecidableEq

structure StatePoint where
  nearerPoint : Option PointId
  toNearer : Field
  fromNearer : Field
  deriving DecidableEq

/-- The history: a winding of a space is called, the code of a caller runs. -/
inductive Event
  | call (space : SpaceId) (thunk : Thunk)
  | code (code : Nat)

inductive Fault
  | wrongType
  | diverges

structure Spaces where
  points : PointId → StatePoint
  pointCount : Nat
  nearestPoint : SpaceId → PointId
  spaceCount : Nat
  log : List Event

namespace Spaces

def record (s : Spaces) (event : Event) : Spaces := { s with log := s.log ++ [event] }

def makeStateSpace (s : Spaces) : Spaces where
  points := update s.points s.pointCount ⟨none, .space s.spaceCount, .none⟩
  pointCount := s.pointCount + 1
  nearestPoint := update s.nearestPoint s.spaceCount s.pointCount
  spaceCount := s.spaceCount + 1
  log := s.log

/-- The assignments of `traverse-chain`. -/
def moveRoot (s : Spaces) (space : SpaceId) (oldRoot newRoot : PointId) : Spaces :=
  let toNearer := (s.points newRoot).toNearer
  let fromNearer := (s.points newRoot).fromNearer
  let points := update s.points oldRoot ⟨some newRoot, fromNearer, toNearer⟩
  { s with
    points := update points newRoot ⟨none, .space space, .none⟩
    nearestPoint := update s.nearestPoint space newRoot }

end Spaces

/-- The loops of `%%translate-to-state-point`. -/
inductive Loop
  | findNearest (point : PointId) (chain : List PointId)
  | traverseChain (space : Field) (oldRoot : PointId) (chain : List PointId)
  | findRoot (space : Field) (chain : List PointId)

def loop (call : Thunk → Spaces → Except Fault Spaces) :
    Nat → Loop → Spaces → Except Fault Spaces
  | 0, _, _ => .error .diverges
  | fuel + 1, .findNearest point chain, s =>
    match (s.points point).nearerPoint with
    | some nearerPoint => loop call fuel (.findNearest nearerPoint (point :: chain)) s
    | none => loop call fuel (.traverseChain (s.points point).toNearer point chain) s
  | _ + 1, .traverseChain _ _ [], s => .ok s
  | fuel + 1, .traverseChain space oldRoot (newRoot :: chain), s =>
    match space, (s.points newRoot).fromNearer with
    | .space i, .thunk fromNearer =>
      match call fromNearer ((s.moveRoot i oldRoot newRoot).record (.call i fromNearer)) with
      | .error e => .error e
      | .ok s => loop call fuel (.findRoot space (newRoot :: chain)) s
    | _, _ => .error .wrongType
  | _ + 1, .findRoot _ [], _ => .error .wrongType
  | fuel + 1, .findRoot space (point :: chain), s =>
    match (s.points point).nearerPoint with
    | none => loop call fuel (.traverseChain space point chain) s
    | some nearerPoint =>
      if chain.head? = some nearerPoint then loop call fuel (.findRoot space chain) s
      else loop call fuel (.findNearest nearerPoint (point :: chain)) s

/-- `%translate-to-state-point`, for a way to call a procedure. The loops visit each point
a bounded number of times. -/
def translateWith (call : Thunk → Spaces → Except Fault Spaces) (point : PointId) (s : Spaces) :
    Except Fault Spaces :=
  loop call (6 * s.pointCount + 2) (.findNearest point []) s

/-- A call of a winding; the closures of `dynamic-wind` first restore the fluid bindings.
`depth` bounds how far such calls nest. -/
def callThunk : Nat → Thunk → Spaces → Except Fault Spaces
  | _, .user code, s => .ok (s.record (.code code))
  | 0, .bound _ _, _ => .error .diverges
  | depth + 1, .bound fluidBindings code, s =>
    match translateWith (callThunk depth) fluidBindings s with
    | .error e => .error e
    | .ok s => .ok (s.record (.code code))

namespace Spaces

def call (thunk : Thunk) (s : Spaces) : Except Fault Spaces := callThunk 1 thunk s

def translateToStatePoint (s : Spaces) (point : PointId) : Except Fault Spaces :=
  translateWith call point s

/-- The new point of `%execute-at-new-state-point`. -/
def pushPoint (s : Spaces) (space : SpaceId) (oldRoot : PointId) (before after : Thunk) :
    Spaces :=
  let points := update s.points s.pointCount ⟨none, .space space, .none⟩
  { s with
    points := update points oldRoot ⟨some s.pointCount, .thunk before, .thunk after⟩
    pointCount := s.pointCount + 1
    nearestPoint := update s.nearestPoint space s.pointCount }

/-- `%execute-at-new-state-point` up to the call of `during`. After it the call moves back
to the old root: in a history, a `translateToStatePoint`. -/
def executeAtNewStatePoint (s : Spaces) (space : SpaceId) (before after : Thunk) :
    Except Fault Spaces :=
  let oldRoot := s.nearestPoint space
  match call before (s.record (.call space before)) with
  | .error e => .error e
  | .ok s =>
    if oldRoot = s.nearestPoint space then .ok (s.pushPoint space oldRoot before after)
    else
      match s.translateToStatePoint oldRoot with
      | .error e => .error e
      | .ok s => .ok (s.pushPoint space oldRoot before after)

end Spaces

def stateSpaceGlobal : SpaceId := 0
def stateSpaceLocal : SpaceId := 1

namespace Spaces

def shallowFluidBind (s : Spaces) (before after : Nat) : Except Fault Spaces :=
  s.executeAtNewStatePoint stateSpaceGlobal (.user before) (.user after)

def dynamicWind (s : Spaces) (before after : Nat) : Except Fault Spaces :=
  let fluidBindings := s.nearestPoint stateSpaceGlobal
  s.executeAtNewStatePoint stateSpaceLocal (.bound fluidBindings before)
    (.bound fluidBindings after)

def initial : Spaces :=
  let empty : Spaces :=
    { points := fun _ => ⟨none, .none, .none⟩
      pointCount := 0
      nearestPoint := fun _ => 0
      spaceCount := 0
      log := [] }
  empty.makeStateSpace.makeStateSpace

end Spaces

/-- A history enters extents of a space and moves between points. A return, an escape and a
re-entry are moves. -/
inductive Action
  | makeStateSpace
  | execute (space : SpaceId) (before after : Nat)
  | shallowFluidBind (before after : Nat)
  | dynamicWind (before after : Nat)
  | translate (point : PointId)

namespace Spaces

def step (s : Spaces) : Action → Except Fault Spaces
  | .makeStateSpace => .ok s.makeStateSpace
  | .execute space before after => s.executeAtNewStatePoint space (.user before) (.user after)
  | .shallowFluidBind before after => s.shallowFluidBind before after
  | .dynamicWind before after => s.dynamicWind before after
  | .translate point => s.translateToStatePoint point

def run (s : Spaces) : List Action → Except Fault Spaces
  | [] => .ok s
  | action :: actions =>
    match s.step action with
    | .error e => .error e
    | .ok s => s.run actions

end Spaces

/-! ## Dynamic extents -/

/-- Each point has the path of the extents it is in, itself first, and what is called when
its extent is entered and left. -/
structure Extents where
  path : PointId → List PointId
  before : PointId → Thunk
  after : PointId → Thunk
  space : PointId → SpaceId
  pointCount : Nat
  current : SpaceId → PointId
  spaceCount : Nat
  log : List Event

namespace Extents

def record (e : Extents) (event : Event) : Extents := { e with log := e.log ++ [event] }

def parent (e : Extents) (point : PointId) : PointId := (e.path point).tail.headD point

/-- A winding is called with the point as the current one of the space. -/
def visit (e : Extents) (space : SpaceId) (point : PointId) (thunk : Thunk) : Extents :=
  { e with
    current := update e.current space point
    log := e.log ++ [.call space thunk] }

def leave (call : Thunk → Extents → Extents) (space : SpaceId) (e : Extents) (point : PointId) :
    Extents :=
  call (e.after point) (e.visit space (e.parent point) (e.after point))

def enter (call : Thunk → Extents → Extents) (space : SpaceId) (e : Extents) (point : PointId) :
    Extents :=
  call (e.before point) (e.visit space point (e.before point))

/-- A move leaves the extents the point is not in, the innermost first, and enters those it
is in, the outermost first. -/
def move (call : Thunk → Extents → Extents) (point : PointId) (e : Extents) : Extents :=
  let space := e.space point
  let p := e.current space
  (entries e.path p point).foldl (enter call space)
    ((exits e.path p point).foldl (leave call space) e)

def windings (e : Extents) (p q : PointId) : List Thunk :=
  (exits e.path p q).map e.after ++ (entries e.path p q).map e.before

/-- The windings of the global space: `dynamic-wind` makes none there. -/
def callUser (thunk : Thunk) (e : Extents) : Extents :=
  match thunk with
  | .user code => e.record (.code code)
  | .bound _ code => e.record (.code code)

/-- The closures of `dynamic-wind` run with the fluid bindings of the call. -/
def call (thunk : Thunk) (e : Extents) : Extents :=
  match thunk with
  | .user code => e.record (.code code)
  | .bound fluidBindings code => (e.move callUser fluidBindings).record (.code code)

def newPoint (e : Extents) (space : SpaceId) (path : List PointId) (before after : Thunk) :
    Extents :=
  { e with
    path := update e.path e.pointCount (e.pointCount :: path)
    before := update e.before e.pointCount before
    after := update e.after e.pointCount after
    space := update e.space e.pointCount space
    pointCount := e.pointCount + 1
    current := update e.current space e.pointCount }

def makeStateSpace (e : Extents) : Extents :=
  { e.newPoint e.spaceCount [] (.user 0) (.user 0) with spaceCount := e.spaceCount + 1 }

def execute (e : Extents) (space : SpaceId) (before after : Thunk) : Extents :=
  let e := call before (e.record (.call space before))
  e.newPoint space (e.path (e.current space)) before after

def initial : Extents :=
  let empty : Extents :=
    { path := fun _ => []
      before := fun _ => .user 0
      after := fun _ => .user 0
      space := fun _ => 0
      pointCount := 0
      current := fun _ => 0
      spaceCount := 0
      log := [] }
  empty.makeStateSpace.makeStateSpace

def step (e : Extents) : Action → Option Extents
  | .makeStateSpace => some e.makeStateSpace
  | .execute space before after =>
    if space < e.spaceCount then some (e.execute space (.user before) (.user after)) else none
  | .shallowFluidBind before after => some (e.execute stateSpaceGlobal (.user before) (.user after))
  | .dynamicWind before after =>
    let fluidBindings := e.current stateSpaceGlobal
    some (e.execute stateSpaceLocal (.bound fluidBindings before) (.bound fluidBindings after))
  | .translate point => if point < e.pointCount then some (e.move call point) else none

end Extents

end MitScheme.Runtime.StateSpace
