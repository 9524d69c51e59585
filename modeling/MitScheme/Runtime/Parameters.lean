import MitScheme.Runtime.StateSpaceHistory

/-! # Parameters

The parameters of `dynamic.scm` in one thread, on the state spaces of `wind.scm`: bindings are an
association list that every entry and exit of an extent exchanges with the one that the extent
keeps. -/

namespace MitScheme.Runtime.Parameters
open Lib.Machine StateSpace

variable {V : Type}

/-! ## Parameters -/

abbrev MetadataId := Nat

/-- The fields of a metadata record that do not change. The setter gets a procedure that assigns,
and may call it with a value. -/
structure Metadata (V : Type) where
  initial : V
  converter : V → V
  merger : V → V → V
  getter : V → V
  setter : Option (V → Option V)

inductive Parameter (V : Type)
  | base (metadata : MetadataId)
  | forwarder (parameter : Parameter V) (convertTo convertFrom : V → V)

section
variable (table : MetadataId → Metadata V) (get : MetadataId → V)

def convert (metadata : MetadataId) (value : V) : V :=
  (table metadata).merger (get metadata) ((table metadata).converter value)

def createBinding : Parameter V → V → MetadataId × V
  | .base metadata, value => (metadata, convert table get metadata value)
  | .forwarder parameter convertTo _, value => createBinding parameter (convertTo value)

def read : Parameter V → V
  | .base metadata => (table metadata).getter (get metadata)
  | .forwarder parameter _ convertFrom => convertFrom (read parameter)

def skipForwarders : Parameter V → MetadataId
  | .base metadata => metadata
  | .forwarder parameter _ _ => skipForwarders parameter

/-- A call of a parameter with a new value: what `set-value!` is called with. A parameter without
a setter signals an error. -/
def assignment : Parameter V → V → Option (MetadataId × V)
  | .base metadata, value =>
    match (table metadata).setter with
    | some setter => (setter (convert table get metadata value)).map (metadata, ·)
    | none => none
  | .forwarder parameter convertTo _, value =>
    if (table (skipForwarders parameter)).setter.isSome then assignment parameter (convertTo value)
    else none

end

/-! ## Bindings -/

/-- The pair that the `i`th binding of a call of `parameterize*` makes. The calls are numbered by
the points of their extents. -/
abbrev Cell := PointId × Nat

/-- The state spaces, the association list and the copy that each call of `parameterize*` keeps,
the contents of the pairs, and the global values. -/
structure Params (V : Type) where
  spaces : Spaces
  bindings : List Cell
  temps : PointId → List Cell
  car : Cell → MetadataId
  cdr : Cell → V
  globals : MetadataId → V

namespace Params

/-- `assq` in the bindings. -/
def assq (s : Params V) (metadata : MetadataId) : Option Cell :=
  s.bindings.find? fun p => s.car p = metadata

def getValue (s : Params V) (metadata : MetadataId) : V :=
  match s.assq metadata with
  | some p => s.cdr p
  | none => s.globals metadata

def setValue (s : Params V) (metadata : MetadataId) (value : V) : Params V :=
  match s.assq metadata with
  | some p => { s with cdr := Function.update s.cdr p value }
  | none => { s with globals := Function.update s.globals metadata value }

/-- `swap!` of a call of `parameterize*`. -/
def swap (s : Params V) (call : PointId) : Params V :=
  { s with bindings := s.temps call, temps := Function.update s.temps call s.bindings }

def call (s : Params V) : Thunk → Params V
  | .user call => s.swap call
  | .bound _ _ => s

def windings (s : Params V) (calls : List Thunk) : Params V := calls.foldl call s

/-- The state after an operation on the state spaces, with what it has called. -/
def winding (s : Params V) (spaces : Except Fault Spaces) : Option (Params V) :=
  match spaces with
  | .ok spaces =>
    some ({ s with spaces }.windings
      ((spaces.log.drop s.spaces.log.length).filterMap (callsOf stateSpaceGlobal)))
  | .error _ => none

/-- What `parameterize*` makes before it winds: the pairs and, in front of the bindings, the list
of its call. -/
def create (s : Params V) (call : PointId) (created : List (MetadataId × V)) : Params V :=
  let temp := (List.range created.length).map (call, ·) ++ s.bindings
  { s with
    temps := Function.update s.temps call temp
    car := fun p => if p.1 = call then ((created.map Prod.fst)[p.2]?).getD (s.car p) else s.car p
    cdr := fun p => if p.1 = call then ((created.map Prod.snd)[p.2]?).getD (s.cdr p) else s.cdr p }

/-- `parameterize*` up to the call of the thunk. -/
def parameterize (table : MetadataId → Metadata V) (s : Params V)
    (newBindings : List (Parameter V × V)) : Option (Params V) :=
  let call := s.spaces.pointCount
  (s.create call (newBindings.map fun p => createBinding table s.getValue p.1 p.2)).winding
    (s.spaces.shallowFluidBind call call)

def assign (table : MetadataId → Metadata V) (s : Params V) (parameter : Parameter V) (value : V) :
    Params V :=
  match assignment table s.getValue parameter value with
  | some (metadata, value) => s.setValue metadata value
  | none => s

def start (table : MetadataId → Metadata V) : Params V :=
  { spaces := .initial
    bindings := []
    temps := fun _ => []
    car := fun _ => 0
    cdr := fun _ => (table 0).initial
    globals := fun metadata => (table metadata).converter (table metadata).initial }

end Params

/-- What a program does: it enters an extent, assigns, and returns, escapes or goes back to a
point, by a continuation that was captured there. -/
inductive Action (V : Type)
  | parameterize (newBindings : List (Parameter V × V))
  | assign (parameter : Parameter V) (value : V)
  | translate (point : PointId)

def Params.step (table : MetadataId → Metadata V) (s : Params V) : Action V → Option (Params V)
  | .parameterize newBindings => s.parameterize table newBindings
  | .assign parameter value => some (s.assign table parameter value)
  | .translate point => s.winding (s.spaces.translateToStatePoint point)

/-! ## Dynamic extents -/

/-- Each extent has the parameters that it binds and their values, and is inside those of its
path, itself first. -/
structure Dynamic (V : Type) where
  path : PointId → List PointId
  pointCount : Nat
  current : PointId
  keys : PointId → List MetadataId
  values : Cell → V
  globals : MetadataId → V

namespace Dynamic

def cells (d : Dynamic V) (x : PointId) : List Cell := (List.range (d.keys x).length).map (x, ·)

def bindingIn (d : Dynamic V) (metadata : MetadataId) (x : PointId) : Option Cell :=
  (d.cells x).find? fun p => (d.keys x)[p.2]? = some metadata

def innermost (d : Dynamic V) (metadata : MetadataId) : Option Cell :=
  (d.path d.current).findSome? (d.bindingIn metadata)

def getValue (d : Dynamic V) (metadata : MetadataId) : V :=
  match d.innermost metadata with
  | some p => d.values p
  | none => d.globals metadata

def setValue (d : Dynamic V) (metadata : MetadataId) (value : V) : Dynamic V :=
  match d.innermost metadata with
  | some p => { d with values := Function.update d.values p value }
  | none => { d with globals := Function.update d.globals metadata value }

def extend (d : Dynamic V) (created : List (MetadataId × V)) : Dynamic V :=
  let x := d.pointCount
  { d with
    path := Function.update d.path x (x :: d.path d.current)
    pointCount := x + 1
    current := x
    keys := Function.update d.keys x (created.map Prod.fst)
    values := fun p =>
      if p.1 = x then ((created.map Prod.snd)[p.2]?).getD (d.values p) else d.values p }

def parameterize (table : MetadataId → Metadata V) (d : Dynamic V)
    (newBindings : List (Parameter V × V)) : Dynamic V :=
  d.extend (newBindings.map fun p => createBinding table d.getValue p.1 p.2)

def assign (table : MetadataId → Metadata V) (d : Dynamic V) (parameter : Parameter V) (value : V) :
    Dynamic V :=
  match assignment table d.getValue parameter value with
  | some (metadata, value) => d.setValue metadata value
  | none => d

def start (table : MetadataId → Metadata V) : Dynamic V :=
  { path := Extents.initial.path
    pointCount := Extents.initial.pointCount
    current := 0
    keys := fun _ => []
    values := fun _ => (table 0).initial
    globals := fun metadata => (table metadata).converter (table metadata).initial }

/-- Only points of the global space can be gone to; 1 is the one of the local space. -/
def step (table : MetadataId → Metadata V) (d : Dynamic V) : Action V → Option (Dynamic V)
  | .parameterize newBindings => some (d.parameterize table newBindings)
  | .assign parameter value => some (d.assign table parameter value)
  | .translate point =>
    if point < d.pointCount ∧ point ≠ 1 then some { d with current := point } else none

end Dynamic

end MitScheme.Runtime.Parameters
