import MitScheme.Runtime.SyntaxRulesPattern

/-! # Syntax-rules: clauses and templates

The checks of `parse-clause`, `syntax-rules:expand-template` on the dictionary of a
match, and the instance of a template by R7RS 4.3.2. -/

namespace MitScheme.Runtime.SyntaxRules

variable {Id Atom : Type}

/-! ## The ellipses around a variable -/

/-- A cell of the list that `compute-segments` conses up, known by the element that it
is made for and the number of its ellipsis. -/
abbrev Cell := List Nat × Nat

mutual

/-- `compute-segments`: the variables with the ellipses around them, the innermost
first. -/
def Form.segs (path : List Nat) (cells : List Cell) : Form Id Atom → List (Id × List Cell)
  | .list elts => eltsSegs path cells 0 elts
  | .dottedList elts tail =>
    eltsSegs path cells 0 elts ++ tail.segs (elts.length :: path) cells
  | .vector elts => eltsSegs path cells 0 elts
  | .var id => [(id, cells)]
  | _ => []

def Elt.segs (path : List Nat) (cells : List Cell) (level : Nat) :
    Elt Id Atom → List (Id × List Cell)
  | .one form => form.segs path cells
  | .segment body => body.segs path ((path, level) :: cells) (level + 1)

def eltsSegs (path : List Nat) (cells : List Cell) (i : Nat) :
    List (Elt Id Atom) → List (Id × List Cell)
  | [] => []
  | e :: elts => e.segs (i :: path) cells 0 ++ eltsSegs path cells (i + 1) elts

end

/-- `compute-segments` of a whole form. -/
def computeSegments (form : Form Id Atom) : List (Id × List Cell) := form.segs [] []

/-- The loop over the ellipses of a variable in the template and in the pattern: each
tail of the one list with the tail of the other. -/
def tailPairs : List Cell → List Cell → List (List Cell × List Cell)
  | t :: ts, p :: ps => (t :: ts, p :: ps) :: tailPairs ts ps
  | _, _ => []

section
variable [DecidableEq Id]

def references (pvs : List (Id × List Cell)) (tv : Id × List Cell) :
    List (List Cell × List Cell) :=
  match pvs.lookup tv.1 with
  | none => []
  | some ps => tailPairs (tv.2.drop (tv.2.length - ps.length)) ps

/-- `check-template-var-references`: a variable has as many ellipses as in the pattern,
and the variables under an ellipsis come from one ellipsis of the pattern. -/
def checkTemplateVarReferences (tvs pvs : List (Id × List Cell)) : Bool :=
  (tvs.all fun tv =>
    match pvs.lookup tv.1 with
    | none => true
    | some ps => decide (ps.length ≤ tv.2.length)) &&
  (tvs.flatMap (references pvs)).all fun a =>
    (tvs.flatMap (references pvs)).all fun b => decide (a.1 = b.1 → a.2 = b.2)

/-- The checks of `parse-clause`. -/
def parseClause (pattern template : Form Id Atom) : Bool :=
  pattern.checkForMultipleSegments && decide pattern.vars.Nodup &&
    checkTemplateVarReferences (computeSegments template) (computeSegments pattern)

end

/-! ## The expander -/

mutual

def Nest.toDatum : Nest Id Atom → Datum Id Atom
  | .datum d => d
  | .seq items => .ofList (toData items) .null

def toData : List (Nest Id Atom) → List (Datum Id Atom)
  | [] => []
  | x :: items => x.toDatum :: toData items

end

def Binding.items (b : Binding Id Atom) : Except Fault (List (Binding Id Atom)) :=
  match b.datum with
  | .seq items => .ok (items.map fun datum => ⟨b.id, datum, b.depth - 1⟩)
  | .datum _ => .error .wrongType

def carItem : List (Binding Id Atom) → Except Fault (Binding Id Atom)
  | [] => .error .wrongType
  | b :: _ => .ok b

/-- The loop of `unwrap-dict`: it ends with the first list of items. -/
def unwrapLoop (nonSeg : Dict Id Atom) :
    List (Binding Id Atom) → List (List (Binding Id Atom)) → Except Fault (List (Dict Id Atom))
  | [], _ => .ok []
  | b :: first, rest => do
    let heads ← rest.mapM carItem
    let dicts ← unwrapLoop nonSeg first (rest.map List.tail)
    return (nonSeg ++ b :: heads) :: dicts

def unwrapItems (nonSeg : Dict Id Atom) :
    List (List (Binding Id Atom)) → Except Fault (List (Dict Id Atom))
  | [] => .ok []
  | first :: rest => unwrapLoop nonSeg first rest

section
variable [DecidableEq Id]

def unwrapDict (dict : Dict Id Atom) (ids : List Id) : Except Fault (List (Dict Id Atom)) := do
  let bindings := dict.filter (·.id ∈ ids)
  unwrapItems (bindings.filter (¬ 0 < ·.depth))
    (← (bindings.filter (0 < ·.depth)).mapM Binding.items)

def appendMap {α β : Type} (f : α → Except Fault (List β)) (as : List α) :
    Except Fault (List β) := do
  return (← as.mapM f).flatten

variable (rename : Id → Id) (underscore : Id)

mutual

/-- The loop of `syntax-rules:expand-template`. -/
def expand : Form Id Atom → Dict Id Atom → Except Fault (Datum Id Atom)
  | .list elts, dict => do return .ofList (← expandElts elts dict) .null
  | .vector elts, dict => do return .vector (← expandElts elts dict)
  | .dottedList elts tail, dict => do
    let ds ← expandElts elts dict
    return .ofList ds (← expand tail dict)
  | .var v, dict =>
    match lookup v dict with
    | some b => .ok b.datum.toDatum
    | none => .ok (.ident (rename v))
  | .literalId literal, _ => .ok (.ident literal)
  | .literal literal, _ => .ok (.atom literal)
  | .anonVar, _ => .ok (.ident (rename underscore))

/-- `expand-segment`; the variables of a segment are those of its body. -/
def expandSegment : Elt Id Atom → Dict Id Atom → Except Fault (List (Datum Id Atom))
  | .one form, dict => do return [← expand form dict]
  | .segment body, dict => do
    appendMap (expandSegment body) (← unwrapDict dict body.vars)

def expandElts : List (Elt Id Atom) → Dict Id Atom → Except Fault (List (Datum Id Atom))
  | [], _ => .ok []
  | e :: elts, dict => do
    let ds ← expandSegment e dict
    return ds ++ (← expandElts elts dict)

end

def syntaxRulesExpandTemplate (template : Form Id Atom) (dict : Dict Id Atom) :
    Except Fault (Datum Id Atom) :=
  expand rename underscore template dict

end

/-! ## Instances by R7RS 4.3.2 -/

abbrev Env (Id Atom : Type) := Id → Option (Nest Id Atom)

def Env.items (env : Env Id Atom) (v : Id) : Option (List (Nest Id Atom)) :=
  match env v with
  | some (.seq items) => some items
  | _ => none

def Env.step (env : Env Id Atom) (i : Nat) : Env Id Atom := fun v =>
  match env v with
  | some (.seq items) => items[i]?
  | x => x

/-- How often an element with these variables is repeated: once for each item of a
variable that stands for a sequence. -/
def Env.repetitions (env : Env Id Atom) (vars : List Id) : Nat :=
  ((vars.findSome? env.items).map List.length).getD 0

section
variable (rename : Id → Id) (underscore : Id)

mutual

/-- The instance of a template: variables are replaced, all other identifiers are
renamed, and an element is repeated for each of its ellipses. -/
def instantiate : Form Id Atom → Env Id Atom → Datum Id Atom
  | .list elts, env => .ofList (instantiateElts elts env) .null
  | .vector elts, env => .vector (instantiateElts elts env)
  | .dottedList elts tail, env => .ofList (instantiateElts elts env) (instantiate tail env)
  | .var v, env =>
    match env v with
    | some x => x.toDatum
    | none => .ident (rename v)
  | .literalId literal, _ => .ident (rename literal)
  | .literal literal, _ => .atom literal
  | .anonVar, _ => .ident (rename underscore)

def instantiateElt : Elt Id Atom → Env Id Atom → List (Datum Id Atom)
  | .one form, env => [instantiate form env]
  | .segment body, env =>
    (List.range (env.repetitions body.vars)).flatMap fun i => instantiateElt body (env.step i)

def instantiateElts : List (Elt Id Atom) → Env Id Atom → List (Datum Id Atom)
  | [], _ => []
  | e :: elts, env => instantiateElt e env ++ instantiateElts elts env

end

end

structure Env.Matched (rename : Id → Id) (compare : Id → Id → Bool) (env : Env Id Atom)
    (pattern : Form Id Atom) (datum : Datum Id Atom) : Prop where
  vars : ∀ v ∈ pattern.vars,
    ∃ x, env v = some x ∧ Corresponds rename compare pattern datum v x
  other : ∀ v ∉ pattern.vars, env v = none

end MitScheme.Runtime.SyntaxRules
