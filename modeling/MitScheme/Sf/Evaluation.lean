import MitScheme.Sf.Expression

/-! # Evaluating SF expressions

A reference evaluation with a heap, for the analyses and the simplifiers to be
measured against. It gives a value and a trace of effects: assignments,
definitions and applications of procedures that are not known where they are
called. Operands are evaluated in any order. An evaluation that signals an
error has no derivation. -/

namespace MitScheme.Sf

/-! ## Known primitives -/

/-- What a primitive that only looks at its arguments returns: the type tests
and comparisons of objects, which end in `BOOLEAN_TO_OBJECT`, and `object-type`. -/
def Primitive.inspect : Primitive → List Object → Option Object
  | .eqP, [x, y] => some (.ofBool (x = y))
  | .not, [x] => some (.ofBool (x = .sharpF))
  | .nullP, [x] => some (.ofBool (x = .word 0x08 9))
  | .pairP, [x] => some (.ofBool (x.type = 0x01))
  | .charP, [x] => some (.ofBool (x.type = 0x02))
  | .flonumP, [x] => some (.ofBool (x.type = 0x06))
  | .vectorP, [x] => some (.ofBool (x.type = 0x0A))
  | .fixnumP, [x] => some (.ofBool (x.type = 0x1A))
  | .stringP, [x] => some (.ofBool (x.type = 0x1B ∨ x.type = 0x1E))
  | .bitStringP, [x] => some (.ofBool (x.type = 0x2F))
  | .cellP, [x] => some (.ofBool (x.type = 0x36))
  | .recordP, [x] => some (.ofBool (x.type = 0x3E))
  | .objectTypeP, [.word 0x1A code, x] => if code < 64 then some (.ofBool (x.type = code)) else none
  | .objectType, [x] => some (.word 0x1A x.type)
  | _, _ => none

def Primitive.comparesNumbers (p : Primitive) : Bool :=
  p ∈ primitiveBooleanPredicates ∧ p ∉ effectFreePrimitives

/-! ## The heap -/

/-- The frames of an environment, innermost first, by their addresses. -/
abbrev Frames := List Nat

inductive Cell
  | frame (bindings : List (Variable × Option Object))
  | environment (frames : Frames)
  | closure (frames : Frames) (procedure : Expression)
  | promise (frames : Frames) (expression : Expression)
  | pair (car cdr : Object)

abbrev Heap := List Cell

namespace Heap

def bindings (h : Heap) (address : Nat) : List (Variable × Option Object) :=
  match h[address]? with
  | some (.frame bindings) => bindings
  | _ => []

/-- The first binding that satisfies `p`, looking outward. -/
def find (h : Heap) (frames : Frames) (p : Variable → Bool) : Option (Variable × Option Object) :=
  frames.findSome? fun address => (h.bindings address).find? (p ·.1)

def lookup (h : Heap) (frames : Frames) (p : Variable → Bool) : Option Object :=
  (h.find frames p).bind (·.2)

def update (h : Heap) (address : Nat) (var : Variable) (value : Object) : Heap :=
  h.set address (.frame ((h.bindings address).map fun b =>
    if b.1 = var then (var, some value) else b))

/-- Assignment of the innermost binding; the result is the old value. -/
def assign (h : Heap) : Frames → Variable → Object → Option (Object × Heap)
  | [], _, _ => none
  | address :: outer, var, value =>
    match (h.bindings address).find? (·.1 = var) with
    | some b => some (b.2.getD (.word 0x32 0), h.update address var value)
    | none => h.assign outer var value

/-- The variables of an open block are made in the innermost frame, unassigned. -/
def declare (h : Heap) (frames : Frames) (vars : List Variable) : Heap :=
  match frames with
  | [] => h
  | address :: _ => h.set address (.frame (vars.map (·, none) ++ h.bindings address))

def makeList (h : Heap) : List Object → Object × Heap
  | [] => (.word 0x08 9, h)
  | x :: rest =>
    let (tail, h) := h.makeList rest
    (.word 0x01 h.length, h ++ [.pair x tail])

end Heap

/-- The bindings of the parameters of a procedure; a missing optional argument
is `#!default`. -/
def bindOptional : List Variable → List Object → List (Variable × Option Object) × List Object
  | [], args => ([], args)
  | x :: xs, [] => ((x, some (.word 0x08 7)) :: (bindOptional xs []).1, [])
  | x :: xs, a :: args =>
    let (bound, left) := bindOptional xs args
    ((x, some a) :: bound, left)

/-- The frame of a call, with the heap after the rest list is made. -/
def enter (h : Heap) (required optional : List Variable) (rest : Option Variable)
    (args : List Object) : Option (Nat × Heap) :=
  if args.length < required.length then none
  else
    let fixed := required.zip ((args.take required.length).map some)
    let (chosen, left) := bindOptional optional (args.drop required.length)
    match rest with
    | some var =>
      let (list, h) := h.makeList left
      some (h.length, h ++ [.frame (fixed ++ chosen ++ [(var, some list)])])
    | none => if left = [] then some (h.length, h ++ [.frame (fixed ++ chosen)]) else none

/-! ## Evaluation -/

inductive Effect
  | assignment (var : Variable) (value : Object)
  | definition (var : Variable) (value : Object)
  | call (operator : Object) (operands : List Object)

/-- The parts of the machine that SF knows nothing about. -/
structure Machine where
  /-- the comparisons of numbers, which end in `BOOLEAN_TO_OBJECT` -/
  compare : Primitive → List Object → Option Bool
  /-- what applying any other procedure may do -/
  apply : Object → List Object → Heap → Object → Heap → List Effect → Prop

/-- What is evaluated: an expression, operands in any order, the actions of a
sequence, or the actions of an open block with the definitions still to make. -/
inductive Task
  | expression (e : Expression)
  | operands (es : List Expression)
  | actions (es : List Expression)
  | body (vars : List Variable) (values : List Expression) (actions : List (Option Expression))

/-- The operators of calls that are not known where they are written. -/
def UnknownOperator : Expression → Prop
  | .procedure _ _ _ _ => False
  | .constant (.primitive p) => p ∉ primitiveBooleanPredicates ∧ p ∉ effectFreePrimitives
  | _ => True

open Expression in
inductive Eval (m : Machine) : Frames → Task → Heap → List Object → Heap → List Effect → Prop
  | access {env e name h a frames v h' t} :
      Eval m env (.expression e) h [.word 0x12 a] h' t → h'[a]? = some (.environment frames) →
      h'.lookup frames (·.name = name) = some v →
      Eval m env (.expression (.access e name)) h [v] h' t
  /-- `THE_GLOBAL_ENV` is the object `#f`, its frame the last of every environment -/
  | accessGlobal {env e name h v h' t} :
      Eval m env (.expression e) h [.sharpF] h' t →
      h'.lookup env.getLast?.toList (·.name = name) = some v →
      Eval m env (.expression (.access e name)) h [v] h' t
  | assignment {env var e h v old h1 h2 t} :
      Eval m env (.expression e) h [v] h1 t → h1.assign env var v = some (old, h2) →
      Eval m env (.expression (.assignment var e)) h [old] h2 (t ++ [.assignment var v])
  | combination {env required optional rest body operands h args h1 t1 frame h2 v h3 t2} :
      Eval m env (.operands operands) h args h1 t1 →
      enter h1 required optional rest args = some (frame, h2) →
      Eval m (frame :: env) (.expression body) h2 [v] h3 t2 →
      Eval m env (.expression (.combination (.procedure required optional rest body) operands))
        h [v] h3 (t1 ++ t2)
  | inspect {env p operands h args v h' t} :
      Eval m env (.operands operands) h args h' t → p.inspect args = some v →
      Eval m env (.expression (.combination (.constant (.primitive p)) operands)) h [v] h' t
  | compare {env p operands h args b h' t} :
      Eval m env (.operands operands) h args h' t → p.comparesNumbers = true →
      m.compare p args = some b →
      Eval m env (.expression (.combination (.constant (.primitive p)) operands)) h [.ofBool b] h'
        (t ++ [.call (.primitive p) args])
  | callClosure {env operator operands h a args h1 t1 frames required optional rest body frame h2 v
      h3 t2} :
      UnknownOperator operator →
      Eval m env (.operands (operator :: operands)) h (.word 0x0F a :: args) h1 t1 →
      h1[a]? = some (.closure frames (.procedure required optional rest body)) →
      enter h1 required optional rest args = some (frame, h2) →
      Eval m (frame :: frames) (.expression body) h2 [v] h3 t2 →
      Eval m env (.expression (.combination operator operands)) h [v] h3
        (t1 ++ .call (.word 0x0F a) args :: t2)
  | callUnknown {env operator operands h f args h1 t1 v h2 t2} :
      UnknownOperator operator → Eval m env (.operands (operator :: operands)) h (f :: args) h1 t1 →
      m.apply f args h1 v h2 t2 →
      Eval m env (.expression (.combination operator operands)) h [v] h2 (t1 ++ .call f args :: t2)
  | consequent {env p c a h u h1 t1 v h2 t2} :
      Eval m env (.expression p) h [u] h1 t1 → u ≠ .sharpF →
      Eval m env (.expression c) h1 [v] h2 t2 →
      Eval m env (.expression (.conditional p c a)) h [v] h2 (t1 ++ t2)
  | alternative {env p c a h h1 t1 v h2 t2} :
      Eval m env (.expression p) h [.sharpF] h1 t1 → Eval m env (.expression a) h1 [v] h2 t2 →
      Eval m env (.expression (.conditional p c a)) h [v] h2 (t1 ++ t2)
  | constant {env h v} : Eval m env (.expression (.constant v)) h [v] h []
  | declaration {env e h v h' t} :
      Eval m env (.expression e) h [v] h' t →
      Eval m env (.expression (.declaration e)) h [v] h' t
  | delay {env e} {h : Heap} :
      Eval m env (.expression (.delay e)) h [.word 0x13 h.length] (h ++ [.promise env e]) []
  | taken {env p a h v h' t} :
      Eval m env (.expression p) h [v] h' t → v ≠ .sharpF →
      Eval m env (.expression (.disjunction p a)) h [v] h' t
  | otherwise {env p a h h1 t1 v h2 t2} :
      Eval m env (.expression p) h [.sharpF] h1 t1 → Eval m env (.expression a) h1 [v] h2 t2 →
      Eval m env (.expression (.disjunction p a)) h [v] h2 (t1 ++ t2)
  | openBlock {env vars values actions v h' t} {h : Heap} :
      Eval m env (.body vars values actions) (h.declare env vars) [v] h' t →
      Eval m env (.expression (.openBlock vars values actions)) h [v] h' t
  | procedure {env required optional rest body} {h : Heap} :
      Eval m env (.expression (.procedure required optional rest body)) h [.word 0x0F h.length]
        (h ++ [.closure env (.procedure required optional rest body)]) []
  /-- the value is the SCode that SF makes of the quoted expression -/
  | quotation {env e h v} : Eval m env (.expression (.quotation e)) h [v] h []
  | reference {env var v} {h : Heap} :
      h.lookup env (· = var) = some v → Eval m env (.expression (.reference var)) h [v] h []
  | sequence {env actions h v h' t} :
      Eval m env (.actions actions) h [v] h' t →
      Eval m env (.expression (.sequence actions)) h [v] h' t
  | theEnvironment {env} {h : Heap} :
      Eval m env (.expression .theEnvironment) h [.word 0x12 h.length] (h ++ [.environment env]) []
  | noOperands {env h} : Eval m env (.operands []) h [] h []
  | operand {env before e after h v h1 t1 left right h2 t2} :
      Eval m env (.expression e) h [v] h1 t1 →
      Eval m env (.operands (before ++ after)) h1 (left ++ right) h2 t2 →
      left.length = before.length →
      Eval m env (.operands (before ++ e :: after)) h (left ++ v :: right) h2 (t1 ++ t2)
  | lastAction {env e h v h' t} :
      Eval m env (.expression e) h [v] h' t → Eval m env (.actions [e]) h [v] h' t
  | action {env e next rest h u h1 t1 v h2 t2} :
      Eval m env (.expression e) h [u] h1 t1 → Eval m env (.actions (next :: rest)) h1 [v] h2 t2 →
      Eval m env (.actions (e :: next :: rest)) h [v] h2 (t1 ++ t2)
  | bodyLast {env e h v h' t} :
      Eval m env (.expression e) h [v] h' t → Eval m env (.body [] [] [some e]) h [v] h' t
  | bodyAction {env vars values e next rest h u h1 t1 v h2 t2} :
      Eval m env (.expression e) h [u] h1 t1 →
      Eval m env (.body vars values (next :: rest)) h1 [v] h2 t2 →
      Eval m env (.body vars values (some e :: next :: rest)) h [v] h2 (t1 ++ t2)
  /-- a definition returns the name of its variable, a symbol -/
  | bodyLastDefinition {env var e h v h1 t old h2 n} :
      Eval m env (.expression e) h [v] h1 t → h1.assign env var v = some (old, h2) →
      Eval m env (.body [var] [e] [none]) h [.word 0x1D n] h2 (t ++ [.definition var v])
  | bodyDefinition {env var vars e values next rest h u h1 t1 old h2 v h3 t2} :
      Eval m env (.expression e) h [u] h1 t1 → h1.assign env var u = some (old, h2) →
      Eval m env (.body vars values (next :: rest)) h2 [v] h3 t2 →
      Eval m env (.body (var :: vars) (e :: values) (none :: next :: rest)) h [v] h3
        (t1 ++ .definition var u :: t2)

end MitScheme.Sf
