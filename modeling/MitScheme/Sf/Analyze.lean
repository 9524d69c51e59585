import MitScheme.Sf.Expression

/-! # The static analyses of SF

The six predicates of `analyze.scm` that the simplifiers ask. Each dispatches
on the type of the expression; an object that is no expression, such as the
value marker of an open block, has no method, and the dispatch signals an
error. So does `last` of an empty list. -/

namespace MitScheme.Sf.Expression

inductive Fault
  | notAnExpression
  | badRange
  deriving DecidableEq

abbrev Answer := Except Fault Bool

namespace Answer

def and (p : Answer) (q : Unit → Answer) : Answer :=
  match p with
  | .ok true => q ()
  | other => other

def or (p : Answer) (q : Unit → Answer) : Answer :=
  match p with
  | .ok false => q ()
  | other => other

end Answer

/-! ## `expression/always-false?` and `expression/never-false?` -/

mutual

/-- `expression/always-false?`. -/
def alwaysFalseP : Expression → Answer
  | .access _ _ | .assignment _ _ | .delay _ | .procedure _ _ _ _ | .quotation _ | .reference _
  | .theEnvironment => .ok false
  | .combination operator operands =>
    if callToNotP operator operands then neverFalseFirst operands
    else match operator with
      | .procedure _ _ _ body => alwaysFalseP body
      | _ => .ok false
  | .conditional predicate consequent alternative =>
    .and (.or (alwaysFalseP predicate) fun _ => alwaysFalseP consequent)
      fun _ => .or (neverFalseP predicate) fun _ => alwaysFalseP alternative
  | .constant value => .ok (value = Object.sharpF)
  | .declaration expression => alwaysFalseP expression
  | .disjunction predicate alternative =>
    .and (alwaysFalseP predicate) fun _ => alwaysFalseP alternative
  | .openBlock _ _ actions => alwaysFalseBody actions
  | .sequence actions => alwaysFalseLast actions

def alwaysFalseFirst : List Expression → Answer
  | [] => .error .badRange
  | e :: _ => alwaysFalseP e

def alwaysFalseLast : List Expression → Answer
  | [] => .error .badRange
  | [e] => alwaysFalseP e
  | _ :: e :: rest => alwaysFalseLast (e :: rest)

def alwaysFalseBody : List (Option Expression) → Answer
  | [] => .error .badRange
  | [none] => .error .notAnExpression
  | [some e] => alwaysFalseP e
  | _ :: e :: rest => alwaysFalseBody (e :: rest)

/-- `expression/never-false?`. -/
def neverFalseP : Expression → Answer
  | .access _ _ | .assignment _ _ | .quotation _ | .reference _ => .ok false
  | .combination operator operands =>
    if callToNotP operator operands then alwaysFalseFirst operands
    else match operator with
      | .procedure _ _ _ body => neverFalseP body
      | _ => .ok false
  | .conditional predicate consequent alternative =>
    .and (.or (alwaysFalseP predicate) fun _ => neverFalseP consequent)
      fun _ => .or (neverFalseP predicate) fun _ => neverFalseP alternative
  | .constant value => .ok (value ≠ Object.sharpF)
  | .declaration expression => neverFalseP expression
  | .delay _ | .procedure _ _ _ _ | .theEnvironment => .ok true
  | .disjunction predicate alternative =>
    .or (neverFalseP predicate) fun _ => neverFalseP alternative
  | .openBlock _ _ actions => neverFalseBody actions
  | .sequence actions => neverFalseLast actions

def neverFalseFirst : List Expression → Answer
  | [] => .error .badRange
  | e :: _ => neverFalseP e

def neverFalseLast : List Expression → Answer
  | [] => .error .badRange
  | [e] => neverFalseP e
  | _ :: e :: rest => neverFalseLast (e :: rest)

def neverFalseBody : List (Option Expression) → Answer
  | [] => .error .badRange
  | [none] => .error .notAnExpression
  | [some e] => neverFalseP e
  | _ :: e :: rest => neverFalseBody (e :: rest)

end

/-! ## `expression/boolean?` -/

mutual

/-- `expression/boolean?`. A combination asks the runtime's `boolean?` of the
body of its operator, which is a vector: the answer is always `#f`. -/
def booleanP : Expression → Answer
  | .access _ _ | .assignment _ _ | .delay _ | .procedure _ _ _ _ | .quotation _ | .reference _
  | .theEnvironment => .ok false
  | .combination operator operands => .ok (callToBooleanPredicateP operator operands)
  | .conditional predicate consequent alternative =>
    .and (.or (alwaysFalseP predicate) fun _ => booleanP consequent)
      fun _ => .or (neverFalseP predicate) fun _ => booleanP alternative
  | .constant value => .ok (value = Object.sharpF ∨ value = Object.sharpT)
  | .declaration expression => booleanP expression
  | .disjunction predicate alternative =>
    .and (booleanP predicate) fun _ =>
      .or (neverFalseP predicate) fun _ => booleanP alternative
  | .openBlock _ _ actions => booleanBody actions
  | .sequence actions => booleanLast actions

def booleanLast : List Expression → Answer
  | [] => .error .badRange
  | [e] => booleanP e
  | _ :: e :: rest => booleanLast (e :: rest)

def booleanBody : List (Option Expression) → Answer
  | [] => .error .badRange
  | [none] => .error .notAnExpression
  | [some e] => booleanP e
  | _ :: e :: rest => booleanBody (e :: rest)

end

/-! ## `expression/effect-free?` -/

mutual

/-- `expression/effect-free?`. -/
def effectFreeP : Expression → Answer
  | .access environment _ => effectFreeP environment
  | .assignment _ _ | .openBlock _ _ _ | .quotation _ => .ok false
  | .combination operator operands =>
    .and (everyEffectFree operands) fun _ =>
      if callToEffectFreePrimitiveP operator operands then .ok true
      else match operator with
        | .procedure _ _ _ body => effectFreeP body
        | _ => .ok false
  | .conditional predicate consequent alternative =>
    .and (effectFreeP predicate) fun _ =>
      .and (.or (alwaysFalseP predicate) fun _ => effectFreeP consequent)
        fun _ => .or (neverFalseP predicate) fun _ => effectFreeP alternative
  | .constant _ | .delay _ | .procedure _ _ _ _ | .reference _ | .theEnvironment => .ok true
  | .declaration expression => effectFreeP expression
  | .disjunction predicate alternative =>
    .and (effectFreeP predicate) fun _ =>
      .or (neverFalseP predicate) fun _ => effectFreeP alternative
  | .sequence actions => everyEffectFree actions

def everyEffectFree : List Expression → Answer
  | [] => .ok true
  | e :: rest => .and (effectFreeP e) fun _ => everyEffectFree rest

end

/-! ## `expression/pure-false?` and `expression/pure-true?` -/

mutual

/-- `expression/pure-false?`. -/
def pureFalseP : Expression → Answer
  | .access _ _ | .assignment _ _ | .delay _ | .openBlock _ _ _ | .procedure _ _ _ _
  | .quotation _ | .reference _ | .theEnvironment => .ok false
  | .combination operator operands =>
    if callToNotP operator operands then pureTrueFirst operands
    else match operator with
      | .procedure _ _ _ body => .and (everyEffectFree operands) fun _ => pureFalseP body
      | _ => .ok false
  | .conditional predicate consequent alternative =>
    .and (effectFreeP predicate) fun _ =>
      .and (.or (alwaysFalseP predicate) fun _ => pureFalseP consequent)
        fun _ => .or (neverFalseP predicate) fun _ => pureFalseP alternative
  | .constant value => .ok (value = Object.sharpF)
  | .declaration expression => pureFalseP expression
  | .disjunction predicate alternative =>
    .and (pureFalseP predicate) fun _ => pureFalseP alternative
  | .sequence actions =>
    .and (everyEffectFree actions.dropLast) fun _ => pureFalseLast actions

def pureFalseFirst : List Expression → Answer
  | [] => .error .badRange
  | e :: _ => pureFalseP e

def pureFalseLast : List Expression → Answer
  | [] => .error .badRange
  | [e] => pureFalseP e
  | _ :: e :: rest => pureFalseLast (e :: rest)

/-- `expression/pure-true?`. -/
def pureTrueP : Expression → Answer
  | .access _ _ | .assignment _ _ | .delay _ | .openBlock _ _ _ | .procedure _ _ _ _
  | .quotation _ | .reference _ | .theEnvironment => .ok false
  | .combination operator operands =>
    if callToNotP operator operands then pureFalseFirst operands
    else match operator with
      | .procedure _ _ _ body => .and (everyEffectFree operands) fun _ => pureTrueP body
      | _ => .ok false
  | .conditional predicate consequent alternative =>
    .and (effectFreeP predicate) fun _ =>
      .and (.or (alwaysFalseP predicate) fun _ => pureTrueP consequent)
        fun _ => .or (neverFalseP predicate) fun _ => pureTrueP alternative
  | .constant value => .ok (value = Object.sharpT)
  | .declaration expression => pureTrueP expression
  | .disjunction predicate alternative =>
    .and (effectFreeP predicate) fun _ =>
      .and (booleanP predicate) fun _ => pureTrueP alternative
  | .sequence actions =>
    .and (everyEffectFree actions.dropLast) fun _ => pureTrueLast actions

def pureTrueFirst : List Expression → Answer
  | [] => .error .badRange
  | e :: _ => pureTrueP e

def pureTrueLast : List Expression → Answer
  | [] => .error .badRange
  | [e] => pureTrueP e
  | _ :: e :: rest => pureTrueLast (e :: rest)

end

/-! ## Combinations

The clauses of a combination, with the operator's body as an option. -/

section Combination
variable {operator : Expression} {operands : List Expression}

attribute [local simp] alwaysFalseP alwaysFalseLast alwaysFalseBody neverFalseP neverFalseLast
  neverFalseBody booleanP booleanLast booleanBody effectFreeP everyEffectFree pureFalseP
  pureFalseLast pureTrueP pureTrueLast

theorem alwaysFalseP_combination : alwaysFalseP (.combination operator operands) =
    if callToNotP operator operands then neverFalseFirst operands
    else operator.procedureBody.elim (.ok false) alwaysFalseP := by
  cases operator <;> simp [procedureBody]

theorem neverFalseP_combination : neverFalseP (.combination operator operands) =
    if callToNotP operator operands then alwaysFalseFirst operands
    else operator.procedureBody.elim (.ok false) neverFalseP := by
  cases operator <;> simp [procedureBody]

theorem effectFreeP_combination : effectFreeP (.combination operator operands) =
    .and (everyEffectFree operands) fun _ =>
      if callToEffectFreePrimitiveP operator operands then .ok true
      else operator.procedureBody.elim (.ok false) effectFreeP := by
  cases operator <;> simp [procedureBody]

theorem pureFalseP_combination : pureFalseP (.combination operator operands) =
    if callToNotP operator operands then pureTrueFirst operands
    else operator.procedureBody.elim (.ok false) fun body =>
      .and (everyEffectFree operands) fun _ => pureFalseP body := by
  cases operator <;> simp [procedureBody]

theorem pureTrueP_combination : pureTrueP (.combination operator operands) =
    if callToNotP operator operands then pureFalseFirst operands
    else operator.procedureBody.elim (.ok false) fun body =>
      .and (everyEffectFree operands) fun _ => pureTrueP body := by
  cases operator <;> simp [procedureBody]

end Combination

end MitScheme.Sf.Expression
