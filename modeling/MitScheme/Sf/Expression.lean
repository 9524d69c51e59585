import Mathlib.Data.List.Basic
import Mathlib.Logic.Relation

/-! # The expressions of SF

`object.scm` gives SF fourteen types of expression. Their `scode` and `block`
slots are left out: no analysis reads them. The constants an expression holds
are objects of the microcode, a type code and a datum; the primitive
procedures that SF knows by name stand as their names. -/

namespace MitScheme.Sf

/-! ## Objects -/

/-- The primitives that `object.scm` lists by name, and any other. -/
inductive Primitive
  | recordP | less | equal | greater | bitStringP | cellP | charP | eqP | equalFixnumP | fixnumP
  | flonumEqualP | flonumGreaterP | flonumLessP | flonumNegativeP | flonumPositiveP | flonumZeroP
  | flonumP | greaterThanFixnumP | indexFixnumP | integerEqualP | integerGreaterP | integerLessP
  | integerNegativeP | integerPositiveP | integerZeroP | lessThanFixnumP | negativeFixnumP
  | negativeP | not | nullP | objectTypeP | pairP | positiveFixnumP | positiveP | stringP | vectorP
  | zeroFixnumP | zeroP | objectType
  | other (name : String) (arity : Option Nat)
  deriving DecidableEq

namespace Primitive

/-- `primitive-procedure-arity`; `none` takes any number of arguments. -/
def arity : Primitive → Option Nat
  | .less | .equal | .greater | .eqP | .equalFixnumP | .flonumEqualP | .flonumGreaterP
  | .flonumLessP | .greaterThanFixnumP | .integerEqualP | .integerGreaterP | .integerLessP
  | .lessThanFixnumP | .objectTypeP => some 2
  | .other _ arity => arity
  | _ => some 1

/-- `procedure-arity-valid?`. -/
def arityValidP (p : Primitive) (n : Nat) : Bool := p.arity.all (· == n)

end Primitive

inductive Object
  | word (type datum : Nat)
  | primitive (p : Primitive)
  deriving DecidableEq

namespace Object

def sharpF : Object := .word 0x00 0

def sharpT : Object := .word 0x08 0

/-- `BOOLEAN_TO_OBJECT`. -/
def ofBool (b : Bool) : Object := if b then sharpT else sharpF

/-- `OBJECT_TYPE`. -/
def type : Object → Nat
  | .word type _ => type
  | .primitive _ => 0x18

end Object

def primitiveBooleanPredicates : List Primitive :=
  [.recordP, .less, .equal, .greater, .bitStringP, .cellP, .charP, .eqP, .equalFixnumP, .fixnumP,
    .flonumEqualP, .flonumGreaterP, .flonumLessP, .flonumNegativeP, .flonumPositiveP, .flonumZeroP,
    .flonumP, .greaterThanFixnumP, .indexFixnumP, .integerEqualP, .integerGreaterP, .integerLessP,
    .integerNegativeP, .integerPositiveP, .integerZeroP, .lessThanFixnumP, .negativeFixnumP,
    .negativeP, .not, .nullP, .objectTypeP, .pairP, .positiveFixnumP, .positiveP, .stringP,
    .vectorP, .zeroFixnumP, .zeroP]

def effectFreePrimitives : List Primitive :=
  [.recordP, .bitStringP, .cellP, .charP, .eqP, .fixnumP, .flonumP, .not, .nullP, .objectType,
    .objectTypeP, .pairP, .stringP, .vectorP]

/-! ## Expressions -/

/-- A variable is known by its identity; the name is what `access` looks for. -/
structure Variable where
  id : Nat
  name : String
  deriving DecidableEq

/-- In the actions of an open block `none` is the value marker, which stands
for the definition of the next variable by the next value. -/
inductive Expression
  | access (environment : Expression) (name : String)
  | assignment (var : Variable) (value : Expression)
  | combination (operator : Expression) (operands : List Expression)
  | conditional (predicate consequent alternative : Expression)
  | constant (value : Object)
  | declaration (expression : Expression)
  | delay (expression : Expression)
  | disjunction (predicate alternative : Expression)
  | openBlock (vars : List Variable) (values : List Expression)
      (actions : List (Option Expression))
  | procedure (required optional : List Variable) (rest : Option Variable) (body : Expression)
  | quotation (expression : Expression)
  | reference (var : Variable)
  | sequence (actions : List Expression)
  | theEnvironment

namespace Expression

/-- `procedure?` with `procedure/body`. -/
def procedureBody : Expression → Option Expression
  | .procedure _ _ _ body => some body
  | _ => none

/-- The shape that the three tests of `object.scm` on calls to primitives share. -/
def callToP (p : Primitive → Bool) : Expression → List Expression → Bool
  | .constant (.primitive operator), operands => p operator && operator.arityValidP operands.length
  | _, _ => false

/-- `expression/call-to-boolean-predicate?`. -/
def callToBooleanPredicateP : Expression → List Expression → Bool :=
  callToP (· ∈ primitiveBooleanPredicates)

/-- `expression/call-to-effect-free-primitive?`. -/
def callToEffectFreePrimitiveP : Expression → List Expression → Bool :=
  callToP (· ∈ effectFreePrimitives)

/-- `expression/call-to-not?`. -/
def callToNotP : Expression → List Expression → Bool := callToP (· = .not)

def parts : Expression → List Expression
  | .access environment _ => [environment]
  | .assignment _ value => [value]
  | .combination operator operands => operator :: operands
  | .conditional predicate consequent alternative => [predicate, consequent, alternative]
  | .constant _ | .reference _ | .theEnvironment => []
  | .declaration expression | .delay expression | .quotation expression => [expression]
  | .disjunction predicate alternative => [predicate, alternative]
  | .openBlock _ values actions => values ++ actions.filterMap id
  | .procedure _ _ _ body => [body]
  | .sequence actions => actions

/-- `s` occurs in `e`. -/
def Within (e s : Expression) : Prop := Relation.ReflTransGen (fun e s => s ∈ e.parts) e s

theorem sizeOf_lt_of_mem_parts {e s : Expression} (h : s ∈ e.parts) : sizeOf s < sizeOf e := by
  have hlist : ∀ {es : List Expression}, s ∈ es → sizeOf s < sizeOf es := List.sizeOf_lt_of_mem
  cases e with
  | access | assignment | declaration | delay | quotation | procedure =>
    simp only [parts, List.mem_singleton] at h
    subst h
    simp only [access.sizeOf_spec, assignment.sizeOf_spec, declaration.sizeOf_spec,
      delay.sizeOf_spec, quotation.sizeOf_spec, procedure.sizeOf_spec]
    omega
  | combination operator operands =>
    rw [combination.sizeOf_spec]
    rcases List.mem_cons.mp h with rfl | h
    · omega
    · have := hlist h
      omega
  | conditional p c a =>
    rw [conditional.sizeOf_spec]
    simp only [parts, List.mem_cons, List.not_mem_nil, or_false] at h
    rcases h with rfl | rfl | rfl <;> omega
  | constant | reference | theEnvironment => exact absurd h List.not_mem_nil
  | disjunction p a =>
    rw [disjunction.sizeOf_spec]
    simp only [parts, List.mem_cons, List.not_mem_nil, or_false] at h
    rcases h with rfl | rfl <;> omega
  | openBlock vars values actions =>
    rw [openBlock.sizeOf_spec]
    rcases List.mem_append.mp h with h | h
    · have := hlist h
      omega
    · obtain ⟨a, ha, he⟩ := List.mem_filterMap.mp h
      have h1 := List.sizeOf_lt_of_mem ha
      have h2 : sizeOf (some s) = 1 + sizeOf s := by simp
      rw [show a = some s from he, h2] at h1
      omega
  | sequence actions =>
    have := hlist (show s ∈ actions from h)
    rw [sequence.sizeOf_spec]
    omega

theorem induction_on_parts {P : Expression → Prop} (step : ∀ e, (∀ s ∈ e.parts, P s) → P e)
    (e : Expression) : P e := by
  induction h : sizeOf e using Nat.strongRecOn generalizing e with
  | _ n ih =>
    subst h
    exact step e fun s hs => ih _ (sizeOf_lt_of_mem_parts hs) s rfl

/-! ## Legal expressions -/

/-- What the constructors promise of a node: a sequence has an action, and an
open block has one, with a marker for each of its variables and values. -/
def LegalNode : Expression → Prop
  | .sequence actions => actions ≠ []
  | .openBlock vars values actions =>
    actions ≠ [] ∧ actions.countP Option.isNone = values.length ∧ vars.length = values.length
  | _ => True

def Legal (e : Expression) : Prop := ∀ s, Within e s → LegalNode s

theorem Legal.node {e} (h : Legal e) : LegalNode e := h e Relation.ReflTransGen.refl

theorem Legal.part {e s} (h : Legal e) (hs : s ∈ e.parts) : Legal s :=
  fun t ht => h t (Relation.ReflTransGen.head hs ht)

end Expression

end MitScheme.Sf
