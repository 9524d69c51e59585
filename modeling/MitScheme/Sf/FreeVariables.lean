import MitScheme.Sf.AnalyzeSound

/-! # The free variables of SF

The three analyses of `analyze.scm` that look for free variables. The block of a procedure or of an
open block is a slot that the expressions leave out: `bound` gives the `block/bound-variables` of
it. Counts are not near the largest fixnum. -/

namespace MitScheme.Sf
namespace Expression

/-! ## `expression/free-variables` -/

def lsetUnion (answer found : List Variable) : List Variable :=
  found.foldl (fun answer var => if var ∈ answer then answer else var :: answer) answer

def lsetDifference (found omitted : List Variable) : List Variable :=
  found.filter (· ∉ omitted)

/-- A set of variables, or the error of the predicate that was asked on the way. -/
abbrev Variables := Except Fault (List Variable)

namespace Variables

def union (p q : Variables) : Variables := do return lsetUnion (← p) (← q)

def difference (p : Variables) (omitted : List Variable) : Variables := do
  return lsetDifference (← p) omitted

/-- `(if test (no-free-variables) found)`. -/
def onlyUnless (test : Answer) (found : Unit → Variables) : Variables := do
  if ← test then return [] else found ()

end Variables

section Analyses
variable (bound : Expression → List Variable)

mutual

def freeVariables : Expression → Variables
  | .access environment _ => freeVariables environment
  | .assignment var value => .union (freeVariables value) (.ok [var])
  | .combination operator operands =>
    .union (freeVariables operator) (expressionsFreeVariables operands (.ok []))
  | .conditional predicate consequent alternative =>
    .union
      (.union (freeVariables predicate)
        (.onlyUnless (alwaysFalseP predicate) fun _ => freeVariables consequent))
      (.onlyUnless (neverFalseP predicate) fun _ => freeVariables alternative)
  | .constant _ | .quotation _ | .theEnvironment => .ok []
  | .declaration expression | .delay expression => freeVariables expression
  | .disjunction predicate alternative =>
    .union (freeVariables predicate)
      (.onlyUnless (neverFalseP predicate) fun _ => freeVariables alternative)
  | .openBlock vars values actions =>
    actionsFreeVariables (bound (.openBlock vars values actions)) actions
      (.difference (expressionsFreeVariables values (.ok []))
        (bound (.openBlock vars values actions)))
  | .procedure required optional rest body =>
    .difference (freeVariables body) (bound (.procedure required optional rest body))
  | .reference var => .ok [var]
  | .sequence actions => expressionsFreeVariables actions (.ok [])

def expressionsFreeVariables : List Expression → Variables → Variables
  | [], answer => answer
  | e :: rest, answer => expressionsFreeVariables rest (.union answer (freeVariables e))

def actionsFreeVariables (omitted : List Variable) :
    List (Option Expression) → Variables → Variables
  | [], answer => answer
  | none :: rest, answer => actionsFreeVariables omitted rest answer
  | some e :: rest, answer =>
    actionsFreeVariables omitted rest (.union answer (.difference (freeVariables e) omitted))

end

/-! ## `expression/free-variable?` -/

mutual

/-- `expression/free-variable?`. -/
def freeVariableP (var : Variable) : Expression → Answer
  | .access environment _ => freeVariableP var environment
  | .assignment var' value => .or (.ok (var = var')) fun _ => freeVariableP var value
  | .combination operator operands =>
    .or (freeVariableP var operator) fun _ => expressionsFreeVariableP var operands (.ok false)
  | .conditional predicate consequent alternative =>
    .or (freeVariableP var predicate) fun _ => do
      if ← alwaysFalseP predicate then freeVariableP var alternative
      else if ← neverFalseP predicate then freeVariableP var consequent
      else Answer.or (freeVariableP var consequent) fun _ => freeVariableP var alternative
  | .constant _ | .quotation _ | .theEnvironment => .ok false
  | .declaration expression | .delay expression => freeVariableP var expression
  | .disjunction predicate alternative =>
    .or (freeVariableP var predicate) fun _ => do
      if ← neverFalseP predicate then return false else freeVariableP var alternative
  | .openBlock _ _ actions => actionsFreeVariableP var actions (.ok false)
  | .procedure _ _ _ body => freeVariableP var body
  | .reference var' => .ok (var' = var)
  | .sequence actions => expressionsFreeVariableP var actions (.ok false)

def expressionsFreeVariableP (var : Variable) : List Expression → Answer → Answer
  | [], answer => answer
  | e :: rest, answer =>
    expressionsFreeVariableP var rest (.or answer fun _ => freeVariableP var e)

def actionsFreeVariableP (var : Variable) : List (Option Expression) → Answer → Answer
  | [], answer => answer
  | none :: rest, answer => actionsFreeVariableP var rest (.or answer fun _ => .ok false)
  | some e :: rest, answer =>
    actionsFreeVariableP var rest (.or answer fun _ => freeVariableP var e)

end

/-! ## `expression/free-variable-info` -/

/-- What the analysis hands on: a pair of counts, or `#t` in the place of one. -/
inductive Info
  | pair (operator argument : Nat)
  | sharpT

namespace Info

/-- `(cons (fix:1+ (car info)) (cdr info))`; `#t` has no `car`. -/
def countOperator : Info → Option Info
  | .pair operator argument => some (.pair (operator + 1) argument)
  | .sharpT => none

/-- `(cons (car info) (fix:1+ (cdr info)))`. -/
def countArgument : Info → Option Info
  | .pair operator argument => some (.pair operator (argument + 1))
  | .sharpT => none

end Info

/-- `reference?` of the variable. -/
def referenceToP (var : Variable) : Expression → Bool
  | .reference var' => var' = var
  | _ => false

mutual

/-- `expression/free-variable-info-dispatch`. -/
def freeVariableInfoDispatch (var : Variable) : Expression → Info → Option Info
  | .access environment _, info => freeVariableInfoDispatch var environment info
  | .assignment var' value, info =>
    if var = var' then some .sharpT else freeVariableInfoDispatch var value info
  | .combination operator operands, info =>
    (expressionsFreeVariableInfo var operands info).bind fun inner =>
      if referenceToP var operator then inner.countOperator
      else freeVariableInfoDispatch var operator inner
  | .conditional predicate consequent alternative, info =>
    ((freeVariableInfoDispatch var alternative info).bind fun info =>
      freeVariableInfoDispatch var consequent info).bind fun info =>
        freeVariableInfoDispatch var predicate info
  | .constant _, info | .quotation _, info | .theEnvironment, info => some info
  | .declaration expression, info | .delay expression, info =>
    freeVariableInfoDispatch var expression info
  | .disjunction predicate alternative, info =>
    (freeVariableInfoDispatch var alternative info).bind fun info =>
      freeVariableInfoDispatch var predicate info
  | .openBlock _ _ actions, info => actionsFreeVariableInfo var actions info
  | .procedure _ _ _ body, info => freeVariableInfoDispatch var body info
  | .reference var', info => if var' = var then info.countArgument else some info
  | .sequence actions, info => expressionsFreeVariableInfo var actions info

def expressionsFreeVariableInfo (var : Variable) : List Expression → Info → Option Info
  | [], info => some info
  | e :: rest, info =>
    (freeVariableInfoDispatch var e info).bind fun info =>
      expressionsFreeVariableInfo var rest info

def actionsFreeVariableInfo (var : Variable) : List (Option Expression) → Info → Option Info
  | [], info => some info
  | none :: rest, info => actionsFreeVariableInfo var rest info
  | some e :: rest, info =>
    (freeVariableInfoDispatch var e info).bind fun info => actionsFreeVariableInfo var rest info

end

/-- `expression/free-variable-info`. -/
def freeVariableInfo (e : Expression) (var : Variable) : Option Info :=
  freeVariableInfoDispatch var e (.pair 0 0)

end Analyses

/-! ## Occurrences -/

def ReferenceTo (e : Expression) (v : Variable) : Prop := referenceToP v e = true

def AssignmentTo : Expression → Variable → Prop
  | .assignment var _, v => v = var
  | _, _ => False

def Mentions (e : Expression) (v : Variable) : Prop := ReferenceTo e v ∨ AssignmentTo e v

/-- `e`, or an expression that `next` leads to, `is` of the variable, and no expression on the way
hides it. -/
inductive Occurs (is : Expression → Variable → Prop) (next : Expression → Expression → Prop)
    (hides : Expression → Variable → Prop) : Expression → Variable → Prop
  | here {e v} (h : is e v) : Occurs is next hides e v
  | inside {e s v} (hv : ¬ hides e v) (hs : next e s) (h : Occurs is next hides s v) :
      Occurs is next hides e v

section
variable {is : Expression → Variable → Prop} {next next' : Expression → Expression → Prop}
  {hides hides' : Expression → Variable → Prop} {e : Expression} {v : Variable}

theorem occurs_iff : Occurs is next hides e v ↔
    is e v ∨ ¬ hides e v ∧ ∃ s, next e s ∧ Occurs is next hides s v := by
  constructor
  · intro h
    cases h with
    | here h => exact .inl h
    | inside hv hs h => exact .inr ⟨hv, _, hs, h⟩
  · rintro (h | ⟨hv, s, hs, h⟩)
    · exact .here h
    · exact .inside hv hs h

theorem occurs_unhidden_iff : Occurs is next (fun _ _ => False) e v ↔
    is e v ∨ ∃ s, next e s ∧ Occurs is next (fun _ _ => False) s v :=
  occurs_iff.trans (or_congr_right (and_iff_right not_false))

theorem Occurs.mono (h : Occurs is next hides e v) (hparts : ∀ e s, next e s → s ∈ e.parts)
    (hnext : ∀ e s, next e s → next' e s)
    (hhides : ∀ s, Within e s → hides' s v → hides s v) : Occurs is next' hides' e v := by
  induction h with
  | here h => exact .here h
  | inside hv hs _ ih =>
    exact .inside (fun hv' => hv (hhides _ .refl hv')) (hnext _ _ hs)
      (ih fun s hwithin => hhides s (.head (hparts _ _ hs) hwithin))

end

def Live : Expression → Expression → Prop
  | .conditional p c a, s =>
    s = p ∨ (s = c ∧ alwaysFalseP p ≠ .ok true) ∨ (s = a ∧ neverFalseP p ≠ .ok true)
  | .disjunction p a, s => s = p ∨ (s = a ∧ neverFalseP p ≠ .ok true)
  | .quotation _, _ => False
  | e, s => s ∈ e.parts

def LiveAction : Expression → Expression → Prop
  | .openBlock _ _ actions, s => some s ∈ actions
  | e, s => Live e s

def Counted : Expression → Expression → Prop
  | .openBlock _ _ actions, s => some s ∈ actions
  | .quotation _, _ => False
  | e, s => s ∈ e.parts

/-- The parts that can be evaluated when the expression is: those of a procedure or a delay when
the object that is made of it is used. -/
def Evaluated (m : Machine) : Expression → Expression → Prop
  | .conditional p c a, s =>
    s = p ∨ (s = c ∧ ∃ env h u h' t, Eval m env (.expression p) h [u] h' t ∧ u ≠ .sharpF) ∨
      (s = a ∧ ∃ env h h' t, Eval m env (.expression p) h [.sharpF] h' t)
  | .disjunction p a, s =>
    s = p ∨ (s = a ∧ ∃ env h h' t, Eval m env (.expression p) h [.sharpF] h' t)
  | .quotation _, _ => False
  | e, s => s ∈ e.parts

theorem live_of_evaluated {m e s} (h : Evaluated m e s) : Live e s := by
  have hsound {p : Expression} {env h u h' t} (heval : Eval m env (.expression p) h [u] h' t) :
      Sound p u t := taskSound_expression.mp (eval_sound heval)
  cases e with
  | conditional p c a =>
    rcases h with rfl | ⟨rfl, env, h, u, h', t, heval, hu⟩ | ⟨rfl, env, h, h', t, heval⟩
    · exact .inl rfl
    · exact .inr (.inl ⟨rfl, fun hfalse => hu ((hsound heval).alwaysFalse hfalse)⟩)
    · exact .inr (.inr ⟨rfl, fun htrue => (hsound heval).neverFalse htrue rfl⟩)
  | disjunction p a =>
    rcases h with rfl | ⟨rfl, env, h, h', t, heval⟩
    · exact .inl rfl
    · exact .inr ⟨rfl, fun htrue => (hsound heval).neverFalse htrue rfl⟩
  | _ => exact h

theorem live_of_action {e s} (h : LiveAction e s) : Live e s := by
  cases e with
  | openBlock vars values actions =>
    exact List.mem_append_right values (List.mem_filterMap.mpr ⟨some s, h, rfl⟩)
  | _ => exact h

theorem part_of_live {e s} (h : Live e s) : s ∈ e.parts := by
  cases e with
  | conditional p c a =>
    rcases h with rfl | ⟨rfl, -⟩ | ⟨rfl, -⟩ <;> simp [parts]
  | disjunction p a =>
    rcases h with rfl | ⟨rfl, -⟩ <;> simp [parts]
  | quotation _ => exact h.elim
  | _ => exact h

/-! ## The predicates that are asked -/

def TestAnswers : Expression → Prop
  | .conditional p _ _ => Answers (alwaysFalseP p) ∧ Answers (neverFalseP p)
  | .disjunction p _ => Answers (neverFalseP p)
  | _ => True

def Decided (e : Expression) : Prop := ∀ s, Relation.ReflTransGen Live e s → TestAnswers s

theorem decided_iff {e} : Decided e ↔ TestAnswers e ∧ ∀ s, Live e s → Decided s := by
  constructor
  · exact fun h => ⟨h e .refl, fun s hs t ht => h t (.head hs ht)⟩
  · rintro ⟨he, hparts⟩ s hs
    rcases Relation.ReflTransGen.cases_head hs with rfl | ⟨t, ht, hs⟩
    · exact he
    · exact hparts t ht s hs

attribute [local simp] parts Live LiveAction Counted TestAnswers Mentions ReferenceTo AssignmentTo
  referenceToP

/-! ## What `expression/free-variables` returns -/

theorem mem_lsetUnion {answer found v} : v ∈ lsetUnion answer found ↔ v ∈ answer ∨ v ∈ found := by
  induction found generalizing answer with
  | nil => simp [lsetUnion]
  | cons x rest ih =>
    have hstep : lsetUnion answer (x :: rest) =
        lsetUnion (if x ∈ answer then answer else x :: answer) rest := rfl
    rw [hstep, ih, List.mem_cons]
    split
    · next hx =>
      constructor
      · exact Or.imp_right .inr
      · rintro (h | rfl | h)
        · exact .inl h
        · exact .inl hx
        · exact .inr h
    · rw [List.mem_cons, or_assoc, or_left_comm]

/-- The variables found, if `D`, are those of `M`; else an error is signalled. -/
def Returns (p : Variables) (D : Prop) (M : Variable → Prop) : Prop :=
  match p with
  | .ok found => D ∧ ∀ v, v ∈ found ↔ M v
  | .error _ => ¬ D

section
variable {p q : Variables} {D D' : Prop} {M M' : Variable → Prop}

theorem Returns.congr (h : Returns p D M) (hD : D ↔ D') (hM : ∀ v, M v ↔ M' v) :
    Returns p D' M' := by
  obtain rfl : D = D' := propext hD
  obtain rfl : M = M' := funext fun v => propext (hM v)
  exact h

theorem Returns.union (h : Returns p D M) (h' : Returns q D' M') :
    Returns (.union p q) (D ∧ D') fun v => M v ∨ M' v := by
  cases p with
  | error => exact fun hD => h hD.1
  | ok found =>
    cases q with
    | error => exact fun hD => h' hD.2
    | ok found' =>
      refine ⟨⟨h.1, h'.1⟩, fun v => ?_⟩
      rw [mem_lsetUnion, h.2, h'.2]

theorem Returns.difference (h : Returns p D M) (omitted) :
    Returns (.difference p omitted) D fun v => v ∉ omitted ∧ M v := by
  cases p with
  | error => exact h
  | ok found =>
    refine ⟨h.1, fun v => ?_⟩
    rw [lsetDifference, List.mem_filter, h.2, decide_eq_true_eq, and_comm]

theorem Returns.onlyUnless (h : Returns p D M) (test) :
    Returns (.onlyUnless test fun _ => p) (Answers test ∧ (test ≠ .ok true → D))
      fun v => test ≠ .ok true ∧ M v := by
  match test with
  | .error _ => exact fun hD => nomatch hD.1
  | .ok true => exact ⟨⟨⟨true, rfl⟩, fun hne => absurd rfl hne⟩, fun v => by simp⟩
  | .ok false =>
    have hne : (Except.ok false : Answer) ≠ .ok true := nofun
    exact h.congr ⟨fun hD => ⟨⟨false, rfl⟩, fun _ => hD⟩, fun hD => hD.2 hne⟩
      fun v => (and_iff_right hne).symm

theorem returns_ok (found) : Returns (.ok found) True (· ∈ found) :=
  ⟨trivial, fun _ => Iff.rfl⟩

end

section
variable (bound : Expression → List Variable)

def ownVariables : Expression → List Variable
  | .openBlock vars values actions => bound (.openBlock vars values actions)
  | .procedure required optional rest body => bound (.procedure required optional rest body)
  | _ => []

def Hides (e : Expression) (v : Variable) : Prop := v ∈ ownVariables bound e

attribute [local simp] ownVariables Hides

/-- `v` occurs free where the code does not show it to be dead. -/
abbrev OccursFree : Expression → Variable → Prop := Occurs Mentions Live (Hides bound)

theorem returns_expressions {es}
    (h : ∀ e ∈ es, Returns (freeVariables bound e) (Decided e) (OccursFree bound e)) {p}
    {D : Prop} {M : Variable → Prop} (hp : Returns p D M) :
    Returns (expressionsFreeVariables bound es p) (D ∧ ∀ e ∈ es, Decided e)
      fun v => M v ∨ ∃ e ∈ es, OccursFree bound e v := by
  induction es generalizing p D M with
  | nil => exact hp.congr (by simp) fun v => by simp
  | cons e rest ih =>
    refine (ih (fun e he => h e (List.mem_cons_of_mem _ he))
      (hp.union (h e List.mem_cons_self))).congr ?_ fun v => ?_
    · rw [List.forall_mem_cons, and_assoc]
    · rw [List.exists_mem_cons_iff, or_assoc]

theorem returns_actions {actions}
    (h : ∀ e, some e ∈ actions → Returns (freeVariables bound e) (Decided e) (OccursFree bound e))
    {omitted p} {D : Prop} {M : Variable → Prop} (hp : Returns p D M) :
    Returns (actionsFreeVariables bound omitted actions p)
      (D ∧ ∀ e, some e ∈ actions → Decided e)
      fun v => M v ∨ v ∉ omitted ∧ ∃ e, some e ∈ actions ∧ OccursFree bound e v := by
  induction actions generalizing p D M with
  | nil => exact hp.congr (by simp) fun v => by simp
  | cons a rest ih =>
    have ih {p D M} := @ih (fun e he => h e (List.mem_cons_of_mem _ he)) p D M
    cases a with
    | none =>
      refine (ih hp).congr ?_ fun v => ?_ <;> simp
    | some e =>
      refine (ih (hp.union ((h e List.mem_cons_self).difference omitted))).congr ?_ fun v => ?_
      · simp [and_assoc]
      · simp [or_and_right, exists_or, or_assoc, and_or_left]

theorem Returns.node {p} {D : Prop} {M : Variable → Prop} {e} (h : Returns p D M)
    (hD : D ↔ TestAnswers e ∧ ∀ s, Live e s → Decided s)
    (hM : ∀ v, M v ↔ e.Mentions v ∨ ¬ Hides bound e v ∧ ∃ s, Live e s ∧ OccursFree bound s v) :
    Returns p (Decided e) (OccursFree bound e) :=
  h.congr (hD.trans decided_iff.symm) fun v => (hM v).trans occurs_iff.symm

theorem freeVariables_returns (e) :
    Returns (freeVariables bound e) (Decided e) (OccursFree bound e) := by
  induction e using induction_on_parts with
  | step e ih =>
  cases e with rw [freeVariables]
  | access environment _ | declaration environment | delay environment =>
    refine (ih environment (by simp)).node bound ?_ fun v => ?_ <;> simp
  | assignment var value =>
    refine ((ih value (by simp)).union (returns_ok [var])).node bound ?_ fun v => ?_
    · simp
    · simp [or_comm, eq_comm]
  | combination operator operands =>
    refine ((ih operator (by simp)).union (returns_expressions bound
      (fun e he => ih e (List.mem_cons_of_mem _ he)) (returns_ok []))).node bound ?_ fun v => ?_ <;>
      simp
  | conditional p c a =>
    refine (((ih p (by simp)).union ((ih c (by simp)).onlyUnless _)).union
      ((ih a (by simp)).onlyUnless _)).node bound ?_ fun v => ?_
    · simp only [TestAnswers, Live, or_imp, forall_and, forall_eq, and_imp]
      tauto
    · simp [or_and_right, exists_or, or_assoc, and_assoc]
  | constant _ | quotation _ | theEnvironment =>
    refine (returns_ok []).node bound ?_ fun v => ?_ <;> simp
  | disjunction p a =>
    refine ((ih p (by simp)).union ((ih a (by simp)).onlyUnless _)).node bound ?_
      fun v => ?_
    · simp only [TestAnswers, Live, or_imp, forall_and, forall_eq, and_imp]
      tauto
    · simp [or_and_right, exists_or, and_assoc]
  | openBlock vars values actions =>
    refine (returns_actions bound
      (fun e he => ih e (by simp [he]))
      ((returns_expressions bound (fun e he => ih e (by simp [he]))
        (returns_ok [])).difference _)).node bound ?_ fun v => ?_
    · simp [or_imp, forall_and]
    · simp [or_and_right, exists_or, and_or_left]
  | procedure required optional rest body =>
    refine ((ih body (by simp)).difference _).node bound ?_ fun v => ?_ <;> simp
  | reference var =>
    refine (returns_ok [var]).node bound ?_ fun v => ?_ <;>
      simp [eq_comm]
  | sequence actions =>
    refine (returns_expressions bound (fun e he => ih e he) (returns_ok [])).node bound ?_
      fun v => ?_ <;> simp

end

/-! ## What `expression/free-variable?` answers -/

/-- The two predicates do not both say `#t`. -/
def Exclusive (e : Expression) : Prop :=
  alwaysFalseP e = .ok true → neverFalseP e = .ok true → False

/-- **No expression is shown to be false always and false never.** The induction carries the body
of an operator along. -/
theorem exclusive (e) : Exclusive e ∧ ∀ b, e.procedureBody = some b → Exclusive b := by
  induction e using induction_on_parts with
  | step e ih =>
  have hpart {s} (hs : s ∈ e.parts) : Exclusive s := (ih s hs).1
  cases e with
  | combination operator operands =>
    refine ⟨fun hfalse htrue => ?_, nofun⟩
    rw [alwaysFalseP_combination] at hfalse
    rw [neverFalseP_combination] at htrue
    split at hfalse
    · next hnot =>
      rw [if_pos hnot] at htrue
      cases operands with
      | nil => cases hfalse
      | cons e rest => exact hpart (by simp) htrue hfalse
    · next hnot =>
      rw [if_neg hnot] at htrue
      cases hbody : operator.procedureBody with
      | none => rw [hbody] at hfalse; cases hfalse
      | some body =>
        rw [hbody] at hfalse htrue
        exact (ih operator (by simp)).2 body hbody hfalse htrue
  | conditional p c a =>
    refine ⟨fun hfalse htrue => ?_, nofun⟩
    rw [alwaysFalseP, Answer.and_eq_true] at hfalse
    rw [neverFalseP, Answer.and_eq_true] at htrue
    have hp : Exclusive p := hpart (by simp)
    have hc : Exclusive c := hpart (by simp)
    have ha : Exclusive a := hpart (by simp)
    rcases Answer.or_eq_true hfalse.1 with hpf | hcf
    · have hat := (Answer.or_eq_true htrue.2).resolve_left fun hpt => hp hpf hpt
      exact ha ((Answer.or_eq_true hfalse.2).resolve_left fun hpt => hp hpf hpt) hat
    · have hpf := (Answer.or_eq_true htrue.1).resolve_right fun hct => hc hcf hct
      have hat := (Answer.or_eq_true htrue.2).resolve_left fun hpt => hp hpf hpt
      exact ha ((Answer.or_eq_true hfalse.2).resolve_left fun hpt => hp hpf hpt) hat
  | constant value =>
    refine ⟨?_, nofun⟩
    rw [Exclusive, alwaysFalseP, neverFalseP]
    simp +contextual
  | declaration expression =>
    refine ⟨?_, nofun⟩
    rw [Exclusive, alwaysFalseP, neverFalseP]
    exact hpart (by simp)
  | disjunction p a =>
    refine ⟨?_, nofun⟩
    rw [Exclusive, alwaysFalseP, neverFalseP, Answer.and_eq_true]
    rintro ⟨hp, ha⟩ htrue
    exact (Answer.or_eq_true htrue).elim (hpart (s := p) (by simp) hp) (hpart (s := a) (by simp) ha)
  | openBlock vars values actions =>
    refine ⟨?_, nofun⟩
    rw [Exclusive, alwaysFalseP, neverFalseP]
    by_cases hempty : actions = []
    · subst hempty
      exact nofun
    by_cases hend : actions.getLast? = some none
    · rw [alwaysFalseBody_marker hend]
      exact nofun
    obtain ⟨e, he, hf, ht, -⟩ := exists_last_action hempty hend
    rw [hf, ht]
    exact hpart (by simp [he])
  | sequence actions =>
    refine ⟨?_, nofun⟩
    rw [Exclusive, alwaysFalseP, neverFalseP]
    by_cases hempty : actions = []
    · subst hempty
      exact nofun
    obtain ⟨e, he, hf, ht, -⟩ := exists_last hempty
    rw [hf, ht]
    exact hpart he
  | procedure required optional rest body =>
    refine ⟨?_, ?_⟩
    · rw [Exclusive, alwaysFalseP]
      exact nofun
    · rintro b ⟨rfl⟩
      exact hpart (by simp)
  | _ =>
    refine ⟨?_, nofun⟩
    rw [Exclusive, alwaysFalseP]
    exact nofun

/-- The analysis answers, and it answers whether `P`. -/
def Tells (p : Answer) (P : Prop) : Prop := ∃ b, p = .ok b ∧ (b = true ↔ P)

section
variable {p q : Answer} {P Q : Prop}

theorem Tells.congr (h : Tells p P) (hP : P ↔ Q) : Tells p Q := by
  obtain ⟨b, hb, hiff⟩ := h
  exact ⟨b, hb, hiff.trans hP⟩

theorem Tells.or (hp : Tells p P) (hq : Tells q Q) : Tells (.or p fun _ => q) (P ∨ Q) := by
  obtain ⟨b, rfl, hP⟩ := hp
  cases b with
  | true => exact ⟨true, rfl, iff_of_true rfl (.inl (hP.mp rfl))⟩
  | false =>
    have hnot : ¬ P := fun h => Bool.false_ne_true (hP.mpr h)
    exact hq.congr (or_iff_right hnot).symm

theorem tells_decide (P : Prop) [Decidable P] : Tells (.ok (decide P)) P :=
  ⟨_, rfl, decide_eq_true_iff⟩

theorem tells_false : Tells (.ok false) False := tells_decide False

end

/-- `v` occurs, bound or not, outside the values of open blocks and not where the code shows it to
be dead. -/
abbrev OccursInActions : Expression → Variable → Prop :=
  Occurs Mentions LiveAction fun _ _ => False

theorem tells_expressions {v es} (h : ∀ e ∈ es, Tells (freeVariableP v e) (OccursInActions e v))
    {p} {P : Prop} (hp : Tells p P) :
    Tells (expressionsFreeVariableP v es p) (P ∨ ∃ e ∈ es, OccursInActions e v) := by
  induction es generalizing p P with
  | nil => exact hp.congr (by simp)
  | cons e rest ih =>
    refine (ih (fun e he => h e (List.mem_cons_of_mem _ he))
      (hp.or (h e List.mem_cons_self))).congr ?_
    rw [List.exists_mem_cons_iff, or_assoc]

theorem tells_actions {v actions}
    (h : ∀ e, some e ∈ actions → Tells (freeVariableP v e) (OccursInActions e v)) {p} {P : Prop}
    (hp : Tells p P) :
    Tells (actionsFreeVariableP v actions p) (P ∨ ∃ e, some e ∈ actions ∧ OccursInActions e v) := by
  induction actions generalizing p P with
  | nil => exact hp.congr (by simp)
  | cons a rest ih =>
    have ih {p P} := @ih (fun e he => h e (List.mem_cons_of_mem _ he)) p P
    cases a with
    | none =>
      refine (ih (hp.or tells_false)).congr ?_
      simp
    | some e =>
      refine (ih (hp.or (h e List.mem_cons_self))).congr ?_
      simp [or_and_right, exists_or, or_assoc]

theorem Tells.node {v p} {P : Prop} {e} (h : Tells p P)
    (hP : P ↔ e.Mentions v ∨ ∃ s, LiveAction e s ∧ OccursInActions s v) :
    Tells p (OccursInActions e v) :=
  h.congr (hP.trans occurs_unhidden_iff.symm)

theorem freeVariableP_tells (v e) (hdecided : Decided e) :
    Tells (freeVariableP v e) (OccursInActions e v) := by
  induction e using induction_on_parts with
  | step e ih =>
  obtain ⟨htest, hlive⟩ := decided_iff.mp hdecided
  have ih {s} (hs : Live e s) := ih s (part_of_live hs) (hlive s hs)
  cases e with
  | access environment _ | declaration environment | delay environment
  | procedure _ _ _ environment =>
    rw [freeVariableP]
    refine (ih (s := environment) (by simp)).node ?_
    simp
  | assignment var value =>
    rw [freeVariableP]
    refine ((tells_decide (v = var)).or (ih (s := value) (by simp))).node ?_
    simp [eq_comm]
  | combination operator operands =>
    rw [freeVariableP]
    refine ((ih (s := operator) (by simp)).or (tells_expressions
      (fun e he => ih (by simp [he])) tells_false)).node ?_
    simp
  | conditional p c a =>
    obtain ⟨⟨f, hf⟩, t, ht⟩ := htest
    have hp := ih (s := p) (.inl rfl)
    rw [freeVariableP, hf, ht]
    cases f with
    | true =>
      have hnever : neverFalseP p ≠ .ok true := fun h => (exclusive p).1 hf h
      refine (hp.or (ih (s := a) (.inr (.inr ⟨rfl, hnever⟩)))).node ?_
      simp [hf, hnever]
    | false =>
      have hc := ih (s := c) (.inr (.inl ⟨rfl, by rw [hf]; nofun⟩))
      cases t with
      | true =>
        refine (hp.or hc).node ?_
        simp [hf, ht]
      | false =>
        have ha := ih (s := a) (.inr (.inr ⟨rfl, by rw [ht]; nofun⟩))
        refine (hp.or (hc.or ha)).node ?_
        simp [hf, ht]
  | constant _ | quotation _ | theEnvironment =>
    rw [freeVariableP]
    refine tells_false.node ?_
    simp
  | disjunction p a =>
    obtain ⟨t, ht⟩ := htest
    have hp := ih (s := p) (.inl rfl)
    rw [freeVariableP, ht]
    cases t with
    | true =>
      refine (hp.or tells_false).node ?_
      simp [ht]
    | false =>
      refine (hp.or (ih (s := a) (.inr ⟨rfl, by rw [ht]; nofun⟩))).node ?_
      simp [ht]
  | openBlock vars values actions =>
    rw [freeVariableP]
    refine (tells_actions (fun e he => ih (by simp [he])) tells_false).node ?_
    simp
  | reference var =>
    rw [freeVariableP]
    refine (tells_decide (var = v)).node ?_
    simp
  | sequence actions =>
    rw [freeVariableP]
    refine (tells_expressions (fun e he => ih he) tells_false).node ?_
    simp

/-! ## What `expression/free-variable-info` counts -/

abbrev Assigned : Expression → Variable → Prop := Occurs AssignmentTo Counted fun _ _ => False

abbrev Referred : Expression → Variable → Prop := Occurs ReferenceTo Counted fun _ _ => False

/-- A pair comes of a pair, where there is no assignment; the counts grow where there is a
reference. -/
structure Counts (f : Info → Option Info) (A R : Prop) : Prop where
  pair : ∀ info x y, f info = some (.pair x y) → ¬ A ∧ ∃ x₀ y₀, info = .pair x₀ y₀
  counts : ¬ A → ∀ x y, ∃ x' y', f (.pair x y) = some (.pair x' y') ∧ x + y ≤ x' + y' ∧
    (x' + y' = x + y ↔ ¬ R)

section
variable {f g : Info → Option Info} {A A' R R' : Prop} {v : Variable}

theorem Counts.congr (h : Counts f A R) (hA : A ↔ A') (hR : R ↔ R') : Counts f A' R' := by
  obtain rfl : A = A' := propext hA
  obtain rfl : R = R' := propext hR
  exact h

theorem Counts.bind (hf : Counts f A R) (hg : Counts g A' R') :
    Counts (fun info => (f info).bind g) (A ∨ A') (R ∨ R') where
  pair info x y h := by
    obtain ⟨info', hinfo', h⟩ := Option.bind_eq_some_iff.mp h
    obtain ⟨hA', x', y', rfl⟩ := hg.pair info' x y h
    obtain ⟨hA, hinfo⟩ := hf.pair info x' y' hinfo'
    exact ⟨fun hor => hor.elim hA hA', hinfo⟩
  counts hA x y := by
    obtain ⟨x', y', h', hle', hR⟩ := hf.counts (fun h => hA (.inl h)) x y
    obtain ⟨x'', y'', h'', hle'', hR'⟩ := hg.counts (fun h => hA (.inr h)) x' y'
    refine ⟨x'', y'', by rw [h']; exact h'', Nat.le_trans hle' hle'', ?_⟩
    rw [not_or, ← hR, ← hR']
    omega

theorem counts_some : Counts some False False where
  pair info x y h := ⟨not_false, x, y, Option.some.inj h⟩
  counts _ x y := ⟨x, y, rfl, Nat.le_refl _, by simp⟩

theorem counts_sharpT : Counts (fun _ => some .sharpT) True R where
  pair _ _ _ h := nomatch Option.some.inj h
  counts hA := absurd trivial hA

theorem counts_operator : Counts Info.countOperator False True where
  pair info x y h := by
    cases info with
    | pair x₀ y₀ => exact ⟨not_false, x₀, y₀, rfl⟩
    | sharpT => cases h
  counts _ x y := ⟨x + 1, y, rfl, by omega, iff_of_false (by omega) (not_not_intro trivial)⟩

theorem counts_argument : Counts Info.countArgument False True where
  pair info x y h := by
    cases info with
    | pair x₀ y₀ => exact ⟨not_false, x₀, y₀, rfl⟩
    | sharpT => cases h
  counts _ x y := ⟨x, y + 1, rfl, by omega, iff_of_false (by omega) (not_not_intro trivial)⟩

theorem Counts.node {e} (h : Counts f A R)
    (hA : A ↔ AssignmentTo e v ∨ ∃ s, Counted e s ∧ Assigned s v)
    (hR : R ↔ ReferenceTo e v ∨ ∃ s, Counted e s ∧ Referred s v) :
    Counts f (Assigned e v) (Referred e v) :=
  h.congr (hA.trans occurs_unhidden_iff.symm) (hR.trans occurs_unhidden_iff.symm)

theorem counts_expressions {es}
    (h : ∀ e ∈ es, Counts (freeVariableInfoDispatch v e) (Assigned e v) (Referred e v)) :
    Counts (expressionsFreeVariableInfo v es) (∃ e ∈ es, Assigned e v)
      (∃ e ∈ es, Referred e v) := by
  induction es with
  | nil => exact counts_some.congr (by simp) (by simp)
  | cons e rest ih =>
    refine ((h e List.mem_cons_self).bind
      (ih fun e he => h e (List.mem_cons_of_mem _ he))).congr ?_ ?_ <;>
      rw [List.exists_mem_cons_iff]

theorem counts_actions {actions} (h : ∀ e, some e ∈ actions →
      Counts (freeVariableInfoDispatch v e) (Assigned e v) (Referred e v)) :
    Counts (actionsFreeVariableInfo v actions) (∃ e, some e ∈ actions ∧ Assigned e v)
      (∃ e, some e ∈ actions ∧ Referred e v) := by
  induction actions with
  | nil => exact counts_some.congr (by simp) (by simp)
  | cons a rest ih =>
    have ih := ih fun e he => h e (List.mem_cons_of_mem _ he)
    cases a with
    | none => exact ih.congr (by simp) (by simp)
    | some e =>
      refine ((h e List.mem_cons_self).bind ih).congr ?_ ?_ <;>
        simp [or_and_right, exists_or]

end

theorem freeVariableInfoDispatch_counts (v e) :
    Counts (freeVariableInfoDispatch v e) (Assigned e v) (Referred e v) := by
  induction e using induction_on_parts with
  | step e ih =>
  cases e with
  | access environment _ | declaration environment | delay environment
  | procedure _ _ _ environment =>
    refine (ih environment (by simp)).node ?_ ?_ <;> simp
  | assignment var value =>
    by_cases hvar : v = var
    · have hf : freeVariableInfoDispatch v (.assignment var value) = fun _ => some .sharpT :=
        funext fun info => if_pos hvar
      rw [hf]
      exact counts_sharpT.congr (iff_of_true trivial (.here hvar)) Iff.rfl
    · have hf : freeVariableInfoDispatch v (.assignment var value) =
          freeVariableInfoDispatch v value := funext fun info => if_neg hvar
      rw [hf]
      refine (ih value (by simp)).node ?_ ?_ <;>
        simp [hvar]
  | combination operator operands =>
    have hoperator : Counts (fun info => if referenceToP v operator then info.countOperator
        else freeVariableInfoDispatch v operator info) (Assigned operator v)
        (Referred operator v) := by
      cases hreference : referenceToP v operator with
      | false => exact ih operator (by simp)
      | true =>
        cases operator with
        | reference var =>
          have hvar : var = v := of_decide_eq_true hreference
          refine counts_operator.node ?_ ?_ <;> simp [hvar]
        | _ => cases hreference
    refine ((counts_expressions fun e he => ih e (List.mem_cons_of_mem _ he)).bind
      hoperator).node ?_ ?_ <;>
      simp [or_comm]
  | conditional p c a =>
    refine (((ih a (by simp)).bind (ih c (by simp))).bind
      (ih p (by simp))).node ?_ ?_ <;>
      simp <;> tauto
  | constant _ | quotation _ | theEnvironment =>
    refine counts_some.node ?_ ?_ <;> simp
  | disjunction p a =>
    refine ((ih a (by simp)).bind (ih p (by simp))).node ?_ ?_ <;>
      simp <;> tauto
  | openBlock vars values actions =>
    refine (counts_actions fun e he => ih e (by simp [he])).node ?_ ?_ <;> simp
  | reference var =>
    by_cases hvar : var = v
    · have hf : freeVariableInfoDispatch v (.reference var) = Info.countArgument :=
        funext fun info => if_pos hvar
      rw [hf]
      refine counts_argument.node ?_ ?_ <;>
        simp [hvar]
    · have hf : freeVariableInfoDispatch v (.reference var) = some :=
        funext fun info => if_neg hvar
      rw [hf]
      refine counts_some.node ?_ ?_ <;>
        simp [hvar]
  | sequence actions =>
    refine (counts_expressions fun e he => ih e he).node ?_ ?_ <;> simp

/-! ## The three analyses -/

/-- What the analyses of `e` and `v` should say: the test agrees with the set, for a variable that
no block inside binds; the information is a pair of counts, of zeros for a variable that does not
occur free; and a variable that an evaluation reads or assigns outside its own bindings is in the
set. -/
structure Agree (m : Machine) (bound : Expression → List Variable) (e : Expression)
    (v : Variable) : Prop where
  test : (∀ s, Within e s → ¬ Hides bound s v) → ∃ found b, freeVariables bound e = .ok found ∧
    freeVariableP v e = .ok b ∧ (b = true ↔ v ∈ found)
  info : ∃ x y, freeVariableInfo e v = some (.pair x y) ∧
    ∀ found, freeVariables bound e = .ok found → v ∉ found → x = 0 ∧ y = 0
  covers : ∃ found, freeVariables bound e = .ok found ∧
    (Occurs Mentions (Evaluated m) (Hides bound) e v → v ∈ found)

/-- **The analyses agree exactly when no predicate that is asked signals an error, the variable is
not only in values of open blocks, the variable is not assigned where it is counted, and there is
no reference where it does not occur free.** -/
theorem free_variables_agree_iff (m : Machine) (bound : Expression → List Variable)
    (e : Expression) (v : Variable) : Agree m bound e v ↔
    Decided e ∧
    ((∀ s, Within e s → ¬ Hides bound s v) → OccursFree bound e v → OccursInActions e v) ∧
    ¬ Assigned e v ∧ (Referred e v → OccursFree bound e v) := by
  have hreturns := freeVariables_returns bound e
  have hcounts := freeVariableInfoDispatch_counts v e
  constructor
  · rintro ⟨htest, ⟨x, y, hinfo, hzero⟩, found, hfound, -⟩
    rw [hfound] at hreturns
    obtain ⟨hdecided, hmem⟩ := hreturns
    have hassigned := (hcounts.pair _ _ _ hinfo).1
    refine ⟨hdecided, fun hhides hfree => ?_, hassigned, fun hreferred => ?_⟩
    · obtain ⟨found', b, hfound', hb, hiff⟩ := htest hhides
      obtain rfl : found = found' := Except.ok.inj (hfound.symm.trans hfound')
      obtain ⟨b', hb', hiff'⟩ := freeVariableP_tells v e hdecided
      obtain rfl : b = b' := Except.ok.inj (hb.symm.trans hb')
      exact hiff'.mp (hiff.mpr ((hmem v).mpr hfree))
    · by_contra hfree
      obtain ⟨rfl, rfl⟩ := hzero found hfound fun hv => hfree ((hmem v).mp hv)
      obtain ⟨x, y, hpair, -, hreference⟩ := hcounts.counts hassigned 0 0
      obtain ⟨rfl, rfl⟩ := Info.pair.inj (Option.some.inj (hinfo.symm.trans hpair))
      exact hreference.mp rfl hreferred
  · rintro ⟨hdecided, hvalues, hassigned, hreferred⟩
    obtain ⟨found, hfound⟩ : ∃ found, freeVariables bound e = .ok found := by
      cases hfound : freeVariables bound e with
      | ok found => exact ⟨found, rfl⟩
      | error fault =>
        rw [hfound] at hreturns
        exact absurd hdecided hreturns
    rw [hfound] at hreturns
    have hmem := hreturns.2
    refine ⟨fun hhides => ?_, ?_, found, hfound, fun hreads => ?_⟩
    · obtain ⟨b, hb, hiff⟩ := freeVariableP_tells v e hdecided
      refine ⟨found, b, hfound, hb, hiff.trans (Iff.trans ?_ (hmem v).symm)⟩
      refine ⟨fun hoccurs => ?_, hvalues hhides⟩
      exact hoccurs.mono (fun e s h => part_of_live (live_of_action h)) (fun e s => live_of_action)
        fun s hs hv => hhides s hs hv
    · obtain ⟨x, y, hpair, -, hreference⟩ := hcounts.counts hassigned 0 0
      refine ⟨x, y, hpair, fun found' hfound' hv => ?_⟩
      obtain rfl : found = found' := Except.ok.inj (hfound.symm.trans hfound')
      have hsum := hreference.mpr fun hr => hv ((hmem v).mpr (hreferred hr))
      omega
    · exact (hmem v).mpr (hreads.mono (fun e s h => part_of_live (live_of_evaluated h))
        (fun e s => live_of_evaluated) fun s _ => id)

/-- The test leaves out the value of a definition. -/
theorem value_of_definition_missed : ¬ ∀ m bound e v, Agree m bound e v := by
  intro hall
  have hagree := hall ⟨fun _ _ => none, fun _ _ _ _ _ _ => False⟩ (fun _ => [⟨0, "x"⟩])
    (.openBlock [⟨0, "x"⟩] [.reference ⟨1, "y"⟩] [none, some (.constant .sharpT)]) ⟨1, "y"⟩
  have hfound : freeVariables (fun _ => [⟨0, "x"⟩])
      (.openBlock [⟨0, "x"⟩] [.reference ⟨1, "y"⟩] [none, some (.constant .sharpT)]) =
      .ok [⟨1, "y"⟩] := by decide +kernel
  have htest : freeVariableP ⟨1, "y"⟩
      (.openBlock [⟨0, "x"⟩] [.reference ⟨1, "y"⟩] [none, some (.constant .sharpT)]) =
      .ok false := by decide +kernel
  obtain ⟨found, b, hf, hb, hiff⟩ := hagree.test fun s hs => by
    have hown : ∀ v ∈ ownVariables (fun _ => [⟨0, "x"⟩]) s, v = ⟨0, "x"⟩ := by
      cases s <;> simp [ownVariables]
    exact fun hv => absurd (hown _ hv) (by decide)
  obtain rfl := Except.ok.inj (hfound.symm.trans hf)
  obtain rfl := Except.ok.inj (htest.symm.trans hb)
  exact Bool.false_ne_true (hiff.mpr (by decide))

end Expression

end MitScheme.Sf
