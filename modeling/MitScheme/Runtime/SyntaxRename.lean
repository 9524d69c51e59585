import MitScheme.Lib.Binding

/-! # Renaming identifiers

The post-pass of `syntax-rename.scm`, after code generation has renamed all local
identifiers: `compute-substitution` finds the renames that are safe to restore, and
`alpha-substitute` restores them. -/

namespace MitScheme.Runtime.SyntaxRename

variable {S : Type} [DecidableEq S]

/-! ## Names -/

/-- A symbol of the program, or the uninterned symbol of a rename. -/
inductive Name (S : Type)
  | symbol (s : S)
  | rename (n : Nat)
  deriving DecidableEq

instance : LawfulBEq (Name S) := inferInstance

/-- What is renamed: a symbol, or an identifier that is closed in an environment. -/
inductive Identifier (S : Type)
  | symbol (s : S)
  | closed (n : Nat)
  deriving DecidableEq

structure Entry (S : Type) where
  original : Identifier S
  frame : Nat
  rename : Nat

/-- `rename-db`: the entries serve as the mapping and as the unmapping. -/
structure RenameDb (S : Type) where
  entries : List (Entry S)
  counter : Nat

namespace RenameDb

def empty : RenameDb S := ⟨[], 0⟩

/-- The procedure that `make-local-identifier-renamer` returns for a frame. -/
def rename (db : RenameDb S) (frame : Nat) (original : Identifier S) : Nat × RenameDb S :=
  match db.entries.find? fun e => e.original = original ∧ e.frame = frame with
  | some e => (e.rename, db)
  | none => (db.counter, ⟨⟨original, frame, db.counter⟩ :: db.entries, db.counter + 1⟩)

def run : RenameDb S → List (Nat × Identifier S) → RenameDb S
  | db, [] => db
  | db, (frame, original) :: calls => (db.rename frame original).2.run calls

end RenameDb

/-- The values of `rename->original`. -/
inductive Original (S : Type)
  | symbol (s : S)
  | closed (n : Nat)
  | rename (n : Nat)
  deriving DecidableEq

def Identifier.toOriginal : Identifier S → Original S
  | symbol s => .symbol s
  | closed n => .closed n

/-- `rename->original`. -/
def RenameDb.original (db : RenameDb S) : Name S → Original S
  | .symbol s => .symbol s
  | .rename n =>
    match db.entries.find? fun e => e.rename = n with
    | some e => e.original.toOriginal
    | none => .rename n

def Original.toName : Original S → Option (Name S)
  | symbol s => some (.symbol s)
  | closed _ => none
  | rename n => some (.rename n)

/-! ## Expressions -/

inductive DeclItem (S : Type)
  | id (name : Name S)
  | datum (n : Nat)

/-- A declaration that is known has a mapper and a folder that visit its identifiers. Any
other one is a list, of which the names are kept here. -/
inductive Declaration (S : Type)
  | known (items : List (DeclItem S))
  | unknown (text : List (Name S))

inductive Datum (S : Type)
  | symbol (name : Name S)
  | other (n : Nat)

structure LambdaPattern (S : Type) where
  name : S
  required : List (Name S)
  optional : List (Name S)
  rest : Option (Name S)

inductive Expr (S : Type)
  | constant (datum : Datum S)
  | variable (name : Name S) (safe : Bool)
  | assignment (name : Name S) (value : Expr S)
  | unassigned (name : Name S)
  | lambda (pattern : LambdaPattern S) (body : Expr S)
  | openBlock (names : List (Name S)) (declarations : List (Declaration S)) (actions : Expr S)
  | declaration (text : List (Declaration S)) (expression : Expr S)
  | quotedIdentifier (name : Name S)
  | access (environment : Expr S) (name : S)
  | combination (operator : Expr S) (operands : List (Expr S))
  | comment (text : Nat) (expression : Expr S)
  | conditional (predicate consequent alternative : Expr S)
  | definition (name : Name S) (value : Expr S)
  | delay (expression : Expr S)
  | disjunction (predicate alternative : Expr S)
  | sequence (actions : List (Expr S))

/-- The names that `lambda-components**` gives. -/
def LambdaPattern.bound (pattern : LambdaPattern S) : List (Name S) :=
  pattern.required ++ pattern.optional ++ pattern.rest.toList

def makeLambda (pattern : LambdaPattern S) (bound : List (Name S)) (body : Expr S) : Expr S :=
  let tail := bound.drop pattern.required.length
  .lambda ⟨pattern.name, bound.take pattern.required.length, tail.take pattern.optional.length,
    (tail.drop pattern.optional.length).head?⟩ body

/-- `make-scode-open-block`. -/
def makeOpenBlock (names : List (Name S)) (declarations : List (Declaration S))
    (actions : Expr S) : Expr S :=
  if names.isEmpty && declarations.isEmpty then actions else .openBlock names declarations actions

/-! ## Computing the substitution -/

def lsetAdjoin (ids : List (Name S)) (id : Name S) : List (Name S) :=
  if id ∈ ids then ids else id :: ids

def lsetUnion (s1 s2 : List (Name S)) : List (Name S) := s2.foldl lsetAdjoin s1

/-- The union of `simple-subexpressions`. -/
def lsetUnions : List (List (Name S)) → List (Name S)
  | [] => []
  | s :: sets => sets.foldl (fun acc s => lsetUnion s acc) s

def lsetDifference (s1 s2 : List (Name S)) : List (Name S) := s1.filter fun id => id ∉ s2

def DeclItem.names : DeclItem S → List (Name S)
  | id name => [name]
  | datum _ => []

/-- `fold-decl-ids` with `lset-adjoin`: an unknown declaration is itself the result. -/
def foldDeclIds (ids : List (Name S)) : Declaration S → List (Name S)
  | .known items => (items.flatMap DeclItem.names).foldl lsetAdjoin ids
  | .unknown text => text

mutual

/-- The names that `compute-substitution` returns. -/
def free : Expr S → List (Name S)
  | .constant _ => []
  | .variable name _ => [name]
  | .assignment name value => lsetAdjoin (free value) name
  | .unassigned name => [name]
  | .lambda pattern body => lsetDifference (free body) pattern.bound
  | .openBlock names declarations actions =>
    lsetDifference (declarations.foldl foldDeclIds (free actions)) names
  | .declaration text expression => text.foldl foldDeclIds (free expression)
  | .quotedIdentifier _ => []
  | .access environment _ => free environment
  | .combination operator operands => lsetUnions (free operator :: freeLists operands)
  | .comment _ expression => free expression
  | .conditional predicate consequent alternative =>
    lsetUnions [free predicate, free consequent, free alternative]
  | .definition _ value => free value
  | .delay expression => free expression
  | .disjunction predicate alternative => lsetUnions [free predicate, free alternative]
  | .sequence actions => lsetUnions (freeLists actions)

def freeLists : List (Expr S) → List (List (Name S))
  | [] => []
  | e :: es => free e :: freeLists es

end

/-- The bindings that `mark-local-bindings` marks, given the free names. -/
def safeBindings (db : RenameDb S) (bound free : List (Name S)) : List (Name S × Name S) :=
  bound.filterMap fun rename =>
    match (db.original rename).toName with
    | none => none
    | some original =>
      if free.any fun rename' => db.original rename = db.original rename' then none
      else some (rename, original)

mutual

/-- The renames that `compute-substitution` marks as safe, in order. -/
def marks (db : RenameDb S) : Expr S → List (Name S × Name S)
  | .constant _ => []
  | .variable _ _ => []
  | .assignment _ value => marks db value
  | .unassigned _ => []
  | .lambda pattern body =>
    marks db body ++ safeBindings db pattern.bound (lsetDifference (free body) pattern.bound)
  | .openBlock names declarations actions =>
    marks db actions ++
      safeBindings db names
        (lsetDifference (declarations.foldl foldDeclIds (free actions)) names)
  | .declaration _ expression => marks db expression
  | .quotedIdentifier _ => []
  | .access environment _ => marks db environment
  | .combination operator operands => marks db operator ++ marksList db operands
  | .comment _ expression => marks db expression
  | .conditional predicate consequent alternative =>
    marks db predicate ++ marks db consequent ++ marks db alternative
  | .definition _ value => marks db value
  | .delay expression => marks db expression
  | .disjunction predicate alternative => marks db predicate ++ marks db alternative
  | .sequence actions => marksList db actions

def marksList (db : RenameDb S) : List (Expr S) → List (Name S × Name S)
  | [] => []
  | e :: es => marks db e ++ marksList db es

end

/-! ## Substituting -/

def DeclItem.map (substitution : Name S → Name S) : DeclItem S → DeclItem S
  | id name => id (substitution name)
  | datum n => datum n

def mapDeclIds (substitution : Name S → Name S) : Declaration S → Declaration S
  | .known items => .known (items.map (DeclItem.map substitution))
  | .unknown text => .unknown text

mutual

def alphaSubstitute (substitution : Name S → Name S) : Expr S → Expr S
  | .constant datum => .constant datum
  | .variable name safe => .variable (substitution name) safe
  | .assignment name value =>
    .assignment (substitution name) (alphaSubstitute substitution value)
  | .unassigned name => .unassigned (substitution name)
  | .lambda pattern body =>
    makeLambda pattern (pattern.bound.map substitution) (alphaSubstitute substitution body)
  | .openBlock names declarations actions =>
    makeOpenBlock (names.map substitution) (declarations.map (mapDeclIds substitution))
      (alphaSubstitute substitution actions)
  | .declaration text expression =>
    .declaration (text.map (mapDeclIds substitution)) (alphaSubstitute substitution expression)
  | .quotedIdentifier name => .constant (.symbol (substitution name))
  | .access environment name => .access (alphaSubstitute substitution environment) name
  | .combination operator operands =>
    .combination (alphaSubstitute substitution operator) (alphaSubstituteList substitution operands)
  | .comment text expression => .comment text (alphaSubstitute substitution expression)
  | .conditional predicate consequent alternative =>
    .conditional (alphaSubstitute substitution predicate)
      (alphaSubstitute substitution consequent) (alphaSubstitute substitution alternative)
  | .definition name value => .definition name (alphaSubstitute substitution value)
  | .delay expression => .delay (alphaSubstitute substitution expression)
  | .disjunction predicate alternative =>
    .disjunction (alphaSubstitute substitution predicate)
      (alphaSubstitute substitution alternative)
  | .sequence actions => .sequence (alphaSubstituteList substitution actions)

def alphaSubstituteList (substitution : Name S → Name S) : List (Expr S) → List (Expr S)
  | [] => []
  | e :: es => alphaSubstitute substitution e :: alphaSubstituteList substitution es

end

/-- The safe set, as a procedure: the last mark of a rename counts. -/
def substitution (marks : List (Name S × Name S)) (rename : Name S) : Name S :=
  match marks.reverse.find? fun m => m.1 = rename with
  | some m => m.2
  | none => rename

def postProcessOutput (db : RenameDb S) (expression : Expr S) : Expr S :=
  alphaSubstitute (substitution (marks db expression)) expression

end MitScheme.Runtime.SyntaxRename
