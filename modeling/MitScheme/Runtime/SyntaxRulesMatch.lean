import MitScheme.Runtime.SyntaxRules

/-! # Syntax-rules: the matcher

`syntax-rules:match-datum` passes continuations. The list of patterns that is
handed on goes with the procedures that match them, so that the recursion follows
the pattern. `scan` is the same matcher without continuations. -/

namespace MitScheme.Runtime.SyntaxRules

variable {Id Atom : Type}

abbrev Answer (Id Atom : Type) := Except Fault (Option (Dict Id Atom))

abbrev Matcher (Id Atom : Type) :=
  Datum Id Atom → Dict Id Atom → (Dict Id Atom → Answer Id Atom) → Answer Id Atom

/-- A pattern in a list: whether it is a segment, and how it, or the body of the
segment, is matched. -/
structure Piece (Id Atom : Type) where
  segment : Bool
  body : Matcher Id Atom

/-- `match-datum` knows no segments. -/
def Piece.matchDatum (pat : Piece Id Atom) : Matcher Id Atom :=
  if pat.segment then fun _ _ _ => .error .unknownMarker else pat.body

/-- The continuation of `match-segment` and of `fixed`. -/
abbrev Rest (Id Atom : Type) :=
  List (Piece Id Atom) → Datum Id Atom → Dict Id Atom → Answer Id Atom

def kList (k : Dict Id Atom → Answer Id Atom) : Rest Id Atom := fun pats data dict =>
  if pats.isEmpty && data.isNull then k dict else .ok none

/-- The continuation of a dotted list: its tail is the pattern that is left. -/
def kTail (k : Dict Id Atom → Answer Id Atom) : Rest Id Atom := fun pats datum dict =>
  match pats with
  | [] => .error .wrongType
  | pat :: _ => pat.matchDatum datum dict k

def fixed (pats : List (Piece Id Atom)) (data : Datum Id Atom) (dict : Dict Id Atom) :
    Nat → Rest Id Atom → Answer Id Atom
  | 0, k => k pats data dict
  | n + 1, k =>
    match pats with
    | [] => .error .wrongType
    | pat :: pats =>
      data.car.bind fun d =>
        pat.matchDatum d dict fun dict => data.cdr.bind fun data => fixed pats data dict n k

section
variable [DecidableEq Id]

/-- The loop of `match-segment`: `n` data are left to the patterns that follow. -/
def segmentLoop (pat : Matcher Id Atom) (n : Nat)
    (done : Datum Id Atom → List (Dict Id Atom) → Answer Id Atom) :
    Nat → Datum Id Atom → List (Dict Id Atom) → Answer Id Atom
  | 0, data, dicts => done data dicts
  | m + 1, data, dicts =>
    if n < m + 1 then
      data.car.bind fun d =>
        pat d [] fun dict => data.cdr.bind fun data => segmentLoop pat n done m data (dict :: dicts)
    else done data dicts

def matchSegment (pats : List (Piece Id Atom)) (data : Datum Id Atom) (dict : Dict Id Atom)
    (n m : Nat) (k : Rest Id Atom) : Answer Id Atom :=
  let fewer := if n ≤ m then fixed pats data dict n k else .ok none
  match pats.findIdx? (·.segment) with
  | none => fewer
  | some i =>
    if i ≤ m then
      fixed pats data dict i fun pats data dict =>
        match pats with
        | [] => .error .wrongType
        | pat :: pats =>
          segmentLoop pat.body (n - i - 1)
            (fun data dicts => fixed pats data (wrapDicts dicts dict) (n - i - 1) k)
            (m - i) data []
    else fewer

variable [DecidableEq Atom] (rename : Id → Id) (compare : Id → Id → Bool)

mutual

def matchDatum : Form Id Atom → Matcher Id Atom
  | .list elts => fun datum dict k =>
    if datum.isList then
      matchSegment (pieces elts) datum dict elts.length datum.countPairs (kList k)
    else .ok none
  | .vector elts => fun datum dict k =>
    match datum with
    | .vector ds =>
      matchSegment (pieces elts) (.ofList ds .null) dict elts.length ds.length (kList k)
    | _ => .ok none
  | .dottedList elts tail => fun datum dict k =>
    matchSegment (pieces elts ++ [⟨false, matchDatum tail⟩]) datum dict elts.length
      datum.countPairs (kTail k)
  | .literalId literal => fun datum dict k =>
    match datum with
    | .ident id => if compare (rename literal) id then k dict else .ok none
    | _ => .ok none
  | .literal literal => fun datum dict k =>
    match datum with
    | .atom a => if literal = a then k dict else .ok none
    | _ => .ok none
  | .var id => fun datum dict k => k (⟨id, .datum datum, 0⟩ :: dict)
  | .anonVar => fun _ dict k => k dict

/-- What an element is matched with when a segment has been taken off. -/
def matchBody : Elt Id Atom → Matcher Id Atom
  | .one form => matchDatum form
  | .segment _ => fun _ _ _ => .error .unknownMarker

def pieces : List (Elt Id Atom) → List (Piece Id Atom)
  | [] => []
  | .one form :: elts => ⟨false, matchDatum form⟩ :: pieces elts
  | .segment body :: elts => ⟨true, matchBody body⟩ :: pieces elts

end

def syntaxRulesMatchDatum (pattern : Form Id Atom) (datum : Datum Id Atom) : Answer Id Atom :=
  matchDatum rename compare pattern datum [] fun dict => .ok (some dict)

end

end MitScheme.Runtime.SyntaxRules
