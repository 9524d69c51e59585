import MitScheme.Runtime.RegexpNfa
import Mathlib.Data.Finset.Max
import Mathlib.Order.Interval.Finset.Fin

/-! # Compiling regular s-expressions

The rules of `srfi-115.scm` and the instruction builders of `regexp-nfa.scm`. An
expression that is valid as a character set is compiled by the rules for character
sets, whatever else it may be; the other expressions go by the general rules. -/

namespace MitScheme.Runtime.Srfi115

abbrev CodePoint := Fin 0x110000

/-- What the compiler reads of the character database. -/
structure CaseTables where
  charFoldcase : CodePoint → CodePoint
  charUpcase : CodePoint → CodePoint
  charDowncase : CodePoint → CodePoint
  changesWhenCaseFolded : Finset CodePoint
  changesWhenUpperCased : Finset CodePoint
  changesWhenLowerCased : Finset CodePoint
  ascii : Finset CodePoint
  newline : Finset CodePoint
  word : Finset CodePoint

def domainMapper (proc : CodePoint → CodePoint) (domain cs : Finset CodePoint) :
    Finset CodePoint := (cs \ domain) ∪ (cs ∩ domain).image proc

namespace CaseTables

variable (t : CaseTables)

def charSetFoldcase := domainMapper t.charFoldcase t.changesWhenCaseFolded
def charSetUpcase := domainMapper t.charUpcase t.changesWhenUpperCased
def charSetDowncase := domainMapper t.charDowncase t.changesWhenLowerCased

end CaseTables

/-! ## Expressions -/

inductive RangeSpec
  | char (c : CodePoint)
  | string (s : List CodePoint)

inductive Anchor
  | bos | eos | bol | eol | bow | eow | nwb | bog | eog

/-- The words `w/case`, `w/nocase`, `w/unicode`, `w/ascii` and `w/nocapture`. -/
inductive Setting
  | case | nocase | unicode | ascii | nocapture

inductive Quantifier
  | star (greedy : Bool)
  | optional (greedy : Bool)
  | plus
  | exactly (n : Nat)
  | atLeast (n : Nat)
  | between (n m : Nat) (greedy : Bool)

/-- An expression with its aliases and rewritings done. A set that has a name is the
set, and `charSetOf` stands for `(<string>)` and for `(char-set <string>)`. -/
inductive Sre
  | char (c : CodePoint)
  | string (s : List CodePoint)
  | charSet (cs : Finset CodePoint)
  | charSetOf (s : List CodePoint)
  | range (specs : List RangeSpec)
  | or (es : List Sre)
  | and (es : List Sre)
  | difference (es : List Sre)
  | complement (es : List Sre)
  | quantified (q : Quantifier) (es : List Sre)
  | seq (es : List Sre)
  | submatch (name : Option String) (es : List Sre)
  | anchor (a : Anchor)
  | setting (s : Setting) (es : List Sre)

def orderedPairs : List CodePoint → Bool
  | [] => true
  | [_] => false
  | a :: b :: s => a ≤ b && orderedPairs s

/-- `range-spec?`. -/
def RangeSpec.valid : RangeSpec → Bool
  | .char _ => true
  | .string s => orderedPairs s

def pairsChars : List CodePoint → Finset CodePoint
  | a :: b :: s => Finset.Icc a b ∪ pairsChars s
  | _ => ∅

/-- The characters of `range-spec->ranges`. -/
def RangeSpec.chars : RangeSpec → Finset CodePoint
  | .char c => {c}
  | .string s => pairsChars s

/-- `char-set*` of some range specs. -/
def rangeChars (specs : List RangeSpec) : Finset CodePoint :=
  specs.foldr (fun spec cs => spec.chars ∪ cs) ∅

def Setting.isCset : Setting → Bool
  | .nocapture => false
  | _ => true

/-- The test on the bounds of `**` and `**?`. -/
def Quantifier.valid : Quantifier → Bool
  | .between n m _ => n ≤ m
  | _ => true

mutual

/-- `valid-cset-sre?`. -/
def validCset : Sre → Bool
  | .char _ | .charSet _ | .charSetOf _ => true
  | .string s => s.length == 1
  | .range specs => specs.all RangeSpec.valid
  | .or es | .and es | .difference es | .complement es => validCsets es
  | .setting s es => s.isCset && validCsets es
  | .quantified _ _ | .seq _ | .submatch _ _ | .anchor _ => false

def validCsets : List Sre → Bool
  | [] => true
  | e :: es => validCset e && validCsets es

end

mutual

/-- Some rule of `sre-rules` fits. -/
def sreRuleFits : Sre → Bool
  | .char _ | .string _ | .anchor _ => true
  | .quantified q es => q.valid && validSres es
  | .or es | .seq es | .submatch _ es | .setting _ es => validSres es
  | .charSet _ | .charSetOf _ | .range _ | .and _ | .difference _ | .complement _ => false

/-- Each expression is a `valid-sre?`. -/
def validSres : List Sre → Bool
  | [] => true
  | e :: es => (validCset e || sreRuleFits e) && validSres es

end

/-! ## Contexts and faults -/

/-- The record `<ctx>` of the compiler. -/
structure SreCtx where
  fold : Bool
  ascii : Bool
  noCapture : Bool

/-- `initial-ctx`. -/
def initialSreCtx : SreCtx := ⟨false, false, false⟩

def Setting.folds : Setting → Bool → Bool
  | .case, _ => false
  | .nocase, _ => true
  | _, fold => fold

/-- `fold-ctx`, `ascii-ctx` and `no-capture-ctx`, at the values of the settings. -/
def Setting.apply (s : Setting) (ctx : SreCtx) : SreCtx where
  fold := s.folds ctx.fold
  ascii := match s with
    | .unicode => false
    | .ascii => true
    | _ => ctx.ascii
  noCapture := match s with
    | .nocapture => true
    | _ => ctx.noCapture

/-- `compile-error` names the pattern and the element in it; the other faults are those of
the procedures that are called. -/
inductive CompileFault
  | illFormed (pattern element : Sre)
  | wrongType
  | wrongArity

/-! ## Character sets -/

/-- What a rule for character sets gives back: the rules of the settings return the list
of the sets that are compiled under them. -/
inductive CsetValue
  | set (cs : Finset CodePoint)
  | list (vs : List CsetValue)

/-- `char-set->ilist`. -/
def CsetValue.charSet : CsetValue → Except CompileFault (Finset CodePoint)
  | .set cs => .ok cs
  | .list _ => .error .wrongType

def charSetUnion : List CsetValue → Except CompileFault CsetValue
  | [] => .ok (.set ∅)
  | [v] => .ok v
  | v :: vs => do
    let cs ← v.charSet
    let rest ← vs.mapM CsetValue.charSet
    return .set (rest.foldl (fun acc cs => cs ∪ acc) cs)

def charSetIntersection : List CsetValue → Except CompileFault CsetValue
  | [] => .ok (.set Finset.univ)
  | [v] => .ok v
  | v :: vs => do
    let cs ← v.charSet
    let rest ← vs.mapM CsetValue.charSet
    return .set (rest.foldl (fun acc cs => cs ∩ acc) cs)

/-- `char-set-difference`, applied to a list. -/
def charSetDifference : List CsetValue → Except CompileFault CsetValue
  | [] => .error .wrongArity
  | [v] => .ok v
  | v :: vs => do
    let cs ← v.charSet
    let rest ← vs.mapM CsetValue.charSet
    return .set (rest.foldl (fun acc cs => acc \ cs) cs)

section Compiler

variable (t : CaseTables)

def maybeXform (ctx : SreCtx) (v : CsetValue) : Except CompileFault CsetValue := do
  let v ← if ctx.ascii then charSetIntersection [.set t.ascii, v] else .ok v
  if ctx.fold then do
    let cs ← v.charSet
    charSetUnion [.set cs, .set (t.charSetUpcase cs), .set (t.charSetDowncase cs)]
  else return v

variable (pattern : Sre)

mutual

/-- The procedure of the rule of `cset-sre-rules` that fits. -/
def csetRule (ctx : SreCtx) : Sre → Except CompileFault CsetValue
  | .char c => maybeXform t ctx (.set {c})
  | .string s | .charSetOf s => maybeXform t ctx (.set s.toFinset)
  | .charSet cs => maybeXform t ctx (.set cs)
  | .range specs => maybeXform t ctx (.set (rangeChars specs))
  | .or es => do charSetUnion (← compileCsetSres ctx es)
  | .and es => do charSetIntersection (← compileCsetSres ctx es)
  | .difference es => do charSetDifference (← compileCsetSres ctx es)
  | .complement es => do
    charSetDifference (.set (if ctx.ascii then t.ascii else Finset.univ) ::
      (← compileCsetSres ctx es))
  | .setting s es => do return .list (← compileCsetSres (s.apply ctx) es)
  | .quantified q es => .error (.illFormed pattern (.quantified q es))
  | .seq es => .error (.illFormed pattern (.seq es))
  | .submatch name es => .error (.illFormed pattern (.submatch name es))
  | .anchor a => .error (.illFormed pattern (.anchor a))

def compileCsetSres (ctx : SreCtx) : List Sre → Except CompileFault (List CsetValue)
  | [] => .ok []
  | e :: es => do
    let v ← if validCset e then csetRule ctx e else .error (.illFormed pattern e)
    let vs ← compileCsetSres ctx es
    return v :: vs

end

/-! ## Instructions -/

/-- The linker of an instruction: it makes the nodes, and returns the first of them. -/
abbrev Insn := Nat → StateM (List (Node CodePoint)) Nat

/-- `make-node`: the nodes are numbered as they are made. -/
def makeNode (node : Node CodePoint) : StateM (List (Node CodePoint)) Nat :=
  fun nodes => (nodes.length, nodes ++ [node])

def nullInsn : Insn := fun next => pure next

def failInsn : Insn := fun _ => makeNode .fail

def matchInsn (test : CodePoint → Bool) : Insn := fun next => makeNode (.matching test next)

def charZeroWidthInsn (test : Option CodePoint → Option CodePoint → Bool) : Insn :=
  fun next => makeNode (.charZeroWidth test next)

def fullZeroWidthInsn
    (test : Nat → List CodePoint → Nat → Nat → Srfi115.Ctx → Bool) : Insn :=
  fun next => makeNode (.fullZeroWidth test next)

/-- `insn:char`. Under `ci?` the test is the procedure `char-ci=-predicate` itself, and
what that returns for a character is true. -/
def insnChar (c : CodePoint) (ci : Bool) : Insn :=
  if ci then matchInsn fun _ => true else matchInsn fun x => x = c

/-- `char-set-ref` at the first cursor. -/
def charSetRef (cs : Finset CodePoint) : CodePoint := cs.min.untopD 0

def insnCharSet (cs : Finset CodePoint) (ci : Bool) : Insn :=
  match cs.card with
  | 0 => failInsn
  | 1 => insnChar (charSetRef cs) ci
  | _ =>
    if ci then matchInsn fun x => t.charFoldcase x ∈ t.charSetFoldcase cs
    else matchInsn fun x => x ∈ cs

def insnSeq : List Insn → Insn
  | [] => nullInsn
  | [insn] => insn
  | insns => fun next => insns.foldrM (fun insn next => insn next) next

def insnAlt : List Insn → Insn
  | [] => failInsn
  | [insn] => insn
  | insns => fun next => do
    let nodes ← insns.mapM fun insn => insn next
    makeNode (.fork nodes)

def insnString (s : List CodePoint) (ci : Bool) : Insn := insnSeq (s.map (insnChar · ci))

/-- `insn:?` and `insn:??`. -/
def insnOptional (greedy : Bool) (insn : Insn) : Insn :=
  insnAlt (if greedy then [insn, nullInsn] else [nullInsn, insn])

/-- `insn:*` and `insn:*?`: the fork is made first, and gets its branches once the body is
linked to it. -/
def insnStar (greedy : Bool) (insn : Insn) : Insn := fun next => do
  let node ← makeNode (.fork [])
  let body ← insn node
  modify (·.set node (.fork (if greedy then [body, next] else [next, body])))
  return node

/-- `insn:=`. -/
def insnExactly (n : Nat) (insn : Insn) : Insn := insnSeq (List.replicate n insn)

/-- `insn:>=`. -/
def insnAtLeast (n : Nat) (insn : Insn) : Insn := insnSeq [insnExactly n insn, insnStar true insn]

/-- `insn:**` and `insn:**?`. -/
def insnBetween (n m : Nat) (greedy : Bool) (insn : Insn) : Insn :=
  insnSeq (insnExactly n insn :: List.replicate (m - n) (insnOptional greedy insn))

def insnGroup (key : Key) (insn : Insn) : Insn :=
  insnSeq [fun next => makeNode (.startGroup next), insn,
    fun next => makeNode (.endGroup key next)]

def Quantifier.insn : Quantifier → Insn → Insn
  | .star greedy => insnStar greedy
  | .optional greedy => insnOptional greedy
  | .plus => insnAtLeast 1
  | .exactly n => insnExactly n
  | .atLeast n => insnAtLeast n
  | .between n m greedy => insnBetween n m greedy

/-- `matches?`. -/
def charIn (cs : Finset CodePoint) (c : Option CodePoint) : Bool := c.any (· ∈ cs)

def insnStartBoundary (cs : Finset CodePoint) : Insn :=
  charZeroWidthInsn fun nextChar prevChar => charIn cs nextChar && !charIn cs prevChar

def insnEndBoundary (cs : Finset CodePoint) : Insn :=
  charZeroWidthInsn fun nextChar prevChar => !charIn cs nextChar && charIn cs prevChar

def insnNonBoundary (cs : Finset CodePoint) : Insn :=
  charZeroWidthInsn fun nextChar prevChar =>
    if charIn cs nextChar then charIn cs prevChar else !charIn cs prevChar

def insnBog : Insn :=
  fullZeroWidthInsn fun index _ _ stop ctx => index < stop && ctx.gcbs.head? == some index

def insnEog : Insn :=
  fullZeroWidthInsn fun index _ start _ ctx => start < index && ctx.gcbs.head? == some index

/-! ## The compiler -/

/-- The next number of a submatch, the keys of the submatches, and whether an instruction
asks for grapheme breaks. -/
structure CompileState where
  submatchNext : Nat
  submatchKeys : List Key
  gcbInsnsSeen : Bool

abbrev Compile := StateT CompileState (Except CompileFault)

/-- `submatch`, at the next number or at a name. -/
def submatch (name : Option String) (insn : Insn) : Compile Insn := do
  let key ← match name with
    | some name => pure (.name name)
    | none => modifyGet fun st =>
      (.number st.submatchNext, { st with submatchNext := st.submatchNext + 1 })
  modify fun st => { st with submatchKeys := st.submatchKeys.insert key }
  return insnGroup key insn

def anchorInsn : Anchor → Compile Insn
  | .bos => return charZeroWidthInsn fun _ prevChar => prevChar.isNone
  | .eos => return charZeroWidthInsn fun nextChar _ => nextChar.isNone
  | .bol => return insnStartBoundary t.newlineᶜ
  | .eol => return insnEndBoundary t.newlineᶜ
  | .bow => return insnStartBoundary t.word
  | .eow => return insnEndBoundary t.word
  | .nwb => return insnNonBoundary t.word
  | .bog => do
    modify fun st => { st with gcbInsnsSeen := true }
    return insnBog
  | .eog => do
    modify fun st => { st with gcbInsnsSeen := true }
    return insnEog

/-- What `compile-sre` does with a character set. -/
def csetInsn (ctx : SreCtx) (e : Sre) : Except CompileFault Insn := do
  let v ← csetRule t pattern ctx e
  let v ← maybeXform t ctx v
  return insnCharSet t (← v.charSet) ctx.fold

/-- `compile-sre`, with the procedure of the general rule as an argument. -/
def compileBy (ctx : SreCtx) (e : Sre) (rule : Compile Insn) : Compile Insn :=
  if validCset e then StateT.lift (csetInsn t pattern ctx e)
  else if sreRuleFits e then rule
  else throw (.illFormed pattern e)

mutual

/-- The procedure of the rule of `sre-rules` that fits. -/
def sreRule (ctx : SreCtx) : Sre → Compile Insn
  | .char c => return insnChar c ctx.fold
  | .string s => return insnString s ctx.fold
  | .quantified q es => do return q.insn (insnSeq (← compileSres ctx es))
  | .or es => do return insnAlt (← compileSres ctx es)
  | .seq es => do return insnSeq (← compileSres ctx es)
  | .submatch name es => do
    let insn := insnSeq (← compileSres ctx es)
    if ctx.noCapture then return insn else submatch name insn
  | .anchor a => anchorInsn t a
  | .setting s es => do return insnSeq (← compileSres (s.apply ctx) es)
  | .charSet cs => throw (.illFormed pattern (.charSet cs))
  | .charSetOf s => throw (.illFormed pattern (.charSetOf s))
  | .range specs => throw (.illFormed pattern (.range specs))
  | .and es => throw (.illFormed pattern (.and es))
  | .difference es => throw (.illFormed pattern (.difference es))
  | .complement es => throw (.illFormed pattern (.complement es))

/-- `compile-sre` of each expression in turn. -/
def compileSres (ctx : SreCtx) : List Sre → Compile (List Insn)
  | [] => return []
  | e :: es => do
    let insn ← compileBy t pattern ctx e (sreRule ctx e)
    let insns ← compileSres ctx es
    return insn :: insns

end

def compileSre (ctx : SreCtx) (e : Sre) : Compile Insn :=
  compileBy t pattern ctx e (sreRule t pattern ctx e)

def Key.isNumber : Key → Bool
  | .number _ => true
  | .name _ => false

/-- `submatch-keys->list`: the numbers in their order, then the names. -/
def submatchKeysList (keys : List Key) : List Key :=
  ((keys.filterMap fun | .number n => some n | .name _ => none).mergeSort).map .number ++
    keys.filter (!·.isNumber)

/-- `compile-matcher`, behind the compilation. -/
def linkMatcher (insn : Insn) (needGcb : Bool) : Matcher CodePoint :=
  let (initialNode, nodes) := (makeNode .terminal >>= insn) []
  ⟨initialNode, nodes, needGcb⟩

def compileSreTopLevel (e : Sre) : Except CompileFault (Matcher CodePoint × List Key) := do
  let (insn, st) ← compileSre t e initialSreCtx e ⟨1, [], false⟩
  return (linkMatcher insn st.gcbInsnsSeen, submatchKeysList st.submatchKeys)

end Compiler

/-- `regexp-matches?`. -/
def regexpMatches (m : Matcher CodePoint) (gcbs : List CodePoint → Nat → Nat → List Nat)
    (fuel : Nat) (string : List CodePoint) (start stop : Nat) : Result Bool := do
  return (← runMatcher m true string start stop gcbs fuel false start).isSome

end MitScheme.Runtime.Srfi115
