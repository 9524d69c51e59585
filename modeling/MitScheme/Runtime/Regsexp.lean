import MitScheme.Lib.Backtrack

/-! # Regular s-expressions

The compiler of `regsexp.scm` and the instructions of `regexp-recursive.scm`.
An instruction takes a success continuation and returns a linked instruction,
which takes a position, the groups so far and a failure continuation. The loop
of an unbounded repetition calls itself through the continuation it hands to
its body; it counts its calls down from `fuel`, and a match that runs out of
fuel is a fault of its own. -/

namespace MitScheme.Runtime.Regexp
open Lib.Backtrack

/-! ## Positions -/

/-- A string between two indices. The positions in it are its indices. -/
structure Source where
  string : List Char
  start : Nat
  stop : Nat

namespace Source

def nextChar (s : Source) (index : Nat) : Option Char :=
  if index < s.stop then s.string[index]? else none

def prevChar (s : Source) (index : Nat) : Option Char :=
  if index > s.start then s.string[index - 1]? else none

def nextPosition (s : Source) (index : Nat) : Nat := if index < s.stop then index + 1 else index

/-- The loop of `extract-string`, over the number of characters left. -/
def extractLoop (s : Source) : Nat → Nat → List Char
  | 0, _ => []
  | n + 1, index => (s.nextChar index).toList ++ s.extractLoop n (s.nextPosition index)

def extractString (s : Source) (start stop : Nat) : List Char :=
  s.extractLoop (stop - start) start

end Source

/-! ## Groups -/

structure Group (κ : Type) where
  key : κ
  start : Nat
  stop : Nat
  value : List Char

/-- The groups of `make-groups`: those started, and those ended, last one first. -/
structure Groups (κ : Type) where
  started : List (κ × Nat)
  ended : List (Group κ)

structure State (κ : Type) where
  position : Nat
  groups : Groups κ

inductive Fault
  | incorrectlyNestedGroup
  | unfinishedGroup
  | outOfFuel
  deriving DecidableEq

abbrev Result (α : Type) := Except Fault α

variable {κ α : Type} [DecidableEq κ]

def startGroup (key : κ) (position : Nat) (groups : Groups κ) : Result (Groups κ) :=
  if key ∈ groups.started.map Prod.fst then .error .incorrectlyNestedGroup
  else .ok { groups with started := (key, position) :: groups.started }

/-- `end-group`, with `make-group`. -/
def endGroup (s : Source) (key : κ) (position : Nat) (groups : Groups κ) : Result (Groups κ) :=
  match groups.started with
  | [] => .error .incorrectlyNestedGroup
  | (key', start) :: started =>
    if key' = key then
      .ok ⟨started, ⟨key, start, position, s.extractString start position⟩ :: groups.ended⟩
    else .error .incorrectlyNestedGroup

def findGroup (key : κ) (groups : Groups κ) : Result (Option (Group κ)) :=
  if key ∈ groups.started.map Prod.fst then .error .unfinishedGroup
  else .ok (groups.ended.find? (·.key = key))

/-! ## Instructions -/

abbrev Link (κ α : Type) := Linked (State κ) (Result α)

abbrev Insn (κ α : Type) := Link κ α → Link κ α

def insnAlwaysSucceed : Insn κ α := fun succeed => succeed

def insnAlwaysFail : Insn κ α := fun _ _ fail => fail ()

def insnTest (test : Nat → Bool) : Insn κ α := fun succeed state fail =>
  if test state.position then succeed state fail else fail ()

def insnStringStart (s : Source) : Insn κ α := insnTest fun p => (s.prevChar p).isNone

def insnStringEnd (s : Source) : Insn κ α := insnTest fun p => (s.nextChar p).isNone

def insnLineStart (s : Source) : Insn κ α := insnTest fun p => (s.prevChar p).all (· = '\n')

def insnLineEnd (s : Source) : Insn κ α := insnTest fun p => (s.nextChar p).all (· = '\n')

def insnCharMatching (s : Source) (predicate : Char → Bool) : Insn κ α :=
  fun succeed state fail =>
    if (s.nextChar state.position).any predicate then
      succeed { state with position := s.nextPosition state.position } fail
    else fail ()

def insnChar (s : Source) (char : Char) : Insn κ α := insnCharMatching s (· = char)

/-- The loop of `insn:string`, and the position after the string. -/
def stringLoop (s : Source) : List Char → Nat → Option Nat
  | [], position => some position
  | c :: string, position =>
    if (s.nextChar position).any (· = c) then stringLoop s string (s.nextPosition position)
    else none

def insnString (s : Source) : List Char → Insn κ α
  | [] => insnAlwaysSucceed
  | [c] => insnChar s c
  | string => fun succeed state fail =>
    match stringLoop s string state.position with
    | some position => succeed { state with position } fail
    | none => fail ()

def insnGroup (s : Source) (key : κ) (insn : Insn κ α) : Insn κ α :=
  let start : Insn κ α := fun succeed state fail => do
    let groups ← startGroup key state.position state.groups
    succeed { state with groups } fail
  let stop : Insn κ α := fun succeed state fail => do
    let groups ← endGroup s key state.position state.groups
    succeed { state with groups } fail
  fun succeed => start (insn (stop succeed))

def insnGroupRef (s : Source) (key : κ) : Insn κ α := fun succeed state fail => do
  match ← findGroup key state.groups with
  | some group => insnString s group.value succeed state fail
  | none => succeed state fail

def insnSeq (insns : List (Insn κ α)) : Insn κ α := fun succeed =>
  insns.foldr (fun insn next => insn next) succeed

def failureChain (s1 s2 : Link κ α) : Link κ α := fun state fail =>
  s1 state fun _ => s2 state fail

/-- `insn:alt`; `reduce-right` takes the last instruction as it is. -/
def insnAlt : List (Insn κ α) → Insn κ α
  | [] => insnAlwaysFail
  | [insn] => insn
  | insn :: next :: rest => fun succeed =>
    failureChain (insn succeed) (insnAlt (next :: rest) succeed)

/-- Going on before stopping, as `?`, `*` and `**` do, or after, as `??`, `*?`
and `**?` do. -/
def orderedChain (greedy : Bool) (more stop : Link κ α) : Link κ α :=
  if greedy then failureChain more stop else failureChain stop more

/-- `insn:?` and `insn:??`. -/
def insnOptional (greedy : Bool) (insn : Insn κ α) : Insn κ α := fun succeed =>
  orderedChain greedy (insn succeed) succeed

/-- The loop of `insn:*` and `insn:*?`. -/
def starLoop (greedy : Bool) (insn : Insn κ α) (succeed : Link κ α) : Nat → Link κ α
  | 0 => fun _ _ => .error .outOfFuel
  | fuel + 1 => fun state fail =>
    orderedChain greedy
      (insn fun state' fail' =>
        if state'.position = state.position then fail' ()
        else starLoop greedy insn succeed fuel state' fail')
      succeed state fail

/-- `insn:*` and `insn:*?`. -/
def insnStar (fuel : Nat) (greedy : Bool) (insn : Insn κ α) : Insn κ α := fun succeed =>
  starLoop greedy insn succeed fuel

def immediateChain (limit : Nat) (preLinker : Link κ α → Insn κ α) : Insn κ α := fun succeed =>
  let rec loop : Nat → Link κ α
    | 0 => succeed
    | left + 1 => preLinker succeed (loop left)
  loop limit

def delayedChain (limit : Nat) (preLinker : Link κ α → Insn κ α) : Insn κ α := fun succeed =>
  let rec loop : Nat → Link κ α
    | 0 => succeed
    | left + 1 => fun state fail => preLinker succeed (loop left) state fail
  loop limit

def hybridChain (limit : Nat) (preLinker : Link κ α → Insn κ α) : Insn κ α :=
  if limit ≤ 8 then immediateChain limit preLinker else delayedChain limit preLinker

def repeatExactly (n : Nat) (insn : Insn κ α) : Insn κ α := hybridChain n fun _ => insn

/-- `insn:**` and `insn:**?`, with `%repeat`. -/
def insnRepeat (fuel : Nat) (greedy : Bool) (n : Nat) (m : Option Nat) (insn : Insn κ α) :
    Insn κ α :=
  let insn1 := repeatExactly n insn
  let insn2 := match m with
    | some m => hybridChain (m - n) fun succeed next =>
        orderedChain greedy (insn next) succeed
    | none => insnStar fuel greedy insn
  fun succeed => insn1 (insn2 succeed)

/-! ## The compiler -/

/-- A regular s-expression. The shy forms `??`, `*?`, `+?` and `**?` are the
greedy ones with `greedy` off; `(** n r)` is `(** n n r)`. -/
inductive Regsexp (κ : Type)
  | char (c : Char)
  | string (string : List Char)
  | charIn (charSet : Char → Bool)
  | anyChar
  | lineStart
  | lineEnd
  | stringStart
  | stringEnd
  | seq (rs : List (Regsexp κ))
  | alt (rs : List (Regsexp κ))
  | optional (greedy : Bool) (r : Regsexp κ)
  | star (greedy : Bool) (r : Regsexp κ)
  | plus (greedy : Bool) (r : Regsexp κ)
  | repeated (greedy : Bool) (n : Nat) (m : Option Nat) (r : Regsexp κ)
  | group (key : κ) (r : Regsexp κ)
  | groupRef (key : κ)

section Compile
variable (s : Source) (fuel : Nat)

mutual

/-- `%compile-regsexp`. -/
def compile : Regsexp κ → Insn κ α
  | .char c => insnChar s c
  | .string string => insnString s string
  | .charIn charSet => insnCharMatching s charSet
  | .anyChar => insnCharMatching s (· ≠ '\n')
  | .lineStart => insnLineStart s
  | .lineEnd => insnLineEnd s
  | .stringStart => insnStringStart s
  | .stringEnd => insnStringEnd s
  | .seq rs => insnSeq (compileAll rs)
  | .alt rs => insnAlt (compileAll rs)
  | .optional greedy r => insnOptional greedy (compile r)
  | .star greedy r => insnStar fuel greedy (compile r)
  | .plus greedy r => insnRepeat fuel greedy 1 none (compile r)
  | .repeated greedy n m r => insnRepeat fuel greedy n m (compile r)
  | .group key r => insnGroup s key (compile r)
  | .groupRef key => insnGroupRef s key

def compileAll : List (Regsexp κ) → List (Insn κ α)
  | [] => []
  | r :: rs => compile r :: compileAll rs

end

end Compile

/-- What `top-level-match` returns: the indices of the match, and the key and
the value of each group. -/
structure Match (κ : Type) where
  start : Nat
  stop : Nat
  groups : List (κ × List Char)
  deriving DecidableEq

/-- `top-level-match` of a compiled expression. -/
def topLevelMatch (insn : Insn κ (Option (Nat × List (Group κ)))) (start : Nat) :
    Result (Option (Match κ)) := do
  let result ← insn
    (fun state _ => .ok (some (state.position, state.groups.ended.reverse)))
    ⟨start, ⟨[], []⟩⟩ fun _ => .ok none
  return result.map fun (stop, groups) =>
    ⟨start, stop, groups.map fun group => (group.key, group.value)⟩

def regsexpMatchString (fuel : Nat) (r : Regsexp κ) (string : List Char) (start stop : Nat) :
    Result (Option (Match κ)) :=
  topLevelMatch (compile ⟨string, start, stop⟩ fuel r) start

end MitScheme.Runtime.Regexp
