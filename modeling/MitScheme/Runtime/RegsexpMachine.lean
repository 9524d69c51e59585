import MitScheme.Runtime.Regsexp

/-! # The instructions over any kind of position

The instructions of `regexp-recursive.scm` use a position only through `next-char`,
`prev-char`, `next-position` and `same-positions?`, and the groups only through
`start-group`, `end-group` and `find-group`. A machine is an implementation of these.
Matches on two machines that simulate one another end alike. -/

namespace MitScheme.Runtime.RegexpMachine
open Lib.Backtrack
open Regexp (Regsexp)

/-- What the instructions use. A state is a position with the groups; an operation with an
effect takes a continuation. -/
structure Machine (S κ ρ : Type) where
  nextChar : S → Option Char
  prevChar : S → Option Char
  samePosition : S → S → Bool
  /-- Goes on from `next-position`. -/
  advance : S → (S → ρ) → ρ
  startGroup : κ → S → (S → ρ) → ρ
  endGroup : κ → S → (S → ρ) → ρ
  /-- Goes on with the `group-value`. -/
  findGroup : κ → S → (Option (List Char) → ρ) → ρ
  outOfFuel : ρ

section Instructions

variable {S κ ρ : Type}

abbrev Link (S ρ : Type) := Linked S ρ

abbrev Insn (S ρ : Type) := Link S ρ → Link S ρ

/-! ## Instructions -/

def insnTest (test : S → Bool) : Insn S ρ := fun succeed state fail =>
  if test state then succeed state fail else fail ()

def failureChain (s1 s2 : Link S ρ) : Link S ρ := fun state fail =>
  s1 state fun _ => s2 state fail

def insnSeq (insns : List (Insn S ρ)) : Insn S ρ := fun succeed =>
  insns.foldr (fun insn next => insn next) succeed

def insnAlt : List (Insn S ρ) → Insn S ρ
  | [] => fun _ _ fail => fail ()
  | [insn] => insn
  | insn :: next :: rest => fun succeed =>
    failureChain (insn succeed) (insnAlt (next :: rest) succeed)

def orderedChain (greedy : Bool) (more stop : Link S ρ) : Link S ρ :=
  if greedy then failureChain more stop else failureChain stop more

/-- `insn:?` and `insn:??`. -/
def insnOptional (greedy : Bool) (insn : Insn S ρ) : Insn S ρ := fun succeed =>
  orderedChain greedy (insn succeed) succeed

/-- The loop of `%immediate-chain` and of `%delayed-chain`. -/
def chainLoop (linker : Insn S ρ) (succeed : Link S ρ) : Nat → Link S ρ
  | 0 => succeed
  | left + 1 => linker (chainLoop linker succeed left)

def hybridChain (limit : Nat) (preLinker : Link S ρ → Insn S ρ) : Insn S ρ := fun succeed =>
  chainLoop (preLinker succeed) succeed limit

variable (m : Machine S κ ρ)

def insnCharMatching (predicate : Char → Bool) : Insn S ρ := fun succeed state fail =>
  if (m.nextChar state).any predicate then m.advance state fun state => succeed state fail
  else fail ()

/-- `insn:string`; its loop tests a character after the other with one failure
continuation. -/
def insnString : List Char → Insn S ρ
  | [] => fun succeed => succeed
  | c :: string => fun succeed => insnCharMatching m (· = c) (insnString string succeed)

def insnGroup (key : κ) (insn : Insn S ρ) : Insn S ρ :=
  let start : Insn S ρ := fun succeed state fail =>
    m.startGroup key state fun state => succeed state fail
  let stop : Insn S ρ := fun succeed state fail =>
    m.endGroup key state fun state => succeed state fail
  fun succeed => start (insn (stop succeed))

def insnGroupRef (key : κ) : Insn S ρ := fun succeed state fail =>
  m.findGroup key state fun
    | some value => insnString m value succeed state fail
    | none => succeed state fail

/-- The loop of `insn:*` and `insn:*?`. -/
def starLoop (greedy : Bool) (insn : Insn S ρ) (succeed : Link S ρ) : Nat → Link S ρ
  | 0 => fun _ _ => m.outOfFuel
  | fuel + 1 => fun state fail =>
    orderedChain greedy
      (insn fun state' fail' =>
        if m.samePosition state' state then fail' ()
        else starLoop greedy insn succeed fuel state' fail')
      succeed state fail

/-- `insn:*` and `insn:*?`. -/
def insnStar (fuel : Nat) (greedy : Bool) (insn : Insn S ρ) : Insn S ρ := fun succeed =>
  starLoop m greedy insn succeed fuel

/-- `insn:**` and `insn:**?`, with `%repeat`. -/
def insnRepeat (fuel : Nat) (greedy : Bool) (n : Nat) (limit : Option Nat) (insn : Insn S ρ) :
    Insn S ρ :=
  let insn1 := hybridChain n fun _ => insn
  let insn2 := match limit with
    | some limit => hybridChain (limit - n) fun succeed next =>
        orderedChain greedy (insn next) succeed
    | none => insnStar m fuel greedy insn
  fun succeed => insn1 (insn2 succeed)

mutual

/-- `%compile-regsexp`. -/
def compile (fuel : Nat) : Regsexp κ → Insn S ρ
  | .char c => insnCharMatching m (· = c)
  | .string string => insnString m string
  | .charIn charSet => insnCharMatching m charSet
  | .anyChar => insnCharMatching m (· ≠ '\n')
  | .lineStart => insnTest fun state => (m.prevChar state).all (· = '\n')
  | .lineEnd => insnTest fun state => (m.nextChar state).all (· = '\n')
  | .stringStart => insnTest fun state => (m.prevChar state).isNone
  | .stringEnd => insnTest fun state => (m.nextChar state).isNone
  | .seq rs => insnSeq (compileAll fuel rs)
  | .alt rs => insnAlt (compileAll fuel rs)
  | .optional greedy r => insnOptional greedy (compile fuel r)
  | .star greedy r => insnStar m fuel greedy (compile fuel r)
  | .plus greedy r => insnRepeat m fuel greedy 1 none (compile fuel r)
  | .repeated greedy n limit r => insnRepeat m fuel greedy n limit (compile fuel r)
  | .group key r => insnGroup m key (compile fuel r)
  | .groupRef key => insnGroupRef m key

def compileAll (fuel : Nat) : List (Regsexp κ) → List (Insn S ρ)
  | [] => []
  | r :: rs => compile fuel r :: compileAll fuel rs

end

end Instructions

/-! ## Simulation -/

section Simulation

variable {S S' κ ρ ρ' : Type}

/-- One machine does the same as another: `R` relates their states, and `Q` their answers. -/
structure Simulates (m : Machine S κ ρ) (m' : Machine S' κ ρ') (R : S → S' → Prop)
    (Q : ρ → ρ' → Prop) : Prop where
  nextChar : ∀ {s s'}, R s s' → m.nextChar s = m'.nextChar s'
  prevChar : ∀ {s s'}, R s s' → m.prevChar s = m'.prevChar s'
  samePosition : ∀ {s s' t t'}, R s s' → R t t' → m.samePosition s t = m'.samePosition s' t'
  advance : ∀ {s s' k k'}, R s s' → (m.nextChar s).isSome → (∀ t t', R t t' → Q (k t) (k' t')) →
    Q (m.advance s k) (m'.advance s' k')
  startGroup : ∀ {s s' k k'} key, R s s' → (∀ t t', R t t' → Q (k t) (k' t')) →
    Q (m.startGroup key s k) (m'.startGroup key s' k')
  endGroup : ∀ {s s' k k'} key, R s s' → (∀ t t', R t t' → Q (k t) (k' t')) →
    Q (m.endGroup key s k) (m'.endGroup key s' k')
  findGroup : ∀ {s s' k k'} key, R s s' → (∀ value, Q (k value) (k' value)) →
    Q (m.findGroup key s k) (m'.findGroup key s' k')
  outOfFuel : Q m.outOfFuel m'.outOfFuel

/-- From related states, and failures that end alike, two links end alike. -/
def LinkRel (R : S → S' → Prop) (Q : ρ → ρ' → Prop) (l : Link S ρ) (l' : Link S' ρ') : Prop :=
  ∀ s s' f f', R s s' → Q (f ()) (f' ()) → Q (l s f) (l' s' f')

def InsnRel (R : S → S' → Prop) (Q : ρ → ρ' → Prop) (i : Insn S ρ)
    (i' : Insn S' ρ') : Prop :=
  ∀ l l', LinkRel R Q l l' → LinkRel R Q (i l) (i' l')

namespace Simulates

variable {m : Machine S κ ρ} {m' : Machine S' κ ρ'} {R : S → S' → Prop} {Q : ρ → ρ' → Prop}
variable {i j : Insn S ρ} {i' j' : Insn S' ρ'}

theorem test {t : S → Bool} {t' : S' → Bool} (ht : ∀ {s s'}, R s s' → t s = t' s') :
    InsnRel R Q (insnTest t) (insnTest t') := by
  intro l l' hl s s' f f' hs hf
  rw [insnTest, insnTest, ht hs]
  split
  · exact hl s s' f f' hs hf
  · exact hf

theorem charMatching (h : Simulates m m' R Q) (predicate) :
    InsnRel R Q (insnCharMatching m predicate) (insnCharMatching m' predicate) := by
  intro l l' hl s s' f f' hs hf
  rw [insnCharMatching, insnCharMatching, ← h.nextChar hs]
  split
  · rename_i hchar
    have hsome : (m.nextChar s).isSome := by
      cases hnext : m.nextChar s with
      | none => rw [hnext] at hchar; cases hchar
      | some c => rfl
    exact h.advance hs hsome fun t t' ht => hl t t' f f' ht hf
  · exact hf

theorem string (h : Simulates m m' R Q) : (string : List Char) →
    InsnRel R Q (insnString m string) (insnString m' string)
  | [] => fun _ _ hl => hl
  | c :: string => fun _ _ hl => h.charMatching (· = c) _ _ (h.string string _ _ hl)

theorem seq {is is'} (h : List.Forall₂ (InsnRel R Q) is is') :
    InsnRel R Q (insnSeq is) (insnSeq is') := by
  intro l l' hl
  induction h with
  | nil => exact hl
  | cons hi _ ih => exact hi _ _ ih

theorem failure {a b a' b'} (ha : LinkRel R Q a a') (hb : LinkRel R Q b b') :
    LinkRel R Q (failureChain a b) (failureChain a' b') :=
  fun s s' f f' hs hf => ha s s' _ _ hs (hb s s' f f' hs hf)

theorem alt {is is'} (h : List.Forall₂ (InsnRel R Q) is is') :
    InsnRel R Q (insnAlt is) (insnAlt is') := by
  induction h with
  | nil => exact fun _ _ _ _ _ _ _ _ hf => hf
  | cons hi hrest ih =>
    cases hrest with
    | nil => exact hi
    | cons _ _ => exact fun l l' hl => failure (hi l l' hl) (ih l l' hl)

theorem ordered (greedy) {a b a' b'} (ha : LinkRel R Q a a') (hb : LinkRel R Q b b') :
    LinkRel R Q (orderedChain greedy a b) (orderedChain greedy a' b') := by
  cases greedy with
  | true => exact failure ha hb
  | false => exact failure hb ha

theorem optional (greedy) (hi : InsnRel R Q i i') :
    InsnRel R Q (insnOptional greedy i) (insnOptional greedy i') :=
  fun l l' hl => ordered greedy (hi l l' hl) hl

theorem chain (n) {pre : Link S ρ → Insn S ρ} {pre' : Link S' ρ' → Insn S' ρ'}
    (hpre : ∀ l l', LinkRel R Q l l' → InsnRel R Q (pre l) (pre' l')) :
    InsnRel R Q (hybridChain n pre) (hybridChain n pre') := by
  intro l l' hl
  rw [hybridChain, hybridChain]
  induction n with
  | zero => exact hl
  | succ n ih => exact hpre l l' hl _ _ ih

section
variable (h : Simulates m m' R Q)
include h

theorem star (fuel greedy) (hi : InsnRel R Q i i') :
    InsnRel R Q (insnStar m fuel greedy i) (insnStar m' fuel greedy i') := by
  intro l l' hl
  rw [insnStar, insnStar]
  induction fuel with
  | zero => exact fun _ _ _ _ _ _ => h.outOfFuel
  | succ fuel ih =>
    intro s s' f f' hs hf
    refine ordered greedy (hi _ _ fun t t' g g' ht hg => ?_) hl s s' f f' hs hf
    rw [h.samePosition ht hs]
    split
    · exact hg
    · exact ih t t' g g' ht hg

theorem repeated (fuel greedy n limit) (hi : InsnRel R Q i i') :
    InsnRel R Q (insnRepeat m fuel greedy n limit i) (insnRepeat m' fuel greedy n limit i') := by
  intro l l' hl
  refine chain n (fun _ _ _ => hi) _ _ ?_
  cases limit with
  | none => exact h.star fuel greedy hi l l' hl
  | some limit =>
    exact chain (limit - n) (fun k k' hk a a' ha => ordered greedy (hi a a' ha) hk) l l' hl

theorem group (key) (hi : InsnRel R Q i i') :
    InsnRel R Q (insnGroup m key i) (insnGroup m' key i') := by
  intro l l' hl s s' f f' hs hf
  refine h.startGroup key hs fun t t' ht => hi _ _ ?_ t t' f f' ht hf
  exact fun u u' g g' hu hg => h.endGroup key hu fun v v' hv => hl v v' g g' hv hg

theorem groupRef (key) : InsnRel R Q (insnGroupRef m key) (insnGroupRef m' key) := by
  intro l l' hl s s' f f' hs hf
  refine h.findGroup key hs fun value => ?_
  cases value with
  | none => exact hl s s' f f' hs hf
  | some value => exact h.string value l l' hl s s' f f' hs hf

end

mutual

theorem compile (h : Simulates m m' R Q) (fuel : Nat) : (r : Regsexp κ) →
    InsnRel R Q (RegexpMachine.compile m fuel r) (RegexpMachine.compile m' fuel r)
  | .char c => by simpa only [RegexpMachine.compile] using h.charMatching (· = c)
  | .string string => by simpa only [RegexpMachine.compile] using h.string string
  | .charIn charSet => by simpa only [RegexpMachine.compile] using h.charMatching charSet
  | .anyChar => by simpa only [RegexpMachine.compile] using h.charMatching (· ≠ '\n')
  | .lineStart => by
    simpa only [RegexpMachine.compile] using test fun hs => by rw [h.prevChar hs]
  | .lineEnd => by
    simpa only [RegexpMachine.compile] using test fun hs => by rw [h.nextChar hs]
  | .stringStart => by
    simpa only [RegexpMachine.compile] using test fun hs => by rw [h.prevChar hs]
  | .stringEnd => by
    simpa only [RegexpMachine.compile] using test fun hs => by rw [h.nextChar hs]
  | .seq rs => by simpa only [RegexpMachine.compile] using seq (h.compileAll fuel rs)
  | .alt rs => by simpa only [RegexpMachine.compile] using alt (h.compileAll fuel rs)
  | .optional greedy r => by
    simpa only [RegexpMachine.compile] using optional greedy (h.compile fuel r)
  | .star greedy r => by
    simpa only [RegexpMachine.compile] using h.star fuel greedy (h.compile fuel r)
  | .plus greedy r => by
    simpa only [RegexpMachine.compile] using h.repeated fuel greedy 1 none (h.compile fuel r)
  | .repeated greedy n limit r => by
    simpa only [RegexpMachine.compile] using h.repeated fuel greedy n limit (h.compile fuel r)
  | .group key r => by simpa only [RegexpMachine.compile] using h.group key (h.compile fuel r)
  | .groupRef key => by simpa only [RegexpMachine.compile] using h.groupRef key

theorem compileAll (h : Simulates m m' R Q) (fuel : Nat) : (rs : List (Regsexp κ)) →
    List.Forall₂ (InsnRel R Q) (RegexpMachine.compileAll m fuel rs) (RegexpMachine.compileAll m' fuel rs)
  | [] => by
    rw [RegexpMachine.compileAll, RegexpMachine.compileAll]
    exact .nil
  | r :: rs => by
    rw [RegexpMachine.compileAll, RegexpMachine.compileAll]
    exact .cons (h.compile fuel r) (h.compileAll fuel rs)

end

end Simulates

end Simulation

end MitScheme.Runtime.RegexpMachine
