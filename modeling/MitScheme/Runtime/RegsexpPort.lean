import MitScheme.Runtime.RegsexpMachine
import MitScheme.Runtime.RegsexpLink
import Mathlib.Data.List.Forall2
import Mathlib.Data.Set.Basic

/-! # Matching from a port

`regsexp-match-input-port`. A position of a port holds its character; the next position
is made by reading one more, each time that it is asked for. So the match is that of the
text as long as no position is left twice. -/

namespace MitScheme.Runtime.RegexpMachine
open Regexp (Regsexp Source State Group Match regsexpMatchString)

inductive PortFault
  | fault (e : Regexp.Fault)
  | unsupportedArgument
  | leftTwice
  deriving DecidableEq

variable {κ α : Type}

/-! ## The instructions of a string -/

theorem insnAlt_eq : (insns : List (Regexp.Insn κ α)) → insnAlt insns = Regexp.insnAlt insns
  | [] => rfl
  | [insn] => rfl
  | insn :: next :: rest => by
    have hrest := insnAlt_eq (next :: rest)
    rw [insnAlt, Regexp.insnAlt, hrest]
    rfl

theorem hybridChain_eq (limit : Nat) (preLinker : Regexp.Link κ α → Regexp.Insn κ α) :
    hybridChain limit preLinker = Regexp.hybridChain limit preLinker := by
  rw [Regexp.hybridChain_eq]
  funext succeed
  rw [hybridChain, Regexp.immediateChain]
  induction limit with
  | zero => rfl
  | succ left ih => rw [chainLoop, Regexp.immediateChain.loop, ih]

/-! ## Positions of a port -/

/-- A position of `make-source-position`. -/
structure Position where
  index : Nat
  nextChar : Option Char
  prevChar : Option Char

/-- A position of the port holds the characters of the text. -/
structure At (t : List Char) (i : Nat) (p : Position) : Prop where
  index : p.index = i
  nextChar : p.nextChar = t[i]?
  prevChar : p.prevChar = if 0 < i then t[i - 1]? else none

theorem At.next {t i p} (h : At t i p) :
    At t (i + 1) ⟨p.index + 1, (t.drop (i + 1)).head?, p.nextChar⟩ where
  index := by rw [h.index]
  nextChar := List.head?_drop
  prevChar := h.nextChar

theorem started_keys {t} {started : List (κ × Nat)} {started' : List (κ × Position)}
    (h : List.Forall₂ (fun a b => a.1 = b.1 ∧ At t a.2 b.2) started started') :
    started.map Prod.fst = started'.map Prod.fst := by
  induction h with
  | nil => rfl
  | cons hhead _ ih => rw [List.map_cons, List.map_cons, hhead.1, ih]

variable [DecidableEq κ]

/-- A computation that reads from a port; the text is what the port still delivers. -/
abbrev Reading (α : Type) := List Char → Except PortFault α

/-- `next-position`. -/
def Position.next (p : Position) (k : Position → Reading α) : Reading α := fun port =>
  k ⟨p.index + 1, port.head?, p.nextChar⟩ port.tail

/-- The loop of `extract-string`, over the number of positions left. -/
def Position.extractLoop : Nat → Position → (List Char → Reading α) → Reading α
  | 0, _, k => k []
  | left + 1, p, k =>
    match p.nextChar with
    | none => fun _ => .error .unsupportedArgument
    | some c => p.next fun p => extractLoop left p fun text => k (c :: text)

structure PortState (κ : Type) where
  position : Position
  started : List (κ × Position)
  ended : List (Regexp.Group κ)

def portMachine : Machine (PortState κ) κ (Reading α) where
  nextChar state := state.position.nextChar
  prevChar state := state.position.prevChar
  samePosition state state' := state.position.index = state'.position.index
  advance state k := state.position.next fun position => k { state with position }
  startGroup key state k :=
    if key ∈ state.started.map Prod.fst then fun _ => .error (.fault .incorrectlyNestedGroup)
    else k { state with started := (key, state.position) :: state.started }
  endGroup key state k :=
    match state.started with
    | [] => fun _ => .error (.fault .incorrectlyNestedGroup)
    | (key', start) :: started =>
      if key' = key then
        start.extractLoop (state.position.index - start.index) fun value =>
          k ⟨state.position, started,
            ⟨key, start.index, state.position.index, value⟩ :: state.ended⟩
      else fun _ => .error (.fault .incorrectlyNestedGroup)
  findGroup key state k :=
    if key ∈ state.started.map Prod.fst then fun _ => .error (.fault .unfinishedGroup)
    else k ((state.ended.find? (·.key = key)).map Regexp.Group.value)
  outOfFuel := fun _ => .error (.fault .outOfFuel)

def regsexpMatchInputPort (fuel : Nat) (r : Regsexp κ) (port : List Char) :
    Except PortFault (Option (Match κ)) := do
  let result ← compile portMachine fuel r
    (fun state _ _ => .ok (some (state.position.index, state.ended.reverse)))
    ⟨⟨0, port.head?, none⟩, [], []⟩ (fun _ _ => .ok none) port.tail
  return result.map fun (stop, groups) =>
    ⟨0, stop, groups.map fun group => (group.key, group.value)⟩

/-! ## Positions of a string -/

def stringMachine (s : Source) : Machine (State κ) κ (Regexp.Result α) where
  nextChar state := s.nextChar state.position
  prevChar state := s.prevChar state.position
  samePosition state state' := state.position = state'.position
  advance state k := k { state with position := s.nextPosition state.position }
  startGroup key state k := do
    let groups ← Regexp.startGroup key state.position state.groups
    k { state with groups }
  endGroup key state k := do
    let groups ← Regexp.endGroup s key state.position state.groups
    k { state with groups }
  findGroup key state k := do
    let group ← Regexp.findGroup key state.groups
    k (group.map Regexp.Group.value)
  outOfFuel := .error .outOfFuel

section Link

variable (s : Source) (fuel : Nat)

theorem string_stringMachine (succeed : Regexp.Link κ α) (fail : Unit → Regexp.Result α) :
    ∀ (string : List Char) (state : State κ),
      insnString (stringMachine s) string succeed state fail =
        (Regexp.stringLoop s string state.position).elim (fail ())
          fun position => succeed { state with position } fail
  | [], state => rfl
  | c :: string, state => by
    have hnext := string_stringMachine succeed fail string
      { state with position := s.nextPosition state.position }
    have hstep : insnString (stringMachine s) (c :: string) succeed state fail =
        if (s.nextChar state.position).any (· = c) then
          insnString (stringMachine s) string succeed
            { state with position := s.nextPosition state.position } fail
        else fail () := rfl
    rw [hstep, Regexp.stringLoop, hnext]
    split <;> rfl

theorem insnString_stringMachine : (string : List Char) →
    insnString (stringMachine s) string = (Regexp.insnString s string : Regexp.Insn κ α)
  | [] => rfl
  | [c] => rfl
  | c :: c' :: string => by
    funext succeed state fail
    rw [string_stringMachine]
    simp only [Regexp.insnString]
    cases Regexp.stringLoop s (c :: c' :: string) state.position <;> rfl

theorem starLoop_stringMachine (greedy : Bool) (insn : Regexp.Insn κ α)
    (succeed : Regexp.Link κ α) :
    starLoop (stringMachine s) greedy insn succeed fuel =
      Regexp.starLoop greedy insn succeed fuel := by
  induction fuel with
  | zero => rfl
  | succ fuel ih =>
    rw [starLoop, Regexp.starLoop, ih]
    funext state fail
    simp only [stringMachine, decide_eq_true_eq]
    rfl

theorem insnStar_stringMachine (greedy : Bool) (insn : Regexp.Insn κ α) :
    insnStar (stringMachine s) fuel greedy insn = Regexp.insnStar fuel greedy insn :=
  funext fun succeed => starLoop_stringMachine s fuel greedy insn succeed

theorem insnRepeat_stringMachine (greedy : Bool) (n : Nat) (limit : Option Nat)
    (insn : Regexp.Insn κ α) :
    insnRepeat (stringMachine s) fuel greedy n limit insn =
      Regexp.insnRepeat fuel greedy n limit insn := by
  rw [insnRepeat, Regexp.insnRepeat, hybridChain_eq, Regexp.repeatExactly]
  cases limit with
  | none => rw [insnStar_stringMachine]
  | some limit =>
    simp only [hybridChain_eq]
    rfl

theorem insnGroupRef_stringMachine (key) :
    insnGroupRef (stringMachine s) key = (Regexp.insnGroupRef s key : Regexp.Insn κ α) := by
  funext succeed state fail
  have hstring (value : List Char) : insnString (stringMachine s) value succeed state fail =
      Regexp.insnString s value succeed state fail := by rw [insnString_stringMachine]
  rw [insnGroupRef, Regexp.insnGroupRef]
  simp only [stringMachine] at hstring ⊢
  cases Regexp.findGroup key state.groups with
  | error e => rfl
  | ok group =>
    cases group with
    | none => rfl
    | some group => exact hstring group.value

mutual

theorem compile_stringMachine : (r : Regsexp κ) →
    compile (stringMachine s) fuel r = (Regexp.compile s fuel r : Regexp.Insn κ α)
  | .char c => by rw [compile, Regexp.compile]; rfl
  | .string string => by rw [compile, Regexp.compile, insnString_stringMachine]
  | .charIn charSet => by rw [compile, Regexp.compile]; rfl
  | .anyChar => by rw [compile, Regexp.compile]; rfl
  | .lineStart => by rw [compile, Regexp.compile]; rfl
  | .lineEnd => by rw [compile, Regexp.compile]; rfl
  | .stringStart => by rw [compile, Regexp.compile]; rfl
  | .stringEnd => by rw [compile, Regexp.compile]; rfl
  | .seq rs => by rw [compile, Regexp.compile, compileAll_stringMachine rs]; rfl
  | .alt rs => by rw [compile, Regexp.compile, compileAll_stringMachine rs, insnAlt_eq]
  | .optional greedy r => by rw [compile, Regexp.compile, compile_stringMachine r]; rfl
  | .star greedy r => by
    rw [compile, Regexp.compile, compile_stringMachine r, insnStar_stringMachine]
  | .plus greedy r => by
    rw [compile, Regexp.compile, compile_stringMachine r, insnRepeat_stringMachine]
  | .repeated greedy n limit r => by
    rw [compile, Regexp.compile, compile_stringMachine r, insnRepeat_stringMachine]
  | .group key r => by rw [compile, Regexp.compile, compile_stringMachine r]; rfl
  | .groupRef key => by rw [compile, Regexp.compile, insnGroupRef_stringMachine]

theorem compileAll_stringMachine : (rs : List (Regsexp κ)) →
    compileAll (stringMachine s) fuel rs =
      (Regexp.compileAll s fuel rs : List (Regexp.Insn κ α))
  | [] => by rw [compileAll, Regexp.compileAll]
  | r :: rs => by
    rw [compileAll, Regexp.compileAll, compile_stringMachine r, compileAll_stringMachine rs]

end

end Link

/-! ## Positions that are left once -/

/-- The loop of `extract-string` over positions each of which is the last one. -/
def onceExtract (s : Source) : Nat → Nat → (List Char → Nat → Except PortFault α) →
    Nat → Except PortFault α
  | 0, _, k => k []
  | n + 1, index, k => fun left =>
    if index = left then
      onceExtract s n (s.nextPosition index)
        (fun text => k ((s.nextChar index).toList ++ text)) (left + 1)
    else .error .leftTwice

/-- The positions of a string, with the number of those that have been left; they are left
in their order, each once, or the match is given up. -/
def onceMachine (s : Source) : Machine (State κ) κ (Nat → Except PortFault α) where
  nextChar state := s.nextChar state.position
  prevChar state := s.prevChar state.position
  samePosition state state' := state.position = state'.position
  advance state k := fun left =>
    if state.position = left then
      k { state with position := s.nextPosition state.position } (left + 1)
    else .error .leftTwice
  startGroup key state k := fun left =>
    match Regexp.startGroup key state.position state.groups with
    | .error e => .error (.fault e)
    | .ok groups => k { state with groups } left
  endGroup key state k :=
    match state.groups.started with
    | [] => fun _ => .error (.fault .incorrectlyNestedGroup)
    | (key', start) :: started =>
      if key' = key then
        onceExtract s (state.position - start) start fun value =>
          k ⟨state.position, started,
            ⟨key, start, state.position, value⟩ :: state.groups.ended⟩
      else fun _ => .error (.fault .incorrectlyNestedGroup)
  findGroup key state k := fun left =>
    match Regexp.findGroup key state.groups with
    | .error e => .error (.fault e)
    | .ok group => k (group.map Regexp.Group.value) left
  outOfFuel := fun _ => .error (.fault .outOfFuel)

def onceMatch (fuel : Nat) (r : Regsexp κ) (text : List Char) :
    Except PortFault (Option (Match κ)) := do
  let result ← compile (onceMachine ⟨text, 0, text.length⟩) fuel r
    (fun state _ _ => .ok (some (state.position, state.groups.ended.reverse)))
    ⟨0, ⟨[], []⟩⟩ (fun _ _ => .ok none) 0
  return result.map fun (stop, groups) =>
    ⟨0, stop, groups.map fun group => (group.key, group.value)⟩

/-! ## A match without a return is the one of the string -/

section String

variable {s : Source}

def StringAnswer (r : Nat → Except PortFault α) (r' : Regexp.Result α) : Prop :=
  ∀ left, r left = .error .leftTwice ∨ r left = r'.mapError .fault

theorem onceExtract_cases (k : List Char → Nat → Except PortFault α) (n index left : Nat) :
    onceExtract s n index k left = .error .leftTwice ∨
      ∃ left', onceExtract s n index k left = k (s.extractLoop n index) left' := by
  induction n generalizing index left k with
  | zero => exact .inr ⟨left, rfl⟩
  | succ n ih =>
    simp only [onceExtract, Source.extractLoop]
    split
    · exact ih (fun text => k ((s.nextChar index).toList ++ text)) _ _
    · exact .inl rfl

theorem once_simulates_string : Simulates (onceMachine s : Machine (State κ) κ _)
    (stringMachine s : Machine (State κ) κ (Regexp.Result α)) (· = ·) StringAnswer where
  nextChar h := by rw [h]; rfl
  prevChar h := by rw [h]; rfl
  samePosition h h' := by rw [h, h']; rfl
  advance := by
    rintro st st' k k' rfl - hk left
    simp only [onceMachine, stringMachine]
    split
    · exact hk _ _ rfl _
    · exact .inl rfl
  startGroup := by
    rintro st st' k k' key rfl hk left
    simp only [onceMachine, stringMachine]
    cases Regexp.startGroup key st.position st.groups with
    | error e => exact .inr rfl
    | ok groups => exact hk _ _ rfl left
  endGroup := by
    rintro st st' k k' key rfl hk left
    simp only [onceMachine, stringMachine, Regexp.endGroup]
    cases hstarted : st.groups.started with
    | nil => exact .inr rfl
    | cons group started =>
      obtain ⟨key', start⟩ := group
      by_cases hkey : key' = key
      · simp only [if_pos hkey]
        obtain h | ⟨left', h⟩ := onceExtract_cases (fun value =>
            k ⟨st.position, started, ⟨key, start, st.position, value⟩ :: st.groups.ended⟩)
          (st.position - start) start left
        · exact .inl h
        · rw [h]
          exact hk _ _ rfl left'
      · simp only [if_neg hkey]
        exact .inr rfl
  findGroup := by
    rintro st st' k k' key rfl hk left
    simp only [onceMachine, stringMachine]
    cases Regexp.findGroup key st.groups with
    | error e => exact .inr rfl
    | ok group => exact hk _ left
  outOfFuel := fun _ => .inr rfl

end String

/-! ## It is also the one of the port -/

section Port

variable {t : List Char}

theorem nextChar_text (i) : Source.nextChar ⟨t, 0, t.length⟩ i = t[i]? := by
  rw [Source.nextChar]
  split
  · rfl
  · rename_i h
    exact (List.getElem?_eq_none (Nat.le_of_not_lt h)).symm

structure PortRel (t : List Char) (st : State κ) (st' : PortState κ) : Prop where
  position : At t st.position st'.position
  bound : st.position ≤ t.length
  started : List.Forall₂ (fun a b => a.1 = b.1 ∧ At t a.2 b.2) st.groups.started st'.started
  ended : st.groups.ended = st'.ended

/-- The answer of a port that has delivered the text up to the last position, unless a
position would be left twice. -/
def PortAnswer (t : List Char) (r : Nat → Except PortFault α) (r' : Reading α) : Prop :=
  ∀ left, r left = .error .leftTwice ∨ r left = r' (t.drop (left + 1))

theorem onceExtract_port {k : List Char → Nat → Except PortFault α} {k' : List Char → Reading α}
    {n index p} (hp : At t index p) (hbound : index + n ≤ t.length)
    (hk : ∀ value, PortAnswer t (k value) (k' value)) :
    PortAnswer t (onceExtract ⟨t, 0, t.length⟩ n index k) (p.extractLoop n k') := by
  induction n generalizing index p k k' with
  | zero => exact hk []
  | succ n ih =>
    intro left
    have hlt : index < t.length := by omega
    have hchar : t[index]? = some t[index] := List.getElem?_eq_getElem hlt
    simp only [onceExtract]
    split
    · rename_i heq
      subst heq
      have hnext : Source.nextPosition ⟨t, 0, t.length⟩ index = index + 1 := if_pos hlt
      have hloop : p.extractLoop (n + 1) k' (t.drop (index + 1)) =
          Position.extractLoop n ⟨p.index + 1, (t.drop (index + 1)).head?, p.nextChar⟩
            (fun text => k' (t[index] :: text)) (t.drop (index + 1)).tail := by
        rw [Position.extractLoop, hp.nextChar, hchar]
        simp only [Position.next, hp.nextChar, hchar]
      rw [hloop, hnext, nextChar_text, hchar, List.tail_drop]
      exact ih hp.next (by omega) (fun value => hk (t[index] :: value)) (index + 1)
    · exact .inl rfl

theorem once_simulates_port : Simulates
    (onceMachine ⟨t, 0, t.length⟩ : Machine (State κ) κ (Nat → Except PortFault α))
    portMachine (PortRel t) (PortAnswer t) where
  nextChar h := (nextChar_text _).trans h.position.nextChar.symm
  prevChar h := h.position.prevChar.symm
  samePosition h h' := by
    simp only [onceMachine, portMachine, h.position.index, h'.position.index]
  advance := by
    intro st st' k k' h hsome hk left
    simp only [onceMachine, portMachine]
    split
    · rename_i heq
      have hlt : st.position < t.length := by
        by_contra hge
        have hnone : Source.nextChar ⟨t, 0, t.length⟩ st.position = none := if_neg hge
        simp only [onceMachine, hnone] at hsome
        cases hsome
      have hnext : Source.nextPosition ⟨t, 0, t.length⟩ st.position = st.position + 1 :=
        if_pos hlt
      have hrel : PortRel t ⟨st.position + 1, st.groups⟩
          ⟨⟨st'.position.index + 1, (t.drop (st.position + 1)).head?, st'.position.nextChar⟩,
            st'.started, st'.ended⟩ := ⟨h.position.next, hlt, h.started, h.ended⟩
      have hanswer := hk _ _ hrel (st.position + 1)
      rw [hnext, Position.next, ← heq, List.tail_drop]
      exact hanswer
    · exact .inl rfl
  startGroup := by
    intro st st' k k' key h hk left
    simp only [onceMachine, portMachine, Regexp.startGroup, started_keys h.started]
    by_cases hkey : key ∈ st'.started.map Prod.fst
    · simp only [if_pos hkey]
      exact .inr trivial
    · simp only [if_neg hkey]
      have hrel : PortRel t
          ⟨st.position, ⟨(key, st.position) :: st.groups.started, st.groups.ended⟩⟩
          ⟨st'.position, (key, st'.position) :: st'.started, st'.ended⟩ :=
        ⟨h.position, h.bound, .cons ⟨rfl, h.position⟩ h.started, h.ended⟩
      exact hk _ _ hrel left
  endGroup := by
    intro st st' k k' key h hk
    obtain ⟨position, ⟨started, ended⟩⟩ := st
    obtain ⟨position', started', ended'⟩ := st'
    obtain ⟨hposition, hbound, hstarted, hended⟩ := h
    simp only at hposition hbound hstarted hended
    subst hended
    simp only [onceMachine, portMachine]
    cases hstarted with
    | nil => exact fun _ => .inr rfl
    | @cons group group' started started' hgroup hstarted =>
      obtain ⟨key₁, start⟩ := group
      obtain ⟨key₂, start'⟩ := group'
      obtain ⟨hkeys, hstart⟩ := hgroup
      simp only at hkeys hstart
      subst hkeys
      by_cases hkey : key₁ = key
      · simp only [if_pos hkey, hposition.index, hstart.index]
        rcases Nat.le_total start position with hle | hle
        · refine onceExtract_port hstart (by omega) fun value => hk _ _ ?_
          exact ⟨hposition, hbound, hstarted, rfl⟩
        · rw [Nat.sub_eq_zero_of_le hle]
          exact hk _ _ ⟨hposition, hbound, hstarted, rfl⟩
      · simp only [if_neg hkey]
        exact fun _ => .inr rfl
  findGroup := by
    intro st st' k k' key h hk left
    simp only [onceMachine, portMachine, Regexp.findGroup, started_keys h.started, h.ended]
    by_cases hkey : key ∈ st'.started.map Prod.fst
    · simp only [if_pos hkey]
      exact .inr trivial
    · simp only [if_neg hkey]
      exact hk _ left
  outOfFuel := fun _ => .inr rfl

end Port

/-! ## Patterns that decide by the next character -/

section Decided

/-- A match of `r` that characters of `F` follow begins with one of `A`, and each choice
in it is made by the next character. -/
inductive Decided : (r : Regsexp κ) → (F A : Set Char) → Prop
  | char {c F} : Decided (.char c) F {c}
  | empty {F} : Decided (.string []) F F
  | string {c cs F} : Decided (.string (c :: cs)) F {c}
  | charIn {charSet F} : Decided (.charIn charSet) F {c | charSet c}
  | anyChar {F} : Decided .anyChar F {c | c ≠ '\n'}
  | lineStart {F} : Decided .lineStart F F
  | lineEnd {F} : Decided .lineEnd F F
  | stringStart {F} : Decided .stringStart F F
  | stringEnd {F} : Decided .stringEnd F F
  | seqNil {F} : Decided (.seq []) F F
  | seqCons {r rs F A B} : Decided (.seq rs) F A → Decided r A B → Decided (.seq (r :: rs)) F B
  | altNil {F} : Decided (.alt []) F ∅
  | altCons {r rs F A B} : Decided r F A → Decided (.alt rs) F B → (∀ c ∈ A, c ∉ B) →
    Decided (.alt (r :: rs)) F (A ∪ B)
  | optional {greedy r F A} : Decided r F A → (∀ c ∈ A, c ∉ F) →
    Decided (.optional greedy r) F (A ∪ F)
  | star {greedy r F A} : Decided r (A ∪ F) A → (∀ c ∈ A, c ∉ F) →
    Decided (.star greedy r) F (A ∪ F)
  | plus {greedy r F A} : Decided r (A ∪ F) A → (∀ c ∈ A, c ∉ F) →
    Decided (.plus greedy r) F A

abbrev OnceLink (κ α : Type) := Link (State κ) (Nat → Except PortFault α)

/-- Entered where no later position has been left, the link leaves none twice; entered at a
character outside of `A`, it leaves none. -/
structure Once (s : Source) (A : Set Char) (link : OnceLink κ α) : Prop where
  enters : ∀ st fail, (∀ left, fail () left ≠ .error .leftTwice) →
    link st fail st.position ≠ .error .leftTwice
  fails : ∀ st fail left, (∀ c ∈ s.nextChar st.position, c ∉ A) →
    fail () left ≠ .error .leftTwice → link st fail left ≠ .error .leftTwice

variable {s : Source} {A B F : Set Char} {link link' : OnceLink κ α}

omit [DecidableEq κ]

theorem Once.mono (h : Once s A link) (hAB : A ⊆ B) : Once s B link :=
  ⟨h.enters, fun st fail left hout => h.fails st fail left fun c hc hA => hout c hc (hAB hA)⟩

theorem Once.failureChain (h : Once s A link) (h' : Once s B link') (hAB : ∀ c ∈ A, c ∉ B) :
    Once s (A ∪ B) (failureChain link link') where
  enters st fail hfail := by
    by_cases hA : ∀ c ∈ s.nextChar st.position, c ∉ A
    · exact h.fails st _ _ hA (h'.enters st fail hfail)
    · push Not at hA
      obtain ⟨c, hc, hcA⟩ := hA
      refine h.enters st _ fun left => h'.fails st fail left (fun c' hc' => ?_) (hfail left)
      rw [Option.mem_unique hc' hc]
      exact hAB c hcA
  fails st fail left hout hfail :=
    h.fails st _ left (fun c hc hA => hout c hc (.inl hA))
      (h'.fails st fail left (fun c hc hB => hout c hc (.inr hB)) hfail)

theorem Once.orderedChain (greedy) (h : Once s A link) (h' : Once s B link')
    (hAB : ∀ c ∈ A, c ∉ B) : Once s (A ∪ B) (orderedChain greedy link link') := by
  cases greedy with
  | true => exact h.failureChain h' hAB
  | false =>
    rw [Set.union_comm]
    exact h'.failureChain h fun c hB hA => hAB c hA hB

theorem Once.test (test) (h : Once s A link) : Once s A (insnTest test link) where
  enters st fail hfail := by
    rw [insnTest]
    split
    · exact h.enters st fail hfail
    · exact hfail _
  fails st fail left hout hfail := by
    rw [insnTest]
    split
    · exact h.fails st fail left hout hfail
    · exact hfail

variable [DecidableEq κ]

theorem Once.charMatching {p : Char → Bool} (hp : ∀ c, p c → c ∈ A) (h : Once s B link) :
    Once s A (insnCharMatching (onceMachine s) p link) where
  enters st fail hfail := by
    rw [insnCharMatching]
    split
    · rename_i hany
      have hnext : s.nextPosition st.position = st.position + 1 := by
        refine if_pos (lt_of_not_ge fun hge => ?_)
        simp [onceMachine, Source.nextChar, Nat.not_lt.mpr hge] at hany
      simp only [onceMachine, if_pos, hnext]
      exact h.enters ⟨st.position + 1, st.groups⟩ fail hfail
    · exact hfail _
  fails st fail left hout hfail := by
    rw [insnCharMatching, if_neg]
    · exact hfail
    · cases hc : s.nextChar st.position with
      | none => simp [onceMachine, hc]
      | some c => simpa [onceMachine, hc] using fun h => hout c hc (hp c h)

theorem once_string (h : Once s F link) : ∀ cs : List Char,
    ∃ A, Once s A (insnString (onceMachine s) cs link)
  | [] => ⟨F, h⟩
  | c :: cs => by
    obtain ⟨A, hA⟩ := once_string h cs
    exact ⟨_, hA.charMatching fun _ _ => Set.mem_univ _⟩

theorem Once.star (greedy) {insn : Insn (State κ) (Nat → Except PortFault α)}
    (hinsn : ∀ {link}, Once s (A ∪ F) link → Once s A (insn link)) (h : Once s F link)
    (hAF : ∀ c ∈ A, c ∉ F) (fuel) :
    Once s (A ∪ F) (starLoop (onceMachine s) greedy insn link fuel) := by
  induction fuel with
  | zero => exact ⟨fun _ _ _ => nofun, fun _ _ _ _ _ => nofun⟩
  | succ fuel ih =>
    have hturn (state : State κ) : Once s (A ∪ F) fun state' fail' =>
        if (onceMachine (α := α) s).samePosition state' state then fail' ()
        else starLoop (onceMachine s) greedy insn link fuel state' fail' :=
      ⟨fun st fail hfail => by split <;> [exact hfail _; exact ih.enters st fail hfail],
        fun st fail left hout hfail => by
          split <;> [exact hfail; exact ih.fails st fail left hout hfail]⟩
    have hchain (state) := (hinsn (hturn state)).orderedChain greedy h hAF
    exact ⟨fun st => (hchain st).enters st, fun st => (hchain st).fails st⟩

theorem Decided.once {r : Regsexp κ} (h : Decided r F A) (fuel) {link : OnceLink κ α}
    (hlink : Once s F link) : Once s A (compile (onceMachine s) fuel r link) := by
  induction h generalizing link with rw [compile]
  | char => exact hlink.charMatching fun _ => of_decide_eq_true
  | empty | seqNil => exact hlink
  | string =>
    obtain ⟨A, hA⟩ := once_string hlink _
    exact hA.charMatching fun _ => of_decide_eq_true
  | charIn => exact hlink.charMatching fun _ => id
  | anyChar => exact hlink.charMatching (by simp)
  | lineStart | lineEnd | stringStart | stringEnd => exact hlink.test _
  | seqCons _ _ ihs ih =>
    have hrest := ihs hlink
    rw [compile] at hrest
    exact ih hrest
  | altNil => exact ⟨fun _ _ h => h _, fun _ _ _ _ h => h⟩
  | @altCons r rs F A B hr hrs hAB ih ihs =>
    have hrest := ihs hlink
    rw [compile] at hrest
    cases rs with
    | nil => exact (ih hlink).mono Set.subset_union_left
    | cons r' rs => exact (ih hlink).failureChain hrest hAB
  | optional _ hAF ih => exact (ih hlink).orderedChain _ hlink hAF
  | star _ hAF ih => exact .star _ ih hlink hAF fuel
  | plus _ hAF ih => exact ih (.star _ ih hlink hAF fuel)

/-- **A pattern without groups whose choices are made by the next character leaves no
position twice.** -/
theorem Decided.onceMatch {r : Regsexp κ} (h : Decided r ∅ A) (fuel text) :
    onceMatch fuel r text ≠ .error .leftTwice := by
  have honce : Once ⟨text, 0, text.length⟩ A (compile (onceMachine ⟨text, 0, text.length⟩) fuel r
      fun state _ _ => .ok (some (state.position, state.groups.ended.reverse))) :=
    h.once fuel ⟨nofun, nofun⟩
  have hmatch := honce.enters ⟨0, ⟨[], []⟩⟩ (fun _ _ => .ok none) nofun
  rw [RegexpMachine.onceMatch]
  cases hresult : compile (onceMachine ⟨text, 0, text.length⟩) fuel r _ _ _ _ with
  | error e =>
    rw [hresult] at hmatch
    exact fun htwice => hmatch (congrArg _ (Except.error.inj htwice))
  | ok result => exact nofun

end Decided

/-- **The match of a port that delivers a text is the match of the text when no position is
left twice, also when it ends in a fault.** -/
theorem regsexpMatchInputPort_eq (fuel : Nat) (r : Regsexp κ) (text : List Char)
    (h : onceMatch fuel r text ≠ .error .leftTwice) :
    regsexpMatchInputPort fuel r text =
      (regsexpMatchString fuel r text 0 text.length).mapError .fault := by
  have hstring := once_simulates_string (s := ⟨text, 0, text.length⟩).compile fuel r
    (fun state _ _ => .ok (some (state.position, state.groups.ended.reverse)))
    (fun state _ => .ok (some (state.position, state.groups.ended.reverse)))
    (fun st st' f f' hst _ left => by
      subst hst
      exact .inr rfl)
    ⟨0, ⟨[], []⟩⟩ ⟨0, ⟨[], []⟩⟩ (fun _ _ => .ok none) (fun _ => .ok none) rfl
    (fun _ => .inr rfl) 0
  have hport := once_simulates_port (t := text).compile fuel r
    (fun state _ _ => .ok (some (state.position, state.groups.ended.reverse)))
    (fun state _ _ => .ok (some (state.position.index, state.ended.reverse)))
    (fun st st' f f' hst _ left => .inr (by simp only [hst.position.index, hst.ended]))
    ⟨0, ⟨[], []⟩⟩ ⟨⟨0, text.head?, none⟩, [], []⟩ (fun _ _ => .ok none) (fun _ _ => .ok none)
    ⟨⟨rfl, List.head?_eq_getElem?, rfl⟩, Nat.zero_le _, .nil, rfl⟩ (fun _ => .inr rfl) 0
  rw [compile_stringMachine] at hstring
  rw [List.drop_one] at hport
  rw [onceMatch] at h
  rw [regsexpMatchInputPort, regsexpMatchString, Regexp.topLevelMatch]
  rcases hport with hleft | hport
  · rw [hleft] at h
    exact absurd rfl h
  · rcases hstring with hleft | hstring
    · rw [hleft] at h
      exact absurd rfl h
    · rw [← hport, hstring]
      cases Regexp.compile ⟨text, 0, text.length⟩ fuel r
        (fun state _ => .ok (some (state.position, state.groups.ended.reverse)))
        ⟨0, ⟨[], []⟩⟩ (fun _ => .ok none) <;> rfl

theorem regsexpMatchInputPort_eq_star :
    regsexpMatchInputPort 4 (.seq [.star true (.char 'a'), .char 'b'] : Regsexp Nat)
        ['a', 'a', 'b'] =
      (regsexpMatchString 4 (.seq [.star true (.char 'a'), .char 'b'] : Regsexp Nat)
        ['a', 'a', 'b'] 0 3).mapError .fault :=
  regsexpMatchInputPort_eq 4 _ ['a', 'a', 'b']
    (Decided.onceMatch (.seqCons (.seqCons .seqNil .char)
      (.star .char fun c (ha : c = 'a') (hb : c = 'b') =>
        absurd (ha.symm.trans hb) (by decide))) 4 _)

/-- The second alternative starts at a position that was left, and so does the text of a
group. -/
theorem port_reads_on :
    regsexpMatchInputPort 4 (.alt [.string ['a', 'b'], .string ['a', 'c']] : Regsexp Nat)
        ['a', 'c'] = .ok none ∧
      regsexpMatchString 4 (.alt [.string ['a', 'b'], .string ['a', 'c']] : Regsexp Nat)
        ['a', 'c'] 0 2 = .ok (some ⟨0, 2, []⟩) ∧
      regsexpMatchInputPort 4 (.group 1 (.string ['a', 'b'])) ['a', 'b', 'c', 'd'] =
        .ok (some ⟨0, 2, [(1, ['a', 'd'])]⟩) ∧
      regsexpMatchString 4 (.group 1 (.string ['a', 'b'])) ['a', 'b', 'c', 'd'] 0 4 =
        .ok (some ⟨0, 2, [(1, ['a', 'b'])]⟩) := by
  decide +kernel

end MitScheme.Runtime.RegexpMachine
