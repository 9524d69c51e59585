import MitScheme.Lib.Outcome

/-! # The interpreter of compiled regexps

`run-matcher` of `regexp-nfa.scm`. A matcher is a graph of nodes; a state is a node
with a context. The interpreter keeps the states of one position in the order of
their priority, and follows the nodes that take no character before it takes one.
States are compared by the identity of their contexts, so every context that is
made gets a new number. -/

namespace MitScheme.Runtime.Srfi115
open Lib.Outcome

inductive Fault
  | outOfFuel
  | wrongType
  | badRange
  deriving DecidableEq

abbrev Result (α : Type) := Except Fault α

inductive Key
  | number (n : Nat)
  | name (s : String)
  deriving DecidableEq

/-- A group of a match; its text is in the string that was matched. -/
structure Group where
  key : Key
  start : Nat
  stop : Nat
  deriving DecidableEq

structure Ctx where
  id : Nat
  index : Nat
  gcbs : List Nat
  stack : List Nat
  groups : Option (List Group)

variable {α : Type}

inductive Node (α : Type)
  | terminal
  | fail
  | fork (next : List Nat)
  | charZeroWidth (test : Option α → Option α → Bool) (next : Nat)
  | stringZeroWidth (test : Nat → List α → Nat → Nat → Bool) (next : Nat)
  | fullZeroWidth (test : Nat → List α → Nat → Nat → Ctx → Bool) (next : Nat)
  | startGroup (next : Nat)
  | endGroup (key : Key) (next : Nat)
  | matching (test : α → Bool) (next : Nat)

structure Matcher (α : Type) where
  initialNode : Nat
  nodes : List (Node α)
  needGcb : Bool

structure State where
  node : Nat
  ctx : Ctx

/-! ## Contexts -/

def chaseGcbs (index : Nat) (gcbs : List Nat) : List Nat := gcbs.dropWhile (· < index)

def initialCtx (index : Nat) (gcbs : List Nat) (capture : Bool) : Ctx :=
  ⟨0, index, chaseGcbs index gcbs, [], if capture then some [] else none⟩

/-- `++index`. -/
def Ctx.nextIndex (ctx : Ctx) (id : Nat) : Ctx :=
  { ctx with id, index := ctx.index + 1, gcbs := chaseGcbs (ctx.index + 1) ctx.gcbs }

def Ctx.startGroup (ctx : Ctx) (id : Nat) : Ctx :=
  if ctx.groups.isSome then { ctx with id, stack := ctx.index :: ctx.stack } else ctx

def Ctx.endGroup (ctx : Ctx) (key : Key) (id : Nat) : Result Ctx :=
  match ctx.groups, ctx.stack with
  | none, _ => .ok ctx
  | some _, [] => .error .wrongType
  | some groups, start :: stack =>
    .ok { ctx with id, stack, groups := some (⟨key, start, ctx.index⟩ :: groups) }

/-! ## The interpreter -/

section Interpreter

variable (m : Matcher α) (matchAll : Bool) (string : List α) (start stop : Nat)

/-- The loop of `follow-epsilons`. The last argument numbers the contexts. -/
def followEpsilons (nextChar : Option α) (index : Nat) (prevChar : Option α) :
    Nat → List State → List (Nat × Nat) → List State → Nat → Result (List State × Nat)
  | 0, _, _, _, _ => .error .outOfFuel
  | _ + 1, [], _, outputs, fresh => .ok (outputs.reverse, fresh)
  | fuel + 1, ⟨node, ctx⟩ :: inputs, seen, outputs, fresh =>
    if (node, ctx.id) ∈ seen then
      followEpsilons nextChar index prevChar fuel inputs seen outputs fresh
    else
      let seen := (node, ctx.id) :: seen
      match m.nodes[node]? with
      | some (.fork next) =>
        followEpsilons nextChar index prevChar fuel (next.map (⟨·, ctx⟩) ++ inputs) seen outputs
          fresh
      | some (.charZeroWidth test next) =>
        if test nextChar prevChar then
          followEpsilons nextChar index prevChar fuel (⟨next, ctx⟩ :: inputs) seen outputs fresh
        else followEpsilons nextChar index prevChar fuel inputs seen outputs fresh
      | some (.stringZeroWidth test next) =>
        if test index string start stop then
          followEpsilons nextChar index prevChar fuel (⟨next, ctx⟩ :: inputs) seen outputs fresh
        else followEpsilons nextChar index prevChar fuel inputs seen outputs fresh
      | some (.fullZeroWidth test next) =>
        if test index string start stop ctx then
          followEpsilons nextChar index prevChar fuel (⟨next, ctx⟩ :: inputs) seen outputs fresh
        else followEpsilons nextChar index prevChar fuel inputs seen outputs fresh
      | some (.startGroup next) =>
        followEpsilons nextChar index prevChar fuel (⟨next, ctx.startGroup fresh⟩ :: inputs) seen
          outputs (fresh + 1)
      | some (.endGroup key next) =>
        match ctx.endGroup key fresh with
        | .error e => .error e
        | .ok ctx =>
          followEpsilons nextChar index prevChar fuel (⟨next, ctx⟩ :: inputs) seen outputs
            (fresh + 1)
      | some .terminal =>
        if matchAll ∧ nextChar.isSome then
          followEpsilons nextChar index prevChar fuel inputs seen outputs fresh
        else .ok ((⟨node, ctx⟩ :: outputs).reverse, fresh)
      | some .fail => followEpsilons nextChar index prevChar fuel inputs seen outputs fresh
      | some (.matching _ _) =>
        followEpsilons nextChar index prevChar fuel inputs seen (⟨node, ctx⟩ :: outputs) fresh
      | none => .error .badRange

/-- The loop of `follow-matchers`. -/
def followMatchers (nextChar : Option α) :
    List State → List State → Nat → Result (List State × Nat)
  | [], outputs, fresh => .ok (outputs.reverse, fresh)
  | ⟨node, ctx⟩ :: inputs, outputs, fresh =>
    match m.nodes[node]? with
    | some (.matching test next) =>
      if nextChar.any test then
        followMatchers nextChar inputs (⟨next, ctx.nextIndex fresh⟩ :: outputs) (fresh + 1)
      else followMatchers nextChar inputs outputs fresh
    | some .fail => followMatchers nextChar inputs outputs fresh
    | some .terminal => .ok ((⟨node, ctx⟩ :: outputs).reverse, fresh)
    | _ => .error .badRange

/-- `terminal-state?`. -/
def isTerminal (state : State) : Bool :=
  match m.nodes[state.node]? with
  | some .terminal => true
  | _ => false

/-- The loop of `match-nodes`. -/
def matchLoop (fuel : Nat) (states : List State) (index : Nat) (prevChar : Option α)
    (fresh : Nat) : Result (Option State) := do
  let nextChar := if index < stop then string[index]? else none
  let (states, fresh) ←
    followEpsilons m matchAll string start stop nextChar index prevChar fuel states [] [] fresh
  match states with
  | [] => return none
  | first :: _ =>
    if isTerminal m first then return some first
    else
      let (states, fresh) ← followMatchers m nextChar states [] fresh
      if index < stop ∧ nextChar.isSome then
        matchLoop fuel states (index + 1) nextChar fresh
      else
        let (states, _) ←
          followEpsilons m matchAll string start stop nextChar index prevChar fuel states [] []
            fresh
        return states.getLast?.filter (isTerminal m)
termination_by stop - index

/-- `run-matcher`, with the groups of the match: the whole match, and the submatches. The
list of the grapheme cluster breaks is an argument. -/
def runMatcher (gcbs : List α → Nat → Nat → List Nat) (fuel : Nat) (capture : Bool)
    (index : Nat) : Result (Option (Group × List Group)) := do
  let breaks := if m.needGcb then gcbs string start stop else []
  let initial : State := ⟨m.initialNode, initialCtx index breaks capture⟩
  let prevChar := if start < index ∧ index ≤ stop then string[index - 1]? else none
  match ← matchLoop m matchAll string start stop fuel [initial] index prevChar 1 with
  | none => return none
  | some final =>
    return some (⟨.number 0, index, final.ctx.index⟩, (final.ctx.groups.getD []).reverse)

end Interpreter

/-! ## Where a match lies -/

def Within (lo hi : Nat) (states : List State) : Prop :=
  ∀ s ∈ states, lo ≤ s.ctx.index ∧ s.ctx.index ≤ hi

theorem Within.cons {lo hi s states} (hs : lo ≤ s.ctx.index ∧ s.ctx.index ≤ hi)
    (h : Within lo hi states) : Within lo hi (s :: states) := List.forall_mem_cons.mpr ⟨hs, h⟩

theorem Within.head {lo hi s states} (h : Within lo hi (s :: states)) :
    lo ≤ s.ctx.index ∧ s.ctx.index ≤ hi :=
  h s List.mem_cons_self

theorem Within.tail {lo hi s states} (h : Within lo hi (s :: states)) : Within lo hi states :=
  fun t ht => h t (List.mem_cons_of_mem s ht)

theorem Within.reverse {lo hi states} (h : Within lo hi states) :
    Within lo hi states.reverse := fun s hs => h s (List.mem_reverse.mp hs)

@[simp] theorem index_startGroup (ctx : Ctx) (id : Nat) : (ctx.startGroup id).index = ctx.index := by
  rw [Ctx.startGroup]
  split <;> rfl

theorem index_endGroup {ctx ctx' : Ctx} {key id} (h : ctx.endGroup key id = .ok ctx') :
    ctx'.index = ctx.index := by
  unfold Ctx.endGroup at h
  split at h
  · rw [← Except.ok.inj h]
  · cases h
  · rw [← Except.ok.inj h]

variable {m : Matcher α} {matchAll : Bool} {string : List α} {start stop : Nat}

theorem followEpsilons_within
    {nextChar prevChar index lo hi fuel inputs outputs states seen fresh fresh'}
    (hin : Within lo hi inputs) (hout : Within lo hi outputs)
    (h : followEpsilons m matchAll string start stop nextChar index prevChar fuel inputs seen
      outputs fresh = .ok (states, fresh')) : Within lo hi states := by
  fun_induction followEpsilons m matchAll string start stop nextChar index prevChar fuel inputs seen
      outputs fresh with
  | case1 | case12 | case18 => cases h
  | case2 seen outputs fresh =>
    rw [← (Prod.mk.inj (Except.ok.inj h)).1]
    exact hout.reverse
  | case4 fuel node ctx inputs seen outputs fresh hseen seen' next hnode ih =>
    refine ih (fun s hs => ?_) hout h
    rcases List.mem_append.mp hs with hs | hs
    · obtain ⟨n, -, rfl⟩ := List.mem_map.mp hs
      exact hin.head
    · exact hin.tail s hs
  | case5 fuel node ctx inputs seen outputs fresh hseen seen' test next hnode htest ih
  | case7 fuel node ctx inputs seen outputs fresh hseen seen' test next hnode htest ih
  | case9 fuel node ctx inputs seen outputs fresh hseen seen' test next hnode htest ih =>
    exact ih (hin.tail.cons hin.head) hout h
  | case11 fuel node ctx inputs seen outputs fresh hseen seen' next hnode ih =>
    refine ih (hin.tail.cons ?_) hout h
    rw [index_startGroup]
    exact hin.head
  | case13 fuel node ctx inputs seen outputs fresh hseen seen' key next hnode ctx' hgroup ih =>
    refine ih (hin.tail.cons ?_) hout h
    rw [index_endGroup hgroup]
    exact hin.head
  | case15 fuel node ctx inputs seen outputs fresh hseen hnode hall =>
    rw [← (Prod.mk.inj (Except.ok.inj h)).1]
    exact (hout.cons hin.head).reverse
  | case17 fuel node ctx inputs seen outputs fresh hseen seen' test next hnode ih =>
    exact ih hin.tail (hout.cons hin.head) h
  | case3 fuel node ctx inputs seen outputs fresh hseen ih => exact ih hin.tail hout h
  | case6 fuel node ctx inputs seen outputs fresh hseen seen' test next hnode htest ih
  | case8 fuel node ctx inputs seen outputs fresh hseen seen' test next hnode htest ih
  | case10 fuel node ctx inputs seen outputs fresh hseen seen' test next hnode htest ih
  | case14 fuel node ctx inputs seen outputs fresh hseen seen' hnode hall ih
  | case16 fuel node ctx inputs seen outputs fresh hseen seen' hnode ih => exact ih hin.tail hout h

theorem followMatchers_within {nextChar lo hi hi' inputs outputs states fresh fresh'}
    (hle : hi ≤ hi') (hnext : nextChar.isSome → hi + 1 ≤ hi') (hin : Within lo hi inputs)
    (hout : Within lo hi' outputs)
    (h : followMatchers m nextChar inputs outputs fresh = .ok (states, fresh')) :
    Within lo hi' states := by
  fun_induction followMatchers m nextChar inputs outputs fresh with
  | case1 outputs fresh =>
    rw [← (Prod.mk.inj (Except.ok.inj h)).1]
    exact hout.reverse
  | case2 node ctx inputs outputs fresh test next hnode htest ih =>
    refine ih hin.tail (hout.cons ?_) h
    have hsome : nextChar.isSome := by
      cases nextChar with
      | none => cases htest
      | some c => rfl
    have hhead := hin.head
    have := hnext hsome
    simp only [Ctx.nextIndex] at hhead ⊢
    omega
  | case3 node ctx inputs outputs fresh test next hnode htest ih => exact ih hin.tail hout h
  | case4 node ctx inputs outputs fresh hnode ih => exact ih hin.tail hout h
  | case5 node ctx inputs outputs fresh hnode =>
    rw [← (Prod.mk.inj (Except.ok.inj h)).1]
    exact (hout.cons ⟨hin.head.1, Nat.le_trans hin.head.2 hle⟩).reverse
  | case6 => cases h

theorem matchLoop_within {lo index fuel fresh states prevChar final}
    (hin : Within lo index states) (hle : index ≤ stop)
    (h : matchLoop m matchAll string start stop fuel states index prevChar fresh =
      .ok (some final)) : lo ≤ final.ctx.index ∧ final.ctx.index ≤ stop := by
  induction hn : stop - index using Nat.strongRecOn
    generalizing states index prevChar fresh with
  | ind n ih =>
    rw [matchLoop] at h
    generalize hc : (if index < stop then string[index]? else none) = nextChar at h
    have hread : nextChar.isSome → index < stop := by
      rw [← hc]
      split
      · exact fun _ => ‹_›
      · exact fun hsome => by cases hsome
    obtain ⟨⟨states1, fresh1⟩, h1, h⟩ := bind_eq_ok h
    have hin1 := followEpsilons_within hin (fun s hs => absurd hs (List.not_mem_nil)) h1
    cases states1 with
    | nil => cases h
    | cons first rest =>
      simp only at h
      split at h
      · cases h
        exact ⟨hin1.head.1, Nat.le_trans hin1.head.2 hle⟩
      · obtain ⟨⟨states2, fresh2⟩, h2, h⟩ := bind_eq_ok h
        simp only at h
        split at h
        · rename_i hnext
          have hin2 := followMatchers_within (Nat.le_succ index) (fun _ => Nat.le_refl _) hin1
            (fun s hs => absurd hs (List.not_mem_nil)) h2
          exact ih (stop - (index + 1)) (by omega) hin2 (by omega) h rfl
        · rename_i hlast
          have hin2 := followMatchers_within (Nat.le_refl index)
            (fun hsome => absurd ⟨hread hsome, hsome⟩ hlast) hin1
            (fun s hs => absurd hs (List.not_mem_nil)) h2
          obtain ⟨⟨states3, fresh3⟩, h3, h⟩ := bind_eq_ok h
          have hin3 := followEpsilons_within hin2 (fun s hs => absurd hs (List.not_mem_nil)) h3
          have hfinal := Except.ok.inj h
          obtain ⟨hlast, -⟩ := Option.filter_eq_some_iff.mp hfinal
          have hmem := hin3 final (List.mem_of_getLast? hlast)
          exact ⟨hmem.1, Nat.le_trans hmem.2 hle⟩

theorem runMatcher_within {gcbs : List α → Nat → Nat → List Nat} {fuel index capture group groups}
    (hle : index ≤ stop) (h : runMatcher m matchAll string start stop gcbs fuel capture index =
      .ok (some (group, groups))) :
    group.start = index ∧ index ≤ group.stop ∧ group.stop ≤ stop := by
  rw [runMatcher] at h
  obtain ⟨final, hfinal, h⟩ := bind_eq_ok h
  cases final with
  | none => cases h
  | some final =>
    have hin : Within index index [(⟨m.initialNode, initialCtx index
        (if m.needGcb then gcbs string start stop else []) capture⟩ : State)] :=
      fun s hs => by
        rw [List.mem_singleton.mp hs]
        exact ⟨Nat.le_refl _, Nat.le_refl _⟩
    have hwithin := matchLoop_within hin hle hfinal
    obtain ⟨rfl, -⟩ := Prod.mk.inj (Option.some.inj (Except.ok.inj h))
    exact ⟨rfl, hwithin⟩

end MitScheme.Runtime.Srfi115
