import Mathlib.Data.List.Basic

/-! # Backtracking with success and failure continuations

A matcher takes a state and a failure continuation. It is understood as the
list of its ways, in the order in which it tries them: each way is handed to
the success continuation, which may fail back into the rest of the list. -/

namespace MitScheme.Lib.Backtrack

variable {σ τ ρ : Type}

abbrev Linked (σ ρ : Type) := σ → (Unit → ρ) → ρ

def runWays (succeed : Linked σ ρ) (ways : List σ) (fail : Unit → ρ) : ρ :=
  ways.foldr (fun s rest => succeed s fun _ => rest) (fail ())

section RunWays
variable (succeed : Linked σ ρ) (fail : Unit → ρ)

theorem runWays_cons (s : σ) (ways : List σ) :
    runWays succeed (s :: ways) fail = succeed s fun _ => runWays succeed ways fail := rfl

theorem runWays_append (ways ways' : List σ) : runWays succeed (ways ++ ways') fail =
    runWays succeed ways fun _ => runWays succeed ways' fail := by
  rw [runWays, List.foldr_append]
  rfl

theorem runWays_flatMap (ways : List τ) (next : τ → List σ) :
    runWays succeed (ways.flatMap next) fail =
      runWays (fun s fail => runWays succeed (next s) fail) ways fail := by
  induction ways with
  | nil => rfl
  | cons s ways ih => rw [List.flatMap_cons, runWays_append, runWays_cons, ih]

variable {succeed fail}

theorem runWays_congr {succeed' ways} (h : ∀ s ∈ ways, ∀ fail, succeed s fail = succeed' s fail) :
    runWays succeed ways fail = runWays succeed' ways fail := by
  induction ways with
  | nil => rfl
  | cons s ways ih =>
    rw [runWays_cons, runWays_cons, h s List.mem_cons_self,
      ih fun s' hs' => h s' (List.mem_cons_of_mem _ hs')]

theorem runWays_map (f : τ → σ) (ways : List τ) :
    runWays succeed (ways.map f) fail = runWays (fun t => succeed (f t)) ways fail := by
  rw [runWays, List.foldr_map]
  rfl

end RunWays

/-! ## Repetition -/

def choose (greedy : Bool) (more : List σ) (stop : σ) : List σ :=
  if greedy then more ++ [stop] else stop :: more

@[simp] theorem mem_choose {greedy} {more : List σ} {stop s : σ} :
    s ∈ choose greedy more stop ↔ s = stop ∨ s ∈ more := by
  unfold choose
  split
  · rw [List.mem_append, List.mem_singleton, or_comm]
  · exact List.mem_cons

variable (step : σ → List σ)

/-- Exactly `n` times. -/
def exactlyWays : Nat → σ → List σ
  | 0, s => [s]
  | n + 1, s => (step s).flatMap (exactlyWays n)

/-- At most `n` times. -/
def atMostWays (greedy : Bool) : Nat → σ → List σ
  | 0, s => [s]
  | n + 1, s => choose greedy ((step s).flatMap (atMostWays greedy n)) s

def starWays (size : σ → Nat) (greedy : Bool) (s : σ) : List σ :=
  choose greedy ((step s).flatMap fun s' =>
    if _h : size s' < size s then starWays size greedy s' else []) s
termination_by size s

end MitScheme.Lib.Backtrack
