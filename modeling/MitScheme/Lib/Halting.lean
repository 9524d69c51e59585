import Mathlib.Logic.Relation

/-! # Machines that halt

A deterministic machine: a step goes on to a state, ends the run with a result,
or fails. Where every step lowers a measure, the measure of the first state is
fuel enough, and a run ends the way the last state it passes through ends. -/

namespace MitScheme.Lib.Halting

inductive Next (σ ρ : Type)
  | goto (s : σ)
  | done (r : ρ)

variable {σ ρ ε : Type}

def run (step : σ → Except ε (Next σ ρ)) (outOfFuel : ε) : Nat → σ → Except ε ρ
  | 0, _ => .error outOfFuel
  | fuel + 1, s =>
    match step s with
    | .error e => .error e
    | .ok (.goto s') => run step outOfFuel fuel s'
    | .ok (.done r) => .ok r

def Reaches (step : σ → Except ε (Next σ ρ)) : σ → σ → Prop :=
  Relation.ReflTransGen fun s s' => step s = .ok (.goto s')

variable {step : σ → Except ε (Next σ ρ)} {measure : σ → Nat}
variable {s s' : σ} {fuel : Nat}

theorem Reaches.refl (s : σ) : Reaches step s s := Relation.ReflTransGen.refl

theorem Reaches.head {s'' : σ} (h : step s = .ok (.goto s')) (hr : Reaches step s' s'') :
    Reaches step s s'' := Relation.ReflTransGen.head h hr

theorem Reaches.next {s'' : σ} (h : Reaches step s s') (hs : step s' = .ok (.goto s'')) :
    Reaches step s s'' := Relation.ReflTransGen.tail h hs

theorem Reaches.trans {s'' : σ} (h : Reaches step s s') (hr : Reaches step s' s'') :
    Reaches step s s'' := Relation.ReflTransGen.trans h hr

theorem Reaches.invariant {I : σ → Prop} (h : Reaches step s s') (hs : I s)
    (hstep : ∀ a b, Reaches step s a → I a → step a = .ok (.goto b) → I b) : I s' := by
  induction h with
  | refl => exact hs
  | tail hr h ih => exact hstep _ _ hr ih h

variable (outOfFuel : ε)

section
variable (hdown : ∀ s s', step s = .ok (.goto s') → measure s' < measure s)
include hdown

theorem exists_last (hfuel : measure s < fuel) : ∃ s', Reaches step s s' ∧
      ((∃ r, step s' = .ok (.done r) ∧ run step outOfFuel fuel s = .ok r) ∨
        ∃ e, step s' = .error e ∧ run step outOfFuel fuel s = .error e) := by
  induction fuel generalizing s with
  | zero => exact absurd hfuel (Nat.not_lt_zero _)
  | succ fuel ih =>
    rw [run]
    cases hs : step s with
    | error e => exact ⟨s, Reaches.refl s, .inr ⟨e, hs, rfl⟩⟩
    | ok next =>
      cases next with
      | done r => exact ⟨s, Reaches.refl s, .inl ⟨r, hs, rfl⟩⟩
      | goto b =>
        obtain ⟨last, hr, hlast⟩ := ih (Nat.lt_of_lt_of_le (hdown s b hs) (Nat.le_of_lt_succ hfuel))
        exact ⟨last, hr.head hs, hlast⟩

theorem run_of_reaches (hr : Reaches step s s') (hfuel : measure s < fuel) :
    (∀ r, step s' = .ok (.done r) → run step outOfFuel fuel s = .ok r) ∧
      ∀ e, step s' = .error e → run step outOfFuel fuel s = .error e := by
  induction hr using Relation.ReflTransGen.head_induction_on generalizing fuel with
  | refl =>
    obtain ⟨fuel, rfl⟩ := Nat.exists_eq_succ_of_ne_zero (Nat.ne_of_gt (Nat.zero_lt_of_lt hfuel))
    exact ⟨fun r h => by rw [run, h], fun e h => by rw [run, h]⟩
  | head hs _ ih =>
    obtain ⟨fuel, rfl⟩ := Nat.exists_eq_succ_of_ne_zero (Nat.ne_of_gt (Nat.zero_lt_of_lt hfuel))
    rw [run, hs]
    exact ih (Nat.lt_of_lt_of_le (hdown _ _ hs) (Nat.le_of_lt_succ hfuel))

theorem run_error_iff (hfuel : measure s < fuel) :
    (∃ e, run step outOfFuel fuel s = .error e) ↔
      ∃ s', Reaches step s s' ∧ ∃ e, step s' = .error e := by
  constructor
  · rintro ⟨e, he⟩
    obtain ⟨last, hr, ⟨r, hs, hrun⟩ | ⟨e', hs, hrun⟩⟩ := exists_last outOfFuel hdown hfuel
    · rw [hrun] at he
      cases he
    · exact ⟨last, hr, e', hs⟩
  · rintro ⟨last, hr, e, hs⟩
    exact ⟨e, (run_of_reaches outOfFuel hdown hr hfuel).2 e hs⟩

theorem run_ok_iff (hfuel : measure s < fuel) {r : ρ} :
    run step outOfFuel fuel s = .ok r ↔ ∃ s', Reaches step s s' ∧ step s' = .ok (.done r) := by
  constructor
  · intro hr
    obtain ⟨last, hreach, ⟨r', hs, hrun⟩ | ⟨e, hs, hrun⟩⟩ := exists_last outOfFuel hdown hfuel
    · rw [hrun] at hr
      exact ⟨last, hreach, by rw [hs, Except.ok.inj hr]⟩
    · rw [hrun] at hr
      cases hr
  · rintro ⟨last, hr, hs⟩
    exact (run_of_reaches outOfFuel hdown hr hfuel).1 r hs

end

end MitScheme.Lib.Halting
