import Mathlib.Data.List.Nodup

/-! # Names under binders

Two names correspond, under pairs of binders from the innermost one outward, when they are
bound by the two sides of one pair, or are free and the same. -/

namespace MitScheme.Lib.Binding

variable {N : Type}

def Same : List (N × N) → N → N → Prop
  | [], x, y => x = y
  | (a, b) :: ρ, x, y => (x = a ∧ y = b) ∨ x ≠ a ∧ y ≠ b ∧ Same ρ x y

def renamed (σ : N → N) (bound : List N) : List (N × N) := bound.map fun b => (b, σ b)

variable {σ : N → N} {ρ : List (N × N)} {bound : List N} {x : N}

theorem same_renamed_cons {b : N} :
    Same (renamed σ (b :: bound) ++ ρ) x (σ x) ↔
      x = b ∨ x ≠ b ∧ σ b ≠ σ x ∧ Same (renamed σ bound ++ ρ) x (σ x) := by
  constructor
  · rintro (⟨hx, -⟩ | ⟨hx, hσ, hrest⟩)
    · exact .inl hx
    · exact .inr ⟨hx, Ne.symm hσ, hrest⟩
  · rintro (rfl | ⟨hx, hσ, hrest⟩)
    · exact .inl ⟨rfl, rfl⟩
    · exact .inr ⟨hx, Ne.symm hσ, hrest⟩

theorem same_of_mem (hnodup : (bound.map σ).Nodup) (hx : x ∈ bound) :
    Same (renamed σ bound ++ ρ) x (σ x) := by
  induction bound with
  | nil => exact absurd hx List.not_mem_nil
  | cons b bound ih =>
    rw [List.map_cons, List.nodup_cons] at hnodup
    refine same_renamed_cons.mpr ?_
    by_cases hxb : x = b
    · exact .inl hxb
    · have hmem : x ∈ bound := (List.mem_cons.mp hx).resolve_left hxb
      refine .inr ⟨hxb, fun heq => hnodup.1 ?_, ih hnodup.2 hmem⟩
      rw [heq]
      exact List.mem_map_of_mem hmem

theorem same_of_notMem (hx : x ∉ bound) :
    Same (renamed σ bound ++ ρ) x (σ x) ↔ (∀ b ∈ bound, σ b ≠ σ x) ∧ Same ρ x (σ x) := by
  induction bound with
  | nil => exact ⟨fun h => ⟨fun b hb => absurd hb List.not_mem_nil, h⟩, fun h => h.2⟩
  | cons b bound ih =>
    obtain ⟨hxb, hrest⟩ := not_or.mp (mt List.mem_cons.mpr hx)
    rw [same_renamed_cons, ih hrest, List.forall_mem_cons]
    constructor
    · rintro (heq | ⟨-, hσ, hall, hsame⟩)
      · exact absurd heq hxb
      · exact ⟨⟨hσ, hall⟩, hsame⟩
    · rintro ⟨⟨hσ, hall⟩, hsame⟩
      exact .inr ⟨hxb, hσ, hall, hsame⟩

end MitScheme.Lib.Binding
