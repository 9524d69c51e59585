import MitScheme.Runtime.Regsexp
import Mathlib.Order.Nat

/-! # What a regular s-expression matches

`ways` lists the ways of matching at a place, in the order of backtracking: a
place is a position and the groups ended so far. -/

namespace MitScheme.Runtime.Regexp
open Lib.Backtrack

variable {κ α : Type}

structure Place (κ : Type) where
  position : Nat
  ended : List (Group κ)

namespace Place

def state (place : Place κ) (started : List (κ × Nat)) : State κ :=
  ⟨place.position, ⟨started, place.ended⟩⟩

def after (s : Source) (string : List Char) (place : Place κ) : List (Place κ) :=
  (stringLoop s string place.position).toList.map fun position => { place with position }

def afterChar (s : Source) (predicate : Char → Bool) (place : Place κ) : List (Place κ) :=
  if (s.nextChar place.position).any predicate then
    [{ place with position := s.nextPosition place.position }]
  else []

/-- The place after what the group last ended with a key matched; nothing is
matched when there is none. -/
def afterGroup [DecidableEq κ] (s : Source) (key : κ) (place : Place κ) : List (Place κ) :=
  match place.ended.find? (·.key = key) with
  | some group => place.after s group.value
  | none => [place]

def left (s : Source) (place : Place κ) : Nat := s.stop - place.position

end Place

/-! ## The ways -/

section Ways
variable [DecidableEq κ] (s : Source)

mutual

/-- All ways of matching, in the order in which backtracking tries them. -/
def ways : Regsexp κ → Place κ → List (Place κ)
  | .char c, place => place.afterChar s (· = c)
  | .string string, place => place.after s string
  | .charIn charSet, place => place.afterChar s charSet
  | .anyChar, place => place.afterChar s (· ≠ '\n')
  | .lineStart, place => if (s.prevChar place.position).all (· = '\n') then [place] else []
  | .lineEnd, place => if (s.nextChar place.position).all (· = '\n') then [place] else []
  | .stringStart, place => if (s.prevChar place.position).isNone then [place] else []
  | .stringEnd, place => if (s.nextChar place.position).isNone then [place] else []
  | .seq rs, place => seqWays rs place
  | .alt rs, place => altWays rs place
  | .optional greedy r, place => choose greedy (ways r place) place
  | .star greedy r, place => starWays (ways r) (Place.left s) greedy place
  | .plus greedy r, place => (ways r place).flatMap (starWays (ways r) (Place.left s) greedy)
  | .repeated greedy n (some m) r, place =>
    (exactlyWays (ways r) n place).flatMap (atMostWays (ways r) greedy (m - n))
  | .repeated greedy n none r, place =>
    (exactlyWays (ways r) n place).flatMap (starWays (ways r) (Place.left s) greedy)
  | .group key r, place => (ways r place).map fun place' =>
      ⟨place'.position, ⟨key, place.position, place'.position,
        s.extractString place.position place'.position⟩ :: place'.ended⟩
  | .groupRef key, place => place.afterGroup s key

def seqWays : List (Regsexp κ) → Place κ → List (Place κ)
  | [], place => [place]
  | r :: rs, place => (ways r place).flatMap (seqWays rs)

def altWays : List (Regsexp κ) → Place κ → List (Place κ)
  | [], _ => []
  | r :: rs, place => ways r place ++ altWays rs place

end

end Ways

/-! ## Ways go forward -/

section Advances
variable {s : Source}

theorem nextChar_some {p : Nat} {predicate : Char → Bool}
    (h : (s.nextChar p).any predicate = true) : p < s.stop := by
  unfold Source.nextChar at h
  split at h
  · assumption
  · cases h

def Advances (s : Source) (w : Place κ → List (Place κ)) : Prop :=
  ∀ place, place.position ≤ s.stop → ∀ place' ∈ w place,
    place.position ≤ place'.position ∧ place'.position ≤ s.stop

theorem stringLoop_advances : ∀ {string : List Char} {p p' : Nat},
    stringLoop s string p = some p' → p ≤ s.stop → p ≤ p' ∧ p' ≤ s.stop
  | [], p, p', h, hp => by
    cases h
    exact ⟨le_rfl, hp⟩
  | c :: string, p, p', h, _ => by
    rw [stringLoop] at h
    split at h
    · rename_i hc
      have hlt := nextChar_some hc
      rw [Source.nextPosition, if_pos hlt] at h
      obtain ⟨h1, h2⟩ := stringLoop_advances h hlt
      exact ⟨by omega, h2⟩
    · cases h

theorem advances_after (string) : Advances s (Place.after (κ := κ) s string) := by
  intro place hp place' hmem
  obtain ⟨p, hp', rfl⟩ := List.mem_map.mp hmem
  exact stringLoop_advances (Option.mem_toList.mp hp') hp

theorem advances_afterChar (predicate) : Advances s (Place.afterChar (κ := κ) s predicate) := by
  intro place hp place' hmem
  unfold Place.afterChar at hmem
  split at hmem
  · rename_i hc
    have hlt := nextChar_some hc
    rw [List.mem_singleton, Source.nextPosition, if_pos hlt] at hmem
    subst hmem
    exact ⟨Nat.le_succ _, hlt⟩
  · exact absurd hmem List.not_mem_nil

variable {w : Place κ → List (Place κ)}

theorem Advances.flatMap {w' : Place κ → List (Place κ)} (h : Advances s w) (h' : Advances s w') :
    Advances s fun place => (w place).flatMap w' := by
  intro place hp place' hmem
  obtain ⟨mid, hmid, hmem⟩ := List.mem_flatMap.mp hmem
  obtain ⟨h1, h2⟩ := h place hp mid hmid
  obtain ⟨h3, h4⟩ := h' mid h2 place' hmem
  exact ⟨le_trans h1 h3, h4⟩

theorem Advances.choose (h : Advances s w) (greedy) :
    Advances s fun place => choose greedy (w place) place := by
  intro place hp place' hmem
  rcases mem_choose.mp hmem with rfl | hmem
  · exact ⟨le_rfl, hp⟩
  · exact h place hp place' hmem

theorem Advances.exactly {w : Place κ → List (Place κ)} (h : Advances s w) :
    ∀ n, Advances s (exactlyWays w n)
  | 0 => by
    intro place hp place' hmem
    rw [exactlyWays, List.mem_singleton] at hmem
    subst hmem
    exact ⟨le_rfl, hp⟩
  | n + 1 => h.flatMap (h.exactly n)

theorem Advances.atMost {w : Place κ → List (Place κ)} (h : Advances s w) (greedy : Bool) :
    ∀ n, Advances s (atMostWays w greedy n)
  | 0 => by
    intro place hp place' hmem
    rw [atMostWays, List.mem_singleton] at hmem
    subst hmem
    exact ⟨le_rfl, hp⟩
  | n + 1 => (h.flatMap (h.atMost greedy n)).choose greedy

theorem Advances.star (h : Advances s w) (greedy) :
    Advances s (starWays w (Place.left s) greedy) := by
  intro place
  induction hn : place.left s using Nat.strongRecOn generalizing place with
  | _ n ih =>
    intro hp place' hmem
    rw [starWays, mem_choose] at hmem
    rcases hmem with rfl | hmem
    · exact ⟨le_rfl, hp⟩
    · obtain ⟨mid, hmid, hmem⟩ := List.mem_flatMap.mp hmem
      obtain ⟨h1, h2⟩ := h place hp mid hmid
      split at hmem
      · rename_i hlt
        obtain ⟨h3, h4⟩ := ih _ (hn ▸ hlt) mid rfl h2 place' hmem
        exact ⟨le_trans h1 h3, h4⟩
      · exact absurd hmem List.not_mem_nil

theorem advances_test (test : Place κ → Bool) :
    Advances s fun place => if test place then [place] else [] := by
  intro place hp place' hmem
  dsimp only at hmem
  split at hmem
  · rw [List.mem_singleton] at hmem
    subst hmem
    exact ⟨le_rfl, hp⟩
  · exact absurd hmem List.not_mem_nil

variable [DecidableEq κ]

mutual

theorem advances_ways : (r : Regsexp κ) → Advances s (ways s r)
  | .char c => by simpa only [ways] using advances_afterChar _
  | .string string => by simpa only [ways] using advances_after string
  | .charIn charSet => by simpa only [ways] using advances_afterChar charSet
  | .anyChar => by simpa only [ways] using advances_afterChar _
  | .lineStart => by simpa only [ways] using advances_test _
  | .lineEnd => by simpa only [ways] using advances_test _
  | .stringStart => by simpa only [ways] using advances_test _
  | .stringEnd => by simpa only [ways] using advances_test _
  | .seq rs => by simpa only [ways] using advances_seqWays rs
  | .alt rs => by simpa only [ways] using advances_altWays rs
  | .optional greedy r => by simpa only [ways] using (advances_ways r).choose greedy
  | .star greedy r => by simpa only [ways] using (advances_ways r).star greedy
  | .plus greedy r => by
    simpa only [ways] using (advances_ways r).flatMap ((advances_ways r).star greedy)
  | .repeated greedy n (some m) r => by
    simpa only [ways] using
      ((advances_ways r).exactly n).flatMap ((advances_ways r).atMost greedy (m - n))
  | .repeated greedy n none r => by
    simpa only [ways] using ((advances_ways r).exactly n).flatMap ((advances_ways r).star greedy)
  | .group key r => by
    intro place hp place' hmem
    rw [ways] at hmem
    obtain ⟨mid, hmid, rfl⟩ := List.mem_map.mp hmem
    exact advances_ways r place hp mid hmid
  | .groupRef key => by
    intro place hp place' hmem
    rw [ways, Place.afterGroup] at hmem
    split at hmem
    · exact advances_after _ place hp place' hmem
    · rw [List.mem_singleton] at hmem
      subst hmem
      exact ⟨le_rfl, hp⟩

theorem advances_seqWays : (rs : List (Regsexp κ)) → Advances s (seqWays s rs)
  | [] => by
    intro place hp place' hmem
    rw [seqWays, List.mem_singleton] at hmem
    subst hmem
    exact ⟨le_rfl, hp⟩
  | r :: rs => by simpa only [seqWays] using (advances_ways r).flatMap (advances_seqWays rs)

theorem advances_altWays : (rs : List (Regsexp κ)) → Advances s (altWays s rs)
  | [] => by
    intro place _ place' hmem
    rw [altWays] at hmem
    exact absurd hmem List.not_mem_nil
  | r :: rs => by
    intro place hp place' hmem
    rw [altWays, List.mem_append] at hmem
    rcases hmem with hmem | hmem
    · exact advances_ways r place hp place' hmem
    · exact advances_altWays rs place hp place' hmem

end

end Advances

end MitScheme.Runtime.Regexp
