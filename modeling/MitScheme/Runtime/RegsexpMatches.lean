import MitScheme.Runtime.RegsexpLink

/-! # Matching as a relation

`Matches` says what it is for a place to be reached by matching, without an
order. With `idle` a turn of an unbounded repetition may leave the position
where it is; without, it may not, as in the code. The ways of an expression
are its matches without idle turns. Idle turns reach no further position as
long as no reference names a group inside a repetition. -/

namespace MitScheme.Runtime.Regexp
open Lib.Backtrack

variable {κ : Type}

def StringAt (s : Source) (p : Nat) (string : List Char) : Prop :=
  ∀ i c, string[i]? = some c → s.nextChar (p + i) = some c

inductive Matches [DecidableEq κ] (s : Source) (idle : Bool) : Regsexp κ → Place κ → Place κ → Prop
  | char {c p e} : s.nextChar p = some c → Matches s idle (.char c) ⟨p, e⟩ ⟨p + 1, e⟩
  | string {string p e} : StringAt s p string →
      Matches s idle (.string string) ⟨p, e⟩ ⟨p + string.length, e⟩
  | charIn {charSet c p e} : s.nextChar p = some c → charSet c = true →
      Matches s idle (.charIn charSet) ⟨p, e⟩ ⟨p + 1, e⟩
  | anyChar {c p e} : s.nextChar p = some c → c ≠ '\n' → Matches s idle .anyChar ⟨p, e⟩ ⟨p + 1, e⟩
  | lineStart {place} : (∀ c ∈ s.prevChar place.position, c = '\n') →
      Matches s idle .lineStart place place
  | lineEnd {place} : (∀ c ∈ s.nextChar place.position, c = '\n') →
      Matches s idle .lineEnd place place
  | stringStart {place} : s.prevChar place.position = none → Matches s idle .stringStart place place
  | stringEnd {place} : s.nextChar place.position = none → Matches s idle .stringEnd place place
  | seqNil {place} : Matches s idle (.seq []) place place
  | seqCons {r rs place mid place'} : Matches s idle r place mid →
      Matches s idle (.seq rs) mid place' → Matches s idle (.seq (r :: rs)) place place'
  | alt {r rs place place'} : r ∈ rs → Matches s idle r place place' →
      Matches s idle (.alt rs) place place'
  | optionalNone {greedy r place} : Matches s idle (.optional greedy r) place place
  | optionalOne {greedy r place place'} : Matches s idle r place place' →
      Matches s idle (.optional greedy r) place place'
  | starNil {greedy r place} : Matches s idle (.star greedy r) place place
  | starCons {greedy r place mid place'} : Matches s idle r place mid →
      (idle = true ∨ mid.position ≠ place.position) →
      Matches s idle (.star greedy r) mid place' → Matches s idle (.star greedy r) place place'
  | plus {greedy r place mid place'} : Matches s idle r place mid →
      Matches s idle (.star greedy r) mid place' → Matches s idle (.plus greedy r) place place'
  | repeatedStop {greedy m r place} : Matches s idle (.repeated greedy 0 (some m) r) place place
  | repeatedMore {greedy n m r place mid place'} : Matches s idle r place mid →
      Matches s idle (.repeated greedy (n - 1) (some m) r) mid place' →
      Matches s idle (.repeated greedy n (some (m + 1)) r) place place'
  | repeatedStar {greedy r place place'} : Matches s idle (.star greedy r) place place' →
      Matches s idle (.repeated greedy 0 none r) place place'
  | repeatedFirst {greedy n r place mid place'} : Matches s idle r place mid →
      Matches s idle (.repeated greedy n none r) mid place' →
      Matches s idle (.repeated greedy (n + 1) none r) place place'
  | group {key r p e p' e'} : Matches s idle r ⟨p, e⟩ ⟨p', e'⟩ →
      Matches s idle (.group key r) ⟨p, e⟩ ⟨p', ⟨key, p, p', s.extractString p p'⟩ :: e'⟩
  | groupRef {key p e group} : e.find? (·.key = key) = some group → StringAt s p group.value →
      Matches s idle (.groupRef key) ⟨p, e⟩ ⟨p + group.value.length, e⟩
  | groupRefNone {key place} : place.ended.find? (·.key = key) = none →
      Matches s idle (.groupRef key) place place

/-! ## The ways are the matches without idle turns -/

section Ways
variable {s : Source}

theorem nextChar_any {p} {predicate : Char → Bool} :
    (s.nextChar p).any predicate = true ↔ ∃ c, s.nextChar p = some c ∧ predicate c = true := by
  cases s.nextChar p <;> simp

theorem stringAt_cons {p c string} :
    StringAt s p (c :: string) ↔ s.nextChar p = some c ∧ StringAt s (p + 1) string := by
  constructor
  · intro h
    refine ⟨h 0 c rfl, fun i d hd => ?_⟩
    have := h (i + 1) d (by rwa [List.getElem?_cons_succ])
    rwa [show p + (i + 1) = p + 1 + i by omega] at this
  · rintro ⟨h0, h⟩ i d hd
    cases i with
    | zero =>
      cases hd
      exact h0
    | succ i =>
      rw [show p + (i + 1) = p + 1 + i by omega]
      exact h i d (by rwa [List.getElem?_cons_succ] at hd)

theorem stringLoop_iff : ∀ {string : List Char} {p p' : Nat},
    stringLoop s string p = some p' ↔ StringAt s p string ∧ p' = p + string.length
  | [], p, p' => by
    rw [stringLoop, Option.some.injEq, List.length_nil, Nat.add_zero, eq_comm]
    exact ⟨fun h => ⟨fun i c hc => (by cases hc), h⟩, fun h => h.2⟩
  | c :: string, p, p' => by
    rw [stringLoop, stringAt_cons, List.length_cons]
    by_cases hc : (s.nextChar p).any (· = c) = true
    · obtain ⟨d, hd, he⟩ := nextChar_any.mp hc
      rw [decide_eq_true_eq] at he
      subst he
      rw [if_pos hc, Source.nextPosition, if_pos (nextChar_some hc), stringLoop_iff]
      constructor
      · rintro ⟨h, rfl⟩
        exact ⟨⟨hd, h⟩, by omega⟩
      · rintro ⟨⟨-, h⟩, rfl⟩
        exact ⟨h, by omega⟩
    · rw [if_neg hc]
      refine ⟨fun h => (by cases h), fun h => absurd (nextChar_any.mpr ⟨c, h.1.1, ?_⟩) hc⟩
      exact decide_eq_true rfl

theorem all_newline {o : Option Char} : o.all (· = '\n') = true ↔ ∀ c ∈ o, c = '\n' := by
  cases o <;> simp

variable {place place' : Place κ}

theorem mem_after {string : List Char} :
    place' ∈ place.after s string ↔
      StringAt s place.position string ∧
        place' = ⟨place.position + string.length, place.ended⟩ := by
  unfold Place.after
  rw [List.mem_map]
  constructor
  · rintro ⟨p, hp, rfl⟩
    obtain ⟨h, rfl⟩ := stringLoop_iff.mp (Option.mem_toList.mp hp)
    exact ⟨h, rfl⟩
  · rintro ⟨h, rfl⟩
    exact ⟨_, Option.mem_toList.mpr (stringLoop_iff.mpr ⟨h, rfl⟩), rfl⟩

theorem mem_afterChar {predicate : Char → Bool} :
    place' ∈ place.afterChar s predicate ↔
      ∃ c, s.nextChar place.position = some c ∧ predicate c = true ∧
        place' = ⟨place.position + 1, place.ended⟩ := by
  unfold Place.afterChar
  by_cases hc : (s.nextChar place.position).any predicate = true
  · obtain ⟨c, hc1, hc2⟩ := nextChar_any.mp hc
    rw [if_pos hc, List.mem_singleton, Source.nextPosition, if_pos (nextChar_some hc)]
    refine ⟨fun h => ⟨c, hc1, hc2, h⟩, fun h => ?_⟩
    obtain ⟨_, _, _, h⟩ := h
    exact h
  · rw [if_neg hc]
    refine ⟨fun h => absurd h List.not_mem_nil, fun h => ?_⟩
    obtain ⟨c, h1, h2, _⟩ := h
    exact absurd (nextChar_any.mpr ⟨c, h1, h2⟩) hc

theorem mem_test {p : Prop} [Decidable p] :
    (place' ∈ if p then [place] else []) ↔ p ∧ place' = place := by
  split <;> simp [*]

variable [DecidableEq κ] {r : Regsexp κ} {w : Place κ → List (Place κ)}

/-- The places of `w` are those that `r` matches. -/
def Lists (s : Source) (r : Regsexp κ) (w : Place κ → List (Place κ)) : Prop :=
  ∀ place, place.position ≤ s.stop → ∀ place', place' ∈ w place ↔ Matches s false r place place'

section
variable (h : Lists s r w)
include h

theorem Lists.star_of_mem (ha : Advances s w) (greedy : Bool) :
    ∀ place, place.position ≤ s.stop → ∀ place' ∈ starWays w (Place.left s) greedy place,
      Matches s false (.star greedy r) place place' := by
  intro place
  induction hn : place.left s using Nat.strongRecOn generalizing place with
  | _ n ih =>
    intro hp place' hmem
    rw [starWays, mem_choose] at hmem
    rcases hmem with rfl | hmem
    · exact .starNil
    · obtain ⟨mid, hmid, hmem⟩ := List.mem_flatMap.mp hmem
      split at hmem
      · rename_i hlt
        have hpos : mid.position ≠ place.position := by
          intro heq
          unfold Place.left at hlt
          omega
        exact .starCons ((h place hp mid).mp hmid) (.inr hpos)
          (ih _ (hn ▸ hlt) mid rfl (ha place hp mid hmid).2 place' hmem)
      · exact absurd hmem List.not_mem_nil

theorem Lists.star (ha : Advances s w) (greedy : Bool) :
    Lists s (.star greedy r) (starWays w (Place.left s) greedy) := by
  intro place hp place'
  refine ⟨h.star_of_mem ha greedy place hp place', fun hm => ?_⟩
  generalize hx : Regsexp.star greedy r = x at hm
  induction hm with
  | starNil =>
    rw [starWays, mem_choose]
    exact .inl rfl
  | @starCons greedy' r' place mid place' hfirst hpos _ _ ih =>
    cases hx
    have hmid := (h place hp mid).mpr hfirst
    obtain ⟨h1, h2⟩ := ha place hp mid hmid
    have hlt : mid.left s < place.left s := by
      have := hpos.resolve_left Bool.false_ne_true
      unfold Place.left
      omega
    rw [starWays, mem_choose, List.mem_flatMap]
    exact .inr ⟨mid, hmid, by rw [dif_pos hlt]; exact ih h2 rfl⟩
  | _ => cases hx

theorem Lists.repeated (ha : Advances s w) (greedy : Bool) :
    ∀ (m n : Nat), n ≤ m → Lists s (.repeated greedy n (some m) r) fun place =>
      (exactlyWays w n place).flatMap (atMostWays w greedy (m - n)) := by
  intro m
  induction m with
  | zero =>
    intro n hn place hp place'
    obtain rfl : n = 0 := by omega
    simp only [exactlyWays, Nat.sub_self, atMostWays, List.flatMap_singleton, List.mem_singleton]
    constructor
    · rintro rfl
      exact .repeatedStop
    · intro hm
      cases hm
      rfl
  | succ m ih =>
    intro n hn place hp place'
    cases n with
    | zero =>
      have ih0 := ih 0 (Nat.zero_le m)
      simp only [exactlyWays, List.flatMap_singleton, Nat.sub_zero, atMostWays, mem_choose,
        List.mem_flatMap] at ih0 ⊢
      constructor
      · rintro (rfl | ⟨mid, hmid, hmem⟩)
        · exact .repeatedStop
        · exact .repeatedMore ((h place hp mid).mp hmid)
            ((ih0 mid (ha place hp mid hmid).2 place').mp hmem)
      · intro hm
        cases hm with
        | repeatedStop => exact .inl rfl
        | @repeatedMore _ _ _ _ _ mid _ hfirst hrest =>
          have hmid := (h place hp mid).mpr hfirst
          exact .inr ⟨mid, hmid, (ih0 mid (ha place hp mid hmid).2 place').mpr hrest⟩
    | succ n =>
      have ihn := ih n (by omega)
      simp only [exactlyWays, List.flatMap_assoc, Nat.add_sub_add_right] at ihn ⊢
      rw [List.mem_flatMap]
      constructor
      · rintro ⟨mid, hmid, hmem⟩
        exact .repeatedMore ((h place hp mid).mp hmid)
          ((ihn mid (ha place hp mid hmid).2 place').mp hmem)
      · intro hm
        cases hm with
        | @repeatedMore _ _ _ _ _ mid _ hfirst hrest =>
          have hmid := (h place hp mid).mpr hfirst
          exact ⟨mid, hmid, (ihn mid (ha place hp mid hmid).2 place').mpr hrest⟩

theorem Lists.repeatedNone (ha : Advances s w) (greedy : Bool) :
    ∀ n : Nat, Lists s (.repeated greedy n none r) fun place =>
      (exactlyWays w n place).flatMap (starWays w (Place.left s) greedy) := by
  intro n
  induction n with
  | zero =>
    intro place hp place'
    simp only [exactlyWays, List.flatMap_singleton]
    rw [h.star ha greedy place hp place']
    refine ⟨.repeatedStar, fun hm => ?_⟩
    cases hm
    assumption
  | succ n ih =>
    intro place hp place'
    simp only [exactlyWays, List.flatMap_assoc]
    rw [List.mem_flatMap]
    constructor
    · rintro ⟨mid, hmid, hmem⟩
      exact .repeatedFirst ((h place hp mid).mp hmid)
        ((ih mid (ha place hp mid hmid).2 place').mp hmem)
    · intro hm
      cases hm with
      | @repeatedFirst _ _ _ _ mid _ hfirst hrest =>
        have hmid := (h place hp mid).mpr hfirst
        exact ⟨mid, hmid, (ih mid (ha place hp mid hmid).2 place').mpr hrest⟩

theorem Lists.plus (ha : Advances s w) (greedy : Bool) :
    Lists s (.plus greedy r) fun place =>
      (w place).flatMap (starWays w (Place.left s) greedy) := by
  intro place hp place'
  rw [List.mem_flatMap]
  constructor
  · rintro ⟨mid, hmid, hmem⟩
    exact .plus ((h place hp mid).mp hmid)
      ((h.star ha greedy mid (ha place hp mid hmid).2 place').mp hmem)
  · intro hm
    cases hm with
    | @plus _ _ _ mid _ hfirst hrest =>
      have hmid := (h place hp mid).mpr hfirst
      exact ⟨mid, hmid, (h.star ha greedy mid (ha place hp mid hmid).2 place').mpr hrest⟩

theorem Lists.group (key : κ) :
    Lists s (.group key r) fun place => (w place).map fun place' =>
      ⟨place'.position, ⟨key, place.position, place'.position,
        s.extractString place.position place'.position⟩ :: place'.ended⟩ := by
  intro place hp place'
  rw [List.mem_map]
  constructor
  · rintro ⟨mid, hmid, rfl⟩
    exact .group ((h place hp mid).mp hmid)
  · intro hm
    cases hm with
    | group hr => exact ⟨_, (h _ hp _).mpr hr, rfl⟩

end

theorem lists_groupRef (key : κ) : Lists s (.groupRef key) (Place.afterGroup s key) := by
  intro place _ place'
  unfold Place.afterGroup
  constructor
  · intro hmem
    split at hmem
    · rename_i hfind
      obtain ⟨hat, rfl⟩ := mem_after.mp hmem
      exact .groupRef hfind hat
    · rename_i hfind
      rw [List.mem_singleton] at hmem
      subst hmem
      exact .groupRefNone hfind
  · intro hm
    cases hm with
    | groupRef hfind hat =>
      rw [hfind]
      exact mem_after.mpr ⟨hat, rfl⟩
    | groupRefNone hfind =>
      rw [hfind]
      exact List.mem_singleton_self _

mutual

theorem lists_ways : (r : Regsexp κ) → (keys : List κ) → Legal keys r → Lists s r (ways s r)
  | .char c, _, _ => by
    intro place _ place'
    rw [ways, mem_afterChar]
    constructor
    · rintro ⟨d, hd, he, rfl⟩
      rw [decide_eq_true_eq] at he
      exact .char (he ▸ hd)
    · intro hm
      cases hm with
      | char hc => exact ⟨c, hc, decide_eq_true rfl, rfl⟩
  | .string string, _, _ => by
    intro place _ place'
    rw [ways, mem_after]
    constructor
    · rintro ⟨hat, rfl⟩
      exact .string hat
    · intro hm
      cases hm with
      | string hat => exact ⟨hat, rfl⟩
  | .charIn charSet, _, _ => by
    intro place _ place'
    rw [ways, mem_afterChar]
    constructor
    · rintro ⟨d, hd, he, rfl⟩
      exact .charIn hd he
    · intro hm
      cases hm with
      | charIn hc he => exact ⟨_, hc, he, rfl⟩
  | .anyChar, _, _ => by
    intro place _ place'
    rw [ways, mem_afterChar]
    constructor
    · rintro ⟨d, hd, he, rfl⟩
      exact .anyChar hd (of_decide_eq_true he)
    · intro hm
      cases hm with
      | anyChar hc he => exact ⟨_, hc, decide_eq_true he, rfl⟩
  | .lineStart, _, _ => by
    intro place _ place'
    rw [ways, mem_test]
    constructor
    · rintro ⟨h, rfl⟩
      exact .lineStart (all_newline.mp h)
    · intro hm
      cases hm with
      | lineStart h =>
        exact ⟨all_newline.mpr h, rfl⟩
  | .lineEnd, _, _ => by
    intro place _ place'
    rw [ways, mem_test]
    constructor
    · rintro ⟨h, rfl⟩
      exact .lineEnd (all_newline.mp h)
    · intro hm
      cases hm with
      | lineEnd h =>
        exact ⟨all_newline.mpr h, rfl⟩
  | .stringStart, _, _ => by
    intro place _ place'
    rw [ways, mem_test]
    constructor
    · rintro ⟨h, rfl⟩
      exact .stringStart (Option.isNone_iff_eq_none.mp h)
    · intro hm
      cases hm with
      | stringStart h => exact ⟨Option.isNone_iff_eq_none.mpr h, rfl⟩
  | .stringEnd, _, _ => by
    intro place _ place'
    rw [ways, mem_test]
    constructor
    · rintro ⟨h, rfl⟩
      exact .stringEnd (Option.isNone_iff_eq_none.mp h)
    · intro hm
      cases hm with
      | stringEnd h => exact ⟨Option.isNone_iff_eq_none.mpr h, rfl⟩
  | .seq rs, keys, hl => by
    intro place hp place'
    rw [ways]
    exact lists_seqWays rs keys (by simpa only [Legal] using hl) place hp place'
  | .alt rs, keys, hl => by
    intro place hp place'
    rw [ways, lists_altWays rs keys (by simpa only [Legal] using hl) place hp place']
    constructor
    · rintro ⟨r, hr, hm⟩
      exact .alt hr hm
    · intro hm
      cases hm with
      | alt hr hm => exact ⟨_, hr, hm⟩
  | .optional greedy r, keys, hl => by
    intro place hp place'
    have h := lists_ways r keys (by simpa only [Legal] using hl)
    rw [ways, mem_choose, h place hp place']
    constructor
    · rintro (rfl | hm)
      · exact .optionalNone
      · exact .optionalOne hm
    · intro hm
      cases hm with
      | optionalNone => exact .inl rfl
      | optionalOne hm => exact .inr hm
  | .star greedy r, keys, hl => by
    have h := lists_ways r keys (by simpa only [Legal] using hl)
    simpa only [ways] using h.star (advances_ways r) greedy
  | .plus greedy r, keys, hl => by
    have h := lists_ways r keys (by simpa only [Legal] using hl)
    simpa only [ways] using h.plus (advances_ways r) greedy
  | .repeated greedy n (some m) r, keys, hl => by
    simp only [Legal] at hl
    simpa only [ways] using
      (lists_ways r keys hl.2).repeated (advances_ways r) greedy m n (hl.1 m rfl)
  | .repeated greedy n none r, keys, hl => by
    simp only [Legal] at hl
    simpa only [ways] using (lists_ways r keys hl.2).repeatedNone (advances_ways r) greedy n
  | .group key r, keys, hl => by
    simp only [Legal] at hl
    simpa only [ways] using (lists_ways r (key :: keys) hl.2).group key
  | .groupRef key, _, _ => by
    simpa only [ways] using lists_groupRef key

theorem lists_seqWays : (rs : List (Regsexp κ)) → (keys : List κ) → LegalAll keys rs →
    Lists s (.seq rs) (seqWays s rs)
  | [], _, _ => by
    intro place _ place'
    rw [seqWays, List.mem_singleton]
    constructor
    · rintro rfl
      exact .seqNil
    · intro hm
      cases hm
      rfl
  | r :: rs, keys, hl => by
    simp only [LegalAll] at hl
    intro place hp place'
    have h := lists_ways r keys hl.1
    have h' := lists_seqWays rs keys hl.2
    rw [seqWays, List.mem_flatMap]
    constructor
    · rintro ⟨mid, hmid, hmem⟩
      exact .seqCons ((h place hp mid).mp hmid)
        ((h' mid (advances_ways r place hp mid hmid).2 place').mp hmem)
    · intro hm
      cases hm with
      | @seqCons _ _ _ mid _ hfirst hrest =>
        have hmid := (h place hp mid).mpr hfirst
        exact ⟨mid, hmid, (h' mid (advances_ways r place hp mid hmid).2 place').mpr hrest⟩

theorem lists_altWays : (rs : List (Regsexp κ)) → (keys : List κ) → LegalAll keys rs →
    ∀ place, place.position ≤ s.stop → ∀ place', place' ∈ altWays s rs place ↔
      ∃ r ∈ rs, Matches s false r place place'
  | [], _, _ => by
    intro place _ place'
    rw [altWays]
    exact ⟨fun h => absurd h List.not_mem_nil, fun ⟨_, h, _⟩ => absurd h List.not_mem_nil⟩
  | r :: rs, keys, hl => by
    simp only [LegalAll] at hl
    intro place hp place'
    rw [altWays, List.mem_append, lists_ways r keys hl.1 place hp place',
      lists_altWays rs keys hl.2 place hp place']
    simp only [List.mem_cons, or_and_right, exists_or, exists_eq_left]

end

end Ways

end MitScheme.Runtime.Regexp
