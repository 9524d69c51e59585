import MitScheme.Runtime.RegsexpMatches

/-! # Turns that make no progress

An unbounded repetition discards a turn that leaves the position where it is.
Such a turn can still end groups. When no reference of the expression names a
group inside an unbounded repetition, that changes no reference, and the same
positions are reached without it. -/

namespace MitScheme.Runtime.Regexp

variable {κ : Type}

/-! ## Keys -/

section Keys
variable (here : Regsexp κ → List κ)

mutual

/-- What `here` finds at an expression and at everything in it. -/
def collect : Regsexp κ → List κ
  | .seq rs => here (.seq rs) ++ collectAll rs
  | .alt rs => here (.alt rs) ++ collectAll rs
  | .optional greedy r => here (.optional greedy r) ++ collect r
  | .star greedy r => here (.star greedy r) ++ collect r
  | .plus greedy r => here (.plus greedy r) ++ collect r
  | .repeated greedy n m r => here (.repeated greedy n m r) ++ collect r
  | .group key r => here (.group key r) ++ collect r
  | r => here r

def collectAll : List (Regsexp κ) → List κ
  | [] => []
  | r :: rs => collect r ++ collectAll rs

end

end Keys

def groupKeys : Regsexp κ → List κ := collect fun
  | .group key _ => [key]
  | _ => []

def referencedKeys : Regsexp κ → List κ := collect fun
  | .groupRef key => [key]
  | _ => []

def repeatedKeys : Regsexp κ → List κ := collect fun
  | .star _ r | .plus _ r | .repeated _ _ none r => groupKeys r
  | _ => []

theorem collect_subset_collectAll {here : Regsexp κ → List κ} {r rs} (h : r ∈ rs) {k}
    (hk : k ∈ collect here r) : k ∈ collectAll here rs := by
  induction rs with
  | nil => exact absurd h List.not_mem_nil
  | cons r' rs ih =>
    rw [collectAll, List.mem_append]
    rcases List.mem_cons.mp h with rfl | h
    · exact .inl hk
    · exact .inr (ih h)

/-! ## References and repetitions -/

/-- The references of `r` are in `K`, and no group of a repetition in it is. -/
structure Unrepeated (K : List κ) (r : Regsexp κ) : Prop where
  references : ∀ k ∈ referencedKeys r, k ∈ K
  groups : ∀ k ∈ repeatedKeys r, k ∉ K

section Unrepeated
variable {K : List κ} {greedy : Bool} {r r' : Regsexp κ}

theorem Unrepeated.of_subset (h : Unrepeated K r) (href : referencedKeys r' ⊆ referencedKeys r)
    (hrep : repeatedKeys r' ⊆ repeatedKeys r) : Unrepeated K r' :=
  ⟨fun k hk => h.references k (href hk), fun k hk => h.groups k (hrep hk)⟩

theorem Unrepeated.body_star (h : Unrepeated K (.star greedy r)) : Unrepeated K r :=
  h.of_subset (fun k hk => by simpa only [referencedKeys, collect, List.nil_append] using hk)
    (fun k hk => by
      simp only [repeatedKeys, collect]
      exact List.mem_append_right _ hk)

theorem Unrepeated.star_of_plus (h : Unrepeated K (.plus greedy r)) :
    Unrepeated K (.star greedy r) :=
  h.of_subset (fun k hk => by simpa only [referencedKeys, collect] using hk)
    (fun k hk => by simpa only [repeatedKeys, collect] using hk)

theorem Unrepeated.star_of_repeated {n} (h : Unrepeated K (.repeated greedy n none r)) :
    Unrepeated K (.star greedy r) :=
  h.of_subset (fun k hk => by simpa only [referencedKeys, collect] using hk)
    (fun k hk => by simpa only [repeatedKeys, collect] using hk)

end Unrepeated

section Idle
variable [DecidableEq κ] {s : Source}

variable {place place' : Place κ}

theorem Matches.find_eq {idle r} (h : Matches s idle r place place') {k} (hk : k ∉ groupKeys r) :
    place'.ended.find? (·.key = k) = place.ended.find? (·.key = k) := by
  induction h with
  | char | string | charIn | anyChar | lineStart | lineEnd | stringStart | stringEnd | seqNil
  | optionalNone | starNil | repeatedStop | groupRef | groupRefNone => rfl
  | seqCons _ _ ih1 ih2 =>
    simp only [groupKeys, collect, collectAll, List.nil_append, List.mem_append, not_or] at hk
    rw [ih2 (by simpa only [groupKeys, collect, List.nil_append] using hk.2), ih1 hk.1]
  | alt hr _ ih =>
    simp only [groupKeys, collect, List.nil_append] at hk
    exact ih fun hk' => hk (collect_subset_collectAll hr hk')
  | optionalOne _ ih =>
    exact ih (by simpa only [groupKeys, collect, List.nil_append] using hk)
  | starCons _ _ _ ih1 ih2 | plus _ _ ih1 ih2 | repeatedMore _ _ ih1 ih2
  | repeatedFirst _ _ ih1 ih2 =>
    simp only [groupKeys, collect, List.nil_append] at hk ih1 ih2
    rw [ih2 hk, ih1 hk]
  | repeatedStar _ ih =>
    simp only [groupKeys, collect, List.nil_append] at hk ih
    exact ih hk
  | group _ ih =>
    simp only [groupKeys, collect, List.cons_append, List.nil_append, List.mem_cons, not_or] at hk
    rw [List.find?_cons_of_neg (by simpa using Ne.symm hk.1)]
    exact ih hk.2

theorem Matches.idle {r : Regsexp κ} (h : Matches s false r place place') :
    Matches s true r place place' := by
  induction h with
  | char hc => exact .char hc
  | string hat => exact .string hat
  | charIn hc he => exact .charIn hc he
  | anyChar hc he => exact .anyChar hc he
  | lineStart hc => exact .lineStart hc
  | lineEnd hc => exact .lineEnd hc
  | stringStart hc => exact .stringStart hc
  | stringEnd hc => exact .stringEnd hc
  | seqNil => exact .seqNil
  | seqCons _ _ ih1 ih2 => exact .seqCons ih1 ih2
  | alt hr _ ih => exact .alt hr ih
  | optionalNone => exact .optionalNone
  | optionalOne _ ih => exact .optionalOne ih
  | starNil => exact .starNil
  | starCons _ _ _ ih1 ih2 => exact .starCons ih1 (.inl rfl) ih2
  | plus _ _ ih1 ih2 => exact .plus ih1 ih2
  | repeatedStop => exact .repeatedStop
  | repeatedMore _ _ ih1 ih2 => exact .repeatedMore ih1 ih2
  | repeatedStar _ ih => exact .repeatedStar ih
  | repeatedFirst _ _ ih1 ih2 => exact .repeatedFirst ih1 ih2
  | group _ ih => exact .group ih
  | groupRef hf hat => exact .groupRef hf hat
  | groupRefNone hf => exact .groupRefNone hf

/-- Two lists of groups that references in `K` cannot tell apart. -/
def Agree (K : List κ) (e e' : List (Group κ)) : Prop :=
  ∀ k ∈ K, e.find? (·.key = k) = e'.find? (·.key = k)

theorem Agree.cons {K e e'} (h : Agree K e e') (g : Group κ) : Agree K (g :: e) (g :: e') := by
  intro k hk
  rw [List.find?_cons, List.find?_cons, h k hk]

/-- **Idle turns can be left out** when no reference names a group of a
repetition: the same position is reached, and the references see the same
groups. Induction on the match; an idle turn is dropped where it stands. -/
theorem Matches.drop_idle {K r} (h : Matches s true r place place') (hu : Unrepeated K r) :
    ∀ e, Agree K place.ended e → ∃ e', Matches s false r ⟨place.position, e⟩ ⟨place'.position, e'⟩ ∧
      Agree K place'.ended e' := by
  induction h with
  | char hc => exact fun e he => ⟨e, .char hc, he⟩
  | string hat => exact fun e he => ⟨e, .string hat, he⟩
  | charIn hc hp => exact fun e he => ⟨e, .charIn hc hp, he⟩
  | anyChar hc hp => exact fun e he => ⟨e, .anyChar hc hp, he⟩
  | lineStart hc => exact fun e he => ⟨e, .lineStart hc, he⟩
  | lineEnd hc => exact fun e he => ⟨e, .lineEnd hc, he⟩
  | stringStart hc => exact fun e he => ⟨e, .stringStart hc, he⟩
  | stringEnd hc => exact fun e he => ⟨e, .stringEnd hc, he⟩
  | seqNil => exact fun e he => ⟨e, .seqNil, he⟩
  | optionalNone => exact fun e he => ⟨e, .optionalNone, he⟩
  | starNil => exact fun e he => ⟨e, .starNil, he⟩
  | repeatedStop => exact fun e he => ⟨e, .repeatedStop, he⟩
  | seqCons _ _ ih1 ih2 =>
    intro e he
    obtain ⟨e1, h1, he1⟩ := ih1 (hu.of_subset
      (fun k hk => by
        simp only [referencedKeys, collect, collectAll]
        exact List.mem_append_right _ (List.mem_append_left _ hk))
      (fun k hk => by
        simp only [repeatedKeys, collect, collectAll]
        exact List.mem_append_right _ (List.mem_append_left _ hk))) e he
    obtain ⟨e2, h2, he2⟩ := ih2 (hu.of_subset
      (fun k hk => by
        simp only [referencedKeys, collect, collectAll, List.nil_append] at hk ⊢
        exact List.mem_append_right _ hk)
      (fun k hk => by
        simp only [repeatedKeys, collect, collectAll, List.nil_append] at hk ⊢
        exact List.mem_append_right _ hk)) e1 he1
    exact ⟨e2, .seqCons h1 h2, he2⟩
  | alt hmem _ ih =>
    intro e he
    obtain ⟨e1, h1, he1⟩ := ih (hu.of_subset
      (fun k hk => by
        simp only [referencedKeys, collect]
        exact List.mem_append_right _ (collect_subset_collectAll hmem hk))
      (fun k hk => by
        simp only [repeatedKeys, collect]
        exact List.mem_append_right _ (collect_subset_collectAll hmem hk))) e he
    exact ⟨e1, .alt hmem h1, he1⟩
  | optionalOne _ ih =>
    intro e he
    obtain ⟨e1, h1, he1⟩ := ih (hu.of_subset
      (fun k hk => by simpa only [referencedKeys, collect, List.nil_append] using hk)
      (fun k hk => by simpa only [repeatedKeys, collect, List.nil_append] using hk)) e he
    exact ⟨e1, .optionalOne h1, he1⟩
  | @starCons greedy r place mid place' hfirst _ _ ih1 ih2 =>
    intro e he
    by_cases hpos : mid.position = place.position
    · have hidle : Agree K mid.ended e := by
        intro k hk
        rw [hfirst.find_eq fun hk' => hu.groups k ?_ hk, he k hk]
        simp only [repeatedKeys, collect, List.mem_append]
        exact .inl hk'
      obtain ⟨e2, h2, he2⟩ := ih2 hu e hidle
      exact ⟨e2, hpos ▸ h2, he2⟩
    · obtain ⟨e1, h1, he1⟩ := ih1 hu.body_star e he
      obtain ⟨e2, h2, he2⟩ := ih2 hu e1 he1
      exact ⟨e2, .starCons h1 (.inr hpos) h2, he2⟩
  | plus _ _ ih1 ih2 =>
    intro e he
    obtain ⟨e1, h1, he1⟩ := ih1 hu.star_of_plus.body_star e he
    obtain ⟨e2, h2, he2⟩ := ih2 hu.star_of_plus e1 he1
    exact ⟨e2, .plus h1 h2, he2⟩
  | repeatedMore _ _ ih1 ih2 =>
    intro e he
    obtain ⟨e1, h1, he1⟩ := ih1 (hu.of_subset
      (fun k hk => by simpa only [referencedKeys, collect, List.nil_append] using hk)
      (fun k hk => by simpa only [repeatedKeys, collect, List.nil_append] using hk)) e he
    obtain ⟨e2, h2, he2⟩ := ih2 (hu.of_subset
      (fun k hk => by simpa only [referencedKeys, collect] using hk)
      (fun k hk => by simpa only [repeatedKeys, collect] using hk)) e1 he1
    exact ⟨e2, .repeatedMore h1 h2, he2⟩
  | repeatedStar _ ih =>
    intro e he
    obtain ⟨e1, h1, he1⟩ := ih hu.star_of_repeated e he
    exact ⟨e1, .repeatedStar h1, he1⟩
  | repeatedFirst _ _ ih1 ih2 =>
    intro e he
    obtain ⟨e1, h1, he1⟩ := ih1 hu.star_of_repeated.body_star e he
    obtain ⟨e2, h2, he2⟩ := ih2 (hu.of_subset
      (fun k hk => by simpa only [referencedKeys, collect] using hk)
      (fun k hk => by simpa only [repeatedKeys, collect] using hk)) e1 he1
    exact ⟨e2, .repeatedFirst h1 h2, he2⟩
  | group _ ih =>
    intro e he
    obtain ⟨e1, h1, he1⟩ := ih (hu.of_subset
      (fun k hk => by simpa only [referencedKeys, collect, List.nil_append] using hk)
      (fun k hk => by simpa only [repeatedKeys, collect, List.nil_append] using hk)) e he
    exact ⟨_, .group h1, he1.cons _⟩
  | @groupRef key p e' group hf hat =>
    intro e he
    have hkey : key ∈ K := hu.references key (by simp only [referencedKeys, collect]; simp)
    exact ⟨e, .groupRef (by rw [← he key hkey]; exact hf) hat, he⟩
  | @groupRefNone key place hf =>
    intro e he
    have hkey : key ∈ K := hu.references key (by simp only [referencedKeys, collect]; simp)
    exact ⟨e, .groupRefNone (by rw [← hf, ← he key hkey]), he⟩

end Idle

/-! ## The match of a string -/

/-- **The matcher stops with the first of the ways of matching**, in the order
of backtracking and with the groups of that way, or with `#f` when there is
none. Both chains of a bounded repetition are the same instruction. A turn of
an unbounded repetition that makes no progress is not a way of matching; it
would reach no other position, provided that no reference names a group of an
unbounded repetition. -/
theorem regsexp_match_string_first_way [DecidableEq κ] {r : Regsexp κ} (hl : Legal [] r)
    (string : List Char) {start stop : Nat} (hss : start ≤ stop) :
    (∀ fuel, stop < fuel → regsexpMatchString fuel r string start stop =
      .ok ((ways ⟨string, start, stop⟩ r ⟨start, []⟩).head?.map fun place =>
        ⟨start, place.position,
          place.ended.reverse.map fun group => (group.key, group.value)⟩)) ∧
    (∀ place, place ∈ ways ⟨string, start, stop⟩ r ⟨start, []⟩ ↔
      Matches ⟨string, start, stop⟩ false r ⟨start, []⟩ place) ∧
    (∀ (α : Type) (limit : Nat) (preLinker : Link κ α → Insn κ α),
      delayedChain limit preLinker = immediateChain limit preLinker) ∧
    ((∀ k ∈ referencedKeys r, k ∉ repeatedKeys r) → ∀ p,
      (∃ e, Matches ⟨string, start, stop⟩ true r ⟨start, []⟩ ⟨p, e⟩) ↔
        ∃ e, Matches ⟨string, start, stop⟩ false r ⟨start, []⟩ ⟨p, e⟩) := by
  refine ⟨fun fuel hf => regsexpMatchString_eq hl hss hf, lists_ways r [] hl ⟨start, []⟩ hss,
    fun α limit preLinker => delayedChain_eq limit preLinker, fun hk p => ⟨?_, ?_⟩⟩
  · rintro ⟨e, h⟩
    have hu : Unrepeated (referencedKeys r) r := ⟨fun k hk' => hk', fun k hk' href => hk k href hk'⟩
    obtain ⟨e', h', -⟩ := h.drop_idle hu [] fun k _ => rfl
    exact ⟨e', h'⟩
  · rintro ⟨e, h⟩
    exact ⟨e, h.idle⟩

/-- `(seq (group x "a") (* (group-ref x)))`. -/
def referenceExample : Regsexp Unit :=
  .seq [.group () (.char 'a'), .star true (.groupRef ())]

theorem regsexp_match_string_reference_example :
    (∃ place, (ways ⟨['a', 'a'], 0, 2⟩ referenceExample ⟨0, []⟩).head? = some place ∧
      place.position = 2) ∧
    ((∃ e, Matches ⟨['a', 'a'], 0, 2⟩ true referenceExample ⟨0, []⟩ ⟨2, e⟩) ↔
      ∃ e, Matches ⟨['a', 'a'], 0, 2⟩ false referenceExample ⟨0, []⟩ ⟨2, e⟩) := by
  obtain ⟨hrun, -, -, hidle⟩ := regsexp_match_string_first_way (r := referenceExample)
    (by simp [referenceExample, Legal, LegalAll]) ['a', 'a'] (Nat.zero_le 2)
  refine ⟨?_, hidle (by decide) 2⟩
  have hvalue : regsexpMatchString 3 referenceExample ['a', 'a'] 0 2 =
    .ok (some ⟨0, 2, [⟨(), ['a']⟩]⟩) := rfl
  rw [hrun 3 (by decide), Except.ok.injEq, Option.map_eq_some_iff] at hvalue
  obtain ⟨place, hplace, hmatch⟩ := hvalue
  exact ⟨place, hplace, congrArg Match.stop hmatch⟩

/-- `(seq (* (alt (group x "a") (group x ""))) (group-ref x) (string-end))`, which
does not match "a". -/
def idleExample : Regsexp Unit :=
  .seq [.star true (.alt [.group () (.char 'a'), .group () (.string [])]), .groupRef (), .stringEnd]

/-- A second, idle turn of the repetition would let "a" match: it ends the
group with the empty string, which the reference then matches. -/
theorem idle_turn_loses_match : ¬ ∀ (r : Regsexp Unit) (string : List Char) (start stop fuel : Nat),
    Legal [] r → start ≤ stop → stop ≤ string.length → stop < fuel →
      regsexpMatchString fuel r string start stop = .ok none →
      ¬ ∃ place, Matches ⟨string, start, stop⟩ true r ⟨start, []⟩ place := by
  intro hall
  refine hall idleExample ['a'] 0 1 2
    (by simp [idleExample, Legal, LegalAll]) (by decide) (by decide) (by decide) rfl ?_
  have hfirst : Matches ⟨['a'], 0, 1⟩ true (.alt [.group () (.char 'a'), .group () (.string [])])
      ⟨0, []⟩ ⟨1, [⟨(), 0, 1, ['a']⟩]⟩ :=
    .alt List.mem_cons_self (.group (.char rfl))
  have hidle : Matches ⟨['a'], 0, 1⟩ true (.alt [.group () (.char 'a'), .group () (.string [])])
      ⟨1, [⟨(), 0, 1, ['a']⟩]⟩ ⟨1, [⟨(), 1, 1, []⟩, ⟨(), 0, 1, ['a']⟩]⟩ :=
    .alt (List.mem_cons_of_mem _ List.mem_cons_self) (.group (.string fun i c hc => by cases hc))
  have href : Matches ⟨['a'], 0, 1⟩ true (.groupRef ())
      ⟨1, [⟨(), 1, 1, []⟩, ⟨(), 0, 1, ['a']⟩]⟩ ⟨1, [⟨(), 1, 1, []⟩, ⟨(), 0, 1, ['a']⟩]⟩ := by
    have hempty : StringAt ⟨['a'], 0, 1⟩ 1 [] := fun i c hc => by cases hc
    exact .groupRef (show _ = some (Group.mk () 1 1 []) from rfl) hempty
  exact ⟨_, .seqCons (.starCons hfirst (.inl rfl) (.starCons hidle (.inl rfl) .starNil))
    (.seqCons href (.seqCons (.stringEnd rfl) .seqNil))⟩

end MitScheme.Runtime.Regexp
