import MitScheme.Runtime.CharSetHistory

/-! # Character sets: canonical representation and set algebra

Where no empty range is asked for, every set is built from a canonical inversion list. The list is
then determined by the members, and with it both byte vectors. -/

namespace MitScheme.Runtime.CharSets
open Lib.InversionList

variable {ν : Type} {named : ν → Option CharSet} {full cs cs1 cs2 : CharSet}

/-- Each operation on sets that satisfy `O` denotes its set operation. -/
structure Denotes (named : ν → Option CharSet) (full : CharSet) (O : CharSet → Prop) : Prop where
  star : ∀ cpl cs, (∀ elt ∈ cpl, ∀ c, elt.set named = some c → O c) →
    charSetStar named cpl = .ok cs → ∀ cp < charCodeLimit,
      codePointInCharSet cp cs = cpl.any (CplElement.has named cp)
  list : ∀ chars base, (∀ c, base = some c → O c) → ∀ cp < charCodeLimit,
    codePointInCharSet cp (listToCharSet chars base) =
      (decide (∃ c ∈ chars, c.code = cp) || base.any fun c => codePointInCharSet cp c)
  ucsRange : ∀ lower upper base cs, (∀ c, base = some c → O c) →
    ucsRangeToCharSet lower upper base = .ok cs → ∀ cp < charCodeLimit,
      codePointInCharSet cp cs =
        (decide (lower ≤ cp ∧ cp < upper) || base.any fun c => codePointInCharSet cp c)
  adjoin : ∀ cs chars, O cs → ∀ cp < charCodeLimit,
    codePointInCharSet cp (charSetAdjoin cs chars) =
      (codePointInCharSet cp cs || decide (∃ c ∈ chars, c.code = cp))
  delete : ∀ cs chars, O cs → ∀ cp < charCodeLimit,
    codePointInCharSet cp (charSetDelete cs chars) =
      (codePointInCharSet cp cs && !decide (∃ c ∈ chars, c.code = cp))
  invert : ∀ cs, O cs → ∀ cp < charCodeLimit,
    codePointInCharSet cp (charSetInvert cs) = !codePointInCharSet cp cs
  union : ∀ css, (∀ c ∈ css, O c) → ∀ cp < charCodeLimit,
    codePointInCharSet cp (charSetUnion css) = css.any (codePointInCharSet cp)
  intersection : ∀ css, (∀ c ∈ css, O c) → css ≠ [] → ∀ cp < charCodeLimit,
    codePointInCharSet cp (charSetIntersection full css) = css.all (codePointInCharSet cp)
  difference : ∀ cs rest, O cs → (∀ c ∈ rest, O c) → ∀ cp < charCodeLimit,
    codePointInCharSet cp (charSetDifference cs rest) =
      (codePointInCharSet cp cs && !rest.any (codePointInCharSet cp))
  xor : ∀ css cs, (∀ c ∈ css, O c) → charSetXor css = some cs → ∀ cp < charCodeLimit,
    codePointInCharSet cp cs = (css.map (codePointInCharSet cp)).foldr xor false

theorem denotes_of_built {O : CharSet → Prop} (hO : ∀ cs, O cs → Built False cs) :
    Denotes named full O where
  star _ _ hcpl heq := (charSetStar_spec (fun elt helt c hc => hO c (hcpl elt helt c hc)) heq).2
  list chars _ hbase := (listToCharSet_spec chars fun c hc => hO c (hbase c hc)).2
  ucsRange _ _ _ _ hbase heq :=
    (ucsRangeToCharSet_spec (fun c hc => hO c (hbase c hc)) (fun _ hs => hs.elim) heq).2
  adjoin cs chars hcs := (charSetAdjoin_spec (hO cs hcs) chars).2
  delete cs chars hcs := (charSetDelete_spec (hO cs hcs) chars).2
  invert cs hcs := (charSetInvert_spec (hO cs hcs)).2
  union _ hcss := (charSetUnion_spec fun c hc => hO c (hcss c hc)).2
  intersection _ hcss hne :=
    (charSetIntersection_spec (fun c hc => hO c (hcss c hc))
      fun h => (hne h).elim).2 hne
  difference cs _ hcs hrest := (charSetDifference_spec (hO cs hcs) fun c hc => hO c (hrest c hc)).2
  xor _ _ hcss heq := (charSetXor_spec (fun c hc => hO c (hcss c hc)) heq).2

/-! ## Canonical sets -/

theorem Built.eq_of_members (h1 : Built True cs1) (h2 : Built True cs2)
    (h : ∀ cp < charCodeLimit, codePointInCharSet cp cs1 = codePointInCharSet cp cs2) :
    cs1 = cs2 := by
  obtain ⟨l1, hl1, rfl⟩ := h1
  obtain ⟨l2, hl2, rfl⟩ := h2
  congr 1
  refine (hl1.canonical trivial).ext (hl2.canonical trivial) fun cp hcp => ?_
  rw [← codePointInCharSet_ilist hl1, ← codePointInCharSet_ilist hl2]
  exact h cp hcp

theorem charSetEq_two : charSetEq [cs1, cs2] = true ↔ cs1 = cs2 := by
  obtain ⟨low1, high1⟩ := cs1
  obtain ⟨low2, high2⟩ := cs2
  simp only [charSetEq, List.all_cons, List.all_nil, Bool.and_true, Bool.and_eq_true, beq_iff_eq,
    CharSet.mk.injEq]
  exact and_congr eq_comm eq_comm

theorem chooseLoop_empty {lowBytes : Nat} {hpos : 0 < lowBytes} :
    chooseLoop [] lowBytes 0 0 hpos = 0 := by
  induction hn : maxLowBytes - lowBytes using Nat.strong_induction_on generalizing lowBytes with
  | _ n ih =>
  rw [chooseLoop]
  by_cases hlt : lowBytes < maxLowBytes
  · rw [if_pos hlt]
    exact ih _ (by rw [Nat.shiftLeft_eq]; omega) rfl
  · rw [if_neg hlt]

theorem ilistToCharSet_nil : ilistToCharSet [] = ⟨[], []⟩ := by
  have h : chooseLowLimit [] = 0 := chooseLoop_empty
  rw [ilistToCharSet, h]
  rfl

theorem Built.charSetIsEmpty_iff (h : Built True cs) :
    charSetIsEmpty cs = true ↔ ∀ cp < charCodeLimit, codePointInCharSet cp cs = false := by
  have hnil : Built True (ilistToCharSet []) := canonical_nil.built
  have hnone (cp : Nat) : codePointInCharSet cp (ilistToCharSet []) = false :=
    codePointInCharSet_ilist (canonical_nil.rangeList : RangeList True []) cp
  constructor
  · intro hempty
    have : cs = ilistToCharSet [] := by
      cases cs
      simpa [charSetIsEmpty, ilistToCharSet_nil] using hempty
    exact fun cp _ => this ▸ hnone cp
  · intro hmembers
    rw [h.eq_of_members hnil fun cp hcp => (hmembers cp hcp).trans (hnone cp).symm,
      ilistToCharSet_nil]
    rfl

/-- **Canonical character sets**: without an empty `ucs-range->char-set`, every set has a canonical
list that agrees with membership, the operations denote set operations, and `char-set=` and
`char-set-empty?` compare members. -/
theorem char_sets_canonical (named : ν → Option CharSet) (full : CharSet) :
    (∀ cs, Obtainable named full (· < ·) cs → Canonical (charSetToIlist cs) ∧
      (∀ cp < charCodeLimit, codePointInCharSet cp cs = inside (charSetToIlist cs) cp) ∧
      (charSetIsEmpty cs = true ↔ ∀ cp < charCodeLimit, codePointInCharSet cp cs = false)) ∧
    Denotes named full (Obtainable named full (· < ·)) ∧
    ∀ cs1 cs2, Obtainable named full (· < ·) cs1 → Obtainable named full (· < ·) cs2 →
      (charSetEq [cs1, cs2] = true ↔
        ∀ cp < charCodeLimit, codePointInCharSet cp cs1 = codePointInCharSet cp cs2) := by
  have hbuilt {cs : CharSet} (h : Obtainable named full (· < ·) cs) : Built True cs :=
    h.built fun hlt _ => hlt
  refine ⟨fun cs hcs => ?_, denotes_of_built fun cs hcs => hcs.built fun _ hs => hs.elim,
    fun cs1 cs2 h1 h2 => ?_⟩
  · obtain ⟨hl, hinside⟩ := (hbuilt hcs).ilist
    exact ⟨hl.canonical trivial, fun cp _ => (hinside cp).symm, (hbuilt hcs).charSetIsEmpty_iff⟩
  · rw [charSetEq_two]
    constructor
    · rintro rfl _ _
      rfl
    · exact (hbuilt h1).eq_of_members (hbuilt h2)

/-- The range from 5 to 5 has no member; its set is not empty and not equal to the empty set. -/
theorem empty_range_not_canonical : ∃ cs, ucsRangeToCharSet 5 5 none = .ok cs ∧
    Obtainable (fun _ : Unit => none) charSetEmpty (fun _ _ => True) cs ∧
      (∀ cp < charCodeLimit, codePointInCharSet cp cs = codePointInCharSet cp charSetEmpty) ∧
        charSetIsEmpty cs = false ∧ charSetEq [cs, charSetEmpty] = false := by
  have heq : ucsRangeToCharSet 5 5 none = .ok (ilistToCharSet [5, 5]) := rfl
  have hmembers := (ucsRangeToCharSet_spec (by simp) (fun _ (hs : False) => hs.elim) heq).2
  have hnil : ∀ c ∈ ([] : List CharSet), Built True c := List.forall_mem_nil _
  obtain ⟨hempty, hnone⟩ := charSetUnion_spec hnil
  have hne : charSetIsEmpty (ilistToCharSet [5, 5]) = false := by
    have hlow : lowLimit (ilistToCharSet [5, 5]).low = chooseLowLimit [5, 5] :=
      lowLimit_ilistToCharSet ⟨Nat.zero_le 5, le_rfl, by decide, trivial⟩
    by_cases hzero : chooseLowLimit [5, 5] = 0
    · have hhigh : (ilistToCharSet [5, 5]).high = ilistToHigh [5, 5] 0 :=
        congrArg (ilistToHigh [5, 5]) hzero
      rw [charSetIsEmpty, hhigh, Bool.and_eq_false_iff]
      exact .inr rfl
    · rw [lowLimit_eq] at hlow
      rw [charSetIsEmpty, Bool.and_eq_false_iff, beq_eq_false_iff_ne]
      exact .inl (by omega)
  refine ⟨_, heq, .ucsRange (by simp) (fun _ => trivial) heq, fun cp hcp => ?_, hne, ?_⟩
  · rw [hmembers cp hcp]
    refine Eq.trans ?_ (hnone cp hcp).symm
    have : ¬ (5 ≤ cp ∧ cp < 5) := by omega
    simp [this]
  · rw [Bool.eq_false_iff, ne_eq, charSetEq_two]
    intro h
    rw [h] at hne
    have := hempty.charSetIsEmpty_iff.mpr fun cp hcp => (hnone cp hcp).trans rfl
    rw [show charSetEmpty = charSetUnion [] from rfl, this] at hne
    cases hne

end MitScheme.Runtime.CharSets
