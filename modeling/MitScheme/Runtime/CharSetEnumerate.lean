import MitScheme.Runtime.CharSetHistory

/-! # Character sets: the enumerations agree

The ranges that a fold visits expand to the members in increasing order. The fold, the backward
fold and the size run over that list. The cursor protocol ends in an error at the first member. -/

namespace MitScheme.Runtime.CharSets
open Lib.InversionList

variable {ν : Type} {named : ν → Option CharSet} {full cs : CharSet} {β : Type}

def toCharacter (cp : Fin charCodeLimit) : Character := ⟨cp, 0, cp.isLt, by decide⟩

def members (cs : CharSet) : List Character :=
  ((List.finRange charCodeLimit).filter fun cp : Fin charCodeLimit =>
    codePointInCharSet cp cs).map toCharacter

theorem integerToChar_toCharacter (cp : Fin charCodeLimit) :
    integerToChar cp = .ok (toCharacter cp) := by
  have hlt : (cp : Nat) < 0x110000 := cp.isLt
  have hmod : (cp : Nat) % 2 ^ 21 = cp := Nat.mod_eq_of_lt (by omega)
  have hdiv : (cp : Nat) / 2 ^ 21 = 0 := Nat.div_eq_of_lt (by omega)
  have hcond : (cp : Nat) % 2 ^ 21 < charCodeLimit ∧ (cp : Nat) / 2 ^ 21 < 16 := by
    rw [hmod, hdiv]
    exact ⟨cp.isLt, by decide⟩
  rw [integerToChar, dif_pos hcond]
  simp only [toCharacter, hmod, hdiv]

/-! ## The code points of a list of ranges -/

def expand (rs : List (Nat × Nat)) : List Nat := rs.flatMap fun r => List.range' r.1 (r.2 - r.1)

theorem expand_spec {lo rs} (h : Weak lo (places rs)) :
    (expand rs).Pairwise (· < ·) ∧ ∀ x, x ∈ expand rs ↔ inside (places rs) x = true := by
  induction rs generalizing lo with
  | nil => exact ⟨List.Pairwise.nil, by simp [expand, places]⟩
  | cons r rs ih =>
    obtain ⟨-, hr, -, hrest⟩ := h
    obtain ⟨hpw, hmem⟩ := ih hrest
    have hlt {x : Nat} (hx : x ∈ expand rs) : r.2 ≤ x := by
      by_contra hge
      have := (hmem x).mp hx
      rw [hrest.inside_lt (not_le.mp hge)] at this
      cases this
    have hcons : expand (r :: rs) = List.range' r.1 (r.2 - r.1) ++ expand rs := rfl
    rw [hcons]
    refine ⟨List.pairwise_append.mpr ⟨List.pairwise_lt_range' 1, hpw, fun a ha b hb => ?_⟩,
      fun x => ?_⟩
    · have := List.mem_range'_1.mp ha
      have := hlt hb
      omega
    · rw [List.mem_append, List.mem_range'_1, hmem, places, inside_range hr]
      by_cases hx : x < r.2
      · rw [hrest.inside_lt hx]
        simp only [Bool.false_eq_true, or_false, Bool.xor_false, decide_eq_true_eq]
        omega
      · have : ¬ (r.1 ≤ x ∧ x < r.1 + (r.2 - r.1)) := by omega
        simp [hx, this]

theorem expand_eq_members {rs} (hweak : Weak 0 (places rs))
    (hinside : ∀ x, inside (places rs) x = codePointInCharSet x cs) :
    expand rs = ((List.finRange charCodeLimit).filter fun cp : Fin charCodeLimit =>
      codePointInCharSet cp cs).map Fin.val := by
  obtain ⟨hpw, hmem⟩ := expand_spec hweak
  refine hpw.eq_of_mem_iff (r := (· < ·)) ?_ fun x => ?_
  · exact List.pairwise_map.mpr ((List.pairwise_lt_finRange _).filter _)
  · rw [hmem, List.mem_map]
    constructor
    · intro hx
      refine ⟨⟨x, hweak.inside_lt_limit hx⟩, ?_, rfl⟩
      rw [List.mem_filter]
      exact ⟨List.mem_finRange _, (hinside x).symm.trans hx⟩
    · rintro ⟨cp, hcp, rfl⟩
      rw [hinside]
      exact (List.mem_filter.mp hcp).2

/-! ## The loops over one range -/

/-- One step of a fold: the character of a code point, then `kons`. -/
def konsAt (kons : Character → β → β) (i : Nat) (acc : Except Fault β) : Except Fault β := do
  return kons (← integerToChar i) (← acc)

variable (kons : Character → β → β)

theorem foldLoop_eq (i n acc) :
    foldLoop kons i n acc = (List.range' i n).foldl (fun acc i => konsAt kons i acc) acc := by
  induction n generalizing i acc with
  | zero => rfl
  | succ n ih =>
    rw [foldLoop, ih, List.range'_succ, List.foldl_cons]
    rfl

theorem foldRightLoop_eq (s n acc) :
    foldRightLoop kons s n acc = (List.range' s n).foldr (konsAt kons) acc := by
  induction n generalizing acc with
  | zero => rfl
  | succ n ih =>
    rw [foldRightLoop, ih, List.range'_concat, List.foldr_append, Nat.one_mul]
    rfl

theorem konsAt_ok (cp : Fin charCodeLimit) (acc : β) :
    konsAt kons cp (.ok acc) = .ok (kons (toCharacter cp) acc) := by
  rw [konsAt, integerToChar_toCharacter]
  rfl

theorem foldl_konsAt (cps : List (Fin charCodeLimit)) (acc) :
    (cps.map Fin.val).foldl (fun acc i => konsAt kons i acc) (.ok acc) =
      .ok ((cps.map toCharacter).foldl (fun acc c => kons c acc) acc) := by
  induction cps generalizing acc with
  | nil => rfl
  | cons cp cps ih => rw [List.map_cons, List.foldl_cons, konsAt_ok, ih]; rfl

theorem foldr_konsAt (cps : List (Fin charCodeLimit)) (acc) :
    (cps.map Fin.val).foldr (konsAt kons) (.ok acc) =
      .ok ((cps.map toCharacter).foldr kons acc) := by
  induction cps with
  | nil => rfl
  | cons cp cps ih => rw [List.map_cons, List.foldr_cons, ih, konsAt_ok]; rfl

/-! ## Cursors -/

theorem scanIlist_cases (charSet rs) :
    (expand rs = [] ∧ scanIlist charSet (places rs) = .finish) ∨
      ∃ i e rs', expand rs = i :: expand ((i + 1, e) :: rs') ∧
        scanIlist charSet (places rs) = .at charSet i e (places rs') := by
  induction rs with
  | nil => exact .inl ⟨rfl, rfl⟩
  | cons r rs ih =>
    rw [places, scanIlist]
    by_cases hlt : r.1 < r.2
    · rw [if_pos hlt]
      refine .inr ⟨r.1, r.2, rs, ?_, rfl⟩
      simp only [expand, List.flatMap_cons]
      rw [show r.2 - r.1 = r.2 - (r.1 + 1) + 1 by omega, List.range'_succ]
      rfl
    · rw [if_neg hlt]
      have : expand (r :: rs) = expand rs := by
        simp only [expand, List.flatMap_cons]
        rw [show r.2 - r.1 = 0 by omega]
        rfl
      rw [this]
      exact ih

theorem cursorWalk_at (charSet i e fuel ilist) :
    ∀ l, cursorWalk charSet fuel (.at charSet i e ilist) ≠ .ok (some l) := by
  intro l hl
  cases fuel with
  | zero => cases hl
  | succ fuel =>
    rw [cursorWalk, endOfCharSet, if_neg (by simp), charSetRef, if_pos rfl] at hl
    cases hchar : integerToChar i with
    | error f => rw [hchar] at hl; cases hl
    | ok char => rw [hchar] at hl; cases hl

/-! ## The enumerations -/

theorem size_expand {rs} (n) :
    rs.foldl (fun v r => visit (fun s e size => (e - s) + size) r v) n =
      (expand rs).length + n := by
  induction rs generalizing n with
  | nil => simp [expand]
  | cons r rs ih =>
    rw [List.foldl_cons, ih]
    simp only [expand, List.flatMap_cons, List.length_append, List.length_range', visit]
    omega

theorem charSetFold_eq (h : Built False cs) (kons : Character → β → β) (knil : β) :
    charSetFold kons knil cs = .ok ((members cs).foldl (fun acc c => kons c acc) knil) := by
  obtain ⟨l, hl, rfl⟩ := h
  obtain ⟨hi, hcs, -, -⟩ := ilistToCharSet_spec hl.weak
  obtain ⟨rs, hweak, hinside, hfold⟩ := charSetRangeFold_spec hcs
  rw [charSetFold, hfold, members, ← foldl_konsAt, ← expand_eq_members hweak fun x => by
    rw [hinside, codePointInCharSet_eq hcs], expand, List.foldl_flatMap]
  simp only [visit, foldLoop_eq]

theorem charSetFoldRight_eq (h : Built False cs) (kons : Character → β → β) (knil : β) :
    charSetFoldRight kons knil cs = .ok ((members cs).foldr kons knil) := by
  obtain ⟨l, hl, rfl⟩ := h
  obtain ⟨hi, hcs, -, -⟩ := ilistToCharSet_spec hl.weak
  obtain ⟨rs, hweak, hinside, -, hfold⟩ := charSetRangeFoldRight_spec hcs
  rw [charSetFoldRight, hfold, members, ← foldr_konsAt, ← expand_eq_members hweak fun x => by
    rw [hinside, codePointInCharSet_eq hcs], expand, List.foldr_flatMap]
  congr 1
  funext r acc
  exact foldRightLoop_eq kons r.1 (r.2 - r.1) acc

theorem cursorWalk_iff (h : Built False cs) (charSet) :
    (∃ fuel, cursorWalk charSet fuel (charSetCursor charSet cs) = .ok (some (members cs))) ↔
      members cs = [] := by
  obtain ⟨l, hl, rfl⟩ := h
  obtain ⟨hi, hcs, -, -⟩ := ilistToCharSet_spec hl.weak
  obtain ⟨rs, hweak, hinside, -, hfold⟩ := charSetRangeFoldRight_spec hcs
  have hmembers := expand_eq_members hweak fun x => by rw [hinside, codePointInCharSet_eq hcs]
  rw [charSetCursor, charSetToIlist, hfold, foldr_places]
  obtain ⟨hnil, hscan⟩ | ⟨i, e, rs', hexpand, hscan⟩ := scanIlist_cases charSet rs
  · have hempty : members (ilistToCharSet l) = [] := by
      rw [hnil, eq_comm, List.map_eq_nil_iff] at hmembers
      rw [members, hmembers]
      rfl
    rw [hscan, hempty]
    exact iff_of_true ⟨1, rfl⟩ rfl
  · refine iff_of_false ?_ fun hempty => ?_
    · rintro ⟨fuel, hwalk⟩
      rw [hscan] at hwalk
      exact cursorWalk_at charSet i e fuel _ _ hwalk
    · rw [members, List.map_eq_nil_iff] at hempty
      rw [hempty, hexpand] at hmembers
      cases hmembers

theorem charSetSize_eq (h : Built False cs) : charSetSize cs = (members cs).length := by
  obtain ⟨l, hl, rfl⟩ := h
  obtain ⟨hi, hcs, -, -⟩ := ilistToCharSet_spec hl.weak
  obtain ⟨rs, hweak, hinside, hfold⟩ := charSetRangeFold_spec hcs
  rw [charSetSize, hfold, size_expand, expand_eq_members hweak fun x => by
    rw [hinside, codePointInCharSet_eq hcs], members, List.length_map, List.length_map,
    Nat.add_zero]

/-- The folds, the cursor protocol and the size all run over the members in increasing order. -/
structure EnumerationsAgree (charSet : Nat) (cs : CharSet) : Prop where
  fold : ∀ (β : Type) (kons : Character → β → β) (knil : β),
    charSetFold kons knil cs = .ok ((members cs).foldl (fun acc c => kons c acc) knil)
  foldRight : ∀ (β : Type) (kons : Character → β → β) (knil : β),
    charSetFoldRight kons knil cs = .ok ((members cs).foldr kons knil)
  cursor : ∃ fuel, cursorWalk charSet fuel (charSetCursor charSet cs) = .ok (some (members cs))
  size : charSetSize cs = (members cs).length

/-- **The enumerations agree on the empty set only**: the folds and the size run over the members
of every set, and the cursor protocol over those of the empty one. -/
theorem enumerations_agree_iff (h : Obtainable named full (fun _ _ => True) cs) (charSet : Nat) :
    ((∀ (β : Type) (kons : Character → β → β) (knil : β),
      charSetFold kons knil cs = .ok ((members cs).foldl (fun acc c => kons c acc) knil) ∧
      charSetFoldRight kons knil cs = .ok ((members cs).foldr kons knil)) ∧
      charSetSize cs = (members cs).length) ∧
    (EnumerationsAgree charSet cs ↔ members cs = []) := by
  have hbuilt : Built False cs := h.built fun _ hs => hs.elim
  refine ⟨⟨fun β kons knil =>
    ⟨charSetFold_eq hbuilt kons knil, charSetFoldRight_eq hbuilt kons knil⟩,
    charSetSize_eq hbuilt⟩, fun hagree => (cursorWalk_iff hbuilt charSet).mp hagree.cursor,
    fun hempty => ?_⟩
  exact ⟨fun _ => charSetFold_eq hbuilt, fun _ => charSetFoldRight_eq hbuilt,
    (cursorWalk_iff hbuilt charSet).mpr hempty, charSetSize_eq hbuilt⟩

def letterA : Character := ⟨97, 0, by decide, by decide⟩

theorem obtainable_letterA :
    Obtainable (fun _ : Unit => none) charSetEmpty (fun _ _ => True)
      (listToCharSet [letterA] none) :=
  .list [letterA] nofun

theorem members_letterA : members (listToCharSet [letterA] none) ≠ [] := by
  intro hempty
  rw [members, List.map_eq_nil_iff, List.filter_eq_nil_iff] at hempty
  refine hempty ⟨97, by decide⟩ (List.mem_finRange _) ?_
  have hspec : Built False (listToCharSet [letterA] none) ∧ _ :=
    listToCharSet_spec [letterA] fun _ hc => by cases hc
  rw [hspec.2 97 (by decide)]
  rfl

theorem enumerations_agree_letter :
    charSetSize (listToCharSet [letterA] none) =
      (members (listToCharSet [letterA] none)).length :=
  (enumerations_agree_iff obtainable_letterA 0).1.2

/-- The set of the letter a. -/
theorem not_enumerations_agree : ¬ EnumerationsAgree 0 (listToCharSet [letterA] none) := by
  intro hagree
  have hbuilt : Built False (listToCharSet [letterA] none) :=
    obtainable_letterA.built fun _ hs => hs.elim
  exact members_letterA ((cursorWalk_iff hbuilt 0).mp hagree.cursor)

end MitScheme.Runtime.CharSets
