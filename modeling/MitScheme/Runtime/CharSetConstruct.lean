import MitScheme.Runtime.CharSetIlist

/-! # Character sets: inversion lists of characters, ranges and code-point lists

Characters and ranges are sorted first; then one pass joins the neighbours. -/

namespace MitScheme.Runtime.CharSets
open Lib.InversionList

theorem Canonical.cons {s e l} (h : Canonical l) (hse : s < e) (he : e ≤ charCodeLimit)
    (hl : ∀ a ∈ l, e < a) : Canonical (s :: e :: l) := by
  refine ⟨?_, ?_, ?_⟩
  · have := h.even
    simp only [List.length_cons]
    omega
  · refine List.pairwise_cons.mpr ⟨fun a ha => ?_, List.pairwise_cons.mpr ⟨hl, h.increasing⟩⟩
    rcases List.mem_cons.mp ha with rfl | ha
    · exact hse
    · exact hse.trans (hl a ha)
  · intro a ha
    rcases List.mem_cons.mp ha with rfl | ha
    · omega
    rcases List.mem_cons.mp ha with rfl | ha
    · exact he
    · exact h.le_limit a ha

/-! ## Characters -/

theorem findStart_spec {cps s e il} (hil : Canonical (s :: e :: il)) (hs : ∀ cp ∈ cps, cp ≤ s)
    (hcps : cps.Pairwise (· ≥ ·)) :
    Canonical (findStart cps s e il) ∧ ∀ x,
      inside (findStart cps s e il) x = (inside (s :: e :: il) x || decide (x ∈ cps)) := by
  induction cps generalizing s e il with
  | nil =>
    rw [findStart]
    exact ⟨hil, by simp⟩
  | cons cp cps ih =>
    obtain ⟨hge, hcps⟩ := List.pairwise_cons.mp hcps
    have hcp : cp ≤ s := hs cp List.mem_cons_self
    obtain ⟨hs1, he1⟩ := List.pairwise_cons.mp hil.increasing
    have hse : s < e := hs1 e (by simp)
    have hlim : e ≤ charCodeLimit := hil.le_limit e (by simp)
    have hil' : Canonical il := by
      refine ⟨?_, (List.pairwise_cons.mp he1).2, fun a ha => hil.le_limit a (by simp [ha])⟩
      have := hil.even
      simp only [List.length_cons] at this
      omega
    have hafter : ∀ a ∈ il, e < a := (List.pairwise_cons.mp he1).1
    have hmem (x : Nat) : decide (x ∈ cp :: cps) = (decide (x = cp) || decide (x ∈ cps)) := by
      simp
    rw [findStart]
    by_cases h1 : cp = s
    · rw [if_pos h1]
      obtain ⟨hcanon, hinside⟩ := ih hil (fun c hc => (hge c hc).trans hcp) hcps
      refine ⟨hcanon, fun x => ?_⟩
      have hin : x = cp → inside (s :: e :: il) x = true := by
        rintro rfl
        rw [inside_range hse.le, inside_eq_false fun a ha => by have := hafter a ha; omega]
        simp [h1, hse]
      rw [hinside, hmem]
      by_cases hx : x = cp
      · simp [hin hx]
      · simp [hx]
    · rw [if_neg h1]
      by_cases h2 : cp + 1 = s
      · rw [if_pos h2]
        have hnew : Canonical (cp :: e :: il) := hil'.cons (by omega) hlim hafter
        obtain ⟨hcanon, hinside⟩ := ih hnew hge hcps
        refine ⟨hcanon, fun x => ?_⟩
        have hstep : inside (cp :: e :: il) x = (inside (s :: e :: il) x || decide (x = cp)) := by
          rw [inside_range (by omega : cp ≤ e), inside_range hse.le]
          by_cases hx : x < e
          · rw [inside_eq_false fun a ha => hx.trans (hafter a ha)]
            grind
          · grind
        rw [hinside, hmem, hstep, Bool.or_assoc]
      · rw [if_neg h2, findEnd]
        have hnew : Canonical (cp :: (cp + 1) :: s :: e :: il) := by
          refine hil.cons (by omega) (by omega) fun a ha => ?_
          rcases List.mem_cons.mp ha with rfl | ha
          · omega
          · have := hs1 a ha
            omega
        obtain ⟨hcanon, hinside⟩ := ih hnew hge hcps
        refine ⟨hcanon, fun x => ?_⟩
        have hstep : inside (cp :: (cp + 1) :: s :: e :: il) x =
            (inside (s :: e :: il) x || decide (x = cp)) := by
          rw [inside_range (by omega : cp ≤ cp + 1)]
          by_cases hx : x < s
          · rw [inside_eq_false fun a ha => ?_]
            · grind
            · rcases List.mem_cons.mp ha with rfl | ha
              · exact hx
              · exact hx.trans (hs1 a ha)
          · grind
        rw [hinside, hmem, hstep, Bool.or_assoc]

theorem charsToIlist_spec (chars : List Character) : Canonical (charsToIlist chars) ∧
    ∀ x, inside (charsToIlist chars) x = decide (∃ c ∈ chars, c.code = x) := by
  have hsorted : ((chars.map Character.code).mergeSort fun a b => decide (b ≤ a)).Pairwise
      (· ≥ ·) := by
    refine (List.pairwise_mergeSort ?_ ?_ _).imp
      fun h => of_decide_eq_true h
    · intro a b c h1 h2
      simp only [decide_eq_true_eq] at h1 h2 ⊢
      omega
    · intro a b
      simp only [Bool.or_eq_true, decide_eq_true_eq]
      omega
  have hmem (x : Nat) : x ∈ ((chars.map Character.code).mergeSort fun a b => decide (b ≤ a)) ↔
      ∃ c ∈ chars, c.code = x := by rw [List.mem_mergeSort, List.mem_map]
  rw [charsToIlist]
  generalize ((chars.map Character.code).mergeSort fun a b => decide (b ≤ a)) = cps
    at hsorted hmem
  simp only [← hmem]
  rcases cps with _ | ⟨cp, cps⟩
  · rw [findEnd]
    exact ⟨canonical_nil, by simp⟩
  · rw [findEnd]
    have hcp : cp < charCodeLimit := by
      obtain ⟨c, -, rfl⟩ := (hmem cp).mp List.mem_cons_self
      exact c.code_lt
    obtain ⟨hge, hsorted⟩ := List.pairwise_cons.mp hsorted
    obtain ⟨hcanon, hinside⟩ :=
      findStart_spec (canonical_nil.cons (Nat.lt_succ_self cp) hcp (by simp)) hge hsorted
    refine ⟨hcanon, fun x => ?_⟩
    rw [hinside, inside_range (Nat.le_succ cp)]
    have : decide (cp ≤ x ∧ x < cp.succ) = decide (x = cp) := decide_eq_decide.mpr (by omega)
    rw [this]
    simp

/-! ## Ranges -/

def flatten (ranges : List Range) : List Nat :=
  ranges.foldr (fun r ilist => rangeStart r :: rangeEnd r :: ilist) []

def inRange (x : Nat) (r : Range) : Bool := rangeStart r ≤ x && x < rangeEnd r

theorem rangeStart_makeRange {s e} : rangeStart (makeRange s e) = s := by
  rw [makeRange]
  split <;> rfl

theorem rangeEnd_makeRange {s e} : rangeEnd (makeRange s e) = e := by
  rw [makeRange]
  split
  · next h => exact (by omega : s + 1 = e)
  · rfl

theorem normalizeLoop_spec {ranges}
    (hsorted : ranges.Pairwise fun r1 r2 => rangeStart r1 ≤ rangeStart r2)
    (hne : ∀ r ∈ ranges, rangeStart r < rangeEnd r)
    (hlim : ∀ r ∈ ranges, rangeEnd r ≤ charCodeLimit) :
    Canonical (flatten (normalizeLoop ranges)) ∧
      (∀ x, inside (flatten (normalizeLoop ranges)) x = ranges.any (inRange x)) ∧
      (flatten (normalizeLoop ranges)).head? = ranges.head?.map rangeStart := by
  induction hn : ranges.length using Nat.strong_induction_on generalizing ranges with
  | _ n ih =>
  rcases ranges with _ | ⟨r1, _ | ⟨r2, rest⟩⟩
  · rw [normalizeLoop]
    · exact ⟨canonical_nil, fun _ => rfl, rfl⟩
    · simp
  · rw [normalizeLoop]
    · have h1 := hne r1 (by simp)
      refine ⟨canonical_nil.cons h1 (hlim r1 (by simp)) (by simp), fun x => ?_, rfl⟩
      simp only [flatten, List.foldr_cons, List.foldr_nil, inside_range h1.le, inside_nil,
        Bool.xor_false, List.any_cons, List.any_nil, Bool.or_false, inRange]
      simp
    · simp
  · obtain ⟨hs1, hsorted'⟩ := List.pairwise_cons.mp hsorted
    have h1 := hne r1 (by simp)
    have h2 := hne r2 (by simp)
    have hl1 := hlim r1 (by simp)
    have hl2 := hlim r2 (by simp)
    have hs12 := hs1 r2 (by simp)
    rw [normalizeLoop]
    by_cases hgap : rangeEnd r1 < rangeStart r2
    · rw [if_pos hgap]
      obtain ⟨hcanon, hinside, hhead⟩ := ih _ (by simp only [List.length_cons] at hn ⊢; omega)
        hsorted' (fun r hr => hne r (List.mem_cons_of_mem _ hr))
        (fun r hr => hlim r (List.mem_cons_of_mem _ hr)) rfl
      have hafter : ∀ a ∈ flatten (normalizeLoop (r2 :: rest)), rangeEnd r1 < a := by
        rcases hfl : flatten (normalizeLoop (r2 :: rest)) with _ | ⟨b, l⟩
        · simp
        · rw [hfl] at hhead hcanon
          obtain rfl : b = rangeStart r2 := by simpa using hhead
          intro a ha
          rcases List.mem_cons.mp ha with rfl | ha
          · exact hgap
          · exact hgap.trans ((List.pairwise_cons.mp hcanon.increasing).1 a ha)
      refine ⟨hcanon.cons h1 hl1 hafter, fun x => ?_, rfl⟩
      rw [List.any_cons, ← hinside, inRange]
      show inside (_ :: _ :: flatten _) x = _
      rw [inside_range h1.le]
      by_cases hx : x < rangeEnd r1
      · rw [inside_eq_false fun a ha => hx.trans (hafter a ha)]
        simp
      · simp [hx]
    · rw [if_neg hgap]
      -- the two ranges overlap or touch
      have hcons (r : Range) :
          r ∈ makeRange (rangeStart r1) (max (rangeEnd r1) (rangeEnd r2)) :: rest →
          r = makeRange (rangeStart r1) (max (rangeEnd r1) (rangeEnd r2)) ∨ r ∈ rest :=
        List.mem_cons.mp
      obtain ⟨hcanon, hinside, hhead⟩ := ih (makeRange (rangeStart r1)
          (max (rangeEnd r1) (rangeEnd r2)) :: rest).length
        (by simp only [List.length_cons] at hn ⊢; omega)
        (List.pairwise_cons.mpr ⟨fun r hr => by
          rw [rangeStart_makeRange]
          exact hs1 r (by simp [hr]), (List.pairwise_cons.mp hsorted').2⟩)
        (fun r hr => by
          rcases hcons r hr with rfl | hr
          · rw [rangeStart_makeRange, rangeEnd_makeRange]
            omega
          · exact hne r (by simp [hr]))
        (fun r hr => by
          rcases hcons r hr with rfl | hr
          · rw [rangeEnd_makeRange]
            omega
          · exact hlim r (by simp [hr])) rfl
      refine ⟨hcanon, fun x => ?_, ?_⟩
      · rw [hinside, List.any_cons, List.any_cons, List.any_cons, ← Bool.or_assoc]
        congr 1
        simp only [inRange, rangeStart_makeRange, rangeEnd_makeRange]
        grind
      · rw [hhead]
        simp [rangeStart_makeRange]

theorem rangesToIlist_spec {ranges} (hvalid : ∀ r ∈ ranges, r.valid = true) :
    Canonical (rangesToIlist ranges) ∧
      ∀ x, inside (rangesToIlist ranges) x = ranges.any (inRange x) := by
  have hlimit : ∀ r ∈ ranges, rangeEnd r ≤ charCodeLimit := by
    intro r hr
    have := hvalid r hr
    cases r <;> simp [Range.valid, rangeEnd] at this ⊢ <;> omega
  have hperm := List.mergeSort_perm ranges fun a b => !rangeLt b a
  have hsorted : (ranges.mergeSort fun a b => !rangeLt b a).Pairwise
      fun r1 r2 => rangeStart r1 ≤ rangeStart r2 := by
    refine (List.pairwise_mergeSort ?_ ?_ ranges).imp ?_
    · intro a b c h1 h2
      simp [rangeLt] at h1 h2 ⊢
      omega
    · intro a b
      simp [rangeLt]
      omega
    · intro a b h
      simp [rangeLt] at h
      omega
  obtain ⟨hcanon, hinside, -⟩ := normalizeLoop_spec
    
    (hsorted.filter fun r => rangeStart r < rangeEnd r)
    (fun r hr => by simpa using (List.mem_filter.mp hr).2)
    fun r hr => hlimit r (hperm.mem_iff.mp (List.mem_filter.mp hr).1)
  refine ⟨hcanon, fun x => (hinside x).trans ?_⟩
  rw [Bool.eq_iff_iff, List.any_eq_true, List.any_eq_true]
  constructor
  · rintro ⟨r, hr, hx⟩
    exact ⟨r, hperm.mem_iff.mp (List.mem_filter.mp hr).1, hx⟩
  · rintro ⟨r, hr, hx⟩
    refine ⟨r, List.mem_filter.mpr ⟨hperm.mem_iff.mpr hr, ?_⟩, hx⟩
    simp only [inRange, Bool.and_eq_true, decide_eq_true_eq] at hx ⊢
    omega

end MitScheme.Runtime.CharSets
