import MitScheme.Runtime.CharSetBytes

/-! # Character sets: folds and cursors

The two folds walk the parts in opposite directions and join the range that straddles the limit.
Each of them is the fold of one list of ranges, and that list has the members of the set. -/

namespace MitScheme.Runtime.CharSets
open Lib.InversionList

def places : List (Nat × Nat) → List Nat
  | [] => []
  | r :: rs => r.1 :: r.2 :: places rs

theorem places_append (rs1 rs2) : places (rs1 ++ rs2) = places rs1 ++ places rs2 := by
  induction rs1 with
  | nil => rfl
  | cons r rs1 ih => simp [places, ih]

theorem length_places (rs) : (places rs).length = 2 * rs.length := by
  induction rs with
  | nil => rfl
  | cons r rs ih =>
    simp only [places, List.length_cons, ih]
    omega

theorem Weak.exists_places {lo l} (h : Weak lo l) : ∃ rs, places rs = l := by
  fun_induction Weak lo l with
  | case1 lo s e l ih =>
    obtain ⟨rs, hrs⟩ := ih h.2.2.2
    exact ⟨(s, e) :: rs, by rw [places, hrs]⟩
  | case2 => exact ⟨[], rfl⟩
  | case3 => exact h.elim

theorem Weak.append {lo mid l1 l2} (h1 : Weak lo l1) (hle : ∀ a ∈ l1, a ≤ mid) (hlo : lo ≤ mid)
    (h2 : Weak mid l2) : Weak lo (l1 ++ l2) := by
  fun_induction Weak lo l1 with
  | case1 lo s e l ih =>
    obtain ⟨hs, he, hlim, hl⟩ := h1
    exact ⟨hs, he, hlim, ih hl (fun a ha => hle a (by simp [ha])) (hle e (by simp))⟩
  | case2 => exact h2.mono hlo
  | case3 => exact h1.elim

theorem pairwise_append_of_le {mid} {l1 l2 : List Nat} (h1 : l1.Pairwise (· < ·))
    (h2 : l2.Pairwise (· < ·)) (hle : ∀ a ∈ l1, a ≤ mid) (hlt : ∀ a ∈ l2, mid < a) :
    (l1 ++ l2).Pairwise (· < ·) :=
  List.pairwise_append.mpr ⟨h1, h2, fun a ha b hb => (hle a ha).trans_lt (hlt b hb)⟩

def visit {β : Type} (proc : Nat → Nat → β → β) (r : Nat × Nat) (value : β) : β :=
  proc r.1 r.2 value

section Loops

variable {cs : CharSet} {h : List Nat} (hcs : Holds cs h)
include hcs

theorem highRef_high (i) : highRef cs.high i = h.getD i 0 := by
  rw [hcs.high, highRef_flatMap hcs.weak.ordered.le_limit]

theorem highLimit_high : highLimit cs.high = h.length := by rw [hcs.high, highLimit_flatMap]

theorem highRef_middle (pre : List Nat) {a rest} (hh : h = pre ++ a :: rest) :
    highRef cs.high pre.length = a := by
  rw [highRef_high hcs, hh, List.getD_eq_getElem?_getD, List.getElem?_append_right le_rfl]
  simp

/-! ## Forwards -/

theorem highLoop_spec (pre rs : List (Nat × Nat)) (hh : h = places pre ++ places rs) {β : Type}
    (proc : Nat → Nat → β → β) (value : β) :
    highLoop proc cs (2 * pre.length) value = rs.foldl (fun v r => visit proc r v) value := by
  induction rs generalizing pre value with
  | nil =>
    rw [highLoop, highLimit_high hcs, hh]
    simp [places, length_places]
  | cons r rs ih =>
    have h0 : highRef cs.high (2 * pre.length) = r.1 := by
      rw [← length_places]
      exact highRef_middle hcs _ hh
    have h1 : highRef cs.high (2 * pre.length + 1) = r.2 := by
      have := highRef_middle hcs (a := r.2) (places pre ++ [r.1])
        (show h = (places pre ++ [r.1]) ++ r.2 :: places rs by rw [hh]; simp [places])
      rwa [List.length_append, length_places] at this
    rw [highLoop, highLimit_high hcs, if_pos, h0, h1,
      show 2 * pre.length + 2 = 2 * (pre ++ [r]).length by simp; omega]
    · exact ih (pre ++ [r]) (by rw [hh, places_append]; simp [places]) _
    · rw [hh, List.length_append, length_places, length_places, List.length_cons]
      omega

/-- The ranges that a forward loop still visits: from `i` on, those of the set. -/
def Remaining (mem : Nat → Bool) (i : Nat) (loop : ∀ {β : Type}, (Nat → Nat → β → β) → β → β) :
    Prop :=
  ∃ rs, Weak i (places rs) ∧ (∀ x, inside (places rs) x = mem x) ∧
    ∀ {β : Type} (proc : Nat → Nat → β → β) (value : β),
      loop proc value = rs.foldl (fun v r => visit proc r v) value

omit hcs in
theorem Remaining.cons {mem mem' : Nat → Bool} {i s e}
    {loop loop' : ∀ {β : Type}, (Nat → Nat → β → β) → β → β} (hr : Remaining mem i loop)
    (hse : s ≤ e) (hei : e ≤ i) (he : e ≤ charCodeLimit)
    (hmem : ∀ x, mem' x = xor (decide (s ≤ x ∧ x < e)) (mem x))
    (hloop : ∀ {β : Type} (proc : Nat → Nat → β → β) (value : β),
      loop' proc value = loop proc (proc s e value)) : Remaining mem' s loop' := by
  obtain ⟨rs, hweak, hinside, heq⟩ := hr
  refine ⟨(s, e) :: rs, ⟨le_rfl, hse, he, hweak.mono hei⟩, fun x => ?_, fun proc value => ?_⟩
  · rw [places, inside_range hse, hinside, hmem]
  · exact (hloop proc value).trans (heq proc _)

theorem highLoop_remaining :
    Remaining (fun x => inside h x) (lowLimit cs.low) fun proc => highLoop proc cs 0 := by
  obtain ⟨rs, hrs⟩ := hcs.weak.exists_places
  refine ⟨rs, hrs ▸ hcs.weak, fun x => by rw [hrs], fun proc value => ?_⟩
  exact highLoop_spec hcs [] rs hrs.symm proc value

theorem maybeSplice_remaining {i} (hi : i ≤ lowLimit cs.low)
    (hlim : lowLimit cs.low ≤ charCodeLimit) :
    Remaining (fun x => decide (i ≤ x ∧ x < lowLimit cs.low) || inside h x) i
      fun proc => maybeSplice proc cs i (lowLimit cs.low) := by
  have hbelow {x : Nat} (hx : x < lowLimit cs.low) : inside h x = false := hcs.weak.inside_lt hx
  by_cases hsplice : 0 < highLimit cs.high ∧ lowLimit cs.low = highRef cs.high 0
  · obtain ⟨rs, hrs⟩ := hcs.weak.exists_places
    rcases rs with _ | ⟨r, rs⟩
    · rw [highLimit_high hcs, ← hrs] at hsplice
      exact absurd hsplice.1 (by simp [places])
    · have h0 : highRef cs.high 0 = r.1 := highRef_middle hcs [] hrs.symm
      have h1 : highRef cs.high 1 = r.2 := highRef_middle hcs [r.1] hrs.symm
      have hweak := hcs.weak
      rw [← hrs] at hweak
      obtain ⟨-, hr, hrlim, hrest⟩ := hweak
      have hlow : lowLimit cs.low = r.1 := hsplice.2.trans h0
      refine ⟨(i, r.2) :: rs, ⟨le_rfl, by omega, hrlim, hrest⟩, fun x => ?_, fun proc value => ?_⟩
      · rw [← hrs, places, inside_range (by omega : i ≤ r.2), hlow]
        show _ = (_ || inside (r.1 :: r.2 :: places rs) x)
        rw [inside_range hr]
        by_cases hx : x < r.2
        · rw [hrest.inside_lt hx]
          grind
        · grind
      · show maybeSplice proc cs i (lowLimit cs.low) value = _
        rw [maybeSplice, if_pos hsplice, h1]
        exact highLoop_spec hcs [r] rs (by rw [← hrs]; rfl) proc _
  · refine (highLoop_remaining hcs).cons hi le_rfl hlim (fun x => ?_) fun proc value => ?_
    · by_cases hx : x < lowLimit cs.low
      · rw [hbelow hx]
        simp
      · simp [hx]
    · rw [maybeSplice, if_neg hsplice]

theorem lowLoops_remaining (n) :
    (∀ i ≤ lowLimit cs.low, lowLimit cs.low - i = n →
      Remaining (fun x => decide (i ≤ x) && member cs h x) i fun proc => lowStart proc cs i) ∧
    ∀ i j, i < j → j ≤ lowLimit cs.low → lowLimit cs.low - j = n → j ≤ charCodeLimit →
      Remaining (fun x => decide (i ≤ x ∧ x < j) || (decide (j ≤ x) && member cs h x)) i
        fun proc => lowEnd proc cs i j := by
  induction n using Nat.strong_induction_on with
  | _ n ih =>
  have hmem {x : Nat} (hx : x < lowLimit cs.low) : member cs h x = lowRef cs.low x := by
    rw [member, if_pos hx]
  have hmem' {x : Nat} (hx : lowLimit cs.low ≤ x) : member cs h x = inside h x := by
    rw [member, if_neg (not_lt.mpr hx)]
  have hnext {i x : Nat} (hx : x ≠ i) : decide (i + 1 ≤ x) = decide (i ≤ x) :=
    decide_eq_decide.mpr (by omega)
  constructor
  · intro i hle hn
    by_cases hi : i < lowLimit cs.low
    · cases hbit : lowRef cs.low i with
      | true =>
        obtain ⟨rs, hweak, hinside, heq⟩ := (ih _ (by omega)).2 i (i + 1) (by omega) hi rfl
          (hcs.code i hbit)
        refine ⟨rs, hweak, fun x => ?_, fun proc value => ?_⟩
        · rw [hinside]
          beta_reduce
          by_cases hx : x = i
          · subst hx
            rw [hmem hi, hbit]
            simp
          · rw [hnext hx, decide_eq_false (by omega), Bool.false_or]
        · beta_reduce
          rw [lowStart, if_pos hi, if_pos hbit]
          exact heq proc value
      | false =>
        obtain ⟨rs, hweak, hinside, heq⟩ := (ih _ (by omega)).1 (i + 1) hi rfl
        refine ⟨rs, hweak.mono (by omega), fun x => ?_, fun proc value => ?_⟩
        · rw [hinside]
          beta_reduce
          by_cases hx : x = i
          · subst hx
            rw [hmem hi, hbit]
            simp
          · rw [hnext hx]
        · beta_reduce
          rw [lowStart, if_pos hi, if_neg (by simp [hbit])]
          exact heq proc value
    · obtain rfl : i = lowLimit cs.low := by omega
      obtain ⟨rs, hweak, hinside, heq⟩ := highLoop_remaining hcs
      refine ⟨rs, hweak, fun x => ?_, fun proc value => ?_⟩
      · rw [hinside]
        beta_reduce
        by_cases hx : x < lowLimit cs.low
        · rw [hcs.weak.inside_lt hx]
          simp [hx]
        · rw [hmem' (not_lt.mp hx)]
          simp [not_lt.mp hx]
      · beta_reduce
        rw [lowStart, if_neg (lt_irrefl _)]
        exact heq proc value
  · intro i j hij hj hn hlim
    by_cases hlt : j < lowLimit cs.low
    · cases hbit : lowRef cs.low j with
      | true =>
        obtain ⟨rs, hweak, hinside, heq⟩ := (ih _ (by omega)).2 i (j + 1) (by omega) hlt rfl
          (hcs.code j hbit)
        refine ⟨rs, hweak, fun x => ?_, fun proc value => ?_⟩
        · rw [hinside]
          beta_reduce
          by_cases hx : x = j
          · subst hx
            rw [hmem hlt, hbit]
            grind
          · have hbelow : i ≤ x ∧ x < j + 1 ↔ i ≤ x ∧ x < j := by omega
            rw [hnext hx, decide_eq_decide.mpr hbelow]
        · beta_reduce
          rw [lowEnd, if_pos hlt, if_pos hbit]
          exact heq proc value
      | false =>
        refine ((ih _ (by omega)).1 (j + 1) hlt rfl).cons hij.le (by omega) hlim (fun x => ?_)
          fun proc value => ?_
        · by_cases hx : x = j
          · subst hx
            rw [hmem hlt, hbit]
            grind
          · rw [hnext hx]
            by_cases hxj : x < j <;> simp [hxj, not_le.mpr, not_lt.mp]
        · rw [lowEnd, if_pos hlt, if_neg (by simp [hbit])]
    · obtain rfl : j = lowLimit cs.low := by omega
      obtain ⟨rs, hweak, hinside, heq⟩ := maybeSplice_remaining hcs hij.le hlim
      refine ⟨rs, hweak, fun x => ?_, fun proc value => ?_⟩
      · rw [hinside]
        beta_reduce
        by_cases hx : x < lowLimit cs.low
        · rw [hcs.weak.inside_lt hx]
          simp [hx]
        · rw [hmem' (not_lt.mp hx)]
          simp [not_lt.mp hx, hx]
      · beta_reduce
        rw [lowEnd, if_neg (lt_irrefl _)]
        exact heq proc value

theorem charSetRangeFold_spec : ∃ rs, Weak 0 (places rs) ∧
    (∀ x, inside (places rs) x = member cs h x) ∧
    ∀ {β : Type} (proc : Nat → Nat → β → β) (init : β),
      charSetRangeFold proc cs init = rs.foldl (fun v r => visit proc r v) init := by
  obtain ⟨rs, hweak, hinside, heq⟩ := (lowLoops_remaining hcs _).1 0 (Nat.zero_le _) rfl
  exact ⟨rs, hweak, fun x => (hinside x).trans (by simp), fun proc init => heq proc init⟩

/-! ## Backwards -/

/-- The ranges that a backward loop still visits; `strict` tells when no two of them touch. -/
def Earlier (mem : Nat → Bool) (bound : Nat) (strict : Prop)
    (loop : ∀ {β : Type}, (Nat → Nat → β → β) → β → β) : Prop :=
  ∃ rs, Weak 0 (places rs) ∧ (∀ a ∈ places rs, a ≤ bound) ∧ (∀ x, inside (places rs) x = mem x) ∧
    (strict → (places rs).Pairwise (· < ·)) ∧
    ∀ {β : Type} (proc : Nat → Nat → β → β) (value : β),
      loop proc value = rs.foldr (visit proc) value

omit hcs in
theorem Earlier.snoc {mem mem' : Nat → Bool} {bound s} {strict strict' : Prop}
    {loop loop' : ∀ {β : Type}, (Nat → Nat → β → β) → β → β} (hr : Earlier mem bound strict loop)
    {rs' : List (Nat × Nat)} {e} (hbs : bound ≤ s) (hweak' : Weak s (places rs'))
    (hle' : ∀ a ∈ places rs', a ≤ e) (he : bound ≤ e)
    (hmem : ∀ x, mem' x = xor (mem x) (inside (places rs') x))
    (hstrict : strict' → strict ∧ (∀ a ∈ places rs', bound < a) ∧ (places rs').Pairwise (· < ·))
    (hloop : ∀ {β : Type} (proc : Nat → Nat → β → β) (value : β),
      loop' proc value = loop proc (rs'.foldr (visit proc) value)) :
    Earlier mem' e strict' loop' := by
  obtain ⟨rs, hweak, hle, hinside, hpw, heq⟩ := hr
  refine ⟨rs ++ rs', ?_, ?_, fun x => ?_, fun h => ?_, fun proc value => ?_⟩
  · rw [places_append]
    exact hweak.append (fun a ha => (hle a ha).trans hbs) (Nat.zero_le _) hweak'
  · intro a ha
    rw [places_append] at ha
    rcases List.mem_append.mp ha with ha | ha
    · exact (hle a ha).trans he
    · exact hle' a ha
  · rw [places_append, inside_append, hinside, hmem]
  · obtain ⟨h1, h2, h3⟩ := hstrict h
    rw [places_append]
    exact pairwise_append_of_le (hpw h1) h3 hle h2
  · rw [List.foldr_append]
    exact (hloop proc value).trans (heq proc _)

theorem rightLowLoops_earlier (n) :
    Earlier (fun x => decide (x < n) && lowRef cs.low x) n True
      (fun proc => rightLowEnd proc cs n) ∧
    ∀ e, n ≤ e → e ≤ charCodeLimit →
      Earlier (fun x => (decide (x < n) && lowRef cs.low x) || decide (n ≤ x ∧ x < e)) e (n < e)
        fun proc => rightLowStart proc cs n e := by
  induction n with
  | zero =>
    constructor
    · refine ⟨[], trivial, by simp [places], fun x => by simp [places], fun _ => List.Pairwise.nil,
        fun proc value => ?_⟩
      beta_reduce
      rw [rightLowEnd]
      rfl
    · intro e he hlim
      refine ⟨[(0, e)], ⟨le_rfl, he, hlim, trivial⟩, by simp [places], fun x => ?_,
        fun h => by simpa [places] using h, fun proc value => ?_⟩
      · rw [places, inside_range he]
        simp [places]
      · beta_reduce
        rw [rightLowStart]
        rfl
  | succ n ih =>
    obtain ⟨ihEnd, ihStart⟩ := ih
    have hrange {e : Nat} (he : n + 1 ≤ e) (hlim : e ≤ charCodeLimit)
        (hbit : lowRef cs.low n = false) :
        Earlier (fun x => (decide (x < n + 1) && lowRef cs.low x) || decide (n + 1 ≤ x ∧ x < e)) e
          (n + 1 < e) fun proc value => rightLowEnd proc cs n (proc (n + 1) e value) := by
      refine ihEnd.snoc (s := n + 1) (by omega)
        (show Weak (n + 1) (places [(n + 1, e)]) from ⟨le_rfl, he, hlim, trivial⟩) ?_
        (by omega) (fun x => ?_) (fun h => ?_) fun proc value => rfl
      · simpa [places] using he
      · rw [places, inside_range he]
        by_cases hx : x = n
        · subst hx
          simp [hbit, places]
        · simp only [places, inside_nil, Bool.xor_false]
          grind
      · simpa [places] using ⟨he, h⟩
    cases hbit : lowRef cs.low n with
    | true =>
      constructor
      · obtain ⟨rs, hweak, hle, hinside, hpw, heq⟩ :=
          ihStart (n + 1) (Nat.le_succ n) (hcs.code n hbit)
        refine ⟨rs, hweak, hle, fun x => ?_, fun _ => hpw (Nat.lt_succ_self n),
          fun proc value => ?_⟩
        · rw [hinside]
          beta_reduce
          by_cases hx : x = n
          · subst hx
            simp [hbit]
          · grind
        · beta_reduce
          rw [rightLowEnd, if_pos hbit]
          exact heq proc value
      · intro e he hlim
        obtain ⟨rs, hweak, hle, hinside, hpw, heq⟩ := ihStart e (by omega) hlim
        refine ⟨rs, hweak, hle, fun x => ?_, fun _ => hpw (by omega), fun proc value => ?_⟩
        · rw [hinside]
          beta_reduce
          by_cases hx : x = n
          · subst hx
            simp [hbit]
            omega
          · grind
        · beta_reduce
          rw [rightLowStart, if_pos hbit]
          exact heq proc value
    | false =>
      constructor
      · obtain ⟨rs, hweak, hle, hinside, hpw, heq⟩ := ihEnd
        refine ⟨rs, hweak, fun a ha => (hle a ha).trans (Nat.le_succ n), fun x => ?_, hpw,
          fun proc value => ?_⟩
        · rw [hinside]
          beta_reduce
          by_cases hx : x = n
          · subst hx
            simp [hbit]
          · grind
        · beta_reduce
          rw [rightLowEnd, if_neg (by simp [hbit])]
          exact heq proc value
      · intro e he hlim
        obtain ⟨rs, hweak, hle, hinside, hpw, heq⟩ := hrange he hlim hbit
        refine ⟨rs, hweak, hle, hinside, hpw, fun proc value => ?_⟩
        beta_reduce
        rw [rightLowStart, if_neg (by simp [hbit])]
        exact heq proc value

theorem rightHighLoop_spec {r0} (rs rs' : List (Nat × Nat)) (hh : h = places (r0 :: rs ++ rs'))
    {β : Type} (proc : Nat → Nat → β → β) (value : β) :
    rightHighLoop proc cs (2 * rs.length) value =
      rightMaybeSplice proc cs r0.1 r0.2 (rs.foldr (visit proc) value) := by
  induction rs using List.reverseRecOn generalizing rs' value with
  | nil =>
    have h0 : highRef cs.high 0 = r0.1 := highRef_middle hcs [] hh
    have h1 : highRef cs.high 1 = r0.2 := highRef_middle hcs [r0.1] hh
    rw [rightHighLoop, if_neg (by simp), h0, h1]
    rfl
  | append_singleton rs r ih =>
    have hlen : 2 * (rs ++ [r]).length = 2 * (r0 :: rs).length := by simp
    have hpre : h = places (r0 :: rs) ++ r.1 :: r.2 :: places rs' := by
      rw [hh, ← places, ← places_append]
      simp
    have h0 : highRef cs.high (2 * (rs ++ [r]).length) = r.1 := by
      rw [hlen, ← length_places]
      exact highRef_middle hcs _ hpre
    have h1 : highRef cs.high (2 * (rs ++ [r]).length + 1) = r.2 := by
      have := highRef_middle hcs (a := r.2) (places (r0 :: rs) ++ [r.1])
        (show h = (places (r0 :: rs) ++ [r.1]) ++ r.2 :: places rs' by rw [hpre]; simp)
      rwa [List.length_append, length_places, ← hlen] at this
    rw [rightHighLoop, if_pos (by simp), h0, h1,
      show 2 * (rs ++ [r]).length - 2 = 2 * rs.length by simp; omega,
      ih (r :: rs') (by rw [hh]; simp), List.foldr_append]
    rfl

theorem charSetRangeFoldRight_spec : ∃ rs, Weak 0 (places rs) ∧
    (∀ x, inside (places rs) x = member cs h x) ∧
    (h.Pairwise (· < ·) → (places rs).Pairwise (· < ·)) ∧
    ∀ {β : Type} (proc : Nat → Nat → β → β) (init : β),
      charSetRangeFoldRight proc cs init = rs.foldr (visit proc) init := by
  have hmem (x : Nat) : member cs h x = ((decide (x < lowLimit cs.low) && lowRef cs.low x) ||
      (inside h x)) := by
    rw [member]
    by_cases hx : x < lowLimit cs.low
    · rw [if_pos hx, hcs.weak.inside_lt hx]
      simp [hx]
    · simp [hx]
  have hbound : ∀ a ∈ h, a ≤ charCodeLimit + lowLimit cs.low := fun a ha =>
    (hcs.weak.ordered.le_limit a ha).trans (Nat.le_add_right _ _)
  obtain ⟨hend, hstart⟩ := rightLowLoops_earlier hcs (lowLimit cs.low)
  obtain ⟨rs0, hrs0⟩ := hcs.weak.exists_places
  -- what the low part, the splice and the other ranges of the high part come to
  have hall : Earlier (member cs h) (charCodeLimit + lowLimit cs.low) (h.Pairwise (· < ·))
      fun proc => charSetRangeFoldRight proc cs := by
    rcases rs0 with _ | ⟨r0, rs⟩
    · obtain rfl : h = [] := hrs0.symm
      obtain ⟨rs, hweak, hle, hinside, hpw, heq⟩ := hend
      refine ⟨rs, hweak, fun a ha => (hle a ha).trans (by omega), fun x => ?_, fun _ => hpw trivial,
        fun proc init => ?_⟩
      · rw [hinside, hmem]
        simp
      · beta_reduce
        rw [charSetRangeFoldRight, highLimit_high hcs, if_neg (by simp)]
        exact heq proc init
    · have hfold {β : Type} (proc : Nat → Nat → β → β) (init : β) :
          charSetRangeFoldRight proc cs init =
            rightMaybeSplice proc cs r0.1 r0.2 (rs.foldr (visit proc) init) := by
        rw [charSetRangeFoldRight, highLimit_high hcs, ← hrs0, length_places,
          if_pos (by simp only [List.length_cons]; omega),
          show 2 * (r0 :: rs).length - 2 = 2 * rs.length by simp; omega]
        exact rightHighLoop_spec hcs rs [] (by rw [← hrs0]; simp) proc init
      have hweak := hcs.weak
      rw [← hrs0] at hweak
      obtain ⟨hlow, hr0, hlim0, hrest⟩ := hweak
      have hinside (x : Nat) :
          inside h x = xor (decide (r0.1 ≤ x ∧ x < r0.2)) (inside (places rs) x) := by
        rw [← hrs0]
        exact inside_range hr0
      have hle : ∀ a ∈ places rs, a ≤ charCodeLimit + lowLimit cs.low := fun a ha =>
        hbound a (by rw [← hrs0]; exact List.mem_cons_of_mem _ (List.mem_cons_of_mem _ ha))
      by_cases hsplice : r0.1 = lowLimit cs.low
      · -- the first range of the high part continues the low part
        refine (hstart r0.2 (by omega) hlim0).snoc le_rfl hrest hle (by omega)
          (fun x => ?_) (fun hpw => ?_) fun proc init => ?_
        · rw [hmem, hinside, hsplice]
          by_cases hx : x < r0.2
          · rw [hrest.inside_lt hx]
            grind
          · have : ¬ x < lowLimit cs.low := by omega
            simp [hx, this]
        · rw [← hrs0] at hpw
          obtain ⟨h1, h2⟩ := List.pairwise_cons.mp hpw
          obtain ⟨h3, h4⟩ := List.pairwise_cons.mp h2
          have := h1 r0.2 (by simp)
          exact ⟨by omega, h3, h4⟩
        · rw [hfold, rightMaybeSplice, if_pos hsplice]
      · refine hend.snoc (e := charCodeLimit + lowLimit cs.low) hlow
          (show Weak r0.1 (places (r0 :: rs)) from ⟨le_rfl, hr0, hlim0, hrest⟩)
          (by rw [hrs0]; exact hbound) (by omega) (fun x => ?_)
          (fun hpw => ⟨trivial, fun a ha => ?_, hrs0 ▸ hpw⟩) fun proc init => ?_
        · rw [hmem, hrs0]
          by_cases hx : x < lowLimit cs.low
          · rw [hcs.weak.inside_lt hx]
            simp
          · simp [hx]
        · rcases List.mem_cons.mp ha with rfl | ha
          · omega
          rcases List.mem_cons.mp ha with rfl | ha
          · omega
          · have := (hrest.le_of_mem ha).1
            omega
        · rw [hfold, rightMaybeSplice, if_neg hsplice]
          rfl
  obtain ⟨rs, hweak, -, hinside, hpw, heq⟩ := hall
  exact ⟨rs, hweak, hinside, hpw, fun proc init => heq proc init⟩

end Loops

end MitScheme.Runtime.CharSets
