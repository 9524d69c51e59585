import MitScheme.Runtime.CharSetIlist

/-! # Character sets: the two byte vectors

The bit vector answers for the code points below its limit, the packed list for the others. Both
are read back from what `ilist->char-set` writes. -/

namespace MitScheme.Runtime.CharSets
open Lib.InversionList

/-! ## The bit vector -/

theorem testBit_eq {x : Byte} {k} (hk : k < 8) : (x &&& (1 <<< k) != 0) = x.getLsbD k := by
  rw [show (1 <<< k : Byte) = BitVec.twoPow 8 k from rfl, BitVec.and_twoPow]
  have hne : BitVec.twoPow 8 k ≠ 0 := by
    intro h
    have := congrArg (BitVec.getLsbD · k) h
    simp [hk] at this
  cases x.getLsbD k with
  | false => rfl
  | true => simpa using hne

variable {low : List Byte} {l h : List Nat}

theorem lowRef_eq {cp} : lowRef low cp = (low.getD (cp / 8) 0).getLsbD (cp % 8) := by
  rw [lowRef, testBit_eq (Nat.mod_lt _ (by decide)), Nat.shiftRight_eq_div_pow]

theorem lowLimit_eq : lowLimit low = low.length * 8 := by
  rw [lowLimit, Nat.shiftLeft_eq]

theorem lowRef_ge {cp} (h : lowLimit low ≤ cp) : lowRef low cp = false := by
  rw [lowLimit_eq] at h
  rw [lowRef_eq, List.getD_eq_getElem?_getD, List.getElem?_eq_none (by omega)]
  simp

@[simp] theorem lowLimit_lowSet {cp} :
    lowLimit (lowSet low cp) = lowLimit low := by simp [lowLimit, lowSet]

theorem lowRef_lowSet {cp x} (h : cp < lowLimit low) :
    lowRef (lowSet low cp) x = (lowRef low x || decide (x = cp)) := by
  rw [lowLimit_eq] at h
  rw [lowRef_eq, lowRef_eq, lowSet, Nat.shiftRight_eq_div_pow, List.getD_eq_getElem?_getD,
    List.getD_eq_getElem?_getD, List.getD_eq_getElem?_getD, List.getElem?_set]
  by_cases hbyte : cp / 8 = x / 8
  · rw [if_pos hbyte, if_pos (by omega), Option.getD_some, BitVec.getLsbD_or, ← hbyte,
      show (1 <<< (cp % 8) : Byte) = BitVec.twoPow 8 (cp % 8) from rfl, BitVec.getLsbD_twoPow]
    congr 1
    have : x = cp ↔ cp % 8 = x % 8 := by omega
    simp only [this, Nat.mod_lt _ (by decide : 0 < 8), decide_true, Bool.true_and]
  · rw [if_neg hbyte]
    have : x ≠ cp := by
      rintro rfl
      exact hbyte rfl
    simp [this]

theorem setRange_spec {i n} (h : i + n ≤ lowLimit low) :
    lowLimit (setRange low i n) = lowLimit low ∧
      ∀ x, lowRef (setRange low i n) x = (lowRef low x || decide (i ≤ x ∧ x < i + n)) := by
  induction n generalizing low i with
  | zero =>
    exact ⟨rfl, fun x => by simp [setRange]⟩
  | succ n ih =>
    rw [setRange]
    have hroom : i + 1 + n ≤ lowLimit (lowSet low i) := by
      rw [lowLimit_lowSet]
      omega
    obtain ⟨hlim, href⟩ := ih hroom
    refine ⟨hlim.trans lowLimit_lowSet, fun x => ?_⟩
    rw [href, lowRef_lowSet (by omega), Bool.or_assoc]
    congr 1
    grind

theorem lowLoop_spec {lo limit} (hl : Weak lo l) (hlow : lowLimit low = limit) :
    lowLimit (lowLoop limit l low) = limit ∧ ∀ x < limit,
      lowRef (lowLoop limit l low) x = (lowRef low x || inside l x) := by
  fun_induction lowLoop limit l low generalizing lo with
  | case1 s e l low he ih =>
    obtain ⟨h1, h2, h3, h4⟩ := hl
    have hroom : s + (e - s) ≤ lowLimit low := by omega
    obtain ⟨hlim, href⟩ := setRange_spec hroom
    obtain ⟨hlim', href'⟩ := ih h4 (hlim.trans hlow)
    refine ⟨hlim', fun x hx => ?_⟩
    rw [href' x hx, href, inside_range h2, Bool.or_assoc]
    congr 1
    rw [show s + (e - s) = e by omega]
    by_cases hxe : x < e
    · rw [h4.inside_lt hxe]
      simp
    · simp [hxe]
  | case2 s e l low he hs =>
    obtain ⟨h1, h2, h3, h4⟩ := hl
    have hroom : s + (limit - s) ≤ lowLimit low := by omega
    obtain ⟨hlim, href⟩ := setRange_spec hroom
    refine ⟨hlim.trans hlow, fun x hx => ?_⟩
    rw [href, inside_range h2, h4.inside_lt (by omega)]
    congr 1
    have : x < s + (limit - s) := by omega
    have : x < e := by omega
    simp [*]
  | case3 s e l low he hs =>
    obtain ⟨h1, h2, h3, h4⟩ := hl
    refine ⟨hlow, fun x hx => ?_⟩
    rw [inside_range h2, h4.inside_lt (by omega)]
    have : ¬ s ≤ x := by omega
    simp [this]
  | case4 l low hne =>
    refine ⟨hlow, fun x _ => ?_⟩
    have hnil : l = [] := by
      rcases l with _ | ⟨s, _ | ⟨e, l⟩⟩
      · rfl
      · exact hl.elim
      · exact (hne s e l rfl).elim
    rw [hnil]
    simp

theorem lowRef_makeLow {limit x} : lowRef (makeLow limit) x = false := by
  rw [lowRef_eq, makeLow, List.getD_eq_getElem?_getD, List.getElem?_replicate]
  split <;> simp

/-! ## The packed list -/

theorem highLimit_flatMap (l : List Nat) : highLimit (l.flatMap highBytes) = l.length := by
  rw [highLimit]
  have : (l.flatMap highBytes).length = l.length * 3 := by
    induction l with
    | nil => rfl
    | cons a l ih => simp [highBytes, ih]; omega
  omega

theorem highRef_eq (high : List Byte) (index : Nat) : highRef high index =
    (high.getD (index * 3) 0).toNat + ((high.getD (index * 3 + 1) 0).toNat <<< 8 +
      (high.getD (index * 3 + 2) 0).toNat <<< 16) := by
  delta highRef
  dsimp only

theorem highRef_zero (b0 b1 b2 : Byte) (rest : List Byte) :
    highRef (b0 :: b1 :: b2 :: rest) 0 = b0.toNat + (b1.toNat <<< 8 + b2.toNat <<< 16) := by
  rw [highRef_eq, Nat.zero_mul, List.getD_cons_zero]
  rfl

theorem highRef_succ (b0 b1 b2 : Byte) (rest : List Byte) (i : Nat) :
    highRef (b0 :: b1 :: b2 :: rest) (i + 1) = highRef rest i := by
  rw [highRef_eq, highRef_eq, show (i + 1) * 3 = i * 3 + 1 + 1 + 1 by omega]
  rfl

theorem highRef_flatMap (hl : ∀ a ∈ l, a ≤ charCodeLimit) (i : Nat) :
    highRef (l.flatMap highBytes) i = l.getD i 0 := by
  induction l generalizing i with
  | nil =>
    rw [highRef_eq, List.flatMap_nil, List.getD_nil, List.getD_nil, List.getD_nil, List.getD_nil]
    rfl
  | cons a l ih =>
    have hcons : (a :: l).flatMap highBytes = BitVec.ofNat 8 a :: BitVec.ofNat 8 (a >>> 8) ::
        BitVec.ofNat 8 (a >>> 16) :: l.flatMap highBytes := rfl
    rw [hcons]
    cases i with
    | zero =>
      have ha : a ≤ 0x110000 := hl a List.mem_cons_self
      rw [highRef_zero, List.getD_cons_zero, BitVec.toNat_ofNat, BitVec.toNat_ofNat,
        BitVec.toNat_ofNat, Nat.shiftRight_eq_div_pow, Nat.shiftRight_eq_div_pow, Nat.shiftLeft_eq,
        Nat.shiftLeft_eq]
      omega
    | succ i =>
      rw [highRef_succ, List.getD_cons_succ]
      exact ih (fun b hb => hl b (List.mem_cons_of_mem _ hb)) i

theorem skipLow_spec {lo limit} (hl : Weak lo l) :
    Weak limit (skipLow limit l) ∧
      (∀ x, limit ≤ x → inside (skipLow limit l) x = inside l x) ∧
      (l.Pairwise (· < ·) → (skipLow limit l).Pairwise (· < ·)) := by
  fun_induction skipLow limit l generalizing lo with
  | case1 s e l he ih =>
    obtain ⟨h1, h2, h3, h4⟩ := hl
    obtain ⟨hweak, hinside, hstrict⟩ := ih h4
    refine ⟨hweak, fun x hx => ?_, fun h =>
      hstrict (List.pairwise_cons.mp (List.pairwise_cons.mp h).2).2⟩
    rw [hinside x hx, inside_range h2]
    have : ¬ x < e := by omega
    simp [this]
  | case2 s e l he hs =>
    obtain ⟨h1, h2, h3, h4⟩ := hl
    refine ⟨⟨le_rfl, by omega, h3, h4⟩, fun x hx => ?_, fun h => ?_⟩
    · rw [inside_range (by omega : limit ≤ e), inside_range h2]
      have : s ≤ x := by omega
      simp [*]
    · have he' := (List.pairwise_cons.mp h).2
      refine List.pairwise_cons.mpr ⟨fun a ha => ?_, he'⟩
      rcases List.mem_cons.mp ha with rfl | ha
      · omega
      · have := (List.pairwise_cons.mp he').1 a ha
        omega
  | case3 s e l he hs =>
    obtain ⟨h1, h2, h3, h4⟩ := hl
    exact ⟨⟨by omega, h2, h3, h4⟩, fun x _ => rfl, id⟩
  | case4 l hne =>
    have hnil : l = [] := by
      rcases l with _ | ⟨s, _ | ⟨e, l⟩⟩
      · rfl
      · exact hl.elim
      · exact (hne s e l rfl).elim
    rw [hnil]
    exact ⟨trivial, fun _ _ => rfl, id⟩

/-! ## Character sets that hold ranges -/

/-- The high part is a packed list `h` of ranges that start at or after the limit of the low
part, and no bit stands for more than a code point. -/
structure Holds (cs : CharSet) (h : List Nat) : Prop where
  high : cs.high = h.flatMap highBytes
  weak : Weak (lowLimit cs.low) h
  code : ∀ cp, lowRef cs.low cp = true → cp < charCodeLimit

def member (cs : CharSet) (h : List Nat) (cp : Nat) : Bool :=
  if cp < lowLimit cs.low then lowRef cs.low cp else inside h cp

theorem chooseLoop_mod {ilist lowBytes best bestTotal hpos} :
    chooseLoop ilist lowBytes best bestTotal hpos % 8 = 0 := by
  fun_induction chooseLoop ilist lowBytes best bestTotal hpos with
  | case1 lowBytes best bestTotal hpos hlt total hbetter ih => exact ih
  | case2 lowBytes best bestTotal hpos hlt total hbetter ih => exact ih
  | case3 lowBytes best bestTotal hpos hlt => omega

theorem lowLimit_makeLow : lowLimit (makeLow (chooseLowLimit l)) = chooseLowLimit l := by
  have : chooseLowLimit l % 8 = 0 := chooseLoop_mod
  rw [lowLimit_eq, makeLow, List.length_replicate]
  omega

theorem lowLimit_ilistToCharSet {lo} (hl : Weak lo l) :
    lowLimit (ilistToCharSet l).low = chooseLowLimit l := (lowLoop_spec hl lowLimit_makeLow).1

theorem ilistToCharSet_spec {lo} (hl : Weak lo l) :
    ∃ h, Holds (ilistToCharSet l) h ∧ (∀ x, member (ilistToCharSet l) h x = inside l x) ∧
      (l.Pairwise (· < ·) → h.Pairwise (· < ·)) := by
  have hlim := lowLimit_ilistToCharSet hl
  have href := (lowLoop_spec hl (lowLimit_makeLow (l := l))).2
  obtain ⟨hweak, hinside, hstrict⟩ := skipLow_spec hl
  have hmember : ∀ x, member (ilistToCharSet l) (skipLow (chooseLowLimit l) l) x = inside l x := by
    intro x
    rw [member, hlim]
    by_cases hx : x < chooseLowLimit l
    · rw [if_pos hx]
      exact (href x hx).trans (by rw [lowRef_makeLow, Bool.false_or])
    · rw [if_neg hx, hinside x (not_lt.mp hx)]
  refine ⟨skipLow (chooseLowLimit l) l, ⟨rfl, ?_, fun cp hcp => ?_⟩, hmember, hstrict⟩
  · rw [hlim]
    exact hweak
  · have hlt : cp < lowLimit (ilistToCharSet l).low := by
      by_contra hge
      rw [lowRef_ge (not_lt.mp hge)] at hcp
      cases hcp
    have := hmember cp
    rw [member, if_pos hlt, hcp] at this
    exact hl.inside_lt_limit this.symm

/-! ## The binary search -/

theorem search_split {cp k} (hk : k ≤ h.length) (hbefore : ∀ j < k, h.getD j 0 ≤ cp)
    (hafter : ∀ j, k ≤ j → j < h.length → cp < h.getD j 0) : inside h cp = decide (k % 2 = 1) := by
  rw [← List.take_append_drop k h, inside_append]
  have h1 : inside (h.take k) cp = decide (k % 2 = 1) := by
    rw [inside_of_all_le, List.length_take, Nat.min_eq_left hk]
    intro a ha
    obtain ⟨j, hj, rfl⟩ := List.mem_iff_getElem.mp ha
    rw [List.length_take] at hj
    have := hbefore j (by omega)
    rw [List.getD_eq_getElem?_getD, List.getElem?_eq_getElem (by omega)] at this
    rw [List.getElem_take]
    exact this
  have h2 : inside (h.drop k) cp = false := by
    refine inside_eq_false fun a ha => ?_
    obtain ⟨j, hj, rfl⟩ := List.mem_iff_getElem.mp ha
    rw [List.length_drop] at hj
    have := hafter (k + j) (by omega) (by omega)
    rw [List.getD_eq_getElem?_getD, List.getElem?_eq_getElem (by omega)] at this
    rw [List.getElem_drop]
    exact this
  rw [h1, h2, Bool.xor_false]

theorem searchLoop_spec (hord : Ordered h) {cp lower upper} (hlower : lower % 2 = 0)
    (hupper : upper % 2 = 0) (hle : lower ≤ upper) (hlen : upper ≤ h.length)
    (hbefore : ∀ j < lower, h.getD j 0 ≤ cp)
    (hafter : ∀ j, upper ≤ j → j < h.length → cp < h.getD j 0) :
    searchLoop (h.flatMap highBytes) cp lower upper = inside h cp := by
  have hmono {i j : Nat} (hij : i ≤ j) (hj : j < h.length) : h.getD i 0 ≤ h.getD j 0 := by
    rw [List.getD_eq_getElem?_getD, List.getD_eq_getElem?_getD, List.getElem?_eq_getElem hj,
      List.getElem?_eq_getElem (hij.trans_lt hj)]
    rcases hij.lt_or_eq with hlt | rfl
    · exact List.pairwise_iff_getElem.mp hord.nondecreasing i j _ hj hlt
    · exact le_rfl
  induction hn : upper - lower using Nat.strong_induction_on generalizing lower upper with
  | _ n ih =>
  rw [searchLoop]
  by_cases hlt : lower < upper
  · rw [if_pos hlt]
    simp only [highRef_flatMap hord.le_limit]
    generalize hi : 2 * ((lower + upper) / 4) = i
    have hieven : i % 2 = 0 := by omega
    have hiupper : i < upper := by omega
    have hilower : lower ≤ i := by omega
    by_cases h1 : cp < h.getD i 0
    · rw [if_pos h1]
      exact ih _ (by omega) hlower hieven hilower (by omega) hbefore
        (fun j hj hjlen => h1.trans_le (hmono hj hjlen)) rfl
    · rw [if_neg h1]
      by_cases h2 : h.getD (i + 1) 0 ≤ cp
      · rw [if_pos h2]
        refine ih _ (by omega) (by omega) hupper (by omega) hlen (fun j hj => ?_) hafter rfl
        exact (hmono (by omega) (by omega)).trans h2
      · rw [if_neg h2, search_split (k := i + 1) (by omega)
          (fun j hj => (hmono (by omega) (by omega)).trans (not_lt.mp h1))
          fun j hj hjlen => (not_le.mp h2).trans_le (hmono hj hjlen)]
        exact (decide_eq_true (by omega)).symm
  · rw [if_neg hlt, search_split (k := lower) (by omega) hbefore
      fun j hj hjlen => hafter j (by omega) hjlen]
    exact (decide_eq_false (by omega)).symm

theorem codePointInCharSet_eq {cs} (hcs : Holds cs h) (cp : Nat) :
    codePointInCharSet cp cs = member cs h cp := by
  rw [codePointInCharSet, member, hcs.high, highLimit_flatMap,
    searchLoop_spec hcs.weak.ordered rfl hcs.weak.even (Nat.zero_le _) le_rfl (by simp)
      (fun j hj hjlen => by omega)]

end MitScheme.Runtime.CharSets
