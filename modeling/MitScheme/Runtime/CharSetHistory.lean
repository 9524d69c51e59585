import MitScheme.Runtime.CharSetConstruct
import MitScheme.Runtime.CharSetFold

/-! # Character sets: what the exported operations build

`Obtainable` follows any sequence of constructors and operations. Every set that is obtained holds
a list of ranges; the list is canonical where no empty range was asked for. -/

namespace MitScheme.Runtime.CharSets
open Lib.InversionList

variable {ν : Type} {named : ν → Option CharSet} {full cs : CharSet}

/-- The character set that an element of a code-point list stands for. -/
def CplElement.set (named : ν → Option CharSet) : CplElement ν → Option CharSet
  | .charSet cs => some cs
  | .name n => named n
  | _ => none

/-- The character sets that a program can build. `named` and `full` are the sets that the
system's own tables hold; `range` is what is known of the calls of `ucs-range->char-set` without a
base set. -/
inductive Obtainable (named : ν → Option CharSet) (full : CharSet) (range : Nat → Nat → Prop) :
    CharSet → Prop where
  | star {cpl : List (CplElement ν)} {cs : CharSet}
      (hcpl : ∀ elt ∈ cpl, ∀ c, elt.set named = some c → Obtainable named full range c)
      (heq : charSetStar named cpl = .ok cs) : Obtainable named full range cs
  | list (chars : List Character) {base : Option CharSet}
      (hbase : ∀ c, base = some c → Obtainable named full range c) :
      Obtainable named full range (listToCharSet chars base)
  | ucsRange {lower upper : Nat} {base : Option CharSet} {cs : CharSet}
      (hbase : ∀ c, base = some c → Obtainable named full range c)
      (hrange : base = none → range lower upper)
      (heq : ucsRangeToCharSet lower upper base = .ok cs) : Obtainable named full range cs
  | adjoin (chars : List Character) {cs : CharSet} (hcs : Obtainable named full range cs) :
      Obtainable named full range (charSetAdjoin cs chars)
  | delete (chars : List Character) {cs : CharSet} (hcs : Obtainable named full range cs) :
      Obtainable named full range (charSetDelete cs chars)
  | invert {cs : CharSet} (hcs : Obtainable named full range cs) :
      Obtainable named full range (charSetInvert cs)
  | union {css : List CharSet} (hcss : ∀ c ∈ css, Obtainable named full range c) :
      Obtainable named full range (charSetUnion css)
  | intersection {css : List CharSet} (hcss : ∀ c ∈ css, Obtainable named full range c)
      (hfull : css = [] → Obtainable named full range full) :
      Obtainable named full range (charSetIntersection full css)
  | difference {cs : CharSet} {rest : List CharSet} (hcs : Obtainable named full range cs)
      (hrest : ∀ c ∈ rest, Obtainable named full range c) :
      Obtainable named full range (charSetDifference cs rest)
  | xor {css : List CharSet} {cs : CharSet} (hcss : ∀ c ∈ css, Obtainable named full range c)
      (heq : charSetXor css = some cs) : Obtainable named full range cs

/-! ## The invariant -/

/-- Ranges in order; where `strict` holds, none of them is empty and no two touch. -/
structure RangeList (strict : Prop) (l : List Nat) : Prop where
  weak : Weak 0 l
  increasing : strict → l.Pairwise (· < ·)

/-- A set that `ilist->char-set` built from ranges in order. -/
def Built (strict : Prop) (cs : CharSet) : Prop := ∃ l, RangeList strict l ∧ cs = ilistToCharSet l

variable {strict : Prop} {l : List Nat}

theorem Canonical.rangeList (h : Canonical l) : RangeList strict l :=
  ⟨h.weak fun a _ => Nat.zero_le a, fun _ => h.increasing⟩

theorem RangeList.canonical (h : RangeList strict l) (hs : strict) : Canonical l :=
  ⟨h.weak.even, h.increasing hs, h.weak.ordered.le_limit⟩

theorem codePointInCharSet_ilist (hl : RangeList strict l) (x) :
    codePointInCharSet x (ilistToCharSet l) = inside l x := by
  obtain ⟨h, hcs, hmember, -⟩ := ilistToCharSet_spec hl.weak
  rw [codePointInCharSet_eq hcs, hmember]

theorem foldr_places (rs) : rs.foldr (visit fun s e ilist => s :: e :: ilist) [] = places rs := by
  induction rs with
  | nil => rfl
  | cons r rs ih => exact congrArg (fun l => r.1 :: r.2 :: l) ih

theorem Built.ilist (hcs : Built strict cs) : RangeList strict (charSetToIlist cs) ∧
    ∀ x, inside (charSetToIlist cs) x = codePointInCharSet x cs := by
  obtain ⟨l, hl, rfl⟩ := hcs
  obtain ⟨h, hcs, hmember, hstrict⟩ := ilistToCharSet_spec hl.weak
  obtain ⟨rs, hweak, hinside, hpw, heq⟩ := charSetRangeFoldRight_spec hcs
  have hil : charSetToIlist (ilistToCharSet l) = places rs := by
    rw [charSetToIlist, heq, foldr_places]
  rw [hil]
  refine ⟨⟨hweak, fun hs => hpw (hstrict (hl.increasing hs))⟩, fun x => ?_⟩
  rw [hinside, codePointInCharSet_eq hcs]

theorem Canonical.built (h : Canonical l) : Built strict (ilistToCharSet l) := ⟨l, h.rangeList, rfl⟩

theorem Built.ordered (hcs : Built strict cs) : Ordered (charSetToIlist cs) :=
  hcs.ilist.1.weak.ordered

theorem built_of_canonical {mem : Nat → Bool} (hcanon : Canonical l)
    (hmem : ∀ cp < charCodeLimit, inside l cp = mem cp) : Built strict (ilistToCharSet l) ∧
      ∀ cp < charCodeLimit, codePointInCharSet cp (ilistToCharSet l) = mem cp :=
  ⟨hcanon.built, fun cp hcp =>
    (codePointInCharSet_ilist (hcanon.rangeList : RangeList True l) cp).trans (hmem cp hcp)⟩

/-! ## What each operation builds -/

def CplElement.has (named : ν → Option CharSet) (cp : Nat) : CplElement ν → Bool
  | .range r => inRange cp r
  | .char c => c.code == cp
  | .string s => s.any fun c => c.code == cp
  | .charSet cs => codePointInCharSet cp cs
  | .name n => (named n).any fun cs => codePointInCharSet cp cs

theorem inRange_codePoint {x n} : inRange x (.codePoint n) = (n == x) := by
  rw [Bool.eq_iff_iff, inRange, Bool.and_eq_true, decide_eq_true_eq, decide_eq_true_eq, beq_iff_eq]
  simp only [rangeStart, rangeEnd]
  omega

theorem foldl_codePoints (s : List Character) (ranges) :
    s.foldl (fun ranges c => Range.codePoint c.code :: ranges) ranges =
      (s.map fun c => Range.codePoint c.code).reverse ++ ranges := by
  induction s generalizing ranges with
  | nil => rfl
  | cons c s ih => simp [ih]

theorem cplLoop_spec {cpl ranges il r}
    (hset : ∀ elt ∈ cpl, ∀ c, elt.set named = some c → Built strict c)
    (hvalid : ∀ elt ∈ cpl, isCplElement named elt = true) (hranges : ∀ r ∈ ranges, r.valid = true)
    (hil : Canonical il) (h : cplLoop named cpl ranges il = .ok r) :
    Canonical r ∧ ∀ cp < charCodeLimit,
      inside r cp = (cpl.any (CplElement.has named cp) || ranges.any (inRange cp) ||
        inside il cp) := by
  have hchar (c : Character) : (Range.codePoint c.code).valid = true := by
    simpa [Range.valid] using c.code_lt
  induction cpl generalizing ranges il with
  | nil =>
    obtain rfl : ilistUnion (rangesToIlist ranges) il = r := by simpa [cplLoop] using h
    obtain ⟨hcanon, hinside⟩ := rangesToIlist_spec hranges
    obtain ⟨hcanon', hinside'⟩ := union_spec hcanon.ordered hil.ordered
    exact ⟨hcanon', fun cp hcp => by rw [hinside' cp hcp, hinside]; rfl⟩
  | cons elt cpl ih =>
    have hset' : ∀ e ∈ cpl, ∀ c, e.set named = some c → Built strict c := fun e he =>
      hset e (List.mem_cons_of_mem _ he)
    have hvalid' : ∀ e ∈ cpl, isCplElement named e = true := fun e he =>
      hvalid e (List.mem_cons_of_mem _ he)
    have hunion {c : CharSet} (hc : elt.set named = some c)
        (h : cplLoop named cpl ranges (ilistUnion (charSetToIlist c) il) = .ok r)
        (hhas : ∀ cp, elt.has named cp = codePointInCharSet cp c) : Canonical r ∧
          ∀ cp < charCodeLimit, inside r cp = ((elt :: cpl).any (CplElement.has named cp) ||
            ranges.any (inRange cp) || inside il cp) := by
      have hbuilt := hset elt List.mem_cons_self c hc
      obtain ⟨hcanon, hinside⟩ := union_spec hbuilt.ordered hil.ordered
      obtain ⟨hcanon', hinside'⟩ := ih hset' hvalid' hranges hcanon h
      refine ⟨hcanon', fun cp hcp => ?_⟩
      rw [hinside' cp hcp, hinside cp hcp, hbuilt.ilist.2, List.any_cons, hhas]
      ac_rfl
    cases elt with
    | range r0 =>
      obtain ⟨hcanon, hinside⟩ := ih hset' hvalid' (fun x hx => by
        rcases List.mem_cons.mp hx with rfl | hx
        · exact hvalid _ List.mem_cons_self
        · exact hranges x hx) hil h
      refine ⟨hcanon, fun cp hcp => ?_⟩
      rw [hinside cp hcp, List.any_cons, List.any_cons]
      simp only [CplElement.has]
      ac_rfl
    | char c =>
      obtain ⟨hcanon, hinside⟩ := ih hset' hvalid' (fun x hx => by
        rcases List.mem_cons.mp hx with rfl | hx
        · exact hchar c
        · exact hranges x hx) hil h
      refine ⟨hcanon, fun cp hcp => ?_⟩
      rw [hinside cp hcp, List.any_cons, List.any_cons, inRange_codePoint]
      simp only [CplElement.has]
      ac_rfl
    | string s =>
      rw [cplLoop, foldl_codePoints] at h
      obtain ⟨hcanon, hinside⟩ := ih hset' hvalid' (fun x hx => by
        rcases List.mem_append.mp hx with hx | hx
        · obtain ⟨c, -, rfl⟩ := List.mem_map.mp (List.mem_reverse.mp hx)
          exact hchar c
        · exact hranges x hx) hil h
      refine ⟨hcanon, fun cp hcp => ?_⟩
      rw [hinside cp hcp, List.any_cons, List.any_append, List.any_reverse, List.any_map]
      simp only [CplElement.has, Function.comp_def, inRange_codePoint]
      ac_rfl
    | charSet c => exact hunion rfl h fun _ => rfl
    | name n =>
      rw [cplLoop] at h
      cases hn : named n with
      | none =>
        rw [hn] at h
        cases h
      | some c =>
        rw [hn] at h
        exact hunion hn h fun cp => by rw [CplElement.has, hn]; rfl

theorem charSetStar_spec {cpl} (hset : ∀ elt ∈ cpl, ∀ c, elt.set named = some c → Built strict c)
    (h : charSetStar named cpl = .ok cs) : Built strict cs ∧ ∀ cp < charCodeLimit,
      codePointInCharSet cp cs = cpl.any (CplElement.has named cp) := by
  rw [charSetStar] at h
  by_cases hall : cpl.all (isCplElement named) = true
  · rw [if_pos hall] at h
    obtain ⟨il, hil, rfl⟩ : ∃ il, cplLoop named cpl [] [] = .ok il ∧ ilistToCharSet il = cs := by
      cases hloop : cplLoop named cpl [] [] with
      | error e =>
        rw [hloop] at h
        cases h
      | ok il =>
        rw [hloop] at h
        exact ⟨il, rfl, by simpa using h⟩
    obtain ⟨hcanon, hinside⟩ := cplLoop_spec hset (List.all_eq_true.mp hall) (by simp)
      canonical_nil hil
    exact built_of_canonical hcanon fun cp hcp => by simpa using hinside cp hcp
  · rw [if_neg hall] at h
    cases h

theorem listToCharSet_spec (chars) {base} (hbase : ∀ c, base = some c → Built strict c) :
    Built strict (listToCharSet chars base) ∧
      ∀ cp < charCodeLimit, codePointInCharSet cp (listToCharSet chars base) =
        (decide (∃ c ∈ chars, c.code = cp) || base.any fun c => codePointInCharSet cp c) := by
  obtain ⟨hcanon, hinside⟩ := charsToIlist_spec chars
  cases base with
  | none => exact built_of_canonical hcanon fun cp _ => by simpa using hinside cp
  | some c =>
    have hc := hbase c rfl
    obtain ⟨hcanon', hinside'⟩ := union_spec hcanon.ordered hc.ordered
    refine built_of_canonical hcanon' fun cp hcp => ?_
    rw [hinside' cp hcp, hinside, hc.ilist.2]
    rfl

theorem ucsRangeToCharSet_spec {lower upper base} (hbase : ∀ c, base = some c → Built strict c)
    (hrange : base = none → strict → lower < upper)
    (h : ucsRangeToCharSet lower upper base = .ok cs) : Built strict cs ∧
      ∀ cp < charCodeLimit, codePointInCharSet cp cs =
        (decide (lower ≤ cp ∧ cp < upper) || base.any fun c => codePointInCharSet cp c) := by
  unfold ucsRangeToCharSet at h
  by_cases hle : lower ≤ upper
  · by_cases hlim : upper ≤ charCodeLimit
    · rw [if_neg (not_not.mpr hle), if_neg (not_not.mpr hlim)] at h
      have hweak : Weak 0 [lower, upper] := ⟨Nat.zero_le _, hle, hlim, trivial⟩
      cases base with
      | none =>
        obtain rfl : ilistToCharSet [lower, upper] = cs := by simpa using h
        have hl : RangeList strict [lower, upper] :=
          ⟨hweak, fun hs => by simpa using hrange rfl hs⟩
        refine ⟨⟨_, hl, rfl⟩, fun cp _ => ?_⟩
        rw [codePointInCharSet_ilist hl, inside_range hle]
        simp
      | some c =>
        obtain rfl : ilistToCharSet (ilistUnion [lower, upper] (charSetToIlist c)) = cs := by
          simpa using h
        have hc := hbase c rfl
        obtain ⟨hcanon, hinside⟩ := union_spec hweak.ordered hc.ordered
        refine built_of_canonical hcanon fun cp hcp => ?_
        rw [hinside cp hcp, hc.ilist.2, inside_range hle]
        simp
    · rw [if_neg (not_not.mpr hle), if_pos hlim] at h
      cases h
  · rw [if_pos hle] at h
    cases h

theorem charSetAdjoin_spec (hcs : Built strict cs) (chars) :
    Built strict (charSetAdjoin cs chars) ∧ ∀ cp < charCodeLimit,
      codePointInCharSet cp (charSetAdjoin cs chars) =
        (codePointInCharSet cp cs || decide (∃ c ∈ chars, c.code = cp)) := by
  rw [charSetAdjoin]
  cases chars with
  | nil => exact ⟨hcs, fun cp _ => by simp⟩
  | cons c chars =>
    obtain ⟨hcanon, hinside⟩ := charsToIlist_spec (c :: chars)
    obtain ⟨hcanon', hinside'⟩ := union_spec hcs.ordered hcanon.ordered
    refine built_of_canonical hcanon' fun cp hcp => ?_
    rw [hinside' cp hcp, hinside, hcs.ilist.2]

theorem charSetDelete_spec (hcs : Built strict cs) (chars) :
    Built strict (charSetDelete cs chars) ∧ ∀ cp < charCodeLimit,
      codePointInCharSet cp (charSetDelete cs chars) =
        (codePointInCharSet cp cs && !decide (∃ c ∈ chars, c.code = cp)) := by
  rw [charSetDelete]
  cases chars with
  | nil => exact ⟨hcs, fun cp _ => by simp⟩
  | cons c chars =>
    obtain ⟨hcanon, hinside⟩ := charsToIlist_spec (c :: chars)
    obtain ⟨hcanon', hinside'⟩ := difference_spec hcs.ordered hcanon.ordered
    refine built_of_canonical hcanon' fun cp hcp => ?_
    rw [hinside' cp hcp, hinside, hcs.ilist.2]

theorem charSetInvert_spec (hcs : Built strict cs) : Built strict (charSetInvert cs) ∧
    ∀ cp < charCodeLimit, codePointInCharSet cp (charSetInvert cs) = !codePointInCharSet cp cs := by
  obtain ⟨hl, hinside⟩ := hcs.ilist
  have hinv : RangeList strict (ilistInvert (charSetToIlist cs)) :=
    ⟨ilistInvert_weak hl.weak, fun hs => (ilistInvert_canonical (hl.canonical hs)).increasing⟩
  refine ⟨⟨_, hinv, rfl⟩, fun cp hcp => ?_⟩
  rw [charSetInvert, codePointInCharSet_ilist hinv, inside_ilistInvert hl.weak hcp, hinside]

variable {rest css : List CharSet}

theorem fold_spec {op : List Nat → List Nat → List Nat} {f : Bool → Bool → Bool}
    (hop : ∀ {l1 l2 : List Nat}, Ordered l1 → Ordered l2 → Canonical (op l1 l2) ∧
      ∀ cp < charCodeLimit, inside (op l1 l2) cp = f (inside l1 cp) (inside l2 cp))
    (hrest : ∀ c ∈ rest, Built strict c) {il} (hil : RangeList strict il) :
    RangeList strict ((rest.map charSetToIlist).foldl (fun acc x => op x acc) il) ∧
      ∀ cp < charCodeLimit,
        inside ((rest.map charSetToIlist).foldl (fun acc x => op x acc) il) cp =
          (rest.map (codePointInCharSet cp)).foldl (fun acc b => f b acc) (inside il cp) := by
  induction rest generalizing il with
  | nil => exact ⟨hil, fun _ _ => rfl⟩
  | cons c rest ih =>
    have hc := hrest c List.mem_cons_self
    obtain ⟨hcanon, hinside⟩ := hop hc.ordered hil.weak.ordered
    obtain ⟨hl, hfold⟩ := ih (fun x hx => hrest x (List.mem_cons_of_mem _ hx))
      hcanon.rangeList
    refine ⟨hl, fun cp hcp => ?_⟩
    rw [List.map_cons, List.foldl_cons, hfold cp hcp, hinside cp hcp, hc.ilist.2]
    rfl

theorem built_fold {op : List Nat → List Nat → List Nat} {f : Bool → Bool → Bool}
    (hop : ∀ {l1 l2 : List Nat}, Ordered l1 → Ordered l2 → Canonical (op l1 l2) ∧
      ∀ cp < charCodeLimit, inside (op l1 l2) cp = f (inside l1 cp) (inside l2 cp))
    (hrest : ∀ c ∈ rest, Built strict c) (hcs : Built strict cs) :
    Built strict (ilistToCharSet ((rest.map charSetToIlist).foldl (fun acc x => op x acc)
        (charSetToIlist cs))) ∧ ∀ cp < charCodeLimit,
      codePointInCharSet cp (ilistToCharSet ((rest.map charSetToIlist).foldl
        (fun acc x => op x acc) (charSetToIlist cs))) =
        (rest.map (codePointInCharSet cp)).foldl (fun acc b => f b acc)
          (codePointInCharSet cp cs) := by
  obtain ⟨hl, hinside⟩ := hcs.ilist
  obtain ⟨hl', hfold⟩ := fold_spec hop hrest hl
  refine ⟨⟨_, hl', rfl⟩, fun cp hcp => ?_⟩
  rw [codePointInCharSet_ilist hl', hfold cp hcp, hinside]

theorem charSetUnion_spec (hcss : ∀ c ∈ css, Built strict c) :
    Built strict (charSetUnion css) ∧ ∀ cp < charCodeLimit,
      codePointInCharSet cp (charSetUnion css) = css.any (codePointInCharSet cp) := by
  rcases css with _ | ⟨c, _ | ⟨c', rest⟩⟩
  · obtain ⟨hcanon, hinside⟩ := rangesToIlist_spec (List.forall_mem_nil _)
    obtain ⟨hcanon', hinside'⟩ := union_spec hcanon.ordered canonical_nil.ordered
    exact built_of_canonical hcanon' fun cp hcp => by rw [hinside' cp hcp, hinside]; rfl
  · exact ⟨hcss c (by simp), fun cp _ => by simp [charSetUnion]⟩
  · obtain ⟨hbuilt, hmem⟩ := built_fold union_spec
      (fun x hx => hcss x (List.mem_cons_of_mem _ hx)) (hcss c (by simp))
    refine ⟨hbuilt, fun cp hcp => (hmem cp hcp).trans ?_⟩
    have hfold (bs : List Bool) (b : Bool) :
        bs.foldl (fun acc b => b || acc) b = (b || bs.any id) := by
      induction bs generalizing b with
      | nil => simp
      | cons x bs ih =>
        rw [List.foldl_cons, ih, List.any_cons, id_eq]
        ac_rfl
    rw [hfold, List.any_map, List.any_cons (l := c' :: rest)]
    rfl

theorem charSetIntersection_spec (hcss : ∀ c ∈ css, Built strict c)
    (hfull : css = [] → Built strict full) : Built strict (charSetIntersection full css) ∧
      (css ≠ [] → ∀ cp < charCodeLimit, codePointInCharSet cp (charSetIntersection full css) =
        css.all (codePointInCharSet cp)) := by
  rcases css with _ | ⟨c, _ | ⟨c', rest⟩⟩
  · exact ⟨hfull rfl, fun h => (h rfl).elim⟩
  · exact ⟨hcss c (by simp), fun _ cp _ => by simp [charSetIntersection]⟩
  · obtain ⟨hbuilt, hmem⟩ := built_fold intersection_spec
      (fun x hx => hcss x (List.mem_cons_of_mem _ hx)) (hcss c (by simp))
    refine ⟨hbuilt, fun _ cp hcp => (hmem cp hcp).trans ?_⟩
    have hfold (bs : List Bool) (b : Bool) :
        bs.foldl (fun acc b => b && acc) b = (b && bs.all id) := by
      induction bs generalizing b with
      | nil => simp
      | cons x bs ih =>
        rw [List.foldl_cons, ih, List.all_cons, id_eq]
        ac_rfl
    rw [hfold, List.all_map, List.all_cons (l := c' :: rest)]
    rfl

theorem charSetDifference_spec (hcs : Built strict cs) (hrest : ∀ c ∈ rest, Built strict c) :
    Built strict (charSetDifference cs rest) ∧
      ∀ cp < charCodeLimit, codePointInCharSet cp (charSetDifference cs rest) =
        (codePointInCharSet cp cs && !rest.any (codePointInCharSet cp)) := by
  rw [charSetDifference]
  cases rest with
  | nil => exact ⟨hcs, fun cp _ => by simp⟩
  | cons c rest =>
    obtain ⟨hbuilt, hmem⟩ := built_fold
      (f := fun b acc => acc && !b)
      (fun h1 h2 => difference_spec h2 h1) hrest hcs
    refine ⟨hbuilt, fun cp hcp => (hmem cp hcp).trans ?_⟩
    have hfold (bs : List Bool) (b : Bool) :
        bs.foldl (fun acc b => acc && !b) b = (b && !bs.any id) := by
      induction bs generalizing b with
      | nil => simp
      | cons x bs ih =>
        rw [List.foldl_cons, ih, List.any_cons, id_eq, Bool.not_or, Bool.and_assoc]
    rw [hfold, List.any_map]
    rfl

theorem charSetXor_spec (hcss : ∀ c ∈ css, Built strict c) (h : charSetXor css = some cs) :
    Built strict cs ∧ ∀ cp < charCodeLimit,
      codePointInCharSet cp cs = (css.map (codePointInCharSet cp)).foldr xor false := by
  cases css with
  | nil => cases h
  | cons c rest =>
    obtain rfl := Option.some.inj h
    obtain ⟨hbuilt, hmem⟩ := built_fold xor_spec
      (fun x hx => hcss x (List.mem_cons_of_mem _ hx)) (hcss c (by simp))
    refine ⟨hbuilt, fun cp hcp => (hmem cp hcp).trans ?_⟩
    have hfold (bs : List Bool) (b : Bool) :
        bs.foldl (fun acc b => xor b acc) b = xor b (bs.foldr xor false) := by
      induction bs generalizing b with
      | nil => simp
      | cons x bs ih =>
        rw [List.foldl_cons, ih, List.foldr_cons, Bool.xor_comm x b, Bool.xor_assoc]
    rw [hfold]
    rfl

theorem Obtainable.built {range : Nat → Nat → Prop}
    (hrange : ∀ {lower upper : Nat}, range lower upper → strict → lower < upper)
    (h : Obtainable named full range cs) : Built strict cs := by
  induction h with
  | star _ heq ih => exact (charSetStar_spec ih heq).1
  | list chars _ ih => exact (listToCharSet_spec chars ih).1
  | ucsRange _ hr heq ih =>
    exact (ucsRangeToCharSet_spec ih (fun hbase => hrange (hr hbase)) heq).1
  | adjoin chars _ ih => exact (charSetAdjoin_spec ih chars).1
  | delete chars _ ih => exact (charSetDelete_spec ih chars).1
  | invert _ ih => exact (charSetInvert_spec ih).1
  | union _ ih => exact (charSetUnion_spec ih).1
  | intersection _ _ ih ihfull => exact (charSetIntersection_spec ih ihfull).1
  | difference _ _ ih ihrest => exact (charSetDifference_spec ih ihrest).1
  | xor _ heq ih => exact (charSetXor_spec ih heq).1

end MitScheme.Runtime.CharSets
