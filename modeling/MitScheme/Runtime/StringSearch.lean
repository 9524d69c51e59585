import MitScheme.Lib.Border
import MitScheme.Runtime.FixIndex

/-! # String search

The naive and the Knuth-Morris-Pratt searches of `string.scm`, and the top level that chooses
between them by the length of the pattern. -/

namespace MitScheme.Runtime.StringSearch
open Lib.Border Lib.Outcome FixIndex

inductive Fault
  | badRange
  | wrongType
  | outOfFuel
  deriving DecidableEq

abbrev Result (α : Type) := Except Fault α

instance : Faults Fault := ⟨.badRange, .wrongType⟩

variable {α : Type}

structure Text (α : Type) where
  chars : List α
  short : chars.length < 2 ^ 57

/-! ## The naive search -/

def charAt (string : List α) (index : Int) : Option α :=
  if 0 ≤ index then string[index.toNat]? else none

def stringRef (string : List α) (index : Int) : Result α :=
  match charAt string index with
  | some char => .ok char
  | none => .error .badRange

section
variable [DecidableEq α]

/-- The loop `match` of the naive searches. -/
def naiveMatch (pattern : List α) (pend : Nat) (text : List α) (pi : Nat) (ti : Int) :
    Result Bool :=
  if pi < pend then do
    if (← stringRef pattern pi) = (← stringRef text ti) then
      naiveMatch pattern pend text (pi + 1) (ti + 1)
    else return false
  else return true
termination_by pend - pi

/-- The loop of `naive-search-forward`. -/
def naiveForwardLoop (pattern : List α) (pend : Nat) (text : List α) (tlast tindex : Int) :
    Result (Option Int) :=
  if tindex ≤ tlast then do
    if ← naiveMatch pattern pend text 0 tindex then return some tindex
    else naiveForwardLoop pattern pend text tlast (tindex + 1)
  else return none
termination_by (tlast + 1 - tindex).toNat

def naiveSearchForward (pattern : List α) (pend : Nat) (text : List α) (tstart tend : Nat) :
    Result (Option Int) :=
  naiveForwardLoop pattern pend text (tend - pend) tstart

/-- The loop of `naive-search-backward`. -/
def naiveBackwardLoop (pattern : List α) (pend : Nat) (text : List α) (tstart : Nat)
    (tindex : Int) : Result (Option Int) :=
  if tindex ≥ tstart then do
    if ← naiveMatch pattern pend text 0 tindex then return some tindex
    else naiveBackwardLoop pattern pend text tstart (tindex - 1)
  else return none
termination_by (tindex + 1 - tstart).toNat

def naiveSearchBackward (pattern : List α) (pend : Nat) (text : List α) (tstart tend : Nat) :
    Result (Option Int) :=
  naiveBackwardLoop pattern pend text tstart (tend - pend)

/-- The loop of `naive-search-all`. -/
def naiveAllLoop (pattern : List α) (pend : Nat) (text : List α) (tstart : Nat) (tindex : Int)
    (found : List Int) : Result (List Int) :=
  if tindex ≥ tstart then do
    let here ← naiveMatch pattern pend text 0 tindex
    naiveAllLoop pattern pend text tstart (tindex - 1) (if here then tindex :: found else found)
  else return found
termination_by (tindex + 1 - tstart).toNat

def naiveSearchAll (pattern : List α) (pend : Nat) (text : List α) (tstart tend : Nat) :
    Result (List Int) :=
  naiveAllLoop pattern pend text tstart (tend - pend) []

/-! ## The Knuth-Morris-Pratt search -/

/-- `vector-ref`, of a vector whose elements may not be set yet. -/
def vectorRef (v : List (Option Nat)) (index : Nat) : Result Nat :=
  match v[index]? with
  | some (some n) => .ok n
  | some none => .error .wrongType
  | none => .error .badRange

def vectorSet (v : List (Option Nat)) (index n : Nat) : Result (List (Option Nat)) :=
  if index < v.length then .ok (v.set index (some n)) else .error .badRange

/-- The loop of `new-n-matched`. -/
def newNMatchedLoop (pchar : Nat → Result α) (pi : List (Option Nat)) (char : α) :
    Nat → Nat → Result Nat
  | 0, _ => .error .outOfFuel
  | fuel + 1, nMatched => do
    if (← pchar nMatched) = char then return nMatched + 1
    else if nMatched > 0 then newNMatchedLoop pchar pi char fuel (← vectorRef pi (nMatched - 1))
    else return 0

def newNMatched (pchar : Nat → Result α) (pi : List (Option Nat)) (char : α) (nMatched : Nat) :
    Result Nat :=
  newNMatchedLoop pchar pi char (nMatched + 1) nMatched

def computePi (pend : Nat) (pchar : Nat → Result α) (q nMatched : Nat) (pi : List (Option Nat)) :
    Result (List (Option Nat)) := do
  let pi ← vectorSet pi q nMatched
  if q + 1 < pend then
    computePi pend pchar (q + 1) (← newNMatched pchar pi (← pchar (q + 1)) nMatched) pi
  else return pi
termination_by pend - q

/-- `kmp-prefix-function*`. -/
def kmpPrefixFunctionOf (pend : Nat) (pchar : Nat → Result α) : Result (List (Option Nat)) :=
  computePi pend pchar 0 0 (List.replicate pend none)

/-- The argument of `kmp-prefix-function`. -/
def prefixChar (pattern : List α) (q : Nat) : Result α := stringRef pattern q

/-- The argument of `kmp-suffix-function`. -/
def suffixChar (pattern : List α) (pend : Nat) (q : Nat) : Result α :=
  stringRef pattern ((pend : Int) - 1 - q)

/-- The loop of `kmp-search-forward`. -/
def kmpForwardLoop (pattern : List α) (pend : Nat) (text : List α) (pi : List (Option Nat))
    (tend i nMatched : Nat) : Result (Option Int) :=
  if i < tend then do
    let nMatched ← newNMatched (prefixChar pattern) pi (← stringRef text i) nMatched
    if nMatched < pend then kmpForwardLoop pattern pend text pi tend (i + 1) nMatched
    else return some (i - (pend - 1))
  else return none
termination_by tend - i

def kmpSearchForward (pattern : List α) (pend : Nat) (text : List α) (tstart tend : Nat) :
    Result (Option Int) := do
  let pi ← kmpPrefixFunctionOf pend (prefixChar pattern)
  kmpForwardLoop pattern pend text pi tend tstart 0

/-- The loop of `kmp-search-backward`. -/
def kmpBackwardLoop (pattern : List α) (pend : Nat) (text : List α) (pi : List (Option Nat))
    (tstart : Nat) (i : Int) (nMatched : Nat) : Result (Option Int) :=
  if i ≥ tstart then do
    let nMatched ← newNMatched (suffixChar pattern pend) pi (← stringRef text i) nMatched
    if nMatched < pend then kmpBackwardLoop pattern pend text pi tstart (i - 1) nMatched
    else return some i
  else return none
termination_by (i + 1 - tstart).toNat

def kmpSearchBackward (pattern : List α) (pend : Nat) (text : List α) (tstart tend : Nat) :
    Result (Option Int) := do
  let pi ← kmpPrefixFunctionOf pend (suffixChar pattern pend)
  kmpBackwardLoop pattern pend text pi tstart (tend - 1) 0

/-- The loop of `kmp-search-all`. -/
def kmpAllLoop (pattern : List α) (pend : Nat) (text : List α) (pi : List (Option Nat))
    (tend i nMatched : Nat) (found : List Int) : Result (List Int) :=
  if i < tend then do
    let nMatched ← newNMatched (prefixChar pattern) pi (← stringRef text i) nMatched
    if nMatched < pend then kmpAllLoop pattern pend text pi tend (i + 1) nMatched found
    else
      kmpAllLoop pattern pend text pi tend (i + 1) (← vectorRef pi (nMatched - 1))
        ((i - (pend - 1)) :: found)
  else return found.reverse
termination_by tend - i

def kmpSearchAll (pattern : List α) (pend : Nat) (text : List α) (tstart tend : Nat) :
    Result (List Int) := do
  let pi ← kmpPrefixFunctionOf pend (prefixChar pattern)
  kmpAllLoop pattern pend text pi tend tstart 0 []

/-! ## The top level -/

def kmpPatternMin : Nat := 8

/-- `string-matcher`: the start is checked against the argument `end`, given or not. -/
def stringMatcher {β : Type} (naive kmp : List α → Nat → List α → Nat → Nat → Result β)
    (pattern text : Text α) (start stop : Option Nat) : Result β := do
  let pend := pattern.chars.length
  if pend = 0 then .error .badRange
  else do
    let tend ← fixEndIndex stop text.chars.length
    let tstart ← fixStartIndex start stop
    if pend < kmpPatternMin then naive pattern.chars pend text.chars tstart tend
    else kmp pattern.chars pend text.chars tstart tend

def stringSearchForward (pattern text : Text α) (start stop : Option Nat) : Result (Option Int) :=
  stringMatcher naiveSearchForward kmpSearchForward pattern text start stop

def stringSearchBackward (pattern text : Text α) (start stop : Option Nat) : Result (Option Int) :=
  stringMatcher naiveSearchBackward kmpSearchBackward pattern text start stop

def stringSearchAll (pattern text : Text α) (start stop : Option Nat) : Result (List Int) :=
  stringMatcher naiveSearchAll kmpSearchAll pattern text start stop

end

/-! ## Occurrences -/

/-- The pattern stands in the text at `i`. -/
def Occurs (pattern text : List α) (i : Int) : Prop :=
  ∀ j < pattern.length, charAt text (i + j) = charAt pattern j

/-- The places of the pattern between `tstart` and `tend`. -/
def hits (pattern text : List α) (tstart tend : Int) : Set Int :=
  {i | tstart ≤ i ∧ i + pattern.length ≤ tend ∧ Occurs pattern text i}

def LeastOf (s : Set Int) : Option Int → Prop
  | some i => IsLeast s i
  | none => s = ∅

def GreatestOf (s : Set Int) : Option Int → Prop
  | some i => IsGreatest s i
  | none => s = ∅

def Lists (s : Set Int) (l : List Int) : Prop := l.Pairwise (· < ·) ∧ ∀ i, i ∈ l ↔ i ∈ s

theorem LeastOf.unique {s : Set Int} {r r' : Option Int} (h : LeastOf s r) (h' : LeastOf s r') :
    r = r' := by
  cases r with
  | none =>
    cases r' with
    | none => rfl
    | some i => exact absurd (h ▸ h'.1 : i ∈ (∅ : Set Int)) (Set.notMem_empty i)
  | some i =>
    cases r' with
    | none => exact absurd (h' ▸ h.1 : i ∈ (∅ : Set Int)) (Set.notMem_empty i)
    | some j => exact congrArg some (IsLeast.unique h h')

theorem GreatestOf.unique {s : Set Int} {r r' : Option Int} (h : GreatestOf s r)
    (h' : GreatestOf s r') : r = r' := by
  cases r with
  | none =>
    cases r' with
    | none => rfl
    | some i => exact absurd (h ▸ h'.1 : i ∈ (∅ : Set Int)) (Set.notMem_empty i)
  | some i =>
    cases r' with
    | none => exact absurd (h' ▸ h.1 : i ∈ (∅ : Set Int)) (Set.notMem_empty i)
    | some j => exact congrArg some (IsGreatest.unique h h')

theorem Lists.unique {s : Set Int} {l l' : List Int} (h : Lists s l) (h' : Lists s l') : l = l' := by
  have hperm : l.Perm l' := (List.perm_ext_iff_of_nodup (h.1.imp ne_of_lt) (h'.1.imp ne_of_lt)).mpr
    fun i => (h.2 i).trans (h'.2 i).symm
  exact hperm.eq_of_pairwise (fun a b _ _ hab hba => absurd hab (lt_asymm hba)) h.1 h'.1

variable {pattern text : List α} {tstart tend : Nat}

theorem stringRef_ok (text : List α) {i : Int} (h : 0 ≤ i) (h' : i < text.length) :
    ∃ char, stringRef text i = .ok char ∧ charAt text i = some char := by
  have hat : charAt text i = some text[i.toNat] := by
    rw [charAt, if_pos h, List.getElem?_eq_getElem (by omega)]
  exact ⟨_, by rw [stringRef, hat], hat⟩

theorem hits_of_lt {a b : Int} (h : b < a + pattern.length) : hits pattern text a b = ∅ :=
  Set.eq_empty_of_forall_notMem fun i hi => by
    have h1 : a ≤ i := hi.1
    have h2 := hi.2.1
    omega

theorem hits_pred {i : Int} (hocc : ¬Occurs pattern text i) :
    hits pattern text tstart (i + pattern.length) =
      hits pattern text tstart (i - 1 + pattern.length) := by
  ext j
  refine ⟨fun hj => ⟨hj.1, ?_, hj.2.2⟩, fun hj => ⟨hj.1, by have := hj.2.1; omega, hj.2.2⟩⟩
  have hne : j ≠ i := by
    rintro rfl
    exact hocc hj.2.2
  have := hj.2.1
  omega

/-! ## Occurrences read in order -/

/-- The characters from `start` on. -/
def upFrom (string : List α) (start : Int) (j : Nat) : Option α := charAt string (start + j)

/-- The characters before `stop`, the last one first. -/
def downFrom (string : List α) (stop : Int) (j : Nat) : Option α := charAt string (stop - 1 - j)

theorem matched_up_iff {r : Nat} : Matched (upFrom pattern 0) (upFrom text tstart) r
    pattern.length ↔ pattern.length ≤ r ∧ Occurs pattern text (tstart + r - pattern.length) := by
  refine and_congr_right fun hr => forall₂_congr fun j _ => ?_
  rw [upFrom, upFrom, Int.zero_add,
    show (tstart : Int) + (r - pattern.length + j : Nat) = tstart + r - pattern.length + j by omega]

theorem matched_down_iff {r : Nat} : Matched (downFrom pattern pattern.length) (downFrom text tend) r
    pattern.length ↔ pattern.length ≤ r ∧ Occurs pattern text (tend - r) := by
  refine and_congr_right fun hr => ⟨fun h j hj => ?_, fun h j hj => ?_⟩
  · have := h (pattern.length - 1 - j) (by omega)
    rw [downFrom, downFrom, show (tend : Int) - 1 - (r - pattern.length + (pattern.length - 1 - j) :
        Nat) = tend - r + j by omega,
      show (pattern.length : Int) - 1 - (pattern.length - 1 - j : Nat) = j by omega] at this
    exact this
  · have := h (pattern.length - 1 - j) (by omega)
    rw [show (tend : Int) - r + (pattern.length - 1 - j : Nat) =
        tend - 1 - (r - pattern.length + j : Nat) by omega,
      show ((pattern.length - 1 - j : Nat) : Int) = pattern.length - 1 - j by omega] at this
    exact this

theorem mem_hits_up {i : Int} : i ∈ hits pattern text tstart tend ↔
    ∃ r : Nat, Matched (upFrom pattern 0) (upFrom text tstart) r pattern.length ∧
      tstart + r ≤ tend ∧ i = tstart + r - pattern.length := by
  constructor
  · rintro ⟨h1, h2, hocc⟩
    refine ⟨(i - tstart + pattern.length).toNat, matched_up_iff.mpr ⟨by omega, ?_⟩, by omega,
      by omega⟩
    rwa [show (tstart : Int) + (i - tstart + pattern.length).toNat - pattern.length = i by omega]
  · rintro ⟨r, hmatch, hr, rfl⟩
    obtain ⟨hle, hocc⟩ := matched_up_iff.mp hmatch
    exact ⟨by omega, by omega, hocc⟩

theorem mem_hits_down {i : Int} : i ∈ hits pattern text tstart tend ↔
    ∃ r : Nat, Matched (downFrom pattern pattern.length) (downFrom text tend) r pattern.length ∧
      tstart + r ≤ tend ∧ i = tend - r := by
  constructor
  · rintro ⟨h1, h2, hocc⟩
    refine ⟨(tend - i).toNat, matched_down_iff.mpr ⟨by omega, ?_⟩, by omega, by omega⟩
    rwa [show (tend : Int) - (tend - i).toNat = i by omega]
  · rintro ⟨r, hmatch, hr, rfl⟩
    obtain ⟨hle, hocc⟩ := matched_down_iff.mp hmatch
    exact ⟨by omega, by omega, hocc⟩

variable {p t : Nat → Option α} {pchar : Nat → Result α} {n i m r : Nat} {v : List (Option Nat)}
  {pi : Nat → Nat} {char : α}

/-- Up to `r` elements of the text no place of the pattern ends. -/
def NoneBefore (p t : Nat → Option α) (n r : Nat) : Prop := ∀ r' ≤ r, ¬Matched p t r' n

theorem NoneBefore.zero (hn : 0 < n) : NoneBefore p t n 0 := fun r' _ h => by
  have := h.1
  omega

theorem NoneBefore.succ (h : NoneBefore p t n r) (hreach : Reached p t n (r + 1) m)
    (hm : m < n) : NoneBefore p t n (r + 1) := by
  intro r' hr'
  rcases Nat.lt_succ_iff_lt_or_eq.mp (Nat.lt_succ_of_le hr') with hlt | rfl
  · exact h r' (by omega)
  · rw [hreach.matched_iff]
    omega

/-- `pchar` reads the first `n` elements of `p`. -/
def Reads (pchar : Nat → Result α) (p : Nat → Option α) (n : Nat) : Prop :=
  ∀ q < n, ∃ char, pchar q = .ok char ∧ p q = some char

theorem prefixChar_reads (pattern : List α) :
    Reads (prefixChar pattern) (upFrom pattern 0) pattern.length := fun q hq => by
  rw [prefixChar, upFrom, Int.zero_add]
  exact stringRef_ok pattern (by omega) (by omega)

theorem suffixChar_reads (pattern : List α) :
    Reads (suffixChar pattern pattern.length) (downFrom pattern pattern.length) pattern.length :=
  fun q hq => stringRef_ok pattern (by omega) (by omega)

/-- The vector holds the first `n` entries of the table of `p`. -/
def HoldsTable (v : List (Option Nat)) (p : Nat → Option α) (pi : Nat → Nat) (n : Nat) : Prop :=
  (∀ q < n, vectorRef v q = .ok (pi q)) ∧ PrefixTable p pi n

theorem HoldsTable.mono (hv : HoldsTable v p pi n) (hm : m ≤ n) : HoldsTable v p pi m :=
  ⟨fun q hq => hv.1 q (by omega), fun q hq => hv.2 q (by omega)⟩

variable [DecidableEq α]

/-! ## The naive search is right -/

theorem naiveMatch_spec (pattern text : List α) (pi : Nat) (ti : Int) (hpi : pi ≤ pattern.length)
    (hti : 0 ≤ ti) (hlast : ti + (pattern.length - pi) ≤ text.length) :
    ∃ b, naiveMatch pattern pattern.length text pi ti = .ok b ∧ (b = true ↔
      ∀ j, pi ≤ j → j < pattern.length → charAt text (ti - pi + j) = charAt pattern j) := by
  induction hn : pattern.length - pi generalizing pi ti with
  | zero =>
    rw [naiveMatch, if_neg (by omega)]
    exact ⟨true, rfl, iff_of_true rfl fun j hj hj' => by omega⟩
  | succ n ih =>
    obtain ⟨c, hc, hcat⟩ := stringRef_ok pattern (i := pi) (by omega) (by omega)
    obtain ⟨d, hd, hdat⟩ := stringRef_ok text hti (by omega)
    rw [naiveMatch, if_pos (by omega), hc, hd, ok_bind, ok_bind]
    by_cases heq : c = d
    · obtain ⟨b, hb, hiff⟩ := ih (pi + 1) (ti + 1) (by omega) (by omega) (by omega) (by omega)
      rw [if_pos heq, hb]
      refine ⟨b, rfl, hiff.trans ⟨fun h j hj hj' => ?_, fun h j hj hj' => ?_⟩⟩
      · rcases Nat.eq_or_lt_of_le hj with rfl | hlt
        · rw [Int.sub_add_cancel, hcat, hdat, heq]
        · rw [← h j hlt hj']
          congr 1
          omega
      · rw [← h j (by omega) hj']
        congr 1
        omega
    · rw [if_neg heq]
      refine ⟨false, rfl, iff_of_false Bool.false_ne_true fun h => ?_⟩
      have := h pi le_rfl (by omega)
      rw [Int.sub_add_cancel, hcat, hdat] at this
      exact heq (Option.some.inj this).symm

theorem naiveMatch_iff (pattern text : List α) {i : Int} (h : 0 ≤ i)
    (h' : i + pattern.length ≤ text.length) :
    ∃ b, naiveMatch pattern pattern.length text 0 i = .ok b ∧
      (b = true ↔ Occurs pattern text i) := by
  obtain ⟨b, hb, hiff⟩ := naiveMatch_spec pattern text 0 i (Nat.zero_le _) h (by omega)
  refine ⟨b, hb, hiff.trans ?_⟩
  simp only [Int.natCast_zero, Int.sub_zero, Nat.zero_le, true_imp_iff]
  exact Iff.rfl

theorem naiveForwardLoop_spec (htend : tend ≤ text.length) {i : Int} (hi : 0 ≤ i) :
    ∃ r, naiveForwardLoop pattern pattern.length text (tend - pattern.length) i = .ok r ∧
      LeastOf (hits pattern text i tend) r := by
  induction hn : (tend - pattern.length + 1 - i).toNat generalizing i with
  | zero =>
    rw [naiveForwardLoop, if_neg (by omega)]
    exact ⟨none, rfl, hits_of_lt (by omega)⟩
  | succ n ih =>
    obtain ⟨b, hb, hiff⟩ := naiveMatch_iff pattern text hi (by omega)
    rw [naiveForwardLoop, if_pos (by omega), hb, ok_bind]
    by_cases hocc : b = true
    · rw [if_pos hocc]
      exact ⟨some i, rfl, ⟨le_rfl, by omega, hiff.mp hocc⟩, fun j hj => hj.1⟩
    · obtain ⟨r, hr, hleast⟩ := ih (i := i + 1) (by omega) (by omega)
      have hset : hits pattern text i tend = hits pattern text (i + 1) tend := by
        ext j
        refine ⟨fun hj => ⟨?_, hj.2⟩, fun hj => ⟨by have := hj.1; omega, hj.2⟩⟩
        have hne : j ≠ i := by
          rintro rfl
          exact hocc (hiff.mpr hj.2.2)
        have := hj.1
        omega
      rw [if_neg hocc, hset]
      exact ⟨r, hr, hleast⟩

theorem naiveBackwardLoop_spec {i : Int} (hi : i + pattern.length ≤ text.length) :
    ∃ r, naiveBackwardLoop pattern pattern.length text tstart i = .ok r ∧
      GreatestOf (hits pattern text tstart (i + pattern.length)) r := by
  induction hn : (i + 1 - tstart).toNat generalizing i with
  | zero =>
    rw [naiveBackwardLoop, if_neg (by omega)]
    exact ⟨none, rfl, hits_of_lt (by omega)⟩
  | succ n ih =>
    obtain ⟨b, hb, hiff⟩ := naiveMatch_iff pattern text (i := i) (by omega) hi
    rw [naiveBackwardLoop, if_pos (by omega), hb, ok_bind]
    by_cases hocc : b = true
    · rw [if_pos hocc]
      refine ⟨some i, rfl, ⟨by omega, by omega, hiff.mp hocc⟩, fun j hj => ?_⟩
      have := hj.2.1
      omega
    · obtain ⟨r, hr, hgreatest⟩ := ih (i := i - 1) (by omega) (by omega)
      rw [if_neg hocc, hits_pred (mt hiff.mpr hocc)]
      exact ⟨r, hr, hgreatest⟩

theorem naiveAllLoop_spec {i : Int} (hi : i + pattern.length ≤ text.length) {found : List Int}
    (hfound : Lists (hits pattern text (max tstart (i + 1)) tend) found)
    (htend : i + pattern.length ≤ tend) :
    ∃ l, naiveAllLoop pattern pattern.length text tstart i found = .ok l ∧
      Lists (hits pattern text tstart tend) l := by
  induction hn : (i + 1 - tstart).toNat generalizing i found with
  | zero =>
    rw [naiveAllLoop, if_neg (by omega)]
    rw [max_eq_left (by omega)] at hfound
    exact ⟨found, rfl, hfound⟩
  | succ n ih =>
    obtain ⟨b, hb, hiff⟩ := naiveMatch_iff pattern text (i := i) (by omega) hi
    rw [naiveAllLoop, if_pos (by omega), hb, ok_bind]
    refine ih (by omega) ?_ (by omega) (by omega)
    rw [max_eq_right (by omega)] at hfound
    rw [max_eq_right (by omega), Int.sub_add_cancel]
    by_cases hocc : b = true
    · rw [if_pos hocc]
      refine ⟨List.pairwise_cons.mpr ⟨fun j hj => ?_, hfound.1⟩, fun j => ?_⟩
      · have := ((hfound.2 j).mp hj).1
        omega
      · rw [List.mem_cons, hfound.2 j]
        constructor
        · rintro (rfl | hj)
          · exact ⟨le_rfl, htend, hiff.mp hocc⟩
          · exact ⟨by have := hj.1; omega, hj.2⟩
        · intro hj
          by_cases hij : j = i
          · exact .inl hij
          · exact .inr ⟨by have := hj.1; omega, hj.2⟩
    · rw [if_neg hocc]
      refine ⟨hfound.1, fun j => (hfound.2 j).trans ⟨fun hj => ⟨by have := hj.1; omega, hj.2⟩,
        fun hj => ⟨?_, hj.2⟩⟩⟩
      have hne : j ≠ i := by
        rintro rfl
        exact hocc (hiff.mpr hj.2.2)
      have := hj.1
      omega

/-! ## The table -/

theorem newNMatchedLoop_spec (hp : Reads pchar p n) (hchar : t i = some char)
    (h : Candidate p t n i m) (hv : HoldsTable v p pi m) {fuel : Nat} (hf : m < fuel) :
    ∃ m', newNMatchedLoop pchar v char fuel m = .ok m' ∧ Reached p t n (i + 1) m' := by
  induction fuel generalizing m with
  | zero => omega
  | succ fuel ih =>
    obtain ⟨c, hc, hpc⟩ := hp m h.lt
    rw [newNMatchedLoop, hc, ok_bind]
    by_cases heq : c = char
    · rw [if_pos heq]
      exact ⟨m + 1, rfl, h.hit (by rw [hchar, hpc, heq])⟩
    · have hne : t i ≠ p m := by
        rw [hchar, hpc]
        exact fun hx => heq (Option.some.inj hx).symm
      rw [if_neg heq]
      by_cases hm : m > 0
      · have hlt := hv.2.lt hm le_rfl
        rw [if_pos hm, hv.1 (m - 1) (by omega), ok_bind]
        exact ih (h.miss hne hm hv.2) (hv.mono hlt.le) (by omega)
      · obtain rfl : m = 0 := by omega
        rw [if_neg hm]
        exact ⟨0, rfl, h.miss_zero hne⟩

theorem newNMatched_spec (hp : Reads pchar p n) (hchar : t i = some char)
    (h : Candidate p t n i m) (hv : HoldsTable v p pi m) :
    ∃ m', newNMatched pchar v char m = .ok m' ∧ Reached p t n (i + 1) m' :=
  newNMatchedLoop_spec hp hchar h hv (Nat.lt_succ_self m)

theorem vectorRef_set (v : List (Option Nat)) {q r k : Nat} (hq : q < v.length) :
    vectorRef (v.set q (some k)) r = if r = q then .ok k else vectorRef v r := by
  rw [vectorRef, List.getElem?_set]
  by_cases h : r = q
  · subst h
    rw [if_pos rfl, if_pos rfl, if_pos hq]
  · rw [if_neg (Ne.symm h), if_neg h]
    rfl

theorem computePi_spec (hp : Reads pchar p n) {q : Nat} (hq : q < n) (hlen : v.length = n)
    (hv : ∀ r < q, vectorRef v r = .ok (pi r)) (hpi : PrefixTable p pi (q + 1)) :
    ∃ v' pi', computePi n pchar q (pi q) v = .ok v' ∧ HoldsTable v' p pi' n := by
  induction hk : n - q generalizing q v pi with
  | zero => omega
  | succ k ih =>
    have hset (r : Nat) (hr : r < q + 1) : vectorRef (v.set q (some (pi q))) r = .ok (pi r) := by
      rw [vectorRef_set v (by omega)]
      by_cases hrq : r = q
      · rw [if_pos hrq, hrq]
      · rw [if_neg hrq, hv r (by omega)]
    rw [computePi, vectorSet, if_pos (by omega), ok_bind]
    by_cases hlast : q + 1 < n
    · obtain ⟨c, hc, hpc⟩ := hp (q + 1) hlast
      have hcand := hpi.candidate hlast
      have hle := (hpi q (Nat.lt_succ_self q)).1.1
      have hhold : HoldsTable (v.set q (some (pi q))) p pi (pi q) :=
        ⟨fun r hr => hset r (by omega), fun r hr => hpi r (by omega)⟩
      obtain ⟨m', hm', hreach⟩ := newNMatched_spec hp (t := fun j => p (j + 1)) hpc hcand hhold
      rw [if_pos hlast, hc, ok_bind, hm', ok_bind]
      have hold (r : Nat) (hr : r < q + 1) : Function.update pi (q + 1) m' r = pi r :=
        Function.update_of_ne (by omega) _ _
      have htable : PrefixTable p (Function.update pi (q + 1) m') (q + 2) := by
        refine (hpi.congr hold).succ hlast ?_
        rwa [Function.update_self]
      have hset' (r : Nat) (hr : r < q + 1) : vectorRef (v.set q (some (pi q))) r =
          .ok (Function.update pi (q + 1) m' r) := by rw [hold r hr, hset r hr]
      have := ih hlast (by rw [List.length_set, hlen]) hset' htable (by omega)
      rwa [Function.update_self] at this
    · obtain rfl : n = q + 1 := by omega
      rw [if_neg hlast]
      exact ⟨_, pi, rfl, hset, hpi⟩

theorem kmpPrefixFunctionOf_spec (hn : 0 < n) (hp : Reads pchar p n) :
    ∃ v pi, kmpPrefixFunctionOf n pchar = .ok v ∧ HoldsTable v p pi n :=
  have hzero : PrefixTable p (fun _ => 0) 1 := .one rfl
  computePi_spec hp hn List.length_replicate (fun r hr => by omega) hzero

/-! ## The Knuth-Morris-Pratt search is right -/

theorem kmpForwardLoop_spec (htend : tend ≤ text.length)
    (hv : HoldsTable v (upFrom pattern 0) pi pattern.length) (hr : tstart + r ≤ tend)
    (h : Candidate (upFrom pattern 0) (upFrom text tstart) pattern.length r m)
    (hnone : NoneBefore (upFrom pattern 0) (upFrom text tstart) pattern.length r) :
    ∃ res, kmpForwardLoop pattern pattern.length text v tend (tstart + r) m = .ok res ∧
      LeastOf (hits pattern text tstart tend) res := by
  induction hk : tend - (tstart + r) generalizing r m with
  | zero =>
    rw [kmpForwardLoop, if_neg (by omega)]
    refine ⟨none, rfl, Set.eq_empty_of_forall_notMem fun i hi => ?_⟩
    obtain ⟨r', hmatch, hr', -⟩ := mem_hits_up.mp hi
    exact hnone r' (by omega) hmatch
  | succ k ih =>
    obtain ⟨c, hc, hct⟩ := stringRef_ok text (i := (tstart + r : Nat)) (by omega) (by omega)
    obtain ⟨m', hm', hreach⟩ := newNMatched_spec (prefixChar_reads pattern)
      (t := upFrom text tstart) (i := r) hct h (hv.mono h.lt.le)
    rw [kmpForwardLoop, if_pos (by omega), hc, ok_bind, hm', ok_bind]
    by_cases hlt : m' < pattern.length
    · rw [if_pos hlt]
      exact ih (by omega) (hreach.candidate hlt) (hnone.succ hreach hlt) (by omega)
    · rw [if_neg hlt]
      have hmatch := hreach.matched_iff.mpr (le_antisymm hreach.1.1 (not_lt.mp hlt))
      refine ⟨_, rfl, mem_hits_up.mpr ⟨r + 1, hmatch, by omega, by omega⟩, fun j hj => ?_⟩
      obtain ⟨r', hmatch', -, rfl⟩ := mem_hits_up.mp hj
      have hlater : r < r' := not_le.mp fun hle => hnone r' hle hmatch'
      omega

theorem kmpBackwardLoop_spec (htend : tend ≤ text.length)
    (hv : HoldsTable v (downFrom pattern pattern.length) pi pattern.length) (hr : tstart + r ≤ tend)
    (h : Candidate (downFrom pattern pattern.length) (downFrom text tend) pattern.length r m)
    (hnone : NoneBefore (downFrom pattern pattern.length) (downFrom text tend) pattern.length r) :
    ∃ res, kmpBackwardLoop pattern pattern.length text v tstart (tend - 1 - r) m = .ok res ∧
      GreatestOf (hits pattern text tstart tend) res := by
  induction hk : tend - (tstart + r) generalizing r m with
  | zero =>
    rw [kmpBackwardLoop, if_neg (by omega)]
    refine ⟨none, rfl, Set.eq_empty_of_forall_notMem fun i hi => ?_⟩
    obtain ⟨r', hmatch, hr', -⟩ := mem_hits_down.mp hi
    exact hnone r' (by omega) hmatch
  | succ k ih =>
    obtain ⟨c, hc, hct⟩ := stringRef_ok text (i := tend - 1 - r) (by omega) (by omega)
    obtain ⟨m', hm', hreach⟩ := newNMatched_spec (suffixChar_reads pattern)
      (t := downFrom text tend) (i := r) hct h (hv.mono h.lt.le)
    rw [kmpBackwardLoop, if_pos (by omega), hc, ok_bind, hm', ok_bind]
    by_cases hlt : m' < pattern.length
    · rw [if_pos hlt, show (tend : Int) - 1 - r - 1 = tend - 1 - (r + 1 : Nat) by omega]
      exact ih (by omega) (hreach.candidate hlt) (hnone.succ hreach hlt) (by omega)
    · rw [if_neg hlt]
      have hmatch := hreach.matched_iff.mpr (le_antisymm hreach.1.1 (not_lt.mp hlt))
      refine ⟨_, rfl, mem_hits_down.mpr ⟨r + 1, hmatch, by omega, by omega⟩, fun j hj => ?_⟩
      obtain ⟨r', hmatch', -, rfl⟩ := mem_hits_down.mp hj
      have hlater : r < r' := not_le.mp fun hle => hnone r' hle hmatch'
      omega

/-- The places that end within the first `r` elements of the text, in decreasing order. -/
def FoundUpTo (pattern text : List α) (tstart r : Nat) (found : List Int) : Prop :=
  found.Pairwise (· > ·) ∧ ∀ i, i ∈ found ↔ i ∈ hits pattern text tstart (tstart + r : Nat)

section
variable (htend : tend ≤ text.length)
include htend

theorem kmpAllLoop_spec (hn : 0 < pattern.length)
    (hv : HoldsTable v (upFrom pattern 0) pi pattern.length) (hr : tstart + r ≤ tend)
    (h : Candidate (upFrom pattern 0) (upFrom text tstart) pattern.length r m) {found : List Int}
    (hfound : FoundUpTo pattern text tstart r found) :
    ∃ l, kmpAllLoop pattern pattern.length text v tend (tstart + r) m found = .ok l ∧
      Lists (hits pattern text tstart tend) l := by
  induction hk : tend - (tstart + r) generalizing r m found with
  | zero =>
    obtain rfl : tend = tstart + r := by omega
    rw [kmpAllLoop, if_neg (by omega)]
    exact ⟨_, rfl, List.pairwise_reverse.mpr hfound.1, fun i => List.mem_reverse.trans (hfound.2 i)⟩
  | succ k ih =>
    obtain ⟨c, hc, hct⟩ := stringRef_ok text (i := (tstart + r : Nat)) (by omega) (by omega)
    obtain ⟨m', hm', hreach⟩ := newNMatched_spec (prefixChar_reads pattern)
      (t := upFrom text tstart) (i := r) hct h (hv.mono h.lt.le)
    rw [kmpAllLoop, if_pos (by omega), hc, ok_bind, hm', ok_bind]
    -- a place within one more element ends there or before
    have hstep (i : Int) : i ∈ hits pattern text tstart (tstart + (r + 1) : Nat) ↔
        i ∈ hits pattern text tstart (tstart + r : Nat) ∨
          (m' = pattern.length ∧ i = tstart + (r + 1 : Nat) - pattern.length) := by
      rw [mem_hits_up, mem_hits_up]
      constructor
      · rintro ⟨r', hmatch, hr', rfl⟩
        rcases Nat.lt_or_ge r r' with hlt | hle
        · obtain rfl : r' = r + 1 := by omega
          exact .inr ⟨hreach.matched_iff.mp hmatch, rfl⟩
        · exact .inl ⟨r', hmatch, by omega, rfl⟩
      · rintro (⟨r', hmatch, hr', rfl⟩ | ⟨hm, rfl⟩)
        · exact ⟨r', hmatch, by omega, rfl⟩
        · exact ⟨r + 1, hreach.matched_iff.mpr hm, by omega, rfl⟩
    by_cases hlt : m' < pattern.length
    · rw [if_pos hlt]
      refine ih (r := r + 1) (by omega) (hreach.candidate hlt) ⟨hfound.1, fun i => ?_⟩ (by omega)
      rw [hfound.2 i, hstep, or_iff_left fun hx => by omega]
    · obtain rfl : m' = pattern.length := le_antisymm hreach.1.1 (not_lt.mp hlt)
      rw [if_neg hlt, hv.1 (pattern.length - 1) (by omega), ok_bind]
      refine ih (r := r + 1) (by omega) (hreach.restart hn hv.2) ⟨?_, fun i => ?_⟩ (by omega)
      · refine List.pairwise_cons.mpr ⟨fun j hj => ?_, hfound.1⟩
        have := ((hfound.2 j).mp hj).2.1
        omega
      · rw [List.mem_cons, hfound.2 i, hstep, or_comm]
        refine or_congr_right ⟨fun hi => ⟨rfl, by omega⟩, fun hi => by omega⟩

/-! ## The two searches agree -/

theorem naiveSearchForward_spec :
    ∃ res, naiveSearchForward pattern pattern.length text tstart tend = .ok res ∧
      LeastOf (hits pattern text tstart tend) res :=
  naiveForwardLoop_spec htend (Int.natCast_nonneg tstart)

theorem naiveSearchBackward_spec :
    ∃ res, naiveSearchBackward pattern pattern.length text tstart tend = .ok res ∧
      GreatestOf (hits pattern text tstart tend) res := by
  have hlast : (tend : Int) - pattern.length + pattern.length ≤ text.length := by omega
  obtain ⟨r, hr, hgreatest⟩ := naiveBackwardLoop_spec hlast
  rw [Int.sub_add_cancel] at hgreatest
  exact ⟨r, hr, hgreatest⟩

theorem naiveSearchAll_spec :
    ∃ l, naiveSearchAll pattern pattern.length text tstart tend = .ok l ∧
      Lists (hits pattern text tstart tend) l := by
  refine naiveAllLoop_spec (by omega) ?_ (by omega)
  rw [hits_of_lt (by omega)]
  exact ⟨List.Pairwise.nil, fun i => by simp⟩

end

theorem kmpSearchForward_spec (hn : 0 < pattern.length) (htend : tend ≤ text.length)
    (hstart : tstart ≤ tend) :
    ∃ res, kmpSearchForward pattern pattern.length text tstart tend = .ok res ∧
      LeastOf (hits pattern text tstart tend) res := by
  obtain ⟨v, pi, hv, htable⟩ := kmpPrefixFunctionOf_spec hn (prefixChar_reads pattern)
  rw [kmpSearchForward, hv, ok_bind]
  exact kmpForwardLoop_spec htend htable (r := 0) hstart (.start hn) (.zero hn)

theorem kmpSearchBackward_spec (hn : 0 < pattern.length) (htend : tend ≤ text.length)
    (hstart : tstart ≤ tend) :
    ∃ res, kmpSearchBackward pattern pattern.length text tstart tend = .ok res ∧
      GreatestOf (hits pattern text tstart tend) res := by
  obtain ⟨v, pi, hv, htable⟩ := kmpPrefixFunctionOf_spec hn (suffixChar_reads pattern)
  have := kmpBackwardLoop_spec htend htable (r := 0) hstart (.start hn) (.zero hn)
  rw [Int.natCast_zero, Int.sub_zero] at this
  rw [kmpSearchBackward, hv, ok_bind]
  exact this

theorem kmpSearchAll_spec (hn : 0 < pattern.length) (htend : tend ≤ text.length)
    (hstart : tstart ≤ tend) :
    ∃ l, kmpSearchAll pattern pattern.length text tstart tend = .ok l ∧
      Lists (hits pattern text tstart tend) l := by
  obtain ⟨v, pi, hv, htable⟩ := kmpPrefixFunctionOf_spec hn (prefixChar_reads pattern)
  rw [kmpSearchAll, hv, ok_bind]
  refine kmpAllLoop_spec htend hn htable (r := 0) hstart (.start hn) ⟨List.Pairwise.nil, fun i => ?_⟩
  rw [hits_of_lt (by omega)]
  simp

theorem eq_of_returns {β : Type} {P : β → Prop} {x y : Result β}
    (hx : ∃ a, x = .ok a ∧ P a) (hy : ∃ b, y = .ok b ∧ P b)
    (huniq : ∀ {a b}, P a → P b → a = b) : x = y := by
  obtain ⟨a, rfl, ha⟩ := hx
  obtain ⟨b, rfl, hb⟩ := hy
  rw [huniq ha hb]

/-! ## The optional arguments -/

omit [DecidableEq α] in
theorem stringMatcher_returns_iff {β : Type}
    {naive kmp : List α → Nat → List α → Nat → Nat → Result β} {P : β → Prop}
    (pattern text : Text α) {start stop : Option Nat} (hp : pattern.chars ≠ [])
    (hstart : start.getD 0 ≤ stop.getD text.chars.length)
    (hstop : stop.getD text.chars.length ≤ text.chars.length)
    (hnaive : ∃ r, naive pattern.chars pattern.chars.length text.chars (start.getD 0)
      (stop.getD text.chars.length) = .ok r ∧ P r)
    (hkmp : ∃ r, kmp pattern.chars pattern.chars.length text.chars (start.getD 0)
      (stop.getD text.chars.length) = .ok r ∧ P r) :
    (∃ r, stringMatcher naive kmp pattern text start stop = .ok r ∧ P r) ↔
      start = none ∨ stop ≠ none := by
  have hpend : ¬ pattern.chars.length = 0 := mt List.length_eq_zero_iff.mp hp
  have hrun : stringMatcher naive kmp pattern text start stop =
      fixStartIndex start stop >>= fun tstart =>
        if pattern.chars.length < kmpPatternMin then
          naive pattern.chars pattern.chars.length text.chars tstart
            (stop.getD text.chars.length)
        else kmp pattern.chars pattern.chars.length text.chars tstart
          (stop.getD text.chars.length) := by
    rw [stringMatcher, if_neg hpend, fixEndIndex_ok hstop text.short]
    rfl
  have hboth : ∃ r, (if pattern.chars.length < kmpPatternMin then
      naive pattern.chars pattern.chars.length text.chars (start.getD 0)
        (stop.getD text.chars.length)
      else kmp pattern.chars pattern.chars.length text.chars (start.getD 0)
        (stop.getD text.chars.length)) = .ok r ∧ P r := by
    by_cases h : pattern.chars.length < kmpPatternMin
    · rw [if_pos h]
      exact hnaive
    · rw [if_neg h]
      exact hkmp
  rw [hrun]
  cases start with
  | none => exact iff_of_true hboth (.inl rfl)
  | some s =>
    cases stop with
    | none =>
      have hs : s ≤ text.chars.length := hstart
      rw [fixStartIndex_default (lt_of_le_of_lt hs text.short)]
      refine iff_of_false ?_ fun hc => hc.elim (Option.some_ne_none s) fun hn => hn rfl
      rintro ⟨r, hr, -⟩
      cases hr
    | some e =>
      have hse : s ≤ e := hstart
      have he : e ≤ text.chars.length := hstop
      rw [fixStartIndex_ok hse (lt_of_le_of_lt he text.short)]
      exact iff_of_true hboth (.inr (Option.some_ne_none e))

/-- **When a string search is right.** Both algorithms always are; the top level fails when a start
is given without an end. -/
theorem string_search_iff (pattern text : Text α) (start stop : Option Nat)
    (hp : pattern.chars ≠ []) (hstart : start.getD 0 ≤ stop.getD text.chars.length)
    (hstop : stop.getD text.chars.length ≤ text.chars.length) :
    ((∃ r, stringSearchForward pattern text start stop = .ok r ∧ LeastOf (hits pattern.chars
          text.chars (start.getD 0 : Nat) (stop.getD text.chars.length : Nat)) r) ↔
        start = none ∨ stop ≠ none) ∧
      ((∃ r, stringSearchBackward pattern text start stop = .ok r ∧ GreatestOf (hits pattern.chars
          text.chars (start.getD 0 : Nat) (stop.getD text.chars.length : Nat)) r) ↔
        start = none ∨ stop ≠ none) ∧
      ((∃ l, stringSearchAll pattern text start stop = .ok l ∧ Lists (hits pattern.chars
          text.chars (start.getD 0 : Nat) (stop.getD text.chars.length : Nat)) l) ↔
        start = none ∨ stop ≠ none) ∧
      ∀ tstart tend, tstart ≤ tend → tend ≤ text.chars.length →
        naiveSearchForward pattern.chars pattern.chars.length text.chars tstart tend =
            kmpSearchForward pattern.chars pattern.chars.length text.chars tstart tend ∧
          naiveSearchBackward pattern.chars pattern.chars.length text.chars tstart tend =
            kmpSearchBackward pattern.chars pattern.chars.length text.chars tstart tend ∧
          naiveSearchAll pattern.chars pattern.chars.length text.chars tstart tend =
            kmpSearchAll pattern.chars pattern.chars.length text.chars tstart tend := by
  have hn : 0 < pattern.chars.length := List.length_pos_iff.mpr hp
  refine ⟨stringMatcher_returns_iff pattern text hp hstart hstop (naiveSearchForward_spec hstop)
      (kmpSearchForward_spec hn hstop hstart),
    stringMatcher_returns_iff pattern text hp hstart hstop (naiveSearchBackward_spec hstop)
      (kmpSearchBackward_spec hn hstop hstart),
    stringMatcher_returns_iff pattern text hp hstart hstop (naiveSearchAll_spec hstop)
      (kmpSearchAll_spec hn hstop hstart), fun tstart tend hle hend => ⟨?_, ?_, ?_⟩⟩
  · exact eq_of_returns (naiveSearchForward_spec hend) (kmpSearchForward_spec hn hend hle)
      LeastOf.unique
  · exact eq_of_returns (naiveSearchBackward_spec hend) (kmpSearchBackward_spec hn hend hle)
      GreatestOf.unique
  · exact eq_of_returns (naiveSearchAll_spec hend) (kmpSearchAll_spec hn hend hle) Lists.unique

/-- The last of three places, the second of which overlaps it. -/
theorem string_search_overlapping :
    ∃ r, stringSearchBackward ⟨[0, 1, 0], by decide⟩ ⟨[0, 1, 0, 0, 1, 0, 1, 0], by decide⟩ none none =
        .ok r ∧
      GreatestOf (hits [0, 1, 0] [0, 1, 0, 0, 1, 0, 1, 0] (0 : Nat) (8 : Nat)) r :=
  (string_search_iff (⟨[0, 1, 0], by decide⟩ : Text Nat) ⟨[0, 1, 0, 0, 1, 0, 1, 0], by decide⟩ none
    none (by decide) (by decide) (by decide)).2.1.mpr (.inl rfl)

/-- A start without an end. -/
theorem string_search_start_only :
    stringSearchForward (⟨[1], by decide⟩ : Text Nat) ⟨[0, 0, 0, 0, 0, 0, 0, 0, 0, 1], by decide⟩
        (some 9) none = .error .wrongType ∧
      stringSearchForward (⟨[1], by decide⟩ : Text Nat) ⟨[0, 0, 0, 0, 0, 0, 0, 0, 0, 1], by decide⟩
        (some 9) (some 10) = .ok (some 9) := by
  decide +kernel

end MitScheme.Runtime.StringSearch
