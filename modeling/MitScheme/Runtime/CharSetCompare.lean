import MitScheme.Lib.Outcome
import MitScheme.Runtime.CharSetEnumerate

/-! # Character sets: subset comparison

`char-set<=` and `char-set<` compare lists of characters as if they were inversion lists, and their
loop runs on to a list of one element. -/

namespace MitScheme.Runtime.CharSets
open Lib.InversionList Lib.Outcome

variable {ν : Type} {named : ν → Option CharSet} {full cs cs1 cs2 : CharSet} {checked : Bool}

/-- What the lists hold: characters, and the fixnums of `ilist-combiner` itself. -/
inductive Object where
  | fixnum (n : Nat)
  | char (c : Character)
deriving DecidableEq

def datum : Object → Nat
  | .fixnum n => n
  | .char c => c.bits * 2 ^ 21 + c.code

/-- Compiled code compares the data of the objects, and `fix:=` is `eq?` there. The primitives
themselves check that both arguments are fixnums. -/
def objectOps (checked : Bool) : FixnumOps (Except Fault) Object where
  lt
    | .fixnum a, .fixnum b => .ok (decide (a < b))
    | a, b => if checked then .error .wrongType else .ok (decide (datum a < datum b))
  eq
    | .fixnum a, .fixnum b => .ok (decide (a = b))
    | a, b => if checked then .error .wrongType else .ok (decide (a = b))
  zero := .fixnum 0
  limit := .fixnum charCodeLimit

section Comparison

variable (checked : Bool)

/-- `ilist=`. -/
def ilistEq : List Object → List Object → Except Fault Bool
  | a :: il1, b :: il2 => do
    if ← (objectOps checked).eq a b then ilistEq il1 il2 else return false
  | [], [] => return true
  | _, _ => return false

/-- `ilist<=`. -/
def ilistLe (il1 il2 : List Object) : Except Fault Bool := do
  let difference ← ilistCombiner (objectOps checked) (fun a b => a && !b) il2 il1
  ilistEq checked
    (← ilistCombiner (objectOps checked) (fun a b => a || b) difference il1) il2

/-- `ilist<`. -/
def ilistLt (il1 il2 : List Object) : Except Fault Bool := do
  if ← ilistEq checked il1 il2 then return false else ilistLe checked il1 il2

/-- The loop of the two procedures. The rest of the list is a pair whenever the first comparison
could be made, so that the loop goes on until there is no second element. -/
def compareLoop (compare : List Object → List Object → Except Fault Bool) :
    List (List Object) → Except Fault Bool
  | il1 :: il2 :: rest => do
    if ← compare il1 il2 then compareLoop compare (il2 :: rest) else return false
  | _ => .error .wrongType

def memberLists (css : List CharSet) : Except Fault (List (List Object)) :=
  css.mapM fun cs => do return (← charSetToList cs).map Object.char

/-- `char-set<=`. -/
def charSetLe : List CharSet → Except Fault Bool
  | cs1 :: cs2 :: rest => do
    compareLoop (ilistLe checked) (← memberLists (cs1 :: cs2 :: rest))
  | _ => return true

/-- `char-set<`. -/
def charSetLt : List CharSet → Except Fault Bool
  | cs1 :: cs2 :: rest => do
    compareLoop (ilistLt checked) (← memberLists (cs1 :: cs2 :: rest))
  | _ => return true

end Comparison

/-! ## What the comparison is meant to say -/

/-- Every member of `cs1` is a member of `cs2`. -/
def Subset (cs1 cs2 : CharSet) : Prop :=
  ∀ cp < charCodeLimit, codePointInCharSet cp cs1 = true → codePointInCharSet cp cs2 = true

def ProperSubset (cs1 cs2 : CharSet) : Prop := Subset cs1 cs2 ∧ ¬ Subset cs2 cs1

/-- Both procedures answer, and their answers are those of set inclusion. -/
def ComparesSubsets (checked : Bool) (css : List CharSet) : Prop :=
  (∃ b, charSetLe checked css = .ok b ∧ (b = true ↔ css.IsChain Subset)) ∧
    ∃ b, charSetLt checked css = .ok b ∧ (b = true ↔ css.IsChain ProperSubset)

def memberCodes (cs : CharSet) : List Nat := (members cs).map Character.code

/-- What `ilist<=` finds where it takes members for places: the second list is even, and the
ranges that it stands for cover those of the first. -/
def Covers (cs1 cs2 : CharSet) : Prop :=
  (memberCodes cs2).length % 2 = 0 ∧ ∀ cp < charCodeLimit,
    inside (memberCodes cs1) cp = true → inside (memberCodes cs2) cp = true

/-! ## Comparing data -/

def Comparable (o : Object) : Prop :=
  o = .fixnum charCodeLimit ∨ ∃ c : Character, c.bits = 0 ∧ o = .char c

theorem datum_char {c} (h : c.bits = 0) : datum (.char c) = c.code := by
  rw [datum, h, Nat.zero_mul, Nat.zero_add]

theorem Comparable.eq_iff {a b} (ha : Comparable a) (hb : Comparable b) :
    a = b ↔ datum a = datum b := by
  refine ⟨congrArg datum, fun h => ?_⟩
  obtain rfl | ⟨c, hc, rfl⟩ := ha
  · obtain rfl | ⟨d, hd, rfl⟩ := hb
    · rfl
    · rw [datum_char hd] at h
      exact absurd h (Nat.ne_of_gt d.code_lt)
  · rw [datum_char hc] at h
    obtain rfl | ⟨d, hd, rfl⟩ := hb
    · exact absurd h (Nat.ne_of_lt c.code_lt)
    · rw [datum_char hd] at h
      obtain ⟨code1, bits1, h1, h2⟩ := c
      obtain ⟨code2, bits2, h3, h4⟩ := d
      subst h hc hd
      rfl

theorem reads_objectOps : Reads (objectOps false) datum Comparable where
  lt a b := by cases a <;> cases b <;> rfl
  eq a b ha hb := by
    have : (objectOps false).eq a b = .ok (decide (a = b)) := by
      cases a <;> cases b <;> simp [objectOps]
    rw [this]
    exact congrArg Except.ok (decide_eq_decide.mpr (ha.eq_iff hb))
  zero := rfl
  limit := rfl
  limit_ok := .inl rfl

theorem ilistEq_spec {il1 il2} (h1 : ∀ a ∈ il1, Comparable a) (h2 : ∀ a ∈ il2, Comparable a) :
    ilistEq false il1 il2 = .ok (decide (il1.map datum = il2.map datum)) := by
  induction il1 generalizing il2 with
  | nil => cases il2 <;> simp [ilistEq, pure, Except.pure]
  | cons a il1 ih =>
    cases il2 with
    | nil => simp [ilistEq, pure, Except.pure]
    | cons b il2 =>
      have heq := reads_objectOps.eq a b (h1 a List.mem_cons_self) (h2 b List.mem_cons_self)
      rw [ilistEq, heq, pure_bind, ih (fun x hx => h1 x (List.mem_cons_of_mem _ hx))
        fun x hx => h2 x (List.mem_cons_of_mem _ hx)]
      by_cases hab : datum a = datum b
      · simp [hab]
      · simp [hab, pure, Except.pure]

def memberObjects (cs : CharSet) : List Object := (members cs).map Object.char

theorem bits_of_mem {c} (h : c ∈ members cs) : c.bits = 0 := by
  obtain ⟨cp, -, rfl⟩ := List.mem_map.mp h
  rfl

theorem memberObjects_datum : (memberObjects cs).map datum = memberCodes cs := by
  rw [memberObjects, memberCodes, List.map_map]
  exact List.map_congr_left fun c hc => datum_char (bits_of_mem hc)

theorem memberObjects_comparable : ∀ a ∈ memberObjects cs, Comparable a := by
  intro a ha
  obtain ⟨c, hc, rfl⟩ := List.mem_map.mp ha
  exact .inr ⟨c, bits_of_mem hc, rfl⟩

theorem memberCodes_eq : memberCodes cs =
    ((List.finRange charCodeLimit).filter fun cp : Fin charCodeLimit =>
      codePointInCharSet cp cs).map Fin.val := by
  rw [memberCodes, members, List.map_map]
  rfl

theorem memberCodes_increasing : (memberCodes cs).Pairwise (· < ·) := by
  rw [memberCodes_eq]
  exact List.pairwise_map.mpr ((List.pairwise_lt_finRange _).filter _)

theorem mem_memberCodes {cp} :
    cp ∈ memberCodes cs ↔ cp < charCodeLimit ∧ codePointInCharSet cp cs = true := by
  rw [memberCodes_eq, List.mem_map]
  constructor
  · rintro ⟨x, hx, rfl⟩
    exact ⟨x.isLt, (List.mem_filter.mp hx).2⟩
  · rintro ⟨hlt, hmem⟩
    exact ⟨⟨cp, hlt⟩, List.mem_filter.mpr ⟨List.mem_finRange _, hmem⟩, rfl⟩

theorem ilistLe_members [Decidable (Covers cs1 cs2)] :
    ilistLe false (memberObjects cs1) (memberObjects cs2) = .ok (decide (Covers cs1 cs2)) := by
  have hsorted (cs : CharSet) : ((memberObjects cs).map datum).Pairwise (· ≤ ·) := by
    rw [memberObjects_datum]
    exact memberCodes_increasing.imp fun h => le_of_lt h
  have hok (cs : CharSet) : ∀ a ∈ memberObjects cs, Comparable a ∧ datum a ≤ charCodeLimit := by
    intro a ha
    refine ⟨memberObjects_comparable a ha, ?_⟩
    have : datum a ∈ memberCodes cs := by
      rw [← memberObjects_datum]
      exact List.mem_map_of_mem ha
    exact (mem_memberCodes.mp this).1.le
  obtain ⟨d, hd, hdcanon, hdok, hdinside⟩ :=
    ilistCombiner_spec (fun a b => a && !b) reads_objectOps rfl (hsorted cs2) (hsorted cs1) (hok cs2)
    (hok cs1)
  obtain ⟨u, hu, hucanon, huok, huinside⟩ :=
    ilistCombiner_spec (fun a b => a || b) reads_objectOps rfl hdcanon.ordered.nondecreasing (hsorted cs1)
    (fun a ha => ⟨hdok a ha, hdcanon.le_limit _ (List.mem_map_of_mem ha)⟩) (hok cs1)
  rw [ilistLe, hd, pure_bind, hu, pure_bind, ilistEq_spec huok memberObjects_comparable]
  refine congrArg Except.ok (decide_eq_decide.mpr ?_)
  rw [memberObjects_datum] at hdinside ⊢
  rw [memberObjects_datum] at hdinside huinside
  have hunion {cp : Nat} (hcp : cp < charCodeLimit) : inside (u.map datum) cp =
      (inside (memberCodes cs2) cp || inside (memberCodes cs1) cp) := by
    rw [huinside cp hcp, hdinside cp hcp]
    cases inside (memberCodes cs1) cp <;> cases inside (memberCodes cs2) cp <;> rfl
  constructor
  · intro heq
    rw [heq] at hucanon hunion
    refine ⟨hucanon.even, fun cp hcp h1 => ?_⟩
    rw [hunion hcp, h1, Bool.or_true]
  · rintro ⟨heven, hcover⟩
    have hcanon : Canonical (memberCodes cs2) :=
      ⟨heven, memberCodes_increasing, fun a ha => (mem_memberCodes.mp ha).1.le⟩
    refine hucanon.ext hcanon fun cp hcp => ?_
    rw [hunion hcp]
    have := hcover cp hcp
    cases h1 : inside (memberCodes cs1) cp
    · rw [Bool.or_false]
    · rw [this h1]
      rfl

/-! ## The loop -/

theorem compareLoop_ne_true (compare ils) : compareLoop compare ils ≠ .ok true := by
  fun_induction compareLoop compare ils with
  | case1 il1 il2 rest ih =>
    cases compare il1 il2 with
    | error f => rintro ⟨⟩
    | ok b =>
      cases b with
      | false => rintro ⟨⟩
      | true => exact ih
  | case2 ils hne => rintro ⟨⟩

theorem compareLoop_eq_false {compare : List Object → List Object → Except Fault Bool}
    {R : CharSet → CharSet → Prop}
    (htrue : ∀ a b, R a b → compare (memberObjects a) (memberObjects b) = .ok true)
    (hfalse : ∀ a b, ¬ R a b → compare (memberObjects a) (memberObjects b) = .ok false)
    (css : List CharSet) :
    compareLoop compare (css.map memberObjects) = .ok false ↔ ¬ css.IsChain R := by
  induction css with
  | nil => exact iff_of_false (by rintro ⟨⟩) (by simp)
  | cons a css ih =>
    cases css with
    | nil => exact iff_of_false (by rintro ⟨⟩) (by simp)
    | cons b css =>
      rw [List.map_cons, List.map_cons, compareLoop, ← List.map_cons, List.isChain_cons_cons]
      by_cases hab : R a b
      · rw [htrue a b hab]
        show compareLoop compare _ = _ ↔ _
        rw [ih]
        simp [hab]
      · rw [hfalse a b hab]
        exact iff_of_true rfl (by simp [hab])

theorem ilistLe_checked (l1 l2 : List Character) :
    ilistLe true (l1.map Object.char) (l2.map Object.char) ≠ .ok false := by
  have hnil (combine : Bool → Bool → Bool) (h : combine false false = false) :
      ilistCombiner (objectOps true) combine [] [] = .ok [] := by
    rw [ilistCombiner, combineLoop_nil_left, combineTail]
    show (do return (← process (objectOps true) combine 0 _ _ []).reverse) = _
    unfold process
    show (if (true && combine false false) = true then _ else _) >>= _ = _
    rw [h]
    rfl
  rcases l1 with _ | ⟨c1, l1⟩ <;> rcases l2 with _ | ⟨c2, l2⟩
  · rw [ilistLe, List.map_nil, hnil _ rfl]
    show ilistCombiner (objectOps true) _ [] [] >>= _ ≠ _
    rw [hnil _ rfl]
    rintro ⟨⟩
  all_goals
    rw [ilistLe, ilistCombiner]
    unfold combineLoop
    rintro ⟨⟩

theorem compareLoop_checked (css : List CharSet) :
    compareLoop (ilistLe true) (css.map memberObjects) ≠ .ok false := by
  induction css with
  | nil => rintro ⟨⟩
  | cons a css ih =>
    cases css with
    | nil => rintro ⟨⟩
    | cons b css =>
      rw [List.map_cons, List.map_cons, compareLoop, ← List.map_cons]
      have hle := ilistLe_checked (members a) (members b)
      change ilistLe true (memberObjects a) (memberObjects b) ≠ _ at hle
      cases h : ilistLe true (memberObjects a) (memberObjects b) with
      | error f => rintro ⟨⟩
      | ok r =>
        cases r with
        | false => exact absurd h hle
        | true => exact ih

theorem memberLists_eq {css} (hcss : ∀ c ∈ css, Built False c) :
    memberLists css = .ok (css.map memberObjects) := by
  induction css with
  | nil => rfl
  | cons c css ih =>
    have hlist : charSetToList c = .ok (members c) := by
      rw [charSetToList, charSetFoldRight_eq (hcss c List.mem_cons_self)]
      simp
    rw [memberLists, List.mapM_cons, hlist]
    have := ih fun x hx => hcss x (List.mem_cons_of_mem _ hx)
    rw [memberLists] at this
    rw [this]
    rfl

theorem ilistLt_members [Decidable (memberCodes cs1 ≠ memberCodes cs2 ∧ Covers cs1 cs2)] :
    ilistLt false (memberObjects cs1) (memberObjects cs2) =
      .ok (decide (memberCodes cs1 ≠ memberCodes cs2 ∧ Covers cs1 cs2)) := by
  classical
  rw [ilistLt, ilistEq_spec memberObjects_comparable memberObjects_comparable, ok_bind,
    memberObjects_datum, memberObjects_datum, ilistLe_members]
  by_cases heq : memberCodes cs1 = memberCodes cs2
  · simp [heq, pure, Except.pure]
  · simp [heq]

/-- **Subset comparison**: on two or more sets the procedures do what they should exactly where the
comparisons are compiled, the sets do not increase, and some set does not cover the one before it
when members are taken for places. -/
theorem comparesSubsets_iff {rest : List CharSet}
    (hcss : ∀ c ∈ cs1 :: cs2 :: rest, Obtainable named full (fun _ _ => True) c) :
    ComparesSubsets checked (cs1 :: cs2 :: rest) ↔ checked = false ∧
      ¬ (cs1 :: cs2 :: rest).IsChain Subset ∧ ¬ (cs1 :: cs2 :: rest).IsChain Covers := by
  classical
  have hlists := memberLists_eq fun c hc => (hcss c hc).built fun _ hs => hs.elim
  have hle : charSetLe checked (cs1 :: cs2 :: rest) =
      compareLoop (ilistLe checked) ((cs1 :: cs2 :: rest).map memberObjects) := by
    rw [charSetLe, hlists, ok_bind]
  have hlt : charSetLt checked (cs1 :: cs2 :: rest) =
      compareLoop (ilistLt checked) ((cs1 :: cs2 :: rest).map memberObjects) := by
    rw [charSetLt, hlists, ok_bind]
  have hanswer {answer : Except Fault Bool} {P : Prop} (hne : answer ≠ .ok true) :
      (∃ b, answer = .ok b ∧ (b = true ↔ P)) ↔ answer = .ok false ∧ ¬ P := by
    constructor
    · rintro ⟨b, hb, hP⟩
      cases b with
      | true => exact absurd hb hne
      | false => exact ⟨hb, fun hp => Bool.false_ne_true (hP.mpr hp)⟩
    · rintro ⟨hb, hP⟩
      exact ⟨false, hb, iff_of_false Bool.false_ne_true hP⟩
  rw [ComparesSubsets, hanswer (hle ▸ compareLoop_ne_true _ _),
    hanswer (hlt ▸ compareLoop_ne_true _ _), hle, hlt]
  cases checked with
  | true =>
    exact iff_of_false (fun h => compareLoop_checked _ h.1.1) fun h => by simpa using h.1
  | false =>
    rw [compareLoop_eq_false (R := Covers) (fun a b h => by rw [ilistLe_members, decide_eq_true h])
        (fun a b h => by rw [ilistLe_members, decide_eq_false h]),
      compareLoop_eq_false (R := fun a b => memberCodes a ≠ memberCodes b ∧ Covers a b)
        (fun a b h => by rw [ilistLt_members, decide_eq_true h])
        (fun a b h => by rw [ilistLt_members, decide_eq_false h])]
    constructor
    · rintro ⟨⟨hcovers, hsubset⟩, -⟩
      exact ⟨rfl, hsubset, hcovers⟩
    · rintro ⟨-, hsubset, hcovers⟩
      exact ⟨⟨hcovers, hsubset⟩, fun h => hcovers (h.imp fun _ _ hab => hab.2),
        fun h => hsubset (h.imp fun _ _ hab => hab.1)⟩

/-- Two equal sets are in order, so that the procedures cannot be right there. -/
theorem not_comparesSubsets_letters :
    ¬ ComparesSubsets false [listToCharSet [letterA] none, listToCharSet [letterA] none] := by
  have hcss : ∀ c ∈ [listToCharSet [letterA] none, listToCharSet [letterA] none],
      Obtainable (fun _ : Unit => none) charSetEmpty (fun _ _ => True) c := by
    intro c hc
    obtain rfl : c = listToCharSet [letterA] none := by simpa using hc
    exact obtainable_letterA
  intro h
  exact ((comparesSubsets_iff hcss).mp h).2.1 (by simp [Subset])

/-- The empty set is a subset of itself, and `char-set<=` does not say so. -/
theorem empty_not_le_empty : ¬ ∃ b, charSetLe false [charSetEmpty, charSetEmpty] = .ok b ∧
    (b = true ↔ [charSetEmpty, charSetEmpty].IsChain Subset) := by
  rintro ⟨b, hb, hchain⟩
  have htrue : b = true := hchain.mpr (by simp [Subset])
  subst htrue
  rw [charSetLe] at hb
  obtain ⟨ils, -, hb⟩ := bind_eq_ok hb
  exact compareLoop_ne_true _ _ hb

end MitScheme.Runtime.CharSets
