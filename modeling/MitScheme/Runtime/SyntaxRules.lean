import Mathlib.Data.List.Perm.Subperm
import Mathlib.Data.List.TakeWhile

/-! # Syntax-rules: patterns, templates and dictionaries

The rewritten forms of `syntax-rules.scm`, keyed by symbols there and by
constructors here. Patterns and templates are the same forms; an element may be
followed by ellipses. A dictionary is a list of bindings. -/

namespace MitScheme.Runtime.SyntaxRules

/-- A datum; an `atom` is whatever the matcher only compares with `equal?`. -/
inductive Datum (Id Atom : Type)
  | ident (id : Id)
  | atom (a : Atom)
  | null
  | pair (car cdr : Datum Id Atom)
  | vector (elts : List (Datum Id Atom))

mutual

inductive Form (Id Atom : Type)
  | list (elts : List (Elt Id Atom))
  | dottedList (elts : List (Elt Id Atom)) (tail : Form Id Atom)
  | vector (elts : List (Elt Id Atom))
  | literalId (id : Id)
  | literal (a : Atom)
  | var (id : Id)
  | anonVar

/-- An element of a list or vector, `segment` being `(* body)`. -/
inductive Elt (Id Atom : Type)
  | one (form : Form Id Atom)
  | segment (body : Elt Id Atom)

end

inductive Fault
  | wrongType
  | unknownMarker

variable {Id Atom : Type}

/-! ## Data -/

namespace Datum

def car : Datum Id Atom → Except Fault (Datum Id Atom)
  | .pair a _ => .ok a
  | _ => .error .wrongType

def cdr : Datum Id Atom → Except Fault (Datum Id Atom)
  | .pair _ d => .ok d
  | _ => .error .wrongType

/-- `null?`. -/
def isNull : Datum Id Atom → Bool
  | .null => true
  | _ => false

/-- `pair?`. -/
def isPair : Datum Id Atom → Bool
  | .pair _ _ => true
  | _ => false

/-- `list?`. -/
def isList : Datum Id Atom → Bool
  | .pair _ d => d.isList
  | d => d.isNull

/-- `count-pairs`, on a list also `length`. -/
def countPairs : Datum Id Atom → Nat
  | .pair _ d => d.countPairs + 1
  | _ => 0

def items : Datum Id Atom → List (Datum Id Atom)
  | .pair a d => a :: d.items
  | _ => []

def final : Datum Id Atom → Datum Id Atom
  | .pair _ d => d.final
  | d => d

def ofList : List (Datum Id Atom) → Datum Id Atom → Datum Id Atom
  | [], tail => tail
  | d :: ds, tail => .pair d (ofList ds tail)

theorem ofList_items : ∀ d : Datum Id Atom, ofList d.items d.final = d
  | .pair a d => by rw [items, final, ofList, ofList_items d]
  | .ident _ => rfl
  | .atom _ => rfl
  | .null => rfl
  | .vector _ => rfl

theorem isPair_final : ∀ d : Datum Id Atom, d.final.isPair = false
  | .pair _ d => isPair_final d
  | .ident _ => rfl
  | .atom _ => rfl
  | .null => rfl
  | .vector _ => rfl

@[simp] theorem items_ofList (tail : Datum Id Atom) :
    ∀ ds : List (Datum Id Atom), (ofList ds tail).items = ds ++ tail.items
  | [] => rfl
  | d :: ds => by rw [ofList, items, items_ofList tail ds, List.cons_append]

@[simp] theorem final_ofList (tail : Datum Id Atom) :
    ∀ ds : List (Datum Id Atom), (ofList ds tail).final = tail.final
  | [] => rfl
  | d :: ds => by rw [ofList, final, final_ofList tail ds]

theorem items_of_not_isPair {d : Datum Id Atom} (h : d.isPair = false) : d.items = [] := by
  cases d with
  | pair a d => cases h
  | _ => rfl

theorem countPairs_eq : ∀ d : Datum Id Atom, d.countPairs = d.items.length
  | .pair _ d => by rw [countPairs, items, List.length_cons, countPairs_eq d]
  | .ident _ => rfl
  | .atom _ => rfl
  | .null => rfl
  | .vector _ => rfl

theorem isList_eq : ∀ d : Datum Id Atom, d.isList = d.final.isNull
  | .pair _ d => isList_eq d
  | .ident _ => rfl
  | .atom _ => rfl
  | .null => rfl
  | .vector _ => rfl

theorem isNull_iff {d : Datum Id Atom} : d.isNull = true ↔ d = .null := by
  cases d <;> simp [isNull]

theorem ofList_append (tail : Datum Id Atom) (b : List (Datum Id Atom)) :
    ∀ a : List (Datum Id Atom), ofList (a ++ b) tail = ofList a (ofList b tail)
  | [] => rfl
  | d :: a => by rw [List.cons_append, ofList, ofList, ofList_append tail b a]

end Datum

/-! ## Elements -/

namespace Elt

/-- `segment?`. -/
def isSegment : Elt Id Atom → Bool
  | .one _ => false
  | .segment _ => true

def countSegments : Elt Id Atom → Nat
  | .one _ => 0
  | .segment body => body.countSegments + 1

/-- `strip-segments`. -/
def strip : Elt Id Atom → Form Id Atom
  | .one form => form
  | .segment body => body.strip

end Elt

def leading (elts : List (Elt Id Atom)) : Nat := (elts.takeWhile (!·.isSegment)).length

def leftover (elts : List (Elt Id Atom)) (ds : List (Datum Id Atom)) : List (Datum Id Atom) :=
  if elts.any (·.isSegment) then [] else ds.drop elts.length

theorem oneSegment_tail {e} {elts : List (Elt Id Atom)}
    (h : (e :: elts).countP (·.isSegment) ≤ 1) : elts.countP (·.isSegment) ≤ 1 :=
  Nat.le_trans (List.sublist_cons_self e elts).countP_le h

theorem fixed_of_segment {body} {elts : List (Elt Id Atom)}
    (h : (Elt.segment body :: elts).countP (·.isSegment) ≤ 1) :
    ∀ e ∈ elts, e.isSegment = false := by
  rw [List.countP_cons_of_pos rfl] at h
  have hzero : elts.countP (·.isSegment) = 0 := by omega
  intro e he
  simpa using List.countP_eq_zero.mp hzero e he

theorem row_cases {elts : List (Elt Id Atom)} (h : elts.countP (·.isSegment) ≤ 1) :
    (∀ e ∈ elts, e.isSegment = false) ∨
      ∃ pre body post, elts = pre ++ (.segment body :: post : List (Elt Id Atom)) ∧
        (∀ e ∈ pre, e.isSegment = false) ∧ ∀ e ∈ post, e.isSegment = false := by
  induction elts with
  | nil =>
    left
    intro e he
    cases he
  | cons e elts ih =>
    cases e with
    | one form =>
      obtain hfix | ⟨pre, body, post, rfl, hpre, hpost⟩ := ih (oneSegment_tail h)
      · left
        intro e he
        obtain rfl | he := List.mem_cons.mp he
        · rfl
        · exact hfix e he
      · refine .inr ⟨.one form :: pre, body, post, rfl, ?_, hpost⟩
        intro e he
        obtain rfl | he := List.mem_cons.mp he
        · rfl
        · exact hpre e he
    | segment body =>
      exact .inr ⟨[], body, elts, rfl, List.forall_mem_nil _, fixed_of_segment h⟩

theorem leading_of_fixed {elts : List (Elt Id Atom)} (h : ∀ e ∈ elts, e.isSegment = false) :
    leading elts = elts.length := by
  unfold leading
  rw [List.takeWhile_eq_self_iff.mpr]
  intro e he
  simp [h e he]

theorem leading_append {pre : List (Elt Id Atom)} (h : ∀ e ∈ pre, e.isSegment = false)
    (body : Elt Id Atom) (post : List (Elt Id Atom)) : leading (pre ++ .segment body :: post) = pre.length := by
  unfold leading
  rw [List.takeWhile_append_of_pos]
  · simp [Elt.isSegment]
  · intro e he
    simp [h e he]

theorem leftover_of_fixed {elts} (h : ∀ e ∈ elts, e.isSegment = false) (ds : List (Datum Id Atom)) :
    leftover elts ds = ds.drop elts.length := by
  unfold leftover
  rw [if_neg]
  simpa using h

theorem leftover_append (pre : List (Elt Id Atom)) (body : Elt Id Atom)
    (post : List (Elt Id Atom)) (ds : List (Datum Id Atom)) :
    leftover (pre ++ .segment body :: post) ds = [] := by
  unfold leftover
  rw [if_pos]
  simp [Elt.isSegment]

mutual

/-- The identifiers of `compute-segments`. -/
def Form.vars : Form Id Atom → List Id
  | .list elts => eltsVars elts
  | .dottedList elts tail => eltsVars elts ++ tail.vars
  | .vector elts => eltsVars elts
  | .var id => [id]
  | _ => []

def Elt.vars : Elt Id Atom → List Id
  | .one form => form.vars
  | .segment body => body.vars

def eltsVars : List (Elt Id Atom) → List Id
  | [] => []
  | e :: elts => e.vars ++ eltsVars elts

end

mutual

def Form.checkForMultipleSegments : Form Id Atom → Bool
  | .list elts => decide (elts.countP (·.isSegment) ≤ 1) && checkElts elts
  | .dottedList elts tail =>
    decide (elts.countP (·.isSegment) ≤ 1) && checkElts elts && tail.checkForMultipleSegments
  | .vector elts => decide (elts.countP (·.isSegment) ≤ 1) && checkElts elts
  | _ => true

def Elt.checkStripped : Elt Id Atom → Bool
  | .one form => form.checkForMultipleSegments
  | .segment body => body.checkStripped

def checkElts : List (Elt Id Atom) → Bool
  | [] => true
  | e :: elts => decide (e.countSegments ≤ 1) && e.checkStripped && checkElts elts

end

/-! ## Dictionaries -/

/-- What a pattern variable is bound to: a datum or a nested list of data. -/
inductive Nest (Id Atom : Type)
  | datum (d : Datum Id Atom)
  | seq (items : List (Nest Id Atom))

structure Binding (Id Atom : Type) where
  id : Id
  datum : Nest Id Atom
  depth : Nat

abbrev Dict (Id Atom : Type) := List (Binding Id Atom)

variable [DecidableEq Id]

/-- The binding of an identifier, as `assq` finds it. -/
def lookup (id : Id) (dict : Dict Id Atom) : Option (Binding Id Atom) :=
  dict.find? (·.id = id)

/-- `lset-union` of two lists. -/
def union2 (ids ans : List Id) : List Id :=
  if ids = [] then ans
  else if ans = [] then ids
  else ids.foldl (fun ans id => if id ∈ ans then ans else id :: ans) ans

def lsetUnion : List (List Id) → List Id
  | [] => []
  | ids :: rest => rest.foldl (fun ans ids => union2 ids ans) ids

/-- One binding of `wrap-dicts`. -/
def wrapBinding (dicts : List (Dict Id Atom)) (id : Id) : Binding Id Atom :=
  let found := dicts.map (lookup id)
  { id
    datum := .seq (found.map fun b => (b.map (·.datum)).getD (.seq [])).reverse
    depth := ((found.find? (·.isSome)).join.map (·.depth)).getD 0 + 1 }

def wrapDicts (dicts : List (Dict Id Atom)) (tail : Dict Id Atom) : Dict Id Atom :=
  (lsetUnion (dicts.map fun dict => dict.map (·.id))).map (wrapBinding dicts) ++ tail

theorem wrapDicts_eq (dicts : List (Dict Id Atom)) (tail : Dict Id Atom) :
    wrapDicts dicts tail = wrapDicts dicts [] ++ tail := by
  rw [wrapDicts, wrapDicts, List.append_nil]

theorem mem_foldl_insert {id} : ∀ (ids ans : List Id),
    id ∈ ids.foldl (fun ans id => if id ∈ ans then ans else id :: ans) ans ↔
      id ∈ ids ∨ id ∈ ans
  | [], ans => by simp
  | x :: ids, ans => by
    rw [List.foldl_cons, mem_foldl_insert ids]
    split
    case isTrue hx =>
      rw [List.mem_cons]
      constructor
      · rintro (h | h)
        · exact .inl (.inr h)
        · exact .inr h
      · rintro ((rfl | h) | h)
        · exact .inr hx
        · exact .inl h
        · exact .inr h
    case isFalse =>
      rw [List.mem_cons, List.mem_cons]
      tauto

theorem mem_union2 {id} (ids ans : List Id) : id ∈ union2 ids ans ↔ id ∈ ids ∨ id ∈ ans := by
  unfold union2
  split
  case isTrue h => simp [h]
  case isFalse =>
    split
    case isTrue h => simp [h]
    case isFalse => exact mem_foldl_insert ids ans

theorem mem_foldl_union2 {id} : ∀ (lists : List (List Id)) (ids : List Id),
    id ∈ lists.foldl (fun ans ids => union2 ids ans) ids ↔ (∃ l ∈ lists, id ∈ l) ∨ id ∈ ids
  | [], ids => by simp
  | l :: lists, ids => by
    rw [List.foldl_cons, mem_foldl_union2 lists, mem_union2, ← or_assoc]
    simp only [List.mem_cons, exists_eq_or_imp]
    exact or_congr_left or_comm

theorem mem_lsetUnion {id} : ∀ lists : List (List Id),
    id ∈ lsetUnion lists ↔ ∃ l ∈ lists, id ∈ l
  | [] => by simp [lsetUnion]
  | l :: lists => by
    rw [lsetUnion, mem_foldl_union2]
    simp only [List.mem_cons, exists_eq_or_imp]
    exact or_comm

theorem nodup_foldl_insert : ∀ (ids : List Id) {ans : List Id}, ans.Nodup →
    (ids.foldl (fun ans id => if id ∈ ans then ans else id :: ans) ans).Nodup
  | [], _, h => h
  | id :: ids, ans, h => by
    rw [List.foldl_cons]
    refine nodup_foldl_insert ids ?_
    split
    case isTrue => exact h
    case isFalse hid => exact List.nodup_cons.mpr ⟨hid, h⟩

theorem nodup_union2 {ids ans : List Id} (hids : ids.Nodup) (hans : ans.Nodup) :
    (union2 ids ans).Nodup := by
  unfold union2
  split
  · exact hans
  · split
    · exact hids
    · exact nodup_foldl_insert ids hans

theorem nodup_foldl_union2 : ∀ {lists : List (List Id)} {ids : List Id}, ids.Nodup →
    (∀ l ∈ lists, l.Nodup) → (lists.foldl (fun ans ids => union2 ids ans) ids).Nodup
  | [], _, h, _ => h
  | l :: lists, ids, h, hall => by
    rw [List.foldl_cons]
    exact nodup_foldl_union2 (nodup_union2 (hall l List.mem_cons_self) h)
      fun l' hl => hall l' (List.mem_cons_of_mem _ hl)

theorem nodup_lsetUnion {lists : List (List Id)} (h : ∀ l ∈ lists, l.Nodup) :
    (lsetUnion lists).Nodup := by
  cases lists with
  | nil => exact List.nodup_nil
  | cons ids rest =>
    exact nodup_foldl_union2 (h ids List.mem_cons_self)
      fun l hl => h l (List.mem_cons_of_mem _ hl)

theorem map_id_wrapDicts (dicts : List (Dict Id Atom)) :
    (wrapDicts dicts []).map (·.id) = lsetUnion (dicts.map fun dict => dict.map (·.id)) := by
  rw [wrapDicts, List.append_nil, List.map_map]
  exact List.map_id _

theorem lookup_append (id : Id) (a b : Dict Id Atom) :
    lookup id (a ++ b) = (lookup id a).or (lookup id b) :=
  List.find?_append

theorem lookup_eq_none {id} {dict : Dict Id Atom} :
    lookup id dict = none ↔ id ∉ dict.map (·.id) := by
  unfold lookup
  rw [List.find?_eq_none]
  simp only [List.mem_map, not_exists, not_and, decide_eq_true_eq]

theorem lookup_wrapDicts (id : Id) (dicts : List (Dict Id Atom)) :
    lookup id (wrapDicts dicts []) =
      if ∃ dict ∈ dicts, lookup id dict ≠ none then some (wrapBinding dicts id) else none := by
  have hfind : ∀ ids : List Id, lookup id (ids.map (wrapBinding dicts)) =
      if id ∈ ids then some (wrapBinding dicts id) else none := by
    intro ids
    induction ids with
    | nil => rfl
    | cons x ids ih =>
      unfold lookup at ih ⊢
      rw [List.map_cons, List.find?_cons]
      by_cases hx : x = id
      · subst hx
        simp [wrapBinding]
      · have hne : id ≠ x := fun h => hx h.symm
        simp only [wrapBinding, hx, decide_false, List.mem_cons, hne, false_or] at ih ⊢
        exact ih
  have hmem : id ∈ lsetUnion (dicts.map fun dict => dict.map (·.id)) ↔
      ∃ dict ∈ dicts, lookup id dict ≠ none := by
    rw [mem_lsetUnion]
    simp only [List.mem_map, exists_exists_and_eq_and, ne_eq, lookup_eq_none, not_not]
  rw [wrapDicts, List.append_nil, hfind]
  simp only [hmem]

end MitScheme.Runtime.SyntaxRules
