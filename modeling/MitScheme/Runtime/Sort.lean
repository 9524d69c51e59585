import Mathlib.Data.List.Induction
import MitScheme.Lib.Outcome
import MitScheme.Lib.StableSort

/-! # Sorting

`merge-sort` of `msort.scm` and `quick-sort` of `qsort.scm` on vectors of a heap. A reference or
an assignment outside a vector is a fault. -/

namespace MitScheme.Runtime.Sort
open Lib.Outcome Lib.StableSort Function
open List (length_append length_cons length_nil)

inductive Fault
  | badRange
  | wrongType
  | outOfFuel

abbrev Result (α : Type) := Except Fault α

/-- The vectors by their addresses; those from `next` on are not allocated yet. -/
structure Heap (α : Type) where
  contents : Nat → List α
  next : Nat

inductive Object (α : Type)
  | vector (address : Nat)
  | list (elements : List α)
  | other

variable {α : Type}

def Heap.put (heap : Heap α) (v : Nat) (elements : List α) : Heap α :=
  { heap with contents := update heap.contents v elements }

@[simp] theorem Heap.put_same (heap : Heap α) (v elements) :
    (heap.put v elements).contents v = elements := update_self ..

variable {v w : Nat}

theorem Heap.put_of_ne (heap : Heap α) (h : w ≠ v) (elements) :
    (heap.put v elements).contents w = heap.contents w := update_of_ne h ..

@[simp] theorem Heap.put_put (heap : Heap α) (v xs ys) :
    (heap.put v xs).put v ys = heap.put v ys := by
  rw [Heap.put, Heap.put, Heap.put, update_idem]

theorem Heap.put_comm (heap : Heap α) (h : v ≠ w) (xs ys) :
    (heap.put v xs).put w ys = (heap.put w ys).put v xs := by
  rw [Heap.put, Heap.put, Heap.put, Heap.put, update_comm h]

theorem Heap.put_twice (heap : Heap α) (h : v ≠ w) (xs ys xs' ys') :
    (((heap.put v xs).put w ys).put v xs').put w ys' = (heap.put v xs').put w ys' := by
  rw [Heap.put_comm _ h.symm, Heap.put_put, Heap.put_put]

theorem Heap.put_eq_self {heap : Heap α} {elements : List α} (h : heap.contents v = elements) :
    heap.put v elements = heap := by
  rw [← h, Heap.put, update_eq_self]

def Heap.alloc (heap : Heap α) (elements : List α) : Nat × Heap α :=
  (heap.next, { heap.put heap.next elements with next := heap.next + 1 })

def vectorRef (heap : Heap α) (v : Nat) (i : Int) : Result α :=
  if 0 ≤ i then
    match (heap.contents v)[i.toNat]? with
    | some x => .ok x
    | none => .error .badRange
  else .error .badRange

def vectorSet (heap : Heap α) (v : Nat) (i : Int) (x : α) : Result (Heap α) :=
  if 0 ≤ i ∧ i < (heap.contents v).length then
    .ok (heap.put v ((heap.contents v).set i.toNat x))
  else .error .badRange

/-- `get-key`, for an optional key procedure. -/
def getKey (key : Option (α → α)) (x : α) : α :=
  match key with
  | none => x
  | some key => key x

/-- The common body of `merge-sort` and `quick-sort`: the procedure that sorts in place gets a copy
of the vector, or a new vector with the elements of the list. -/
def sortCopy (sortInPlace : Heap α → Nat → Result (Heap α)) (heap : Heap α) :
    Object α → Result (Object α × Heap α)
  | .vector v => do
    let (w, heap) := heap.alloc (heap.contents v)
    let heap ← sortInPlace heap w
    return (.vector w, heap)
  | .list elements => do
    let (w, heap) := heap.alloc elements
    let heap ← sortInPlace heap w
    return (.list (heap.contents w), heap)
  | .other => .error .wrongType

section
variable (pred : α → α → Bool) (key : Option (α → α))

/-! ## Merge sort -/

/-- The test of the loop `merge`: the next element is the first of the left half. -/
def fromLeft (heap : Heap α) (temp middle high p1 p2 : Nat) : Result Bool :=
  if p1 < middle then
    if p2 = high then .ok true
    else do
      let x2 ← vectorRef heap temp p2
      let x1 ← vectorRef heap temp p1
      return !pred (getKey key x2) (getKey key x1)
  else .ok false

/-- The loop `merge`. The sum of two indices of a vector is a fixnum. -/
def merge (heap : Heap α) (v temp middle high p p1 p2 : Nat) : Result (Heap α) :=
  if p < high then do
    if ← fromLeft pred key heap temp middle high p1 p2 then
      let heap ← vectorSet heap v p (← vectorRef heap temp p1)
      merge heap v temp middle high (p + 1) (p1 + 1) p2
    else
      let heap ← vectorSet heap v p (← vectorRef heap temp p2)
      merge heap v temp middle high (p + 1) p1 (p2 + 1)
  else .ok heap
termination_by high - p

def sortSubvector (heap : Heap α) (v temp : Nat) (low high : Nat) : Result (Heap α) := do
  if high - low > 1 then
    let middle := (low + high) / 2
    let heap ← sortSubvector heap temp v low middle
    let heap ← sortSubvector heap temp v middle high
    merge pred key heap v temp middle high low low middle
  else return heap
termination_by high - low

/-- `merge-sort!` of a vector. -/
def mergeSortInPlace (heap : Heap α) (v : Nat) : Result (Heap α) :=
  let (temp, heap) := heap.alloc (heap.contents v)
  sortSubvector pred key heap v temp 0 (heap.contents v).length

def mergeSort (heap : Heap α) (argument : Object α) : Result (Object α × Heap α) :=
  sortCopy (mergeSortInPlace pred key) heap argument

/-! ## Quick sort -/

def exchange (heap : Heap α) (v : Nat) (i j : Int) : Result (Heap α) := do
  let ithElement ← vectorRef heap v i
  let heap ← vectorSet heap v i (← vectorRef heap v j)
  vectorSet heap v j ithElement

def increaseI (heap : Heap α) (v : Nat) (lthKey : α) (r i : Int) : Result Int := do
  if i > r then return i
  else if pred lthKey (getKey key (← vectorRef heap v i)) then return i
  else increaseI heap v lthKey r (i + 1)
termination_by (r + 1 - i).toNat

def decreaseJ (heap : Heap α) (v : Nat) (lthKey : α) (l j : Int) : Result Int := do
  if j ≤ l then return j
  else if !pred lthKey (getKey key (← vectorRef heap v j)) then return j
  else decreaseJ heap v lthKey l (j - 1)
termination_by (j - l).toNat

/-- `inner-loop` up to its last exchange, with the place of the pivot. -/
def innerLoop (heap : Heap α) (v : Nat) (lthKey : α) (l r : Int) :
    Nat → Int → Int → Result (Int × Heap α)
  | 0, _, _ => .error .outOfFuel
  | fuel + 1, i, j => do
    if i < j then
      let heap ← exchange heap v i j
      let i ← increaseI pred key heap v lthKey r (i + 1)
      let j ← decreaseJ pred key heap v lthKey l (j - 1)
      innerLoop heap v lthKey l r fuel i j
    else
      let heap ← if j > l then exchange heap v j l else pure heap
      return (j, heap)

def outerLoop (v : Nat) : Nat → Heap α → Int → Int → Result (Heap α)
  | 0, _, _, _ => .error .outOfFuel
  | fuel + 1, heap, l, r => do
    if r > l then
      if r = l + 1 then
        let xr ← vectorRef heap v r
        let xl ← vectorRef heap v l
        if pred (getKey key xr) (getKey key xl) then exchange heap v l r else return heap
      else
        let lthKey := getKey key (← vectorRef heap v l)
        let i ← increaseI pred key heap v lthKey r (l + 1)
        let j ← decreaseJ pred key heap v lthKey l r
        let (j, heap) ← innerLoop pred key heap v lthKey l r fuel i j
        let heap ← outerLoop v fuel heap (j + 1) r
        outerLoop v fuel heap l (j - 1)
    else return heap

/-- `quick-sort!` of a vector, with a bound on the depth of its loops. -/
def quickSortInPlace (fuel : Nat) (heap : Heap α) (v : Nat) : Result (Heap α) :=
  outerLoop pred key v fuel heap 0 ((heap.contents v).length - 1)

def quickSort (fuel : Nat) (heap : Heap α) (argument : Object α) : Result (Object α × Heap α) :=
  sortCopy (quickSortInPlace pred key fuel) heap argument

end

/-! ## References -/

section
variable {heap : Heap α} {v : Nat} {before : List α} {x : α}

theorem vectorRef_append (before after) (h : heap.contents v = before ++ x :: after) {i : Int}
    (hi : i = before.length) : vectorRef heap v i = .ok x := by
  rw [vectorRef, if_pos (by omega), h, hi, Int.toNat_natCast,
    List.getElem?_append_right (Nat.le_refl _), Nat.sub_self]
  rfl

theorem vectorSet_append {after : List α} (h : heap.contents v = before ++ x :: after) {i : Int}
    (hi : i = before.length) (y) :
    vectorSet heap v i y = .ok (heap.put v (before ++ y :: after)) := by
  have hlen : (heap.contents v).length = before.length + (after.length + 1) := by
    rw [h, length_append, length_cons]
  rw [vectorSet, if_pos ⟨by omega, by omega⟩, h, hi, Int.toNat_natCast,
    List.set_append_right _ _ (Nat.le_refl _), Nat.sub_self, List.set_cons_zero]

end

/-! ## Merge sort -/

section
variable {order : StrictWeak α} {key : Option (α → α)} {v temp : Nat}

theorem fromLeft_eq (xs ys) {heap : Heap α} {before between after : List α}
    (htemp : heap.contents temp = before ++ xs ++ between ++ ys ++ after)
    {middle high p1 p2 : Nat} (hp1 : p1 = before.length) (hmiddle : middle = p1 + xs.length)
    (hp2 : p2 = middle + between.length) (hhigh : high = p2 + ys.length) :
    fromLeft order.less key heap temp middle high p1 p2 =
      .ok (match xs, ys with
        | [], _ => false
        | _ :: _, [] => true
        | x :: _, y :: _ => le order (getKey key) x y) := by
  match xs, ys with
  | [], ys => rw [fromLeft, if_neg (by simp only [length_nil] at *; omega)]
  | x :: xs, [] =>
    rw [fromLeft, if_pos (by simp only [length_cons] at *; omega),
      if_pos (by simp only [length_nil] at *; omega)]
  | x :: xs, y :: ys =>
    simp only [length_cons] at hmiddle hhigh
    have hx : vectorRef heap temp p1 = .ok x :=
      vectorRef_append before (xs ++ between ++ (y :: ys) ++ after)
        (by rw [htemp]; simp) (by omega)
    have hy : vectorRef heap temp p2 = .ok y :=
      vectorRef_append (before ++ (x :: xs) ++ between) (ys ++ after)
        (by rw [htemp]; simp) (by simp only [length_append, length_cons]; omega)
    rw [fromLeft, if_pos (by omega), if_neg (by omega), hy, ok_bind, hx, ok_bind]
    rfl

theorem merge_eq (hne : v ≠ temp) {heap : Heap α} (xs ys before rest before' between after')
    {after : List α} (hrest : rest.length = xs.length + ys.length)
    (hv : heap.contents v = before ++ rest ++ after)
    (htemp : heap.contents temp = before' ++ xs ++ between ++ ys ++ after')
    {middle high p p1 p2 : Nat} (hp : p = before.length) (hp1 : p1 = before'.length)
    (hmiddle : middle = p1 + xs.length) (hp2 : p2 = middle + between.length)
    (hhigh : high = p2 + ys.length) (hsum : before.length = before'.length + between.length) :
    merge order.less key heap v temp middle high p p1 p2 =
      .ok (heap.put v (before ++ xs.merge ys (le order (getKey key)) ++ after)) := by
  induction hn : xs.length + ys.length generalizing xs ys heap before rest before' between p p1 p2
    with
  | zero =>
    obtain rfl : xs = [] := List.eq_nil_of_length_eq_zero (by omega)
    obtain rfl : ys = [] := List.eq_nil_of_length_eq_zero (by omega)
    obtain rfl : rest = [] := List.eq_nil_of_length_eq_zero (by omega)
    rw [merge, if_neg (by simp only [length_nil] at *; omega), List.nil_merge,
      Heap.put_eq_self hv]
  | succ n ih =>
    obtain ⟨old, rest, rfl⟩ : ∃ old rest', rest = old :: rest' :=
      List.exists_cons_of_length_eq_add_one (by rw [hrest, hn])
    rw [length_cons] at hrest
    have hstart : heap.contents v = before ++ old :: (rest ++ after) := by rw [hv]; simp
    have hset (x : α) : vectorSet heap v p x = .ok (heap.put v (before ++ [x] ++ rest ++ after)) := by
      rw [vectorSet_append hstart (by omega)]
      simp
    -- one turn that takes `x` from the left half, and one that takes `y` from the right
    have hleft (x : α) (xs' : List α) (hxs : xs = x :: xs')
        (hmerge : xs.merge ys (le order (getKey key)) =
          x :: xs'.merge ys (le order (getKey key))) :
        (do
          let heap ← vectorSet heap v p (← vectorRef heap temp p1)
          merge order.less key heap v temp middle high (p + 1) (p1 + 1) p2) =
        .ok (heap.put v (before ++ xs.merge ys (le order (getKey key)) ++ after)) := by
      subst hxs
      rw [length_cons] at hmiddle hrest hn
      have href : vectorRef heap temp p1 = .ok x :=
        vectorRef_append before' (xs' ++ between ++ ys ++ after')
          (by rw [htemp]; simp) (by omega)
      rw [href, ok_bind, hset, ok_bind, hmerge,
        ih xs' ys (before ++ [x]) rest (before' ++ [x]) between (by omega) (by simp)
          (by rw [Heap.put_of_ne _ hne.symm, htemp]; simp) (by simp; omega) (by simp; omega)
          (by omega) hp2 hhigh (by simp; omega) (by omega), Heap.put_put]
      simp
    have hright (y : α) (ys' : List α) (hys : ys = y :: ys')
        (hmerge : xs.merge ys (le order (getKey key)) =
          y :: xs.merge ys' (le order (getKey key))) :
        (do
          let heap ← vectorSet heap v p (← vectorRef heap temp p2)
          merge order.less key heap v temp middle high (p + 1) p1 (p2 + 1)) =
        .ok (heap.put v (before ++ xs.merge ys (le order (getKey key)) ++ after)) := by
      subst hys
      rw [length_cons] at hhigh hrest hn
      have href : vectorRef heap temp p2 = .ok y :=
        vectorRef_append (before' ++ xs ++ between) (ys' ++ after')
          (by rw [htemp]; simp) (by simp; omega)
      rw [href, ok_bind, hset, ok_bind, hmerge,
        ih xs ys' (before ++ [y]) rest before' (between ++ [y]) (by omega) (by simp)
          (by rw [Heap.put_of_ne _ hne.symm, htemp]; simp) (by simp; omega) hp1
          hmiddle (by simp; omega) (by omega) (by simp; omega) (by omega), Heap.put_put]
      simp
    rw [merge, if_pos (by omega), fromLeft_eq xs ys htemp hp1 hmiddle hp2 hhigh, ok_bind]
    match xs, ys with
    | [], [] => simp at hn
    | [], y :: ys => exact hright y ys rfl (by simp)
    | x :: xs, [] => exact hleft x xs rfl (by simp)
    | x :: xs, y :: ys =>
      dsimp only
      split_ifs with hle
      · exact hleft x xs rfl (List.cons_merge_cons_pos _ _ _ hle)
      · exact hright y ys rfl (List.cons_merge_cons_neg _ _ _ hle)

theorem sortSubvector_eq (order key) {v temp : Nat} (hne : v ≠ temp) (heap : Heap α)
    (xs before after before' after') (hv : heap.contents v = before ++ xs ++ after)
    (htemp : heap.contents temp = before' ++ xs ++ after') (hlen : before.length = before'.length)
    {low high : Nat} (hlow : low = before.length) (hhigh : high = low + xs.length) :
    ∃ sorted work, sortSubvector order.less key heap v temp low high =
        .ok ((heap.put v (before ++ sorted ++ after)).put temp (before' ++ work ++ after')) ∧
      work.length = xs.length ∧ StableSorting order (getKey key) xs sorted := by
  induction hn : xs.length using Nat.strongRecOn generalizing v temp heap xs before after
    before' after' low high with
  | ind n ih =>
    rcases Nat.lt_or_ge 1 xs.length with hlt | hle
    · -- the halves are sorted into the other vector, and merged from there
      obtain ⟨xs1, xs2, rfl, hxs1⟩ : ∃ xs1 xs2, xs = xs1 ++ xs2 ∧ xs1.length = xs.length / 2 :=
        ⟨xs.take (xs.length / 2), xs.drop (xs.length / 2), (List.take_append_drop _ _).symm,
          List.length_take_of_le (by omega)⟩
      rw [length_append] at hxs1 hlt hhigh hn
      have hmiddle : (low + high) / 2 = low + xs1.length := by omega
      obtain ⟨sorted1, work1, hsort1, hwork1, hstable1⟩ :=
        ih xs1.length (by omega) hne.symm heap xs1 before' (xs2 ++ after') before (xs2 ++ after)
          (by rw [htemp]; simp) (by rw [hv]; simp) hlen.symm (hlow.trans hlen) rfl rfl
      have hsorted1 := hstable1.perm.length_eq
      obtain ⟨sorted2, work2, hsort2, hwork2, hstable2⟩ :=
        ih xs2.length (by omega) hne.symm
          ((heap.put temp (before' ++ sorted1 ++ (xs2 ++ after'))).put v
            (before ++ work1 ++ (xs2 ++ after)))
          xs2 (before' ++ sorted1) after' (before ++ work1) after
          (by rw [Heap.put_of_ne _ hne.symm, Heap.put_same]; simp) (by rw [Heap.put_same]; simp)
          (by simp; omega) (show low + xs1.length = (before' ++ sorted1).length by simp; omega)
          (show high = low + xs1.length + xs2.length by omega) rfl
      have hsorted2 := hstable2.perm.length_eq
      rw [Heap.put_twice _ hne.symm] at hsort2
      have hmerge : merge order.less key
          ((heap.put temp (before' ++ sorted1 ++ sorted2 ++ after')).put v
            (before ++ work1 ++ work2 ++ after)) v temp (low + xs1.length) high low low
            (low + xs1.length) =
          .ok (((heap.put temp (before' ++ sorted1 ++ sorted2 ++ after')).put v
            (before ++ work1 ++ work2 ++ after)).put v
              (before ++ sorted1.merge sorted2 (le order (getKey key)) ++ after)) :=
        merge_eq hne sorted1 sorted2 before (work1 ++ work2) before' [] after'
          (by simp [hwork1, hwork2, hsorted1, hsorted2]) (by simp)
          (by rw [Heap.put_of_ne _ hne.symm, Heap.put_same]; simp) hlow (hlow.trans hlen)
          (by omega) (by simp) (by omega) (by simpa using hlen)
      refine ⟨_, sorted1 ++ sorted2, ?_, by simp [hsorted1, hsorted2, hn],
        hstable1.merge hstable2⟩
      rw [sortSubvector, if_pos (by omega), hmiddle]
      dsimp only
      rw [hsort1, ok_bind, hsort2, ok_bind, hmerge, Heap.put_put, Heap.put_comm _ hne.symm]
      simp
    · refine ⟨xs, xs, ?_, hn, .short hle⟩
      rw [sortSubvector, if_neg (by omega), Heap.put_eq_self hv, Heap.put_eq_self htemp]
      rfl

end

/-! ## Quick sort -/

theorem exchange_eq (before middle after) {x y : α} {heap : Heap α}
    (hv : heap.contents v = before ++ x :: (middle ++ y :: after)) {i j : Int}
    (hi : i = before.length) (hj : j = before.length + 1 + middle.length) :
    exchange heap v i j = .ok (heap.put v (before ++ y :: (middle ++ x :: after))) ∧
      exchange heap v j i = .ok (heap.put v (before ++ y :: (middle ++ x :: after))) := by
  have hv' : heap.contents v = (before ++ x :: middle) ++ y :: after := by rw [hv]; simp
  have hx : vectorRef heap v i = .ok x := vectorRef_append before _ hv hi
  have hy : vectorRef heap v j = .ok y := vectorRef_append _ after hv' (by simp; omega)
  constructor
  · have hset : (heap.put v (before ++ y :: (middle ++ y :: after))).contents v =
        (before ++ y :: middle) ++ y :: after := by rw [Heap.put_same]; simp
    rw [exchange, hx, ok_bind, hy, ok_bind, vectorSet_append hv hi, ok_bind,
      vectorSet_append hset (by simp; omega), Heap.put_put]
    simp
  · have hset : (heap.put v ((before ++ x :: middle) ++ x :: after)).contents v =
        before ++ x :: (middle ++ x :: after) := by rw [Heap.put_same]; simp
    rw [exchange, hy, ok_bind, hx, ok_bind, vectorSet_append hv' (by simp; omega), ok_bind,
      vectorSet_append hset hi, Heap.put_put]

section
variable {order : StrictWeak α} {key : Option (α → α)} {v : Nat} {heap : Heap α}

/-- The key of `x` lies above the one of the pivot. -/
def above (order : StrictWeak α) (key : Option (α → α)) (pivot x : α) : Bool :=
  order.less (getKey key pivot) (getKey key x)

variable {pivot : α} {r l : Int}

theorem increaseI_eq (before xs ys after) (hv : heap.contents v = before ++ xs ++ (ys ++ after))
    (hxs : ∀ x ∈ xs, above order key pivot x = false)
    (hys : ∀ y ∈ ys.head?, above order key pivot y = true) {i : Int} (hi : i = before.length)
    (hr : r + 1 = before.length + xs.length + ys.length) :
    increaseI order.less key heap v (getKey key pivot) r i =
      .ok (before.length + xs.length : Nat) := by
  induction xs generalizing before i with
  | nil =>
    rw [increaseI]
    match ys with
    | [] =>
      rw [if_pos (by simp only [length_nil] at hr; omega), hi]
      rfl
    | y :: ys =>
      have hy : vectorRef heap v i = .ok y := vectorRef_append before (ys ++ after) (by simp [hv]) hi
      have hhigh : order.less (getKey key pivot) (getKey key y) = true := hys y rfl
      rw [if_neg (by simp only [length_cons, length_nil] at hr; omega), hy, ok_bind,
        if_pos hhigh, hi]
      rfl
  | cons x xs ih =>
    have hx : vectorRef heap v i = .ok x :=
      vectorRef_append before (xs ++ (ys ++ after)) (by simp [hv]) hi
    have hlow : ¬order.less (getKey key pivot) (getKey key x) = true := by
      rw [← above, hxs x List.mem_cons_self]
      exact Bool.false_ne_true
    rw [length_cons] at hr
    rw [increaseI, if_neg (by omega), hx, ok_bind, if_neg hlow,
      ih (before ++ [x]) (by simp [hv]) (fun z hz => hxs z (List.mem_cons_of_mem x hz))
        (by simp; omega) (by simp; omega)]
    simp only [length_append, length_cons, length_nil]
    congr 2
    omega

theorem decreaseJ_eq (before ws xs after) (hv : heap.contents v = before ++ ws ++ xs ++ after)
    (hxs : ∀ x ∈ xs, above order key pivot x = true)
    (hws : ∀ w ∈ ws.getLast?, above order key pivot w = false) {j : Int}
    (hl : l + 1 = before.length) (hj : j + 1 = before.length + ws.length + xs.length) :
    decreaseJ order.less key heap v (getKey key pivot) l j = .ok (l + ws.length) := by
  induction xs using List.reverseRecOn generalizing after j with
  | nil =>
    rw [decreaseJ]
    rcases List.eq_nil_or_concat ws with rfl | ⟨ws, w, rfl⟩
    · simp only [length_nil] at hj ⊢
      rw [if_pos (by omega)]
      exact congrArg Except.ok (by omega)
    · rw [List.concat_eq_append] at *
      simp only [length_append, length_cons, length_nil] at hj ⊢
      have hw : vectorRef heap v j = .ok w :=
        vectorRef_append (before ++ ws) after (by simp [hv]) (by simp; omega)
      have hlow := hws w (by simp)
      rw [above] at hlow
      rw [if_neg (by omega), hw, ok_bind, hlow]
      exact congrArg Except.ok (by omega)
  | append_singleton xs x ih =>
    simp only [length_append, length_cons, length_nil] at hj
    have hx : vectorRef heap v j = .ok x :=
      vectorRef_append (before ++ ws ++ xs) after (by simp [hv]) (by simp; omega)
    have hhigh := hxs x (by simp)
    rw [above] at hhigh
    rw [decreaseJ, if_neg (by omega), hx, ok_bind, hhigh]
    exact ih (x :: after) (by simp [hv]) (fun z hz => hxs z (by simp [hz])) (by omega)

/-- What the partition of the elements after the pivot does. -/
structure Parted (order : StrictWeak α) (key : Option (α → α)) (pivot : α) (xs low high : List α) :
    Prop where
  perm : (low ++ pivot :: high).Perm (pivot :: xs)
  low_le : ∀ x ∈ low, above order key pivot x = false
  high_above : ∀ x ∈ high, above order key pivot x = true

theorem innerLoop_stop (before low high after)
    (hv : heap.contents v = before ++ pivot :: (low ++ high) ++ after)
    (hlow : ∀ x ∈ low, above order key pivot x = false)
    (hhigh : ∀ x ∈ high, above order key pivot x = true) {i j : Int} (hl : l = before.length)
    (hj : j = before.length + low.length) (hij : ¬i < j) (fuel) :
    ∃ low', innerLoop order.less key heap v (getKey key pivot) l r (fuel + 1) i j =
        .ok (before.length + low'.length, heap.put v (before ++ low' ++ pivot :: high ++ after)) ∧
      Parted order key pivot (low ++ high) low' high := by
  rcases List.eq_nil_or_concat low with rfl | ⟨low, last, rfl⟩
  · refine ⟨[], ?_, .refl _, by simp, hhigh⟩
    simp only [length_nil] at hj ⊢
    rw [innerLoop, if_neg hij, if_neg (by omega), Heap.put_eq_self (by simpa using hv), hj]
    rfl
  · rw [List.concat_eq_append] at *
    simp only [length_append, length_cons, length_nil] at hj
    have hexchange := (exchange_eq before low (high ++ after) (x := pivot) (y := last)
      (by rw [hv]; simp) hl (j := j) (by omega)).2
    refine ⟨last :: low, ?_, ?_, fun x hx => hlow x (by simpa [or_comm] using hx), hhigh⟩
    · rw [innerLoop, if_neg hij, if_pos (by omega), hexchange, hj]
      simp
    · have hswap : (last :: low ++ pivot :: high).Perm (pivot :: (last :: low ++ high)) :=
        List.perm_middle
      have hlast : (last :: low).Perm (low ++ [last]) := (List.perm_append_singleton last low).symm
      exact hswap.trans ((hlast.append_right high).cons pivot)

theorem perm_swap_ends (a b : α) (middle : List α) :
    (b :: (middle ++ [a])).Perm (a :: (middle ++ [b])) :=
  ((List.perm_append_singleton a middle).cons b).trans
    ((List.Perm.swap a b middle).trans ((List.perm_append_singleton b middle).symm.cons a))

theorem innerLoop_eq (order : StrictWeak α) (key : Option (α → α)) (v : Nat) (heap : Heap α)
    (before low xs high after : List α)
    (hv : heap.contents v = before ++ pivot :: (low ++ xs ++ high) ++ after)
    (hlow : ∀ x ∈ low, above order key pivot x = false)
    (hhigh : ∀ x ∈ high, above order key pivot x = true) (hl : l = before.length)
    (hr : r = before.length + low.length + xs.length + high.length) {fuel : Nat}
    (hfuel : xs.length < fuel) {i0 j0 : Int} (hi0 : i0 = before.length + 1 + low.length)
    (hj0 : j0 = before.length + low.length + xs.length) :
    ∃ i j low' high',
      increaseI order.less key heap v (getKey key pivot) r i0 = .ok i ∧
      decreaseJ order.less key heap v (getKey key pivot) l j0 = .ok j ∧
      innerLoop order.less key heap v (getKey key pivot) l r fuel i j =
        .ok (before.length + low'.length,
          heap.put v (before ++ low' ++ pivot :: high' ++ after)) ∧
      Parted order key pivot (low ++ xs ++ high) low' high' := by
  induction hn : xs.length using Nat.strongRecOn generalizing heap low xs high fuel i0 j0 with
  | ind n ih =>
    obtain ⟨fuel, rfl⟩ : ∃ k, fuel = k + 1 := ⟨fuel - 1, by omega⟩
    obtain ⟨X, Y, hX, hY, hxs⟩ := exists_scan (above order key pivot) xs
    have hlowX (x : α) (hx : x ∈ low ++ X) : above order key pivot x = false :=
      (List.mem_append.mp hx).elim (hlow x) (hX x)
    have hYhigh (x : α) (hx : x ∈ Y ++ high) : above order key pivot x = true :=
      (List.mem_append.mp hx).elim (hY x) (hhigh x)
    rcases hxs with rfl | ⟨a, middle, b, ha, hb, rfl⟩
    · -- the scans meet
      simp only [length_append] at hr hj0
      have hi := increaseI_eq (before ++ pivot :: low) X (Y ++ high) after (by rw [hv]; simp) hX
        (fun y hy => hYhigh y (List.mem_of_mem_head? hy)) (r := r) (i := i0)
        (by simp; omega) (by simp; omega)
      have hj := decreaseJ_eq (before ++ [pivot]) (low ++ X) Y (high ++ after)
        (by rw [hv]; simp) hY (fun w hw => hlowX w (List.mem_of_getLast? hw)) (l := l) (j := j0)
        (by simp; omega) (by simp; omega)
      have hmeet : ¬(((before ++ pivot :: low).length + X.length : Nat) : Int) <
          l + (low ++ X).length := by
        simp
        omega
      obtain ⟨low', hloop, hparted⟩ := innerLoop_stop (r := r) before (low ++ X) (Y ++ high) after
        (by rw [hv]; simp) hlowX hYhigh hl (by omega) hmeet fuel
      refine ⟨_, _, low', Y ++ high, hi, hj, hloop, ?_⟩
      rw [show low ++ (X ++ Y) ++ high = low ++ X ++ (Y ++ high) by simp]
      exact hparted
    · -- two elements on the wrong sides change places
      simp only [length_append, length_cons, length_nil] at hr hj0 hn hfuel
      have hi := increaseI_eq (before ++ pivot :: low) X (a :: (middle ++ [b]) ++ Y ++ high) after
        (by rw [hv]; simp) hX (fun y hy => by obtain rfl := Option.some.inj hy; exact ha) (r := r)
        (i := i0) (by simp; omega) (by simp; omega)
      have hj := decreaseJ_eq (before ++ [pivot]) (low ++ X ++ a :: (middle ++ [b])) Y
        (high ++ after) (by rw [hv]; simp) hY
        (fun w hw => by
          have hlast : low ++ X ++ a :: (middle ++ [b]) = (low ++ X ++ a :: middle) ++ [b] := by simp
          rw [hlast, List.getLast?_concat] at hw
          exact Option.some.inj hw ▸ hb) (l := l) (j := j0)
        (by simp; omega) (by simp; omega)
      have hexchange := (exchange_eq (before ++ pivot :: (low ++ X)) middle (Y ++ high ++ after)
        (show heap.contents v = before ++ pivot :: (low ++ X) ++
          a :: (middle ++ b :: (Y ++ high ++ after)) by rw [hv]; simp)
        (i := ((before ++ pivot :: low).length + X.length : Nat))
        (j := l + (low ++ X ++ a :: (middle ++ [b])).length) (by simp; omega)
        (by simp; omega)).1
      obtain ⟨i, j, low', high', hi', hj', hloop, hparted⟩ := ih middle.length (by omega)
        (heap.put v (before ++ pivot :: (low ++ X) ++ b :: (middle ++ a :: (Y ++ high ++ after))))
        (low ++ X ++ [b]) middle (a :: (Y ++ high)) (by simp)
        (fun x hx => by
          rcases List.mem_append.mp hx with hx | hx
          · exact hlowX x hx
          · exact List.mem_singleton.mp hx ▸ hb)
        (List.forall_mem_cons.mpr ⟨ha, hYhigh⟩) (by simp; omega)
        (show middle.length < fuel by omega)
        (show (((before ++ pivot :: low).length + X.length : Nat) : Int) + 1 =
          before.length + 1 + (low ++ X ++ [b]).length by simp; omega)
        (show l + (low ++ X ++ a :: (middle ++ [b])).length - 1 =
          before.length + (low ++ X ++ [b]).length + middle.length by simp; omega) rfl
      refine ⟨_, _, low', high', hi, hj, ?_, hparted.perm.trans ?_, hparted.low_le,
        hparted.high_above⟩
      · rw [innerLoop, if_pos (by simp; omega), hexchange, ok_bind, hi', ok_bind, hj', ok_bind,
          hloop, Heap.put_put]
      · have hswap := ((perm_swap_ends a b middle).append_left (low ++ X)).append_right (Y ++ high)
        simpa using hswap.cons pivot

theorem outerLoop_eq (order key v) (heap : Heap α) (before xs after)
    (hv : heap.contents v = before ++ xs ++ after) (hl : l = before.length)
    (hr : r + 1 = before.length + xs.length) {fuel : Nat} (hfuel : xs.length < fuel) :
    ∃ ys, outerLoop order.less key v fuel heap l r = .ok (heap.put v (before ++ ys ++ after)) ∧
      Sorting order (getKey key) xs ys := by
  induction hn : xs.length using Nat.strongRecOn generalizing heap before xs after l r fuel with
  | ind n ih =>
    obtain ⟨fuel, rfl⟩ : ∃ k, fuel = k + 1 := ⟨fuel - 1, by omega⟩
    rw [outerLoop]
    match xs with
    | [] | [x] =>
      simp only [length_cons, length_nil] at hr
      refine ⟨_, ?_, .refl _, by simp⟩
      rw [if_neg (by omega), Heap.put_eq_self hv]
      rfl
    | [x, y] =>
      simp only [length_cons, length_nil] at hr
      have hx : vectorRef heap v l = .ok x := vectorRef_append before (y :: after) (by simp [hv]) hl
      have hy : vectorRef heap v r = .ok y :=
        vectorRef_append (before ++ [x]) after (by simp [hv]) (by simp; omega)
      rw [if_pos (by omega), if_pos (by omega), hy, ok_bind, hx, ok_bind]
      cases hless : order.less (getKey key y) (getKey key x) with
      | false =>
        refine ⟨[x, y], ?_, .refl _, by simp [le, hless]⟩
        rw [if_neg Bool.false_ne_true, Heap.put_eq_self hv]
        rfl
      | true =>
        have hexchange := (exchange_eq before [] after (x := x) (y := y) (by rw [hv]; simp) hl
          (j := r) (by simp; omega)).1
        refine ⟨[y, x], ?_, .swap x y [], ?_⟩
        · rw [if_pos rfl, hexchange]
          simp
        · simpa using (le_of_less hless : le order (getKey key) y x = true)
    | pivot :: x :: y :: rest =>
      have hlen : (x :: y :: rest).length + 1 = n := hn
      generalize hxs : x :: y :: rest = xs at hv hlen hr hfuel
      rw [length_cons] at hr hfuel
      have hlong : 2 ≤ xs.length := by rw [← hxs]; simp
      have hpivot : vectorRef heap v l = .ok pivot :=
        vectorRef_append before (xs ++ after) (by simp [hv]) hl
      obtain ⟨i, j, low, high, hi, hj, hloop, hparted⟩ := innerLoop_eq order key v heap
        before [] xs [] after (show heap.contents v = before ++ pivot :: ([] ++ xs ++ []) ++ after by
          simp [hv]) (by simp) (by simp) hl
        (r := r) (by simp; omega) (show xs.length < fuel by omega)
        (show l + 1 = before.length + 1 + ([] : List α).length by simp; omega)
        (show r = before.length + ([] : List α).length + xs.length by simp; omega)
      have hsum := hparted.perm.length_eq
      simp only [length_append, length_cons, length_nil] at hsum
      obtain ⟨high', hsort, hhigh⟩ := ih high.length (by omega)
        (heap.put v (before ++ low ++ pivot :: high ++ after)) (before ++ low ++ [pivot]) high after
        (by simp) (show (before.length + low.length : Int) + 1 = (before ++ low ++ [pivot]).length
          by simp; omega) (r := r) (by simp; omega) (show high.length < fuel by omega) rfl
      obtain ⟨low', hsort', hlow⟩ := ih low.length (by omega)
        (heap.put v (before ++ low ++ [pivot] ++ high' ++ after)) before low
        (pivot :: (high' ++ after)) (by simp) hl
        (show (before.length + low.length : Int) - 1 + 1 = before.length + low.length by omega)
        (show low.length < fuel by omega) rfl
      refine ⟨low' ++ pivot :: high', ?_, (hlow.join hhigh ?_ ?_).perm_left ?_⟩
      · rw [if_pos (by omega), if_neg (by omega), hpivot, ok_bind]
        dsimp only
        rw [hi, ok_bind, hj, ok_bind, hloop, ok_bind]
        dsimp only
        rw [hsort, ok_bind, Heap.put_put, hsort', Heap.put_put]
        simp
      · intro x hx
        rw [le, ← above, hparted.low_le x hx, Bool.not_false]
      · exact fun y hy => le_of_less (hparted.high_above y hy)
      · simpa using hparted.perm

end

/-! ## The two procedures -/

def Object.Valid (heap : Heap α) : Object α → Prop
  | .vector v => v < heap.next
  | .list _ => True
  | .other => False

def Object.elements (heap : Heap α) : Object α → List α
  | .vector v => heap.contents v
  | .list elements => elements
  | .other => []

/-- What a sort of an argument returns: a list for a list and a new vector for a vector, with the
vectors there were as they were. -/
structure Sorts (relation : List α → List α → Prop) (heap : Heap α) (argument : Object α)
    (result : Object α × Heap α) : Prop where
  related : relation (argument.elements heap) (result.1.elements result.2)
  unchanged : ∀ v < heap.next, result.2.contents v = heap.contents v
  same : match argument, result.1 with
    | .vector _, .vector w => heap.next ≤ w
    | .list _, .list _ => True
    | _, _ => False

section
variable (order : StrictWeak α) (key : Option (α → α)) (heap : Heap α)

theorem alloc_contents (elements) :
    (heap.alloc elements).2.contents (heap.alloc elements).1 = elements := update_self ..

theorem mergeSortInPlace_eq (v) (hv : v < heap.next) :
    ∃ heap', mergeSortInPlace order.less key heap v = .ok heap' ∧
      (∀ w < heap.next, w ≠ v → heap'.contents w = heap.contents w) ∧
      StableSorting order (getKey key) (heap.contents v) (heap'.contents v) := by
  have hne : v ≠ heap.next := Nat.ne_of_lt hv
  have hold (w : Nat) (hw : w < heap.next) :
      (heap.alloc (heap.contents v)).2.contents w = heap.contents w :=
    update_of_ne (Nat.ne_of_lt hw) ..
  obtain ⟨sorted, work, hsort, -, hstable⟩ := sortSubvector_eq order key hne
    (heap.alloc (heap.contents v)).2 (heap.contents v) [] [] [] []
    (by rw [hold v hv, List.nil_append, List.append_nil])
    ((alloc_contents heap _).trans (by rw [List.nil_append, List.append_nil])) rfl rfl
    (Nat.zero_add _).symm
  have hlen := congrArg List.length (hold v hv)
  refine ⟨_, (congrArg (sortSubvector order.less key _ v heap.next 0) hlen).trans hsort, fun w hw hwv => ?_, ?_⟩
  · rw [Heap.put_of_ne _ (Nat.ne_of_lt hw), Heap.put_of_ne _ hwv, hold w hw]
  · rw [Heap.put_of_ne _ hne, Heap.put_same]
    simpa using hstable

theorem quickSortInPlace_eq (v) {fuel : Nat} (hfuel : (heap.contents v).length < fuel) :
    ∃ heap', quickSortInPlace order.less key fuel heap v = .ok heap' ∧
      (∀ w, w ≠ v → heap'.contents w = heap.contents w) ∧
      Sorting order (getKey key) (heap.contents v) (heap'.contents v) := by
  obtain ⟨sorted, hsort, hsorting⟩ := outerLoop_eq order key v heap [] (heap.contents v) []
    (by rw [List.nil_append, List.append_nil]) (l := 0) rfl
    (r := (heap.contents v).length - 1) (by simp) hfuel
  refine ⟨_, hsort, fun w hw => Heap.put_of_ne _ hw _, ?_⟩
  rw [Heap.put_same]
  simpa using hsorting

end

theorem sortCopy_sorts {relation : List α → List α → Prop}
    {sortInPlace : Heap α → Nat → Result (Heap α)} (heap : Heap α) {argument : Object α}
    (hsort : ∃ heap', sortInPlace (heap.alloc (argument.elements heap)).2 heap.next = .ok heap' ∧
      (∀ w < heap.next, heap'.contents w =
        (heap.alloc (argument.elements heap)).2.contents w) ∧
      relation (argument.elements heap) (heap'.contents heap.next))
    (hvalid : argument.Valid heap) :
    ∃ result, sortCopy sortInPlace heap argument = .ok result ∧
      Sorts relation heap argument result := by
  obtain ⟨heap', hrun, hold, hrelation⟩ := hsort
  have hunchanged (w : Nat) (hw : w < heap.next) : heap'.contents w = heap.contents w :=
    (hold w hw).trans (update_of_ne (Nat.ne_of_lt hw) ..)
  match argument with
  | .vector v => exact ⟨(.vector heap.next, heap'), congrArg (· >>= _) hrun, hrelation,
      hunchanged, Nat.le_refl _⟩
  | .list elements =>
    exact ⟨(.list (heap'.contents heap.next), heap'), congrArg (· >>= _) hrun, hrelation,
      hunchanged, trivial⟩
  | .other => exact hvalid.elim

/-- **Sorting.** For every strict weak order, key procedure, and list or vector; quick sort with any
bound on its depth above the number of elements. -/
theorem sort_procedures (order : StrictWeak α) (key : Option (α → α)) (heap : Heap α) (argument : Object α)
    (hvalid : argument.Valid heap) :
    (∃ result, mergeSort order.less key heap argument = .ok result ∧
      Sorts (StableSorting order (getKey key)) heap argument result) ∧
    ∀ fuel, (argument.elements heap).length < fuel →
      ∃ result, quickSort order.less key fuel heap argument = .ok result ∧
        Sorts (Sorting order (getKey key)) heap argument result := by
  have hcontents := alloc_contents heap (argument.elements heap)
  constructor
  · refine sortCopy_sorts heap ?_ hvalid
    obtain ⟨heap', hrun, hold, hstable⟩ := mergeSortInPlace_eq order key
      (heap.alloc (argument.elements heap)).2 heap.next (Nat.lt_succ_self _)
    rw [show heap.next = (heap.alloc (argument.elements heap)).1 from rfl, hcontents] at hstable
    exact ⟨heap', hrun, fun w hw => hold w (Nat.lt_succ_of_lt hw) (Nat.ne_of_lt hw), hstable⟩
  · intro fuel hfuel
    refine sortCopy_sorts heap ?_ hvalid
    obtain ⟨heap', hrun, hold, hsorting⟩ := quickSortInPlace_eq order key
      (heap.alloc (argument.elements heap)).2 heap.next (hcontents.symm ▸ hfuel)
    rw [show heap.next = (heap.alloc (argument.elements heap)).1 from rfl, hcontents] at hsorting
    exact ⟨heap', hrun, fun w hw => hold w (Nat.ne_of_lt hw), hsorting⟩

def tens : StrictWeak Nat where
  less a b := a / 10 < b / 10
  irrefl a := decide_eq_false (Nat.lt_irrefl (a / 10))
  trans _ _ _ hab hbc :=
    decide_eq_true (Nat.lt_trans (of_decide_eq_true hab) (of_decide_eq_true hbc))
  incomparable_trans _ _ _ hab _ hbc _ :=
    decide_eq_false (Nat.not_lt.mpr (Nat.le_trans (Nat.not_lt.mp (of_decide_eq_false hbc))
      (Nat.not_lt.mp (of_decide_eq_false hab))))

theorem sort_procedures_tens :
    ∃ result, mergeSort tens.less none ⟨fun _ => [21, 35, 12, 38, 11, 20], 1⟩ (.vector 0) =
        .ok result ∧
      Sorts (StableSorting tens (getKey none)) ⟨fun _ => [21, 35, 12, 38, 11, 20], 1⟩ (.vector 0)
        result :=
  (sort_procedures tens none ⟨fun _ => [21, 35, 12, 38, 11, 20], 1⟩ (.vector 0) Nat.one_pos).1

end MitScheme.Runtime.Sort
