import Mathlib.Data.List.Induction
import Mathlib.Data.List.Perm.Subperm
import MitScheme.Runtime.StateSpace

/-! # Moves of a state space

What the points represent, and a move of the root: the links turn around along the way,
and the procedures called are the windings of the extents left and entered. -/

namespace MitScheme.Runtime.StateSpace
open Lib.PathTree Function
open List (append_assoc append_nil mem_cons_of_mem mem_cons_self)

/-! ## What the points represent -/

def Thunk.IsUser : Thunk → Prop
  | .user _ => True
  | .bound _ _ => False

structure Winding (i : SpaceId) (e : Extents) (thunk : Thunk) : Prop where
  bound : ∀ p code, thunk = .bound p code → p < e.pointCount ∧ e.space p = stateSpaceGlobal
  user : i = stateSpaceGlobal → thunk.IsUser

theorem winding_user (i e code) : Winding i e (.user code) :=
  ⟨fun _ _ h => Thunk.noConfusion h, fun _ => trivial⟩

/-- The extents of each space form a tree, and its current point is one of them. -/
structure Tree (e : Extents) : Prop where
  paths : Paths e.path (· < e.pointCount)
  space : ∀ x < e.pointCount, ∀ y ∈ e.path x, e.space y = e.space x
  space_lt : ∀ x < e.pointCount, e.space x < e.spaceCount
  top : ∀ i, ∃ t, ∀ x < e.pointCount, e.space x = i → t ∈ e.path x
  current : ∀ i < e.spaceCount, e.current i < e.pointCount ∧ e.space (e.current i) = i
  windings : ∀ x < e.pointCount,
    Winding (e.space x) e (e.before x) ∧ Winding (e.space x) e (e.after x)

/-- The links of a point lead to the current one: inwards on its path, else outwards. The
procedures are those of the extent that the link crosses. -/
structure PointOk (s : Spaces) (e : Extents) (x : PointId) : Prop where
  root : x = e.current (e.space x) → s.points x = ⟨none, .space (e.space x), .none⟩
  outer : ∀ a y b, e.path (e.current (e.space x)) = a ++ y :: x :: b →
    s.points x = ⟨some y, .thunk (e.before y), .thunk (e.after y)⟩
  away : x ∉ e.path (e.current (e.space x)) →
    s.points x = ⟨some (e.parent x), .thunk (e.after x), .thunk (e.before x)⟩

structure Represents (s : Spaces) (e : Extents) : Prop extends Tree e where
  points : ∀ x < e.pointCount, PointOk s e x
  nearest : ∀ i < e.spaceCount, s.nearestPoint i = e.current i
  pointCount : s.pointCount = e.pointCount
  spaceCount : s.spaceCount = e.spaceCount
  log : s.log = e.log

variable {s s' : Spaces} {e e' : Extents} {i : SpaceId} {r a x y : PointId}

theorem Tree.path_self (h : Tree e) (hx : x < e.pointCount) : x ∈ e.path x := by
  obtain ⟨t, ht⟩ := h.paths.self x hx
  rw [ht]
  exact mem_cons_self

theorem parent_eq {b} (h : e.path x = x :: y :: b) : e.parent x = y := by
  rw [Extents.parent, h]
  rfl

structure SameTree (e e' : Extents) : Prop where
  path : e'.path = e.path
  before : e'.before = e.before
  after : e'.after = e.after
  space : e'.space = e.space
  pointCount : e'.pointCount = e.pointCount
  spaceCount : e'.spaceCount = e.spaceCount

theorem SameTree.refl (e) : SameTree e e := ⟨rfl, rfl, rfl, rfl, rfl, rfl⟩

theorem SameTree.trans {e''} (h : SameTree e e') (h' : SameTree e' e'') : SameTree e e'' :=
  ⟨h'.path.trans h.path, h'.before.trans h.before, h'.after.trans h.after,
    h'.space.trans h.space, h'.pointCount.trans h.pointCount, h'.spaceCount.trans h.spaceCount⟩

theorem sameTree_visit (e i x thunk) : SameTree e (e.visit i x thunk) :=
  ⟨rfl, rfl, rfl, rfl, rfl, rfl⟩

theorem Winding.congr {thunk} (h : SameTree e e') (hw : Winding i e thunk) :
    Winding i e' thunk := by
  refine ⟨?_, hw.user⟩
  rw [h.pointCount, h.space]
  exact hw.bound

theorem Represents.record (h : Represents s e) (event) :
    Represents (s.record event) (e.record event) := by
  refine ⟨⟨h.paths, h.space, h.space_lt, h.top, h.current, ?_⟩, ?_, h.nearest,
    h.pointCount, h.spaceCount, ?_⟩
  · intro x hx
    obtain ⟨hbefore, hafter⟩ := h.windings x hx
    exact ⟨⟨hbefore.bound, hbefore.user⟩, ⟨hafter.bound, hafter.user⟩⟩
  · exact fun x hx => ⟨(h.points x hx).root, (h.points x hx).outer, (h.points x hx).away⟩
  · show s.log ++ [event] = e.log ++ [event]
    rw [h.log]

/-! ## Moving the root -/

theorem Represents.moveRoot (h : Represents s e) (hi : i < e.spaceCount) (hr : e.current i = r)
    {n} (hn : n < e.pointCount) (hspace : e.space n = i) {thunk} (hrn : r ≠ n)
    (hroot : PointOk (s.moveRoot i r n) (e.visit i n thunk) r)
    (hother : ∀ x < e.pointCount, e.space x = i → x ≠ r → x ≠ n → PointOk s e x →
      PointOk s (e.visit i n thunk) x) (hout : ∀ b y c, e.path n ≠ b ++ y :: n :: c) :
    Represents ((s.moveRoot i r n).record (.call i thunk)) (e.visit i n thunk) := by
  have hcur : (e.visit i n thunk).current = update e.current i n := rfl
  have hpoints : ∀ x, x ≠ r → x ≠ n →
      ((s.moveRoot i r n).record (.call i thunk)).points x = s.points x := by
    intro x hxr hxn
    show update (update s.points r _) n _ x = _
    rw [update_of_ne hxn, update_of_ne hxr]
  have hnew : ((s.moveRoot i r n).record (.call i thunk)).points n = ⟨none, .space i, .none⟩ :=
    update_self ..
  refine ⟨⟨h.paths, h.space, h.space_lt, h.top, ?_, ?_⟩, ?_, ?_, h.pointCount,
    h.spaceCount, ?_⟩
  · intro j hj
    rw [hcur]
    by_cases hji : j = i
    · subst hji
      rw [update_self]
      exact ⟨hn, hspace⟩
    · rw [update_of_ne hji]
      exact h.current j hj
  · intro x hx
    obtain ⟨hbefore, hafter⟩ := h.windings x hx
    exact ⟨hbefore.congr (sameTree_visit e i n thunk), hafter.congr (sameTree_visit e i n thunk)⟩
  · intro x hx
    by_cases hxr : x = r
    · subst hxr
      exact ⟨hroot.root, hroot.outer, hroot.away⟩
    by_cases hxn : x = n
    · subst hxn
      have hcurx : (e.visit i x thunk).current ((e.visit i x thunk).space x) = x := by
        show (e.visit i x thunk).current (e.space x) = x
        rw [hcur, hspace, update_self]
      refine ⟨fun _ => ?_, ?_, ?_⟩
      · rw [hnew]
        show _ = StatePoint.mk none (.space (e.space x)) .none
        rw [hspace]
      · intro b y c hpath
        rw [hcurx] at hpath
        exact absurd hpath (hout b y c)
      · intro haway
        rw [hcurx] at haway
        exact absurd (h.path_self hx) haway
    have hok : PointOk s (e.visit i n thunk) x := by
      by_cases hxi : e.space x = i
      · exact hother x hx hxi hxr hxn (h.points x hx)
      · have hold := h.points x hx
        have hcurx : (e.visit i n thunk).current (e.space x) = e.current (e.space x) := by
          rw [hcur, update_of_ne hxi]
        refine ⟨?_, ?_, ?_⟩
        · show x = (e.visit i n thunk).current (e.space x) → _
          rw [hcurx]
          exact hold.root
        · show ∀ a y b, e.path ((e.visit i n thunk).current (e.space x)) = _ → _
          rw [hcurx]
          exact hold.outer
        · show x ∉ e.path ((e.visit i n thunk).current (e.space x)) → _
          rw [hcurx]
          exact hold.away
    refine ⟨?_, ?_, ?_⟩
    · rw [hpoints x hxr hxn]
      exact hok.root
    · rw [hpoints x hxr hxn]
      exact hok.outer
    · rw [hpoints x hxr hxn]
      exact hok.away
  · intro j hj
    rw [hcur]
    show update s.nearestPoint i n j = _
    by_cases hji : j = i
    · subst hji
      rw [update_self, update_self]
    · rw [update_of_ne hji, update_of_ne hji]
      exact h.nearest j hj
  · show s.log ++ [_] = e.log ++ [_]
    rw [h.log]

theorem Represents.ascend (h : Represents s e) (hi : i < e.spaceCount) (hr : e.current i = r) {b}
    (hpath : e.path r = r :: a :: b) :
    (s.points a).fromNearer = .thunk (e.after r) ∧
      Represents ((s.moveRoot i r a).record (.call i (e.after r)))
        (e.visit i (e.parent r) (e.after r)) := by
  have hrlt : r < e.pointCount := hr ▸ (h.current i hi).1
  have hrspace : e.space r = i := hr ▸ (h.current i hi).2
  have ham : a ∈ e.path r := by rw [hpath]; simp
  have halt : a < e.pointCount := h.paths.closed r hrlt a ham
  have haspace : e.space a = i := (h.space r hrlt a ham).trans hrspace
  have hnodup := h.paths.nodup r hrlt
  rw [hpath] at hnodup
  obtain ⟨hrnot, hnodup'⟩ := List.nodup_cons.mp hnodup
  have hra : r ≠ a := fun heq => hrnot (heq ▸ mem_cons_self)
  have hpatha : e.path a = a :: b := h.paths.rest hrlt (show e.path r = [r] ++ a :: b from hpath)
  have hpoint : s.points a = ⟨some r, .thunk (e.before r), .thunk (e.after r)⟩ := by
    refine (h.points a halt).outer [] r b ?_
    rw [haspace, hr]
    exact hpath
  have hparent : e.parent r = a := parent_eq hpath
  have hcur : (e.visit i a (e.after r)).current i = a := update_self ..
  rw [hparent]
  refine ⟨by rw [hpoint], h.moveRoot hi hr halt haspace hra ?_ ?_ ?_⟩
  · have hnew : (s.moveRoot i r a).points r =
        ⟨some (e.parent r), .thunk (e.after r), .thunk (e.before r)⟩ := by
      show update (update s.points r _) a _ r = _
      rw [update_of_ne hra, update_self, hpoint, hparent]
    refine ⟨?_, ?_, fun _ => hnew⟩
    · show r = (e.visit i a (e.after r)).current (e.space r) → _
      rw [hrspace, hcur]
      exact fun heq => absurd heq hra
    · show ∀ c y d, e.path ((e.visit i a (e.after r)).current (e.space r)) = _ → _
      rw [hrspace, hcur, hpatha]
      intro c y d heq
      refine absurd ?_ hrnot
      rw [heq]
      simp
  · intro x hx hxi hxr hxa hold
    refine ⟨?_, ?_, ?_⟩
    · show x = (e.visit i a (e.after r)).current (e.space x) → _
      rw [hxi, hcur]
      exact fun heq => absurd heq hxa
    · show ∀ c y d, e.path ((e.visit i a (e.after r)).current (e.space x)) = _ → _
      rw [hxi, hcur, hpatha]
      intro c y d heq
      refine hold.outer (r :: c) y d ?_
      rw [hxi, hr, hpath, heq]
      rfl
    · show x ∉ e.path ((e.visit i a (e.after r)).current (e.space x)) → _
      rw [hxi, hcur, hpatha]
      intro hnot
      refine hold.away ?_
      rw [hxi, hr, hpath]
      intro hm
      rcases List.mem_cons.mp hm with hm | hm
      · exact hxr hm
      · exact hnot hm
  · intro c y d heq
    rw [hpatha] at heq
    rw [heq] at hnodup'
    cases c with
    | nil =>
      obtain ⟨rfl, -⟩ := List.cons_eq_cons.mp heq
      exact (List.nodup_cons.mp hnodup').1 mem_cons_self
    | cons z c =>
      obtain ⟨rfl, -⟩ := List.cons_eq_cons.mp heq
      exact (List.nodup_cons.mp hnodup').1 (by simp)

theorem Represents.descend (h : Represents s e) (hi : i < e.spaceCount) (hr : e.current i = r)
    (hy : y < e.pointCount) (hpath : e.path y = y :: e.path r) :
    (s.points y).fromNearer = .thunk (e.before y) ∧
      Represents ((s.moveRoot i r y).record (.call i (e.before y)))
        (e.visit i y (e.before y)) := by
  have hrlt : r < e.pointCount := hr ▸ (h.current i hi).1
  have hrspace : e.space r = i := hr ▸ (h.current i hi).2
  obtain ⟨b, hpathr⟩ := h.paths.self r hrlt
  have hrm : r ∈ e.path y := by rw [hpath]; exact mem_cons_of_mem _ (h.path_self hrlt)
  have hyspace : e.space y = i := (h.space y hy r hrm).symm.trans hrspace
  have hnodup := h.paths.nodup y hy
  rw [hpath] at hnodup
  obtain ⟨hynot, hnodup'⟩ := List.nodup_cons.mp hnodup
  have hry : r ≠ y := fun heq => hynot (heq ▸ h.path_self hrlt)
  have hpoint : s.points y = ⟨some r, .thunk (e.after y), .thunk (e.before y)⟩ := by
    have haway := (h.points y hy).away (by rw [hyspace, hr]; exact hynot)
    rwa [parent_eq (hpath.trans (by rw [hpathr]))] at haway
  have hcur : (e.visit i y (e.before y)).current i = y := update_self ..
  refine ⟨by rw [hpoint], h.moveRoot hi hr hy hyspace hry ?_ ?_ ?_⟩
  · have hnew : (s.moveRoot i r y).points r =
        ⟨some y, .thunk (e.before y), .thunk (e.after y)⟩ := by
      show update (update s.points r _) y _ r = _
      rw [update_of_ne hry, update_self, hpoint]
    refine ⟨?_, ?_, ?_⟩
    · show r = (e.visit i y (e.before y)).current (e.space r) → _
      rw [hrspace, hcur]
      exact fun heq => absurd heq hry
    · show ∀ c z d, e.path ((e.visit i y (e.before y)).current (e.space r)) = _ → _
      rw [hrspace, hcur, hpath, hpathr]
      intro c z d heq
      -- `r` stands once on the path of `y`, right after `y`
      cases c with
      | nil =>
        obtain ⟨rfl, -⟩ := List.cons_eq_cons.mp heq
        exact hnew
      | cons w c =>
        obtain ⟨rfl, hrest⟩ := List.cons_eq_cons.mp heq
        rw [hpathr, hrest] at hnodup'
        cases c with
        | nil =>
          obtain ⟨rfl, -⟩ := List.cons_eq_cons.mp hrest
          exact absurd mem_cons_self (List.nodup_cons.mp hnodup').1
        | cons v c =>
          obtain ⟨rfl, -⟩ := List.cons_eq_cons.mp hrest
          exact absurd (by simp) (List.nodup_cons.mp hnodup').1
    · show r ∉ e.path ((e.visit i y (e.before y)).current (e.space r)) → _
      rw [hrspace, hcur]
      exact fun hnot => absurd hrm hnot
  · intro x hx hxi hxr hxy hold
    refine ⟨?_, ?_, ?_⟩
    · show x = (e.visit i y (e.before y)).current (e.space x) → _
      rw [hxi, hcur]
      exact fun heq => absurd heq hxy
    · show ∀ c z d, e.path ((e.visit i y (e.before y)).current (e.space x)) = _ → _
      rw [hxi, hcur, hpath]
      intro c z d heq
      cases c with
      | nil =>
        obtain ⟨-, hrest⟩ := List.cons_eq_cons.mp heq
        rw [hpathr] at hrest
        exact absurd (List.cons_eq_cons.mp hrest).1.symm hxr
      | cons w c =>
        refine hold.outer c z d ?_
        rw [hxi, hr]
        exact (List.cons_eq_cons.mp heq).2
    · show x ∉ e.path ((e.visit i y (e.before y)).current (e.space x)) → _
      rw [hxi, hcur, hpath]
      intro hnot
      refine hold.away ?_
      rw [hxi, hr]
      exact fun hm => hnot (mem_cons_of_mem _ hm)
  · intro c z d heq
    rw [hpath] at heq
    cases c with
    | nil =>
      obtain ⟨-, hrest⟩ := List.cons_eq_cons.mp heq
      exact hynot (hrest ▸ mem_cons_self)
    | cons w c =>
      obtain ⟨-, hrest⟩ := List.cons_eq_cons.mp heq
      exact hynot (by rw [hrest]; simp)

/-! ## The loops -/

def callsOf (i : SpaceId) : Event → Option Thunk
  | .call j thunk => if j = i then some thunk else none
  | .code _ => none

/-- What happens leaves the space `i` as it is. -/
structure Apart (i : SpaceId) (e e' : Extents) : Prop where
  current : e'.current i = e.current i
  log : ∃ new, e'.log = e.log ++ new ∧ new.filterMap (callsOf i) = []

theorem Apart.refl (i e) : Apart i e e :=
  ⟨rfl, [], (append_nil _).symm, rfl⟩

theorem Apart.trans {e''} (h : Apart i e e') (h' : Apart i e' e'') : Apart i e e'' := by
  obtain ⟨new, hnew, hnil⟩ := h.log
  obtain ⟨new', hnew', hnil'⟩ := h'.log
  refine ⟨h'.current.trans h.current, new ++ new', ?_, ?_⟩
  · rw [hnew', hnew, append_assoc]
  · rw [List.filterMap_append, hnil, hnil']
    rfl

theorem apart_record (i e code) : Apart i e (e.record (.code code)) :=
  ⟨rfl, [.code code], rfl, rfl⟩

/-- A way to call procedures that keeps the two levels together and stays away from the
space `i`, for the procedures in `P`. -/
structure Calls (call : Thunk → Spaces → Except Fault Spaces) (call' : Thunk → Extents → Extents)
    (P : Extents → Thunk → Prop) (i : SpaceId) : Prop where
  simulates : ∀ {s e thunk}, Represents s e → P e thunk →
    ∃ s', call thunk s = .ok s' ∧ Represents s' (call' thunk e)
  same : ∀ e thunk, SameTree e (call' thunk e)
  stable : ∀ {e e' thunk}, SameTree e e' → P e thunk → P e' thunk
  apart : ∀ {e thunk}, P e thunk → Apart i e (call' thunk e)

section Loops

variable {call : Thunk → Spaces → Except Fault Spaces} {call' : Thunk → Extents → Extents}
  {P : Extents → Thunk → Prop}

theorem loop_findNearest_out (h : Represents s e) {rest} (ha : a < e.pointCount)
    (hrest : e.path a = a :: rest) (fuel) {down} :
    ∀ {q : PointId} {chain : List PointId}, q < e.pointCount → e.space q = i →
    e.path q = down ++ e.path a → (∀ x ∈ down, x ∉ e.path (e.current i)) →
    loop call (fuel + down.length) (.findNearest q chain) s =
      loop call fuel (.findNearest a (down.reverse ++ chain)) s := by
  induction down with
  | nil =>
    intro q chain hq _ hpath _
    rw [h.paths.inj hq ha hpath]
    rfl
  | cons x down ih =>
    intro q chain hq hqi hpath hdown
    obtain ⟨t, ht⟩ := h.paths.self q hq
    obtain ⟨rfl, hdt⟩ := List.cons_eq_cons.mp (ht.symm.trans hpath)
    obtain ⟨n, hn⟩ : ∃ n, (down ++ e.path a).head? = some n := by
      cases down with
      | nil => exact ⟨a, by rw [List.nil_append, hrest]; rfl⟩
      | cons z down => exact ⟨z, rfl⟩
    obtain ⟨b, hb⟩ := List.head?_eq_some_iff.mp hn
    have hpathq : e.path q = q :: n :: b := by rw [hpath, List.cons_append, hb]
    have hnq : n ∈ e.path q := by rw [hpathq]; simp
    have hnlt := h.paths.closed q hq n hnq
    have hpathn : e.path n = down ++ e.path a := by
      rw [h.paths.rest hq (show e.path q = [q] ++ n :: b from hpathq), hb]
    have haway := (h.points q hq).away (by rw [hqi]; exact hdown q mem_cons_self)
    have hnearer : (s.points q).nearerPoint = some n := by
      rw [haway, parent_eq hpathq]
    rw [List.length_cons, ← Nat.add_assoc, loop, hnearer]
    dsimp only
    rw [ih hnlt ((h.space q hq n hnq).trans hqi) hpathn
      fun z hz => hdown z (mem_cons_of_mem _ hz), List.reverse_cons, append_assoc]
    rfl

theorem loop_findNearest_in (h : Represents s e) (hi : i < e.spaceCount) (fuel) {up} :
    ∀ {a : PointId} {rest chain : List PointId},
    e.path (e.current i) = up ++ a :: rest →
    loop call (fuel + (up.length + 1)) (.findNearest a chain) s =
      loop call fuel (.traverseChain (.space i) (e.current i) ((up ++ [a]).tail ++ chain)) s := by
  obtain ⟨hcur, hspace⟩ := h.current i hi
  induction up using List.reverseRecOn with
  | nil =>
    intro a rest chain hpath
    obtain ⟨t, ht⟩ := h.paths.self _ hcur
    obtain rfl : e.current i = a := (List.cons_eq_cons.mp (ht.symm.trans hpath)).1
    have hpoint := (h.points _ hcur).root (by rw [hspace])
    rw [hspace] at hpoint
    show loop call (fuel + 1) (.findNearest (e.current i) chain) s = _
    rw [loop, hpoint]
    rfl
  | append_singleton up u ih =>
    intro a rest chain hpath
    have hpath' : e.path (e.current i) = up ++ u :: a :: rest := by
      rw [hpath, append_assoc]
      rfl
    have ha : a ∈ e.path (e.current i) := by rw [hpath']; simp
    have halt := h.paths.closed _ hcur a ha
    have haspace := (h.space _ hcur a ha).trans hspace
    have hpoint := (h.points a halt).outer up u rest (by rw [haspace]; exact hpath')
    rw [List.length_append, List.length_singleton, ← Nat.add_assoc, loop, hpoint]
    dsimp only
    rw [ih hpath']
    congr 2
    cases up with
    | nil => rfl
    | cons z up => simp

theorem loop_findRoot (call) (h : Represents s e) (hi : i < e.spaceCount) (fuel space chain) :
    loop call (fuel + 1) (.findRoot space (e.current i :: chain)) s =
      loop call fuel (.traverseChain space (e.current i) chain) s := by
  obtain ⟨hcur, hspace⟩ := h.current i hi
  have hpoint := (h.points _ hcur).root (by rw [hspace])
  rw [loop, hpoint]

theorem loop_traverseChain {thunk n chain} (hfrom : (s.points n).fromNearer = .thunk thunk)
    (hcall : call thunk ((s.moveRoot i r n).record (.call i thunk)) = .ok s')
    (hrep : Represents s' e') (hi : i < e'.spaceCount) (hcur : e'.current i = n) (fuel) :
    loop call (fuel + 2) (.traverseChain (.space i) r (n :: chain)) s =
      loop call fuel (.traverseChain (.space i) n chain) s' := by
  have hroot := loop_findRoot call hrep hi fuel (.space i) chain
  rw [hcur] at hroot
  rw [← hroot]
  simp only [loop, hfrom, hcall]

theorem sameTree_leave (hcalls : Calls call call' P i) (e x) : SameTree e (e.leave call' i x) :=
  (sameTree_visit e _ _ _).trans (hcalls.same _ _)

theorem sameTree_enter (hcalls : Calls call call' P i) (e x) : SameTree e (e.enter call' i x) :=
  (sameTree_visit e _ _ _).trans (hcalls.same _ _)

theorem current_visit (thunk) : (e.visit i x thunk).current i = x :=
  update_self ..

def WindingsIn (P : Extents → Thunk → Prop) (i : SpaceId) (e : Extents) : Prop :=
  ∀ x < e.pointCount, e.space x = i → P e (e.before x) ∧ P e (e.after x)

theorem WindingsIn.congr (hcalls : Calls call call' P i) (hp : WindingsIn P i e)
    (h : SameTree e e') : WindingsIn P i e' := by
  intro x hx hxi
  rw [h.pointCount] at hx
  rw [h.space] at hxi
  rw [h.before, h.after]
  exact (hp x hx hxi).imp (hcalls.stable h) (hcalls.stable h)

theorem loop_leave (hcalls : Calls call call' P i) {up} :
    ∀ {s : Spaces} {e : Extents} {a : PointId} {rest : List PointId} (chain : List PointId),
    Represents s e → i < e.spaceCount → WindingsIn P i e →
    e.path (e.current i) = up ++ a :: rest →
    ∃ s', (∀ fuel, loop call (fuel + 2 * up.length)
        (.traverseChain (.space i) (e.current i) ((up ++ [a]).tail ++ chain)) s =
          loop call fuel (.traverseChain (.space i) a chain) s') ∧
      Represents s' (up.foldl (Extents.leave call' i) e) ∧
      (up.foldl (Extents.leave call' i) e).current i = a ∧
      SameTree e (up.foldl (Extents.leave call' i) e) := by
  induction up with
  | nil =>
    intro s e a rest chain h hi _ hpath
    obtain ⟨t, ht⟩ := h.paths.self _ (h.current i hi).1
    obtain rfl : e.current i = a := (List.cons_eq_cons.mp (ht.symm.trans hpath)).1
    exact ⟨s, fun fuel => rfl, h, rfl, SameTree.refl e⟩
  | cons x up ih =>
    intro s e a rest chain h hi hp hpath
    obtain ⟨hcur, hspace⟩ := h.current i hi
    obtain ⟨t, ht⟩ := h.paths.self _ hcur
    obtain ⟨rfl, -⟩ := List.cons_eq_cons.mp (ht.symm.trans hpath)
    obtain ⟨n, m, hnm⟩ : ∃ n m, up ++ [a] = n :: m := by
      cases up with
      | nil => exact ⟨a, [], rfl⟩
      | cons z up => exact ⟨z, up ++ [a], rfl⟩
    have hpath' : e.path (e.current i) = e.current i :: n :: (m ++ rest) := by
      rw [hpath, List.cons_append, show a :: rest = [a] ++ rest from rfl, ← append_assoc, hnm]
      rfl
    have hn : n ∈ e.path (e.current i) := by rw [hpath']; simp
    have hnspace : e.space n = i := (h.space _ hcur n hn).trans hspace
    obtain ⟨hfrom, hrep⟩ := h.ascend hi rfl hpath'
    have hP := (hp _ hcur hspace).2
    obtain ⟨s1, hs1, hrep1⟩ := hcalls.simulates hrep (hcalls.stable (sameTree_visit e _ _ _) hP)
    have hrep1 : Represents s1 (e.leave call' i (e.current i)) := hrep1
    have hsame := sameTree_leave hcalls e (e.current i)
    have hcur1 : (e.leave call' i (e.current i)).current i = n := by
      rw [Extents.leave, (hcalls.apart (hcalls.stable (sameTree_visit e _ _ _) hP)).current,
        parent_eq hpath', current_visit]
    have hi1 : i < (e.leave call' i (e.current i)).spaceCount := hsame.spaceCount ▸ hi
    have hpath1 : (e.leave call' i (e.current i)).path ((e.leave call' i (e.current i)).current i) =
        up ++ a :: rest := by
      rw [hcur1, hsame.path, h.paths.rest hcur (show e.path (e.current i) =
        [e.current i] ++ n :: (m ++ rest) from hpath'), show n :: (m ++ rest) = n :: m ++ rest
        from rfl, ← hnm, append_assoc]
      rfl
    obtain ⟨s', hloop, hrep', hcur', hsame'⟩ :=
      ih chain hrep1 hi1 (hp.congr hcalls hsame) hpath1
    refine ⟨s', ?_, hrep', hcur', hsame.trans hsame'⟩
    intro fuel
    have hlen : fuel + 2 * (e.current i :: up).length = fuel + 2 * up.length + 2 := by
      rw [List.length_cons, Nat.mul_succ, Nat.add_assoc]
    have htail : ((e.current i :: up) ++ [a]).tail ++ chain = n :: ((up ++ [a]).tail ++ chain) := by
      rw [hnm, List.cons_append, List.tail_cons, hnm]
      rfl
    rw [hlen, htail, loop_traverseChain hfrom hs1 hrep1 hi1 hcur1, ← hloop fuel, hcur1]

theorem loop_enter (hcalls : Calls call call' P i) {down} :
    ∀ {s : Spaces} {e : Extents} {q : PointId}, Represents s e → i < e.spaceCount →
    WindingsIn P i e → q < e.pointCount → e.path q = down.reverse ++ e.path (e.current i) →
    ∃ s', (∀ fuel, loop call (fuel + (2 * down.length + 1))
        (.traverseChain (.space i) (e.current i) down) s = .ok s') ∧
      Represents s' (down.foldl (Extents.enter call' i) e) ∧
      (down.foldl (Extents.enter call' i) e).current i = q ∧
      SameTree e (down.foldl (Extents.enter call' i) e) := by
  induction down with
  | nil =>
    intro s e q h hi _ hq hpath
    exact ⟨s, fun fuel => rfl, h, (h.paths.inj hq (h.current i hi).1 hpath).symm, SameTree.refl e⟩
  | cons y down ih =>
    intro s e q h hi hp hq hpath
    obtain ⟨hcur, hspace⟩ := h.current i hi
    have hpath' : e.path q = down.reverse ++ y :: e.path (e.current i) := by
      rw [hpath, List.reverse_cons, append_assoc]
      rfl
    have hyq : y ∈ e.path q := by rw [hpath']; simp
    have hy := h.paths.closed q hq y hyq
    have hpathy := h.paths.rest hq hpath'
    have hcy : e.current i ∈ e.path y := by
      rw [hpathy]
      exact mem_cons_of_mem _ (h.path_self hcur)
    have hyspace : e.space y = i := (h.space y hy _ hcy).symm.trans hspace
    obtain ⟨hfrom, hrep⟩ := h.descend hi rfl hy hpathy
    have hP := (hp y hy hyspace).1
    obtain ⟨s1, hs1, hrep1⟩ := hcalls.simulates hrep (hcalls.stable (sameTree_visit e _ _ _) hP)
    have hrep1 : Represents s1 (e.enter call' i y) := hrep1
    have hsame := sameTree_enter hcalls e y
    have hcur1 : (e.enter call' i y).current i = y := by
      rw [Extents.enter, (hcalls.apart (hcalls.stable (sameTree_visit e _ _ _) hP)).current,
        current_visit]
    have hi1 : i < (e.enter call' i y).spaceCount := hsame.spaceCount ▸ hi
    have hpath1 : (e.enter call' i y).path q =
        down.reverse ++ (e.enter call' i y).path ((e.enter call' i y).current i) := by
      rw [hcur1, hsame.path, hpathy]
      exact hpath'
    obtain ⟨s', hloop, hrep', hcur', hsame'⟩ :=
      ih hrep1 hi1 (hp.congr hcalls hsame) (hsame.pointCount ▸ hq) hpath1
    refine ⟨s', ?_, hrep', hcur', hsame.trans hsame'⟩
    intro fuel
    have hlen : fuel + (2 * (y :: down).length + 1) = fuel + (2 * down.length + 1) + 2 := by
      rw [List.length_cons, Nat.mul_succ, Nat.add_assoc, Nat.add_assoc]
    rw [hlen, loop_traverseChain hfrom hs1 hrep1 hi1 hcur1, ← hloop fuel, hcur1]

theorem Tree.path_length (h : Tree e) (hx : x < e.pointCount) :
    (e.path x).length ≤ e.pointCount := by
  have hsub : e.path x ⊆ List.range e.pointCount := fun y hy =>
    List.mem_range.mpr (h.paths.closed x hx y hy)
  have hle := ((h.paths.nodup x hx).subperm hsub).length_le
  rwa [List.length_range] at hle

theorem translateWith_spec (h : Represents s e) {q} (hq : q < e.pointCount)
    (hcalls : Calls call call' P (e.space q)) (hp : WindingsIn P (e.space q) e) :
    ∃ s', translateWith call q s = .ok s' ∧ Represents s' (e.move call' q) ∧
      (e.move call' q).current (e.space q) = q ∧ SameTree e (e.move call' q) := by
  have hi := h.space_lt q hq
  obtain ⟨hcur, hspace⟩ := h.current _ hi
  obtain ⟨t, ht⟩ := h.top (e.space q)
  obtain ⟨a, ha, hup, hdown⟩ :=
    h.paths.common hcur hq (ht _ hcur hspace) (ht q hq rfl)
  obtain ⟨rest, hrest⟩ := h.paths.self a ha
  generalize hups : exits e.path (e.current (e.space q)) q = up at *
  generalize hdowns : entries e.path (e.current (e.space q)) q = down at *
  obtain ⟨s1, hloop1, hrep1, hcur1, hsame1⟩ := loop_leave hcalls (down) h hi hp (by rw [hup, hrest])
  have hpath1 : (up.foldl (Extents.leave call' (e.space q)) e).path q = down.reverse ++
      (up.foldl (Extents.leave call' (e.space q)) e).path
        ((up.foldl (Extents.leave call' (e.space q)) e).current (e.space q)) := by
    rw [hcur1, hsame1.path]
    exact hdown
  obtain ⟨s2, hloop2, hrep2, hcur2, hsame2⟩ := loop_enter hcalls hrep1 (hsame1.spaceCount ▸ hi)
    (hp.congr hcalls hsame1) (hsame1.pointCount ▸ hq) hpath1
  have hmove : e.move call' q = down.foldl (Extents.enter call' (e.space q))
      (up.foldl (Extents.leave call' (e.space q)) e) := by
    rw [Extents.move, hups, hdowns]
  rw [hmove]
  refine ⟨s2, ?_, hrep2, hcur2, hsame1.trans hsame2⟩
  have hlenp := h.path_length hcur
  have hlenq := h.path_length hq
  rw [hup, List.length_append] at hlenp
  rw [hdown, List.length_append, List.length_reverse] at hlenq
  obtain ⟨fuel, hfuel⟩ : ∃ fuel, 6 * s.pointCount + 2 = fuel + (2 * down.length + 1) +
      2 * up.length + (up.length + 1) + down.reverse.length := by
    refine ⟨6 * s.pointCount + 2 - (3 * up.length + 3 * down.length + 2), ?_⟩
    rw [h.pointCount, List.length_reverse]
    omega
  have haway : ∀ x ∈ down.reverse, x ∉ e.path (e.current (e.space q)) := by
    intro x hx
    rw [← hdowns, entries_eq, List.reverse_reverse] at hx
    exact exits_notMem hx
  rw [translateWith, hfuel, loop_findNearest_out h ha hrest _ hq rfl hdown haway,
    List.reverse_reverse, append_nil,
    loop_findNearest_in h hi _ (show _ = up ++ a :: rest by rw [hup, hrest]), hloop1, ← hcur1, hloop2]

end Loops

/-! ## The procedures that are called -/

section Log

variable {call : Thunk → Spaces → Except Fault Spaces} {call' : Thunk → Extents → Extents}
  {P : Extents → Thunk → Prop}

theorem log_visit (hcalls : Calls call call' P i) {thunk} (hp : P e thunk) :
    ∃ new, (call' thunk (e.visit i x thunk)).log = e.log ++ new ∧
      new.filterMap (callsOf i) = [thunk] := by
  obtain ⟨new, hnew, hnil⟩ := (hcalls.apart (hcalls.stable (sameTree_visit e i x thunk) hp)).log
  refine ⟨.call i thunk :: new, ?_, ?_⟩
  · rw [hnew]
    show e.log ++ [.call i thunk] ++ new = _
    rw [append_assoc]
    rfl
  · rw [List.filterMap_cons, hnil]
    simp [callsOf]

theorem log_leave (hcalls : Calls call call' P i) {up : List PointId} : ∀ {e : Extents},
    (∀ x ∈ up, P e (e.after x)) →
    ∃ new, (up.foldl (Extents.leave call' i) e).log = e.log ++ new ∧
      new.filterMap (callsOf i) = up.map e.after := by
  induction up with
  | nil => exact fun {e} _ => ⟨[], (append_nil _).symm, rfl⟩
  | cons x up ih =>
    intro e hup
    have hsame := sameTree_leave hcalls e x
    obtain ⟨new, hnew, hcall⟩ := log_visit hcalls (hup x mem_cons_self)
    obtain ⟨new', hnew', hcalls'⟩ := ih (e := e.leave call' i x) (by
      intro y hy
      rw [hsame.after]
      exact hcalls.stable hsame (hup y (mem_cons_of_mem _ hy)))
    refine ⟨new ++ new', ?_, ?_⟩
    · rw [List.foldl_cons, hnew', ← append_assoc, ← hnew]
      rfl
    · rw [List.filterMap_append, hcall, hcalls', hsame.after]
      rfl

theorem log_enter (hcalls : Calls call call' P i) {down : List PointId} : ∀ {e : Extents},
    (∀ x ∈ down, P e (e.before x)) →
    ∃ new, (down.foldl (Extents.enter call' i) e).log = e.log ++ new ∧
      new.filterMap (callsOf i) = down.map e.before := by
  induction down with
  | nil => exact fun {e} _ => ⟨[], (append_nil _).symm, rfl⟩
  | cons x down ih =>
    intro e hdown
    have hsame := sameTree_enter hcalls e x
    obtain ⟨new, hnew, hcall⟩ := log_visit hcalls (hdown x mem_cons_self)
    obtain ⟨new', hnew', hcalls'⟩ := ih (e := e.enter call' i x) (by
      intro y hy
      rw [hsame.before]
      exact hcalls.stable hsame (hdown y (mem_cons_of_mem _ hy)))
    refine ⟨new ++ new', ?_, ?_⟩
    · rw [List.foldl_cons, hnew', ← append_assoc, ← hnew]
      rfl
    · rw [List.filterMap_append, hcall, hcalls', hsame.before]
      rfl

theorem sameTree_foldl {f : Extents → PointId → Extents} (hf : ∀ e x, SameTree e (f e x))
    {l : List PointId} : ∀ {e : Extents}, SameTree e (l.foldl f e) := by
  induction l with
  | nil => exact fun {e} => SameTree.refl e
  | cons x l ih => exact fun {e} => (hf e x).trans ih

theorem log_move (h : Tree e) {q} (hq : q < e.pointCount)
    (hcalls : Calls call call' P (e.space q)) (hp : WindingsIn P (e.space q) e) :
    ∃ new, (e.move call' q).log = e.log ++ new ∧
      new.filterMap (callsOf (e.space q)) = e.windings (e.current (e.space q)) q := by
  obtain ⟨hcur, hspace⟩ := h.current _ (h.space_lt q hq)
  obtain ⟨t, ht⟩ := h.top (e.space q)
  obtain ⟨a, -, hup, hdown⟩ := h.paths.common hcur hq (ht _ hcur hspace) (ht q hq rfl)
  generalize hups : exits e.path (e.current (e.space q)) q = up at *
  generalize hdowns : entries e.path (e.current (e.space q)) q = down at *
  have hexits : ∀ x ∈ up, P e (e.after x) := by
    intro x hx
    have hxm : x ∈ e.path (e.current (e.space q)) := hup ▸ List.mem_append_left _ hx
    exact (hp x (h.paths.closed _ hcur x hxm) ((h.space _ hcur x hxm).trans hspace)).2
  have hentries : ∀ x ∈ down, P e (e.before x) := by
    intro x hx
    have hxm : x ∈ e.path q := hdown ▸ List.mem_append_left _ (List.mem_reverse.mpr hx)
    exact (hp x (h.paths.closed q hq x hxm) (h.space q hq x hxm)).1
  obtain ⟨new, hnew, hcall⟩ := log_leave hcalls hexits
  have hsame : SameTree e (up.foldl (Extents.leave call' (e.space q)) e) :=
    sameTree_foldl (sameTree_leave hcalls)
  rw [← hsame.before] at hentries
  obtain ⟨new', hnew', hcall'⟩ := log_enter hcalls fun x hx => hcalls.stable hsame (hentries x hx)
  refine ⟨new ++ new', ?_, ?_⟩
  · rw [Extents.move, hups, hdowns, hnew', hnew, append_assoc]
  · rw [List.filterMap_append, hcall, hcall', hsame.before, Extents.windings, hups, hdowns]

end Log

/-! ## The two ways to call -/

theorem calls_callUser (i) :
    Calls (callThunk 0) Extents.callUser (fun _ thunk => thunk.IsUser) i := by
  refine ⟨?_, ?_, fun _ h => h, ?_⟩
  · intro s e thunk h hp
    cases thunk with
    | user code => exact ⟨_, rfl, h.record _⟩
    | bound p code => exact hp.elim
  · intro e thunk
    cases thunk with
    | user code => exact ⟨rfl, rfl, rfl, rfl, rfl, rfl⟩
    | bound p code => exact ⟨rfl, rfl, rfl, rfl, rfl, rfl⟩
  · intro e thunk hp
    cases thunk with
    | user code => exact apart_record i e code
    | bound p code => exact hp.elim

theorem Tree.global (h : Tree e) :
    WindingsIn (fun _ thunk => thunk.IsUser) stateSpaceGlobal e := by
  intro x hx hxi
  obtain ⟨hbefore, hafter⟩ := h.windings x hx
  exact ⟨hbefore.user hxi, hafter.user hxi⟩

theorem sameTree_move (e q) : SameTree e (e.move Extents.callUser q) :=
  (sameTree_foldl (sameTree_leave (calls_callUser _))).trans
    (sameTree_foldl (sameTree_enter (calls_callUser _)))

end MitScheme.Runtime.StateSpace
