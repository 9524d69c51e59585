import MitScheme.Lib.Machine
import MitScheme.Runtime.StateSpaceMoves

/-! # Histories of state spaces

New points and spaces, and histories of calls and moves. The code follows the extents
through every history. -/

namespace MitScheme.Runtime.StateSpace
open Lib.Machine Lib.PathTree Function

variable {s s' : Spaces} {e e' : Extents} {i : SpaceId} {r a x y : PointId}

theorem apart_foldl {f : Extents → PointId → Extents} (hf : ∀ e x, Apart i e (f e x))
    {l : List PointId} : ∀ {e : Extents}, Apart i e (l.foldl f e) := by
  induction l with
  | nil => exact fun {e} => Apart.refl i e
  | cons x l ih => exact fun {e} => (hf e x).trans ih

theorem apart_visit {j} (hij : i ≠ j) (e x thunk) : Apart i e (e.visit j x thunk) := by
  refine ⟨update_of_ne hij _ _, [.call j thunk], rfl, ?_⟩
  simp [callsOf, Ne.symm hij]

theorem apart_callUser (i thunk e) : Apart i e (Extents.callUser thunk e) := by
  cases thunk with
  | user code => exact apart_record i e code
  | bound p code => exact apart_record i e code

theorem apart_move {q} (hq : i ≠ e.space q) : Apart i e (e.move Extents.callUser q) := by
  refine (apart_foldl ?_).trans (apart_foldl ?_)
  · exact fun e x => (apart_visit hq e _ _).trans (apart_callUser i _ _)
  · exact fun e x => (apart_visit hq e _ _).trans (apart_callUser i _ _)

theorem calls_call (i) : Calls Spaces.call Extents.call (Winding i) i := by
  refine ⟨?_, ?_, Winding.congr, ?_⟩
  · intro s e thunk h hp
    cases thunk with
    | user code => exact ⟨_, rfl, h.record _⟩
    | bound p code =>
      obtain ⟨hlt, hspace⟩ := hp.bound p code rfl
      obtain ⟨s', hs', hrep, -, -⟩ := translateWith_spec h hlt (calls_callUser _)
        (hspace.symm ▸ h.toTree.global)
      refine ⟨s'.record (.code code), ?_, hrep.record _⟩
      rw [Spaces.call, callThunk, hs']
  · intro e thunk
    cases thunk with
    | user code => exact ⟨rfl, rfl, rfl, rfl, rfl, rfl⟩
    | bound p code =>
      exact (sameTree_move e p).trans ⟨rfl, rfl, rfl, rfl, rfl, rfl⟩
  · intro e thunk hp
    cases thunk with
    | user code => exact apart_record i e code
    | bound p code =>
      obtain ⟨-, hspace⟩ := hp.bound p code rfl
      have hne : i ≠ e.space p := by
        rw [hspace]
        exact fun heq => hp.user heq
      exact (apart_move hne).trans (apart_record i _ code)

theorem Tree.windingsIn (h : Tree e) (i) : WindingsIn (Winding i) i e := by
  rintro x hx rfl
  exact h.windings x hx

/-! ## New points -/

theorem Represents.setLog (h : Represents s e) (log) :
    Represents { s with log } { e with log } := by
  refine ⟨⟨h.paths, h.space, h.space_lt, h.top, h.current, ?_⟩, ?_, h.nearest, h.pointCount,
    h.spaceCount, rfl⟩
  · intro x hx
    obtain ⟨hbefore, hafter⟩ := h.windings x hx
    exact ⟨⟨hbefore.bound, hbefore.user⟩, ⟨hafter.bound, hafter.user⟩⟩
  · exact fun x hx => ⟨(h.points x hx).root, (h.points x hx).outer, (h.points x hx).away⟩

def addExtent (e : Extents) (i : SpaceId) (path : List PointId) (before after : Thunk) : Extents :=
  { e with
    path := update e.path e.pointCount (e.pointCount :: path)
    before := update e.before e.pointCount before
    after := update e.after e.pointCount after
    space := update e.space e.pointCount i
    pointCount := e.pointCount + 1 }

section AddExtent

variable {path : List PointId} {before after : Thunk}

theorem addExtent_path (hx : x < e.pointCount) :
    (addExtent e i path before after).path x = e.path x :=
  update_of_ne (Nat.ne_of_lt hx) _ _

theorem addExtent_space (hx : x < e.pointCount) :
    (addExtent e i path before after).space x = e.space x :=
  update_of_ne (Nat.ne_of_lt hx) _ _

theorem addExtent_path_self :
    (addExtent e i path before after).path e.pointCount = e.pointCount :: path :=
  update_self ..

theorem addExtent_space_self : (addExtent e i path before after).space e.pointCount = i :=
  update_self ..

theorem Winding.addExtent {j thunk} (h : Winding j e thunk) :
    Winding j (addExtent e i path before after) thunk := by
  refine ⟨?_, h.user⟩
  intro p code hp
  obtain ⟨hlt, hspace⟩ := h.bound p code hp
  exact ⟨Nat.lt_succ_of_lt hlt, (addExtent_space hlt).trans hspace⟩

theorem lt_or_eq_of_lt_add (hx : x < (StateSpace.addExtent e i path before after).pointCount) :
    x < e.pointCount ∨ x = e.pointCount :=
  Nat.lt_or_eq_of_le (Nat.le_of_lt_succ hx)

theorem Tree.addPaths (h : Tree e) (hpath : path = [] ∨ ∃ r < e.pointCount, path = e.path r) :
    Paths (addExtent e i path before after).path
      (· < (addExtent e i path before after).pointCount) := by
  have hmem : ∀ y ∈ path, y < e.pointCount ∧ e.path y <:+ path := by
    rcases hpath with rfl | ⟨r, hr, rfl⟩
    · exact fun y hy => absurd hy List.not_mem_nil
    · exact fun y hy => ⟨h.paths.closed r hr y hy, h.paths.suffix r hr y hy⟩
  have hnodup : path.Nodup := by
    rcases hpath with rfl | ⟨r, hr, rfl⟩
    · exact List.nodup_nil
    · exact h.paths.nodup r hr
  refine ⟨?_, ?_, ?_, ?_⟩
  · intro x hx
    rcases lt_or_eq_of_lt_add hx with hx | rfl
    · rw [addExtent_path hx]
      exact h.paths.self x hx
    · exact ⟨path, addExtent_path_self⟩
  · intro x hx y hy
    rcases lt_or_eq_of_lt_add hx with hx | rfl
    · rw [addExtent_path hx] at hy
      exact Nat.lt_succ_of_lt (h.paths.closed x hx y hy)
    · rw [addExtent_path_self] at hy
      rcases List.mem_cons.mp hy with rfl | hy
      · exact Nat.lt_succ_self _
      · exact Nat.lt_succ_of_lt (hmem y hy).1
  · intro x hx y hy
    rcases lt_or_eq_of_lt_add hx with hx | rfl
    · rw [addExtent_path hx] at hy ⊢
      rw [addExtent_path (h.paths.closed x hx y hy)]
      exact h.paths.suffix x hx y hy
    · rw [addExtent_path_self] at hy
      rcases List.mem_cons.mp hy with rfl | hy
      · exact List.suffix_rfl
      · rw [addExtent_path (hmem y hy).1, addExtent_path_self]
        exact (hmem y hy).2.trans (List.suffix_cons _ _)
  · intro x hx
    rcases lt_or_eq_of_lt_add hx with hx | rfl
    · rw [addExtent_path hx]
      exact h.paths.nodup x hx
    · rw [addExtent_path_self]
      exact List.nodup_cons.mpr ⟨fun hm => Nat.lt_irrefl _ (hmem _ hm).1, hnodup⟩

theorem PointOk.addExtent (h : Represents s e) (hx : x < e.pointCount) (point)
    {current : SpaceId → PointId} (hcur : current (e.space x) = e.current (e.space x)) {counts}
    (hcounts : counts.points = update s.points e.pointCount point) :
    PointOk counts { StateSpace.addExtent e i path before after with current } x := by
  have hold := h.points x hx
  have hpoint : counts.points x = s.points x := by
    rw [hcounts, update_of_ne (Nat.ne_of_lt hx)]
  obtain ⟨hclt, -⟩ := h.current _ (h.space_lt x hx)
  have hspace : (StateSpace.addExtent e i path before after).space x = e.space x :=
    addExtent_space hx
  have hpathc : (StateSpace.addExtent e i path before after).path (e.current (e.space x)) =
      e.path (e.current (e.space x)) := addExtent_path hclt
  refine ⟨?_, ?_, ?_⟩
  · show x = current ((StateSpace.addExtent e i path before after).space x) → _
    rw [hspace, hcur, hpoint]
    exact hold.root
  · show ∀ a y b, (StateSpace.addExtent e i path before after).path
      (current ((StateSpace.addExtent e i path before after).space x)) = _ → _
    rw [hspace, hcur, hpathc, hpoint]
    intro a y b heq
    have hy : y < e.pointCount := h.paths.closed _ hclt y (by rw [heq]; simp)
    show _ = StatePoint.mk (some y)
      (.thunk (update e.before e.pointCount before y))
      (.thunk (update e.after e.pointCount after y))
    rw [update_of_ne (Nat.ne_of_lt hy), update_of_ne (Nat.ne_of_lt hy)]
    exact hold.outer a y b heq
  · show x ∉ (StateSpace.addExtent e i path before after).path
      (current ((StateSpace.addExtent e i path before after).space x)) → _
    rw [hspace, hcur, hpathc, hpoint]
    intro haway
    show _ = StatePoint.mk (some ((StateSpace.addExtent e i path before after).parent x))
      (.thunk (update e.after e.pointCount after x))
      (.thunk (update e.before e.pointCount before x))
    rw [Extents.parent, addExtent_path hx, update_of_ne (Nat.ne_of_lt hx),
      update_of_ne (Nat.ne_of_lt hx)]
    exact hold.away haway

end AddExtent

def Spaces.addPoint (s : Spaces) (r : PointId) (before after : Thunk) : Spaces :=
  { s with
    points := update s.points s.pointCount ⟨some r, .thunk after, .thunk before⟩
    pointCount := s.pointCount + 1 }

theorem addPoint_moveRoot (i before after) (hr : r ≠ s.pointCount) :
    (s.addPoint r before after).moveRoot i r s.pointCount = s.pushPoint i r before after := by
  simp only [Spaces.addPoint, Spaces.moveRoot, Spaces.pushPoint, update_self]
  congr 1
  rw [update_comm hr.symm, update_idem, update_comm hr.symm]

theorem Represents.addPoint (h : Represents s e) (hi : i < e.spaceCount) {before after}
    (hbefore : Winding i e before) (hafter : Winding i e after) :
    Represents (s.addPoint (e.current i) before after)
      (addExtent e i (e.path (e.current i)) before after) := by
  obtain ⟨hrlt, hrspace⟩ := h.current i hi
  obtain ⟨b, hpathr⟩ := h.paths.self _ hrlt
  have hne : e.current i ≠ e.pointCount := Nat.ne_of_lt hrlt
  refine ⟨⟨h.toTree.addPaths (.inr ⟨_, hrlt, rfl⟩), ?_, ?_, ?_, ?_, ?_⟩, ?_, h.nearest, ?_,
    h.spaceCount, h.log⟩
  · intro x hx y hy
    rcases lt_or_eq_of_lt_add hx with hx | rfl
    · rw [addExtent_path hx] at hy
      rw [addExtent_space hx, addExtent_space (h.paths.closed x hx y hy)]
      exact h.space x hx y hy
    · rw [addExtent_path_self] at hy
      rw [addExtent_space_self]
      rcases List.mem_cons.mp hy with rfl | hy
      · exact addExtent_space_self
      · rw [addExtent_space (h.paths.closed _ hrlt y hy)]
        exact (h.space _ hrlt y hy).trans hrspace
  · intro x hx
    rcases lt_or_eq_of_lt_add hx with hx | rfl
    · rw [addExtent_space hx]
      exact h.space_lt x hx
    · rw [addExtent_space_self]
      exact hi
  · intro j
    obtain ⟨t, ht⟩ := h.top j
    refine ⟨t, ?_⟩
    intro x hx hxj
    rcases lt_or_eq_of_lt_add hx with hx | rfl
    · rw [addExtent_space hx] at hxj
      rw [addExtent_path hx]
      exact ht x hx hxj
    · rw [addExtent_space_self] at hxj
      rw [addExtent_path_self]
      exact List.mem_cons_of_mem _ (ht _ hrlt (hrspace.trans hxj))
  · intro j hj
    obtain ⟨hlt, hspace⟩ := h.current j hj
    exact ⟨Nat.lt_succ_of_lt hlt, (addExtent_space hlt).trans hspace⟩
  · intro x hx
    rcases lt_or_eq_of_lt_add hx with hx | rfl
    · show Winding _ _ (update e.before e.pointCount before x) ∧
        Winding _ _ (update e.after e.pointCount after x)
      rw [addExtent_space hx, update_of_ne (Nat.ne_of_lt hx),
        update_of_ne (Nat.ne_of_lt hx)]
      exact ⟨(h.windings x hx).1.addExtent, (h.windings x hx).2.addExtent⟩
    · show Winding _ _ (update e.before e.pointCount before e.pointCount) ∧
        Winding _ _ (update e.after e.pointCount after e.pointCount)
      rw [addExtent_space_self, update_self, update_self]
      exact ⟨hbefore.addExtent, hafter.addExtent⟩
  · intro x hx
    rcases lt_or_eq_of_lt_add hx with hx | rfl
    · refine PointOk.addExtent h hx ⟨some (e.current i), .thunk after, .thunk before⟩ rfl ?_
      rw [← h.pointCount]
      rfl
    · have hpathc : (addExtent e i (e.path (e.current i)) before after).path (e.current i) =
          e.path (e.current i) := addExtent_path hrlt
      have hnot : e.pointCount ∉ e.path (e.current i) := fun hm =>
        Nat.lt_irrefl _ (h.paths.closed _ hrlt _ hm)
      refine ⟨?_, ?_, fun _ => ?_⟩
      · rw [addExtent_space_self]
        exact fun heq => absurd heq.symm hne
      · rw [addExtent_space_self]
        intro a y c heq
        refine absurd ?_ hnot
        rw [← hpathc, show (addExtent e i (e.path (e.current i)) before after).path (e.current i)
          = a ++ y :: e.pointCount :: c from heq]
        simp
      · have hparent : (addExtent e i (e.path (e.current i)) before after).parent e.pointCount =
            e.current i := by
          refine parent_eq (b := b) ?_
          rw [addExtent_path_self, hpathr]
        rw [hparent]
        show update s.points s.pointCount _ e.pointCount = StatePoint.mk _
          (.thunk (update e.after e.pointCount after e.pointCount))
          (.thunk (update e.before e.pointCount before e.pointCount))
        rw [h.pointCount, update_self, update_self, update_self]
  · show s.pointCount + 1 = e.pointCount + 1
    rw [h.pointCount]

theorem Represents.pushPoint (h : Represents s e) (hi : i < e.spaceCount) {before after}
    (hbefore : Winding i e before) (hafter : Winding i e after) :
    Represents (s.pushPoint i (e.current i) before after)
      (e.newPoint i (e.path (e.current i)) before after) := by
  have hrlt := (h.current i hi).1
  have hpath : (addExtent e i (e.path (e.current i)) before after).path e.pointCount =
      e.pointCount :: (addExtent e i (e.path (e.current i)) before after).path (e.current i) := by
    rw [addExtent_path_self, addExtent_path hrlt]
  obtain ⟨-, hrep⟩ := (h.addPoint hi hbefore hafter).descend hi rfl (Nat.lt_succ_self _) hpath
  have hne : e.current i ≠ s.pointCount := h.pointCount ▸ Nat.ne_of_lt hrlt
  have hspaces := addPoint_moveRoot i before after hne
  have hrep' := hrep.setLog s.log
  have hlog : ∀ events, { e.newPoint i (e.path (e.current i)) before after with log := events } =
      { (addExtent e i (e.path (e.current i)) before after).visit i e.pointCount
          ((addExtent e i (e.path (e.current i)) before after).before e.pointCount) with
        log := events } := fun _ => rfl
  have hsame : { e.newPoint i (e.path (e.current i)) before after with log := s.log } =
      e.newPoint i (e.path (e.current i)) before after := by
    rw [h.log]
    rfl
  have hroot : (addExtent e i (e.path (e.current i)) before after).current i = e.current i := rfl
  rw [← hlog, hsame, ← h.pointCount, hroot, hspaces] at hrep'
  exact hrep'

theorem Represents.makeStateSpace (h : Represents s e) :
    Represents s.makeStateSpace e.makeStateSpace := by
  have hpath : ∀ {x}, x < e.pointCount → e.makeStateSpace.path x = e.path x := fun hx =>
    update_of_ne (Nat.ne_of_lt hx) _ _
  have hspace : ∀ {x}, x < e.pointCount → e.makeStateSpace.space x = e.space x := fun hx =>
    update_of_ne (Nat.ne_of_lt hx) _ _
  have hpath_self : e.makeStateSpace.path e.pointCount = [e.pointCount] := update_self ..
  have hspace_self : e.makeStateSpace.space e.pointCount = e.spaceCount := update_self ..
  have hcur : ∀ {j}, j < e.spaceCount → e.makeStateSpace.current j = e.current j := fun hj =>
    update_of_ne (Nat.ne_of_lt hj) _ _
  have hcur_self : e.makeStateSpace.current e.spaceCount = e.pointCount := update_self ..
  have hpoints : s.makeStateSpace.points =
      update s.points e.pointCount ⟨none, .space e.spaceCount, .none⟩ := by
    rw [Spaces.makeStateSpace, h.pointCount, h.spaceCount]
  have hold : ∀ {x}, x < e.makeStateSpace.pointCount → x < e.pointCount ∨ x = e.pointCount :=
    fun hx => Nat.lt_or_eq_of_le (Nat.le_of_lt_succ hx)
  have hpaths : Paths (addExtent e e.spaceCount [] (.user 0) (.user 0)).path (· < _) :=
    h.toTree.addPaths (.inl rfl)
  refine ⟨⟨hpaths, ?_, ?_, ?_, ?_, ?_⟩, ?_, ?_, ?_, ?_, h.log⟩
  · intro x hx y hy
    rcases hold hx with hx | rfl
    · rw [hpath hx] at hy
      rw [hspace hx, hspace (h.paths.closed x hx y hy)]
      exact h.space x hx y hy
    · rw [hpath_self] at hy
      rw [List.mem_singleton.mp hy]
  · intro x hx
    show _ < e.spaceCount + 1
    rcases hold hx with hx | rfl
    · rw [hspace hx]
      exact Nat.lt_succ_of_lt (h.space_lt x hx)
    · rw [hspace_self]
      exact Nat.lt_succ_self _
  · intro j
    by_cases hj : j = e.spaceCount
    · refine ⟨e.pointCount, ?_⟩
      intro x hx hxj
      rcases hold hx with hx | rfl
      · rw [hspace hx, hj] at hxj
        exact absurd hxj (Nat.ne_of_lt (h.space_lt x hx))
      · rw [hpath_self]
        exact List.mem_cons_self
    · obtain ⟨t, ht⟩ := h.top j
      refine ⟨t, ?_⟩
      intro x hx hxj
      rcases hold hx with hx | rfl
      · rw [hspace hx] at hxj
        rw [hpath hx]
        exact ht x hx hxj
      · rw [hspace_self] at hxj
        exact absurd hxj.symm hj
  · intro j hj
    rcases Nat.lt_or_eq_of_le (Nat.le_of_lt_succ hj) with hj | rfl
    · obtain ⟨hlt, hspacej⟩ := h.current j hj
      rw [hcur hj, hspace hlt]
      exact ⟨Nat.lt_succ_of_lt hlt, hspacej⟩
    · rw [hcur_self]
      exact ⟨Nat.lt_succ_self _, hspace_self⟩
  · intro x hx
    rcases hold hx with hx | rfl
    · obtain ⟨hbefore, hafter⟩ := h.windings x hx
      show Winding _ _ (update e.before e.pointCount _ x) ∧
        Winding _ _ (update e.after e.pointCount _ x)
      rw [hspace hx, update_of_ne (Nat.ne_of_lt hx),
        update_of_ne (Nat.ne_of_lt hx)]
      have hadd : ∀ {thunk}, Winding (e.space x) e thunk → Winding (e.space x)
          (addExtent e e.spaceCount [] (.user 0) (.user 0)) thunk := Winding.addExtent
      exact ⟨⟨(hadd hbefore).bound, hbefore.user⟩, ⟨(hadd hafter).bound, hafter.user⟩⟩
    · show Winding _ _ (update e.before e.pointCount _ e.pointCount) ∧
        Winding _ _ (update e.after e.pointCount _ e.pointCount)
      rw [update_self, update_self]
      exact ⟨winding_user _ _ _, winding_user _ _ _⟩
  · intro x hx
    rcases hold hx with hx | rfl
    · have hok : PointOk s.makeStateSpace
          { addExtent e e.spaceCount [] (.user 0) (.user 0) with
            current := e.makeStateSpace.current } x :=
        PointOk.addExtent h hx _ (hcur (h.space_lt x hx)) hpoints
      exact ⟨hok.root, hok.outer, hok.away⟩
    · have hpoint : s.makeStateSpace.points e.pointCount = ⟨none, .space e.spaceCount, .none⟩ := by
        rw [hpoints, update_self]
      refine ⟨?_, ?_, ?_⟩
      · rw [hspace_self]
        exact fun _ => hpoint
      · rw [hspace_self, hcur_self, hpath_self]
        intro a y b heq
        have hlen := congrArg List.length heq
        simp only [List.length_append, List.length_cons, List.length_nil] at hlen
        omega
      · rw [hspace_self, hcur_self, hpath_self]
        exact fun hnot => absurd List.mem_cons_self hnot
  · intro j hj
    show update s.nearestPoint s.spaceCount s.pointCount j = _
    rw [h.spaceCount, h.pointCount]
    rcases Nat.lt_or_eq_of_le (Nat.le_of_lt_succ hj) with hj | rfl
    · rw [hcur hj, update_of_ne (Nat.ne_of_lt hj)]
      exact h.nearest j hj
    · rw [hcur_self, update_self]
  · exact congrArg (· + 1) h.pointCount
  · exact congrArg (· + 1) h.spaceCount

/-! ## Histories -/

theorem represents_initial : Represents Spaces.initial Extents.initial := by
  refine Represents.makeStateSpace (Represents.makeStateSpace ?_)
  refine ⟨⟨⟨?_, ?_, ?_, ?_⟩, ?_, ?_, ?_, ?_, ?_⟩, ?_, ?_, rfl, rfl, rfl⟩
  · exact fun x hx => absurd hx (Nat.not_lt_zero x)
  · exact fun x hx => absurd hx (Nat.not_lt_zero x)
  · exact fun x hx => absurd hx (Nat.not_lt_zero x)
  · exact fun x hx => absurd hx (Nat.not_lt_zero x)
  · exact fun x hx => absurd hx (Nat.not_lt_zero x)
  · exact fun x hx => absurd hx (Nat.not_lt_zero x)
  · exact fun _ => ⟨0, fun x hx => absurd hx (Nat.not_lt_zero x)⟩
  · exact fun j hj => absurd hj (Nat.not_lt_zero j)
  · exact fun x hx => absurd hx (Nat.not_lt_zero x)
  · exact fun x hx => absurd hx (Nat.not_lt_zero x)
  · exact fun j hj => absurd hj (Nat.not_lt_zero j)

theorem Represents.translate (h : Represents s e) {q} (hq : q < e.pointCount) :
    ∃ s', s.translateToStatePoint q = .ok s' ∧ Represents s' (e.move Extents.call q) ∧
      (e.move Extents.call q).current (e.space q) = q ∧ SameTree e (e.move Extents.call q) :=
  translateWith_spec h hq (calls_call _) (h.toTree.windingsIn _)

theorem Represents.execute (h : Represents s e) (hi : i < e.spaceCount) {before after}
    (hbefore : Winding i e before) (hafter : Winding i e after) :
    ∃ s', s.executeAtNewStatePoint i before after = .ok s' ∧
      Represents s' (e.execute i before after) ∧
      (e.execute i before after).spaceCount = e.spaceCount := by
  have hrecord : SameTree e (e.record (.call i before)) := ⟨rfl, rfl, rfl, rfl, rfl, rfl⟩
  have hwinding := hbefore.congr hrecord
  obtain ⟨s1, hs1, hrep⟩ := (calls_call i).simulates (h.record (.call i before)) hwinding
  have hsame := hrecord.trans ((calls_call i).same _ before)
  have hcur : (Extents.call before (e.record (.call i before))).current i = e.current i :=
    ((calls_call i).apart hwinding).current
  have hi1 : i < (Extents.call before (e.record (.call i before))).spaceCount :=
    hsame.spaceCount ▸ hi
  have hroot : s.nearestPoint i = s1.nearestPoint i := by
    rw [hrep.nearest i hi1, h.nearest i hi, hcur]
  have hpush := hrep.pushPoint hi1 (hbefore.congr hsame) (hafter.congr hsame)
  refine ⟨_, ?_, hpush, hsame.spaceCount⟩
  simp only [Spaces.executeAtNewStatePoint, hs1]
  rw [if_pos hroot, h.nearest i hi, hcur]

theorem Represents.step (h : Represents s e) (hspaces : 2 ≤ e.spaceCount) {action}
    (hstep : e.step action = some e') :
    ∃ s', s.step action = .ok s' ∧ Represents s' e' ∧ 2 ≤ e'.spaceCount := by
  have hglobal : stateSpaceGlobal < e.spaceCount := Nat.lt_of_lt_of_le (by decide) hspaces
  have hlocal : stateSpaceLocal < e.spaceCount := Nat.lt_of_lt_of_le (by decide) hspaces
  cases action with
  | makeStateSpace =>
    cases hstep
    exact ⟨_, rfl, h.makeStateSpace, Nat.le_succ_of_le hspaces⟩
  | execute space before after =>
    rw [Extents.step] at hstep
    split at hstep
    case isTrue hlt =>
      cases hstep
      obtain ⟨s', hs', hrep, hcount⟩ := h.execute hlt (winding_user _ _ before) (winding_user _ _ after)
      exact ⟨s', hs', hrep, hcount.symm ▸ hspaces⟩
    case isFalse => cases hstep
  | shallowFluidBind before after =>
    cases hstep
    obtain ⟨s', hs', hrep, hcount⟩ :=
      h.execute hglobal (winding_user _ _ before) (winding_user _ _ after)
    exact ⟨s', hs', hrep, hcount.symm ▸ hspaces⟩
  | dynamicWind before after =>
    cases hstep
    have hwinding : ∀ code, Winding stateSpaceLocal e (.bound (e.current stateSpaceGlobal) code) := by
      intro code
      refine ⟨?_, fun heq => absurd heq (by decide)⟩
      intro p code' heq
      cases heq
      exact h.current _ hglobal
    obtain ⟨s', hs', hrep, hcount⟩ := h.execute hlocal (hwinding before) (hwinding after)
    refine ⟨s', ?_, hrep, hcount.symm ▸ hspaces⟩
    rw [← h.nearest _ hglobal] at hs'
    exact hs'
  | translate point =>
    rw [Extents.step] at hstep
    split at hstep
    case isTrue hlt =>
      cases hstep
      obtain ⟨s', hs', hrep, -, hsame⟩ := h.translate hlt
      exact ⟨s', hs', hrep, hsame.spaceCount.symm ▸ hspaces⟩
    case isFalse => cases hstep

theorem Represents.run {actions} : ∀ {s : Spaces} {e : Extents}, Represents s e →
    2 ≤ e.spaceCount → run Extents.step e actions = some e' →
    ∃ s', s.run actions = .ok s' ∧ Represents s' e' := by
  induction actions with
  | nil =>
    intro s e h _ hrun
    cases hrun
    exact ⟨s, rfl, h⟩
  | cons action actions ih =>
    intro s e h hspaces hrun
    obtain ⟨e1, he1, hrest⟩ := Option.bind_eq_some_iff.mp hrun
    obtain ⟨s1, hs1, hrep1, hspaces1⟩ := h.step hspaces he1
    obtain ⟨s', hs', hrep'⟩ := ih hrep1 hspaces1 hrest
    refine ⟨s', ?_, hrep'⟩
    rw [Spaces.run, hs1]
    exact hs'

/-! ## Windings along the links -/

inductive Leads (s : Spaces) : PointId → PointId → Prop
  | here (x : PointId) : Leads s x x
  | link {x y z : PointId} : (s.points x).nearerPoint = some y → Leads s y z → Leads s x z

/-- The points of a space form a tree with root `q`: it is the one without a link, the links
lead to it from everywhere, and the procedures of a link are those of the extent it crosses,
outwards or inwards. -/
structure Rooted (s : Spaces) (e : Extents) (i : SpaceId) (q : PointId) : Prop where
  nearest : s.nearestPoint i = q
  space : s.points q = ⟨none, .space i, .none⟩
  unique : ∀ x < e.pointCount, e.space x = i → ((s.points x).nearerPoint = none ↔ x = q)
  leads : ∀ x < e.pointCount, e.space x = i → Leads s x q
  windings : ∀ x < e.pointCount, e.space x = i → ∀ y, (s.points x).nearerPoint = some y →
    e.path x = x :: e.path y ∧ (s.points x).toNearer = .thunk (e.after x) ∧
      (s.points x).fromNearer = .thunk (e.before x) ∨
    e.path y = y :: e.path x ∧ (s.points x).toNearer = .thunk (e.before y) ∧
      (s.points x).fromNearer = .thunk (e.after y)

theorem Represents.point_cases (h : Represents s e) (hx : x < e.pointCount) (hxi : e.space x = i) :
    x = e.current i ∨
    (∃ a y b, e.path (e.current i) = a ++ y :: x :: b ∧
      s.points x = ⟨some y, .thunk (e.before y), .thunk (e.after y)⟩) ∨
    x ∉ e.path (e.current i) ∧ ∃ y b, e.path x = x :: y :: b ∧
      s.points x = ⟨some y, .thunk (e.after x), .thunk (e.before x)⟩ := by
  subst hxi
  obtain ⟨hcur, hspace⟩ := h.current _ (h.space_lt x hx)
  obtain ⟨t, ht⟩ := h.paths.self _ hcur
  by_cases hm : x ∈ e.path (e.current (e.space x))
  · obtain ⟨a, b, hab⟩ := List.append_of_mem hm
    rcases List.eq_nil_or_concat a with rfl | ⟨a, y, rfl⟩
    · exact .inl (List.cons_eq_cons.mp (hab.symm.trans ht)).1
    · have hpath : e.path (e.current (e.space x)) = a ++ y :: x :: b := by
        rw [hab, List.concat_eq_append, List.append_assoc]
        rfl
      exact .inr (.inl ⟨a, y, b, hpath, (h.points x hx).outer a y b hpath⟩)
  · have hpoint := (h.points x hx).away hm
    obtain ⟨u, hu⟩ := h.paths.self x hx
    obtain ⟨top, htop⟩ := h.top (e.space x)
    cases u with
    | nil =>
      have htopx := htop x hx rfl
      have htopc := htop _ hcur hspace
      rw [hu, List.mem_singleton] at htopx
      rw [htopx] at htopc
      exact absurd htopc hm
    | cons y b =>
      rw [parent_eq hu] at hpoint
      exact .inr (.inr ⟨hm, y, b, hu, hpoint⟩)

theorem Represents.leads_in (h : Represents s e) (hi : i < e.spaceCount) {up} :
    ∀ {a : PointId} {rest : List PointId}, e.path (e.current i) = up ++ a :: rest →
    Leads s a (e.current i) := by
  obtain ⟨hcur, hspace⟩ := h.current i hi
  induction up using List.reverseRecOn with
  | nil =>
    intro a rest hpath
    obtain ⟨t, ht⟩ := h.paths.self _ hcur
    rw [(List.cons_eq_cons.mp (ht.symm.trans hpath)).1]
    exact .here a
  | append_singleton up u ih =>
    intro a rest hpath
    have hpath' : e.path (e.current i) = up ++ u :: a :: rest := by
      rw [hpath, List.append_assoc]
      rfl
    have ha : a ∈ e.path (e.current i) := by rw [hpath']; simp
    have haspace := (h.space _ hcur a ha).trans hspace
    have hpoint := (h.points a (h.paths.closed _ hcur a ha)).outer up u rest
      (by rw [haspace]; exact hpath')
    exact .link (by rw [hpoint]) (ih hpath')

theorem Represents.leads (h : Represents s e) (hi : i < e.spaceCount) :
    ∀ {path : List PointId} {x : PointId}, x < e.pointCount → e.space x = i → e.path x = path →
    Leads s x (e.current i) := by
  intro path
  induction path with
  | nil =>
    intro x hx _ hpath
    obtain ⟨t, ht⟩ := h.paths.self x hx
    exact absurd (ht.symm.trans hpath) (List.cons_ne_nil _ _)
  | cons z path ih =>
    intro x hx hxi hpath
    rcases h.point_cases hx hxi with rfl | ⟨a, y, b, hpath', -⟩ | ⟨-, y, b, hpathx, hpoint⟩
    · exact .here _
    · refine h.leads_in hi (show _ = (a ++ [y]) ++ x :: b from ?_)
      rw [hpath', List.append_assoc]
      rfl
    · have hy : y ∈ e.path x := by rw [hpathx]; simp
      refine .link (by rw [hpoint]) (ih (h.paths.closed x hx y hy)
        ((h.space x hx y hy).trans hxi) ?_)
      rw [h.paths.rest hx (show e.path x = [x] ++ y :: b from hpathx)]
      exact (List.cons_eq_cons.mp (hpathx.symm.trans hpath)).2

theorem Represents.rooted (h : Represents s e) (hi : i < e.spaceCount) :
    Rooted s e i (e.current i) := by
  obtain ⟨hcur, hspace⟩ := h.current i hi
  have hroot := (h.points _ hcur).root (by rw [hspace])
  rw [hspace] at hroot
  refine ⟨h.nearest i hi, hroot, ?_, fun x hx hxi => h.leads hi hx hxi rfl, ?_⟩
  · intro x hx hxi
    refine ⟨?_, fun heq => by rw [heq, hroot]⟩
    intro hnone
    rcases h.point_cases hx hxi with hxc | ⟨_, y, _, _, hpoint⟩ | ⟨_, y, _, _, hpoint⟩
    · exact hxc
    · rw [hpoint] at hnone
      exact absurd hnone (Option.some_ne_none y)
    · rw [hpoint] at hnone
      exact absurd hnone (Option.some_ne_none y)
  · intro x hx hxi z hz
    rcases h.point_cases hx hxi with rfl | ⟨a, y, b, hpath, hpoint⟩ | ⟨-, y, b, hpath, hpoint⟩
    · rw [hroot] at hz
      exact absurd hz (Option.some_ne_none z).symm
    · rw [hpoint] at hz ⊢
      obtain rfl : y = z := Option.some.inj hz
      have hpathy := h.paths.rest hcur hpath
      have hy : y < e.pointCount := h.paths.closed _ hcur y (by rw [hpath]; simp)
      refine .inr ⟨?_, rfl, rfl⟩
      rw [hpathy, h.paths.rest hy (show e.path y = [y] ++ x :: b from hpathy)]
    · rw [hpoint] at hz ⊢
      obtain rfl : y = z := Option.some.inj hz
      refine .inl ⟨?_, rfl, rfl⟩
      rw [hpath, h.paths.rest hx (show e.path x = [x] ++ y :: b from hpath)]

/-- What a move from `p` to `q` calls: with the lowest extent `a` that the two are both in,
the `after` of those below it that `p` is in, the innermost first, and then the `before` of
those `q` is in, the outermost first. -/
structure Winds (e : Extents) (p q : PointId) (calls : List Thunk) : Prop where
  common : ∃ up down a, e.path p = up ++ e.path a ∧ e.path q = down ++ e.path a ∧
    (∀ x ∈ up, x ∉ e.path q) ∧ (∀ x ∈ down, x ∉ e.path p) ∧
    calls = up.map e.after ++ down.reverse.map e.before

theorem Tree.winds (h : Tree e) {p q} (hp : p < e.pointCount) (hq : q < e.pointCount)
    (hpq : e.space p = e.space q) : Winds e p q (e.windings p q) := by
  obtain ⟨t, ht⟩ := h.top (e.space q)
  obtain ⟨a, -, hup, hdown⟩ := h.paths.common hp hq (ht p hp hpq) (ht q hq rfl)
  refine ⟨_, _, a, hup, hdown, fun x hx => exits_notMem hx, ?_, ?_⟩
  · intro x hx
    rw [entries_eq, List.reverse_reverse] at hx
    exact exits_notMem hx
  · rw [List.reverse_reverse]
    rfl

/-- **State spaces are dynamic extents.** After every history the code is in the state the
extents are in, with the same log, and a move to any point calls just the windings on the
way, makes the point the root, and keeps the extents. -/
theorem state_space_winds (actions : List Action) {e : Extents}
    (hrun : run Extents.step Extents.initial actions = some e) :
    ∃ s, Spaces.initial.run actions = .ok s ∧ s.log = e.log ∧
      (∀ i < e.spaceCount, Rooted s e i (e.current i)) ∧
      ∀ q < e.pointCount, ∃ s' new, s.translateToStatePoint q = .ok s' ∧
        s'.log = s.log ++ new ∧
        Winds e (s.nearestPoint (e.space q)) q (new.filterMap (callsOf (e.space q))) ∧
        s'.log = (e.move Extents.call q).log ∧ Rooted s' e (e.space q) q ∧
        ∀ i < e.spaceCount, Rooted s' e i ((e.move Extents.call q).current i) := by
  obtain ⟨s, hs, h⟩ := represents_initial.run (by decide) hrun
  refine ⟨s, hs, h.log, fun i hi => h.rooted hi, ?_⟩
  intro q hq
  have hi := h.space_lt q hq
  obtain ⟨s', hs', h', hcur, hsame⟩ := h.translate hq
  obtain ⟨new, hnew, hcalls⟩ := log_move h.toTree hq (calls_call _) (h.toTree.windingsIn _)
  have hrooted : ∀ i < e.spaceCount, Rooted s' e i ((e.move Extents.call q).current i) := by
    intro i hi
    have hr := h'.rooted (hsame.spaceCount ▸ hi)
    refine ⟨hr.nearest, hr.space, ?_, ?_, ?_⟩
    · rw [← hsame.pointCount, ← hsame.space]
      exact hr.unique
    · rw [← hsame.pointCount, ← hsame.space]
      exact hr.leads
    · rw [← hsame.pointCount, ← hsame.space, ← hsame.path, ← hsame.before, ← hsame.after]
      exact hr.windings
  refine ⟨s', new, hs', ?_, ?_, h'.log, ?_, hrooted⟩
  · rw [h'.log, hnew, h.log]
  · obtain ⟨hclt, hcspace⟩ := h.current _ hi
    rw [h.nearest _ hi, hcalls]
    exact h.toTree.winds hclt hq hcspace
  · have hr := hrooted (e.space q) hi
    rwa [hcur] at hr

/-- Two extents next to each other in one extent; the move is between their points. -/
theorem state_space_winds_branches :
    ∃ e, run Extents.step Extents.initial
        [.shallowFluidBind 10 11, .dynamicWind 0 1, .dynamicWind 2 3, .translate 3, .translate 1,
          .dynamicWind 4 5] = some e ∧
      e.windings 5 4 = [.bound 2 5, .bound 2 0, .bound 2 2] ∧
      ∃ s, Spaces.initial.run [.shallowFluidBind 10 11, .dynamicWind 0 1, .dynamicWind 2 3,
        .translate 3, .translate 1, .dynamicWind 4 5] = .ok s ∧ s.log = e.log := by
  refine ⟨_, rfl, by decide, ?_⟩
  obtain ⟨s, hs, hlog, -⟩ := state_space_winds [.shallowFluidBind 10 11, .dynamicWind 0 1,
    .dynamicWind 2 3, .translate 3, .translate 1, .dynamicWind 4 5] rfl
  exact ⟨s, hs, hlog⟩

end MitScheme.Runtime.StateSpace
