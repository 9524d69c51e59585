import Mathlib.Data.List.Find
import MitScheme.Runtime.Parameters

/-! # Parameters follow the dynamic extent

The list of a suspended extent is with the call that entered it: the list in force is the one of
the current extent, an extent that has been entered keeps the list outside it, and any other keeps
its own. A move exchanges the two at each extent that it leaves or enters. -/

namespace MitScheme.Runtime.Parameters
open Lib.Machine Lib.PathTree StateSpace Function

variable {V : Type} {table : MetadataId → Metadata V} {s s' : Params V} {d d' : Dynamic V}
  {e e' : Extents} {r a x y : PointId}

/-! ## The lists -/

def Dynamic.env (d : Dynamic V) (path : List PointId) : List Cell := path.flatMap d.cells

/-- The list in force is the one of `r`; each call keeps the other one. -/
structure Kept (d : Dynamic V) (s : Params V) (r : PointId) : Prop where
  bindings : s.bindings = d.env (d.path r)
  temps : ∀ x, 2 ≤ x → x < d.pointCount →
    s.temps x = if x ∈ d.path r then d.env (d.path x).tail else d.env (d.path x)

theorem Kept.leave (h : Kept d s r) (hpaths : Paths d.path (· < d.pointCount))
    (hr : r < d.pointCount) (htwo : 2 ≤ r) (hpath : d.path r = r :: d.path a) :
    Kept d (s.swap r) a := by
  have hnodup : (r :: d.path a).Nodup := hpath ▸ hpaths.nodup r hr
  refine ⟨?_, ?_⟩
  · show s.temps r = _
    rw [h.temps r htwo hr, if_pos (by rw [hpath]; exact List.mem_cons_self), hpath, List.tail_cons]
  · intro x hx hlt
    show update s.temps r s.bindings x = _
    by_cases hxr : x = r
    · subst hxr
      rw [update_self, h.bindings, if_neg (List.nodup_cons.mp hnodup).1]
    · rw [update_of_ne hxr, h.temps x hx hlt, hpath]
      simp only [List.mem_cons, hxr, false_or]

theorem Kept.enter (h : Kept d s r) (hpaths : Paths d.path (· < d.pointCount))
    (hy : y < d.pointCount) (htwo : 2 ≤ y) (hpath : d.path y = y :: d.path r) :
    Kept d (s.swap y) y := by
  have hnodup : (y :: d.path r).Nodup := hpath ▸ hpaths.nodup y hy
  refine ⟨?_, ?_⟩
  · show s.temps y = _
    rw [h.temps y htwo hy, if_neg (List.nodup_cons.mp hnodup).1]
  · intro x hx hlt
    show update s.temps y s.bindings x = _
    by_cases hxy : x = y
    · subst hxy
      rw [update_self, h.bindings, if_pos (by rw [hpath]; exact List.mem_cons_self), hpath,
        List.tail_cons]
    · rw [update_of_ne hxy, h.temps x hx hlt, hpath]
      simp only [List.mem_cons, hxy, false_or]

/-! ## The two levels -/

/-- The extents are the points of the global space; 1 is the one of the local space, and each
other but the root is the extent of a call. -/
structure InScope (e : Extents) : Prop where
  global : stateSpaceGlobal < e.spaceCount
  two_le : 2 ≤ e.pointCount
  space : ∀ x < e.pointCount, x ≠ 1 → e.space x = stateSpaceGlobal
  space_one : e.space 1 = stateSpaceLocal
  root : ∀ x < e.pointCount, x ≠ 1 → 0 ∈ e.path x
  path_zero : e.path 0 = [0]
  path_one : e.path 1 = [1]
  thunks : ∀ x < e.pointCount, 2 ≤ x → e.before x = .user x ∧ e.after x = .user x

structure Sim (s : Params V) (e : Extents) (d : Dynamic V) : Prop where
  spaces : Represents s.spaces e
  extents : InScope e
  path : d.path = e.path
  pointCount : d.pointCount = e.pointCount
  current : d.current = e.current stateSpaceGlobal
  kept : Kept d s d.current
  car : ∀ x < d.pointCount, ∀ i < (d.keys x).length, (d.keys x)[i]? = some (s.car (x, i))
  cdr : s.cdr = d.values
  globals : s.globals = d.globals

theorem InScope.congr (h : InScope e) (hsame : SameTree e e') : InScope e' := by
  refine ⟨?_, ?_, ?_, ?_, ?_, ?_, ?_, ?_⟩
  · rw [hsame.spaceCount]
    exact h.global
  · rw [hsame.pointCount]
    exact h.two_le
  · rw [hsame.pointCount, hsame.space]
    exact h.space
  · rw [hsame.space]
    exact h.space_one
  · rw [hsame.pointCount, hsame.path]
    exact h.root
  · rw [hsame.path]
    exact h.path_zero
  · rw [hsame.path]
    exact h.path_one
  · rw [hsame.pointCount, hsame.before, hsame.after]
    exact h.thunks

theorem Sim.paths (h : Sim s e d) : Paths d.path (· < d.pointCount) := by
  rw [h.path, h.pointCount]
  exact h.spaces.paths

theorem Sim.current_lt (h : Sim s e d) : d.current < d.pointCount := by
  rw [h.current, h.pointCount]
  exact (h.spaces.current _ h.extents.global).1

/-! ## Reading and assigning -/

theorem mem_cells {p} : p ∈ d.cells x ↔ p.1 = x ∧ p.2 < (d.keys x).length := by
  obtain ⟨z, i⟩ := p
  simp only [Dynamic.cells, List.mem_map, List.mem_range, Prod.mk.injEq]
  constructor
  · rintro ⟨j, hj, rfl, rfl⟩
    exact ⟨rfl, hj⟩
  · rintro ⟨rfl, hi⟩
    exact ⟨i, hi, rfl, rfl⟩

section
variable (h : Sim s e d)
include h

theorem Sim.assq (metadata) : s.assq metadata = d.innermost metadata := by
  rw [Params.assq, h.kept.bindings, Dynamic.env, List.find?_flatMap, Dynamic.innermost]
  have hmem := h.paths.closed _ h.current_lt
  revert hmem
  generalize d.path d.current = path
  intro hmem
  induction path with
  | nil => rfl
  | cons x path ih =>
    rw [List.findSome?_cons, List.findSome?_cons,
      ih fun y hy => hmem y (List.mem_cons_of_mem x hy)]
    have hx := hmem x List.mem_cons_self
    have hfind : (d.cells x).find? (fun p => s.car p = metadata) = d.bindingIn metadata x := by
      rw [Dynamic.bindingIn]
      refine List.find?_congr ?_
      rintro ⟨z, i⟩ hp
      obtain ⟨rfl, hi⟩ := mem_cells.mp hp
      rw [h.car _ hx i hi]
      exact decide_eq_decide.mpr Option.some_inj.symm
    rw [hfind]

theorem Sim.getValue : s.getValue = d.getValue := by
  funext metadata
  rw [Params.getValue, Dynamic.getValue, h.assq, h.cdr, h.globals]

theorem Sim.setValue (metadata value) :
    Sim (s.setValue metadata value) e (d.setValue metadata value) := by
  rw [Params.setValue, Dynamic.setValue, h.assq]
  cases d.innermost metadata with
  | some p =>
    exact ⟨h.spaces, h.extents, h.path, h.pointCount, h.current, ⟨h.kept.bindings, h.kept.temps⟩,
      h.car, congrArg (update · p value) h.cdr, h.globals⟩
  | none =>
    exact ⟨h.spaces, h.extents, h.path, h.pointCount, h.current, ⟨h.kept.bindings, h.kept.temps⟩,
      h.car, h.cdr, congrArg (update · metadata value) h.globals⟩

theorem Sim.assign (parameter value) :
    Sim (s.assign table parameter value) e (d.assign table parameter value) := by
  rw [Params.assign, Dynamic.assign, h.getValue]
  cases assignment table d.getValue parameter value with
  | some p => exact h.setValue p.1 p.2
  | none => exact h

/-! ## Moves -/

theorem Sim.two_le (ha : a < d.pointCount) (hpath : d.path r = r :: d.path a) : 2 ≤ r := by
  obtain ⟨t, ht⟩ := h.paths.self a ha
  rw [ht] at hpath
  refine (Nat.two_le_iff r).mpr ⟨?_, ?_⟩
  · rintro rfl
    rw [h.path, h.extents.path_zero] at hpath
    cases hpath
  · rintro rfl
    rw [h.path, h.extents.path_one] at hpath
    cases hpath

theorem Sim.windings {q} (hq : q < d.pointCount) (hone : q ≠ 1) :
    Kept d (s.windings (e.windings d.current q)) q := by
  have hspace : e.space d.current = stateSpaceGlobal := by
    rw [h.current]
    exact (h.spaces.current _ h.extents.global).2
  have hcurOne : d.current ≠ 1 := by
    intro heq
    rw [heq, h.extents.space_one] at hspace
    exact absurd hspace (by decide)
  have hroot : ∀ x < d.pointCount, x ≠ 1 → 0 ∈ d.path x := by
    rw [h.path, h.pointCount]
    exact h.extents.root
  rw [Params.windings, Extents.windings, ← h.path, List.foldl_append, List.foldl_map, List.foldl_map]
  refine h.paths.move ?_ ?_ h.current_lt hq (hroot _ h.current_lt hcurOne) (hroot q hq hone) h.kept
  · intro s' r a hr ha hpath hkept
    have htwo := h.two_le ha hpath
    rw [(h.extents.thunks r (h.pointCount ▸ hr) htwo).2]
    exact hkept.leave h.paths hr htwo hpath
  · intro s' y r hy hr hpath hkept
    have htwo := h.two_le hr hpath
    rw [(h.extents.thunks y (h.pointCount ▸ hy) htwo).1]
    exact hkept.enter h.paths hy htwo hpath

end

theorem windings_fields (calls) : ∀ s : Params V,
    (s.windings calls).spaces = s.spaces ∧ (s.windings calls).car = s.car ∧
      (s.windings calls).cdr = s.cdr ∧ (s.windings calls).globals = s.globals := by
  induction calls with
  | nil => exact fun s => ⟨rfl, rfl, rfl, rfl⟩
  | cons thunk calls ih =>
    intro s
    cases thunk with
    | user call => exact ih (s.swap call)
    | bound p code => exact ih s

theorem Kept.of_windings {calls q} : ∀ {s s' : Params V},
    s'.bindings = s.bindings → s'.temps = s.temps → Kept d (s.windings calls) q →
      Kept d (s'.windings calls) q := by
  induction calls with
  | nil =>
    intro s s' hbindings htemps h
    exact ⟨hbindings.trans h.bindings, fun x hx hlt => (congrFun htemps x).trans (h.temps x hx hlt)⟩
  | cons thunk calls ih =>
    intro s s' hbindings htemps h
    cases thunk with
    | user call =>
      refine ih ?_ ?_ h
      · exact congrFun htemps call
      · show update s'.temps call s'.bindings = update s.temps call s.bindings
        rw [hbindings, htemps]
    | bound p code => exact ih hbindings htemps h

theorem Sim.translate (h : Sim s e d) {q} (hq : q < d.pointCount) (hone : q ≠ 1) :
    ∃ s' e', s.winding (s.spaces.translateToStatePoint q) = some s' ∧
      Sim s' e' { d with current := q } := by
  have hqe : q < e.pointCount := h.pointCount ▸ hq
  have hspace := h.extents.space q hqe hone
  obtain ⟨spaces, hok, hrep, hcur, hsame⟩ := h.spaces.translate hqe
  obtain ⟨new, hnew, hcalls⟩ :=
    log_move h.spaces.toTree hqe (calls_call _) (h.spaces.windingsIn _)
  rw [hspace, ← h.current] at hcalls
  rw [hspace] at hcur
  have hdrop : (spaces.log.drop s.spaces.log.length).filterMap (callsOf stateSpaceGlobal) =
      e.windings d.current q := by
    rw [hrep.log, hnew, h.spaces.log, List.drop_left, hcalls]
  refine ⟨_, e.move Extents.call q, by rw [hok]; rfl, ?_⟩
  rw [hdrop]
  have hkept : Kept d (({ s with spaces } : Params V).windings (e.windings d.current q)) q :=
    Kept.of_windings (s := s) rfl rfl (h.windings hq hone)
  obtain ⟨hspaces, hcar, hcdr, hglobals⟩ :=
    windings_fields (e.windings d.current q) ({ s with spaces } : Params V)
  refine ⟨?_, h.extents.congr hsame, ?_, ?_, hcur.symm, ⟨hkept.bindings, hkept.temps⟩, ?_, ?_, ?_⟩
  · rw [hspaces]
    exact hrep
  · rw [hsame.path]
    exact h.path
  · rw [hsame.pointCount]
    exact h.pointCount
  · rw [hcar]
    exact h.car
  · rw [hcdr]
    exact h.cdr
  · rw [hglobals]
    exact h.globals

/-! ## New extents -/

section New

variable {created : List (MetadataId × V)}

theorem Dynamic.extend_keys (hx : x < d.pointCount) : (d.extend created).keys x = d.keys x :=
  update_of_ne (Nat.ne_of_lt hx) _ _

theorem Dynamic.extend_path (hx : x < d.pointCount) : (d.extend created).path x = d.path x :=
  update_of_ne (Nat.ne_of_lt hx) _ _

theorem Dynamic.extend_path_self :
    (d.extend created).path d.pointCount = d.pointCount :: d.path d.current :=
  update_self ..

theorem Dynamic.env_extend {path} (hpath : ∀ x ∈ path, x < d.pointCount) :
    (d.extend created).env path = d.env path :=
  List.flatMap_congr fun x hx => by
    rw [Dynamic.cells, Dynamic.cells, Dynamic.extend_keys (hpath x hx)]

theorem Dynamic.cells_extend_self : (d.extend created).cells d.pointCount =
    (List.range created.length).map (d.pointCount, ·) := by
  rw [Dynamic.cells]
  show (List.range (update d.keys d.pointCount (created.map Prod.fst)
    d.pointCount).length).map _ = _
  rw [update_self, List.length_map]

theorem Sim.create (h : Sim s e d) :
    Kept (d.extend created) (s.create d.pointCount created) d.current := by
  have hclosed := h.paths.closed _ h.current_lt
  have hpath : (d.extend created).path d.current = d.path d.current :=
    Dynamic.extend_path h.current_lt
  refine ⟨?_, ?_⟩
  · rw [hpath, Dynamic.env_extend hclosed]
    exact h.kept.bindings
  · intro x hx hlt
    show update s.temps d.pointCount _ x = _
    rw [hpath]
    rcases Nat.lt_or_eq_of_le (Nat.le_of_lt_succ hlt) with hold | rfl
    · have hclosedx := h.paths.closed x hold
      rw [update_of_ne (Nat.ne_of_lt hold), h.kept.temps x hx hold,
        Dynamic.extend_path hold, Dynamic.env_extend hclosedx,
        Dynamic.env_extend fun y hy => hclosedx y (List.mem_of_mem_tail hy)]
    · rw [update_self, if_neg fun hmem => Nat.lt_irrefl _ (hclosed _ hmem),
        Dynamic.extend_path_self, Dynamic.env, List.flatMap_cons, Dynamic.cells_extend_self,
        ← Dynamic.env, Dynamic.env_extend hclosed, h.kept.bindings]

theorem InScope.execute (h : InScope e) (hrep : Represents s.spaces e) :
    InScope (e.execute stateSpaceGlobal (.user e.pointCount) (.user e.pointCount)) := by
  have hcur := hrep.current _ h.global
  have hne : ∀ x < e.pointCount, x ≠ e.pointCount := fun x hx => Nat.ne_of_lt hx
  have hcases : ∀ x < e.pointCount + 1, x < e.pointCount ∨ x = e.pointCount := fun x hx =>
    Nat.lt_or_eq_of_le (Nat.le_of_lt_succ hx)
  have hold : ∀ x < e.pointCount, ∀ {β : Type} (f : PointId → β) (v : β),
      update f e.pointCount v x = f x := fun x hx {β} f v =>
    update_of_ne (hne x hx) v f
  refine ⟨h.global, Nat.le_succ_of_le h.two_le, ?_, ?_, ?_, ?_, ?_, ?_⟩
  · intro x hx hone
    rcases hcases x hx with hlt | rfl
    · exact (hold x hlt e.space _).trans (h.space x hlt hone)
    · exact update_self ..
  · exact (hold 1 h.two_le e.space _).trans h.space_one
  · intro x hx hone
    show 0 ∈ update e.path e.pointCount
      (e.pointCount :: e.path (e.current stateSpaceGlobal)) x
    rcases hcases x hx with hlt | rfl
    · rw [hold x hlt]
      exact h.root x hlt hone
    · rw [update_self]
      refine List.mem_cons_of_mem _ (h.root _ hcur.1 fun heq => ?_)
      have hspace := hcur.2
      rw [heq, h.space_one] at hspace
      exact absurd hspace (by decide)
  · exact (hold 0 (Nat.lt_of_lt_of_le Nat.zero_lt_two h.two_le) e.path _).trans h.path_zero
  · exact (hold 1 h.two_le e.path _).trans h.path_one
  · intro x hx htwo
    rcases hcases x hx with hlt | rfl
    · obtain ⟨hbefore, hafter⟩ := h.thunks x hlt htwo
      exact ⟨(hold x hlt e.before _).trans hbefore, (hold x hlt e.after _).trans hafter⟩
    · exact ⟨update_self .., update_self ..⟩

theorem Sim.extend (h : Sim s e d) :
    ∃ s' e', (s.create d.pointCount created).winding
        (s.spaces.shallowFluidBind d.pointCount d.pointCount) = some s' ∧
      Sim s' e' (d.extend created) := by
  obtain ⟨spaces, hok, hrep, hspaces⟩ := h.spaces.execute h.extents.global
    (winding_user stateSpaceGlobal e e.pointCount) (winding_user stateSpaceGlobal e e.pointCount)
  have hscope := h.extents.execute h.spaces
  have hdrop : (spaces.log.drop s.spaces.log.length).filterMap (callsOf stateSpaceGlobal) =
      [.user d.pointCount] := by
    have hlog : spaces.log = e.log ++ [.call stateSpaceGlobal (.user d.pointCount),
        .code d.pointCount] := by
      rw [hrep.log, h.pointCount]
      exact List.append_assoc ..
    rw [hlog, h.spaces.log, List.drop_left]
    rfl
  have hpath : (d.extend created).path =
      (e.execute stateSpaceGlobal (.user e.pointCount) (.user e.pointCount)).path := by
    show update d.path d.pointCount (d.pointCount :: d.path d.current) = _
    rw [h.path, h.pointCount, h.current]
    rfl
  have hcount : (d.extend created).pointCount =
      (e.execute stateSpaceGlobal (.user e.pointCount) (.user e.pointCount)).pointCount :=
    congrArg (· + 1) h.pointCount
  have hpaths : Paths (d.extend created).path (· < (d.extend created).pointCount) := by
    rw [hpath, hcount]
    exact hrep.paths
  have htwo : 2 ≤ d.pointCount := h.pointCount ▸ h.extents.two_le
  have hpathCur : (d.extend created).path d.pointCount =
      d.pointCount :: (d.extend created).path d.current := by
    rw [Dynamic.extend_path_self, Dynamic.extend_path h.current_lt]
  have hkept := h.create.enter hpaths (Nat.lt_succ_self d.pointCount) htwo hpathCur
  rw [Spaces.shallowFluidBind, h.pointCount, hok, ← h.pointCount]
  refine ⟨_, e.execute stateSpaceGlobal (.user e.pointCount) (.user e.pointCount), rfl, ?_⟩
  rw [show ((s.create d.pointCount created).spaces = s.spaces) from rfl, hdrop]
  refine ⟨hrep, hscope, hpath, hcount, ?_, ⟨hkept.bindings, hkept.temps⟩, ?_, ?_, h.globals⟩
  · show d.pointCount = update e.current stateSpaceGlobal e.pointCount stateSpaceGlobal
    rw [update_self, h.pointCount]
  · intro x hx i hi
    show _ = some (if x = d.pointCount then ((created.map Prod.fst)[i]?).getD (s.car (x, i))
      else s.car (x, i))
    rcases Nat.lt_or_eq_of_le (Nat.le_of_lt_succ hx) with hold | rfl
    · rw [Dynamic.extend_keys hold] at hi ⊢
      rw [if_neg (Nat.ne_of_lt hold)]
      exact h.car x hold i hi
    · have hkeys : (d.extend created).keys d.pointCount = created.map Prod.fst :=
        update_self ..
      rw [hkeys] at hi ⊢
      rw [if_pos rfl, List.getElem?_eq_getElem hi, Option.getD_some]
  · show (fun p : Cell => if p.1 = d.pointCount then _ else _) = _
    rw [h.cdr]
    rfl

end New

/-! ## Runs -/

theorem Sim.step (h : Sim s e d) {action} (hstep : d.step table action = some d') :
    ∃ s' e', s.step table action = some s' ∧ Sim s' e' d' := by
  cases action with
  | parameterize newBindings =>
    cases hstep
    have hcount : s.spaces.pointCount = d.pointCount :=
      h.spaces.pointCount.trans h.pointCount.symm
    rw [Params.step, Params.parameterize, hcount, h.getValue]
    exact h.extend
  | assign parameter value =>
    cases hstep
    exact ⟨_, e, rfl, h.assign parameter value⟩
  | translate point =>
    rw [Dynamic.step] at hstep
    split at hstep
    case isTrue hpoint =>
      cases hstep
      exact h.translate hpoint.1 hpoint.2
    case isFalse => cases hstep

theorem sim_start : Sim (Params.start table) Extents.initial (Dynamic.start table) := by
  have hcases : ∀ x < 2, x = 0 ∨ x = 1 := by decide
  refine ⟨represents_initial, ⟨by decide, by decide, ?_, rfl, ?_, rfl, rfl, ?_⟩, rfl, rfl, rfl,
    ⟨rfl, ?_⟩, ?_, rfl, rfl⟩
  · intro x hx hone
    rcases hcases x hx with rfl | rfl
    · rfl
    · exact absurd rfl hone
  · intro x hx hone
    rcases hcases x hx with rfl | rfl
    · exact List.mem_cons_self
    · exact absurd rfl hone
  · exact fun x hx htwo => absurd hx (Nat.not_lt.mpr htwo)
  · exact fun x htwo hx => absurd hx (Nat.not_lt.mpr htwo)
  · exact fun x _ i hi => absurd hi (Nat.not_lt_zero i)

theorem Sim.runs {actions} : ∀ {s : Params V} {e : Extents} {d : Dynamic V},
    Sim s e d → run (Dynamic.step table) d actions = some d' →
    ∃ s' e', run (Params.step table) s actions = some s' ∧ Sim s' e' d' := by
  induction actions with
  | nil =>
    intro s e d h hrun
    cases hrun
    exact ⟨s, e, rfl, h⟩
  | cons action actions ih =>
    intro s e d h hrun
    obtain ⟨d1, hd1, hrest⟩ := Option.bind_eq_some_iff.mp hrun
    obtain ⟨s1, e1, hs1, h1⟩ := h.step hd1
    obtain ⟨s', e', hs', h'⟩ := ih h1 hrest
    refine ⟨s', e', ?_, h'⟩
    rw [run, hs1]
    exact hs'

/-! ## Assignments -/

theorem innermost_some {metadata p} (h : d.innermost metadata = some p) :
    p.1 ∈ d.path d.current ∧ (d.keys p.1)[p.2]? = some metadata := by
  obtain ⟨x, hx, hfind⟩ := List.exists_of_findSome?_eq_some h
  obtain ⟨rfl, -⟩ := mem_cells.mp (List.mem_of_find?_eq_some hfind)
  have hkey : decide ((d.keys p.1)[p.2]? = some metadata) = true := by
    rw [Dynamic.bindingIn] at hfind
    have hfound := List.find?_some hfind
    exact hfound
  exact ⟨hx, of_decide_eq_true hkey⟩

theorem setValue_innermost (metadata m value q) :
    ({ d.setValue metadata value with current := q } : Dynamic V).innermost m =
      ({ d with current := q } : Dynamic V).innermost m := by
  rw [Dynamic.setValue]
  cases d.innermost metadata with
  | some p => rfl
  | none => rfl

theorem getValue_setValue (metadata m value q) :
    ({ d.setValue metadata value with current := q } : Dynamic V).getValue m =
      if m = metadata ∧ ({ d with current := q } : Dynamic V).innermost metadata =
        d.innermost metadata then value
      else ({ d with current := q } : Dynamic V).getValue m := by
  rw [Dynamic.getValue, setValue_innermost, Dynamic.setValue, Dynamic.getValue]
  cases hin : d.innermost metadata with
  | some p =>
    cases hq : ({ d with current := q } : Dynamic V).innermost m with
    | some p' =>
      show update d.values p value p' = if _ then value else d.values p'
      by_cases hp : p' = p
      · subst hp
        have hkey := (innermost_some hin).2
        rw [show (d.keys p'.1)[p'.2]? = some m from (innermost_some hq).2] at hkey
        obtain rfl := Option.some.inj hkey
        rw [update_self, if_pos ⟨rfl, hq⟩]
      · rw [update_of_ne hp, if_neg]
        rintro ⟨rfl, heq⟩
        exact hp (Option.some.inj (hq.symm.trans heq))
    | none =>
      show d.globals m = if _ then value else d.globals m
      rw [if_neg]
      rintro ⟨rfl, heq⟩
      rw [hq] at heq
      cases heq
  | none =>
    cases hq : ({ d with current := q } : Dynamic V).innermost m with
    | some p' =>
      show d.values p' = if _ then value else d.values p'
      rw [if_neg]
      rintro ⟨rfl, heq⟩
      rw [hq] at heq
      cases heq
    | none =>
      show update d.globals metadata value m = if _ then value else d.globals m
      by_cases hm : m = metadata
      · subst hm
        rw [update_self, if_pos ⟨rfl, hq⟩]
      · rw [update_of_ne hm, if_neg fun h => hm h.1]

def Action.IsAssign : Action V → Prop
  | .assign _ _ => True
  | _ => False

theorem values_run {more} : ∀ {d : Dynamic V}, (∀ a ∈ more, ¬a.IsAssign) →
    run (Dynamic.step table) d more = some d' →
    d.pointCount ≤ d'.pointCount ∧ (∀ p : Cell, p.1 < d.pointCount → d'.values p = d.values p) ∧
      d'.globals = d.globals := by
  induction more with
  | nil =>
    intro d _ hrun
    cases hrun
    exact ⟨Nat.le_refl _, fun _ _ => rfl, rfl⟩
  | cons action more ih =>
    intro d hmore hrun
    obtain ⟨d1, hd1, hrest⟩ := Option.bind_eq_some_iff.mp hrun
    obtain ⟨hcount, hvalues, hglobals⟩ := ih (fun a ha => hmore a (List.mem_cons_of_mem _ ha)) hrest
    cases action with
    | parameterize newBindings =>
      cases hd1
      refine ⟨Nat.le_of_succ_le hcount, fun p hp => ?_, hglobals⟩
      rw [hvalues p (Nat.lt_succ_of_lt hp)]
      exact if_neg (Nat.ne_of_lt hp)
    | assign parameter value => exact absurd trivial (hmore _ List.mem_cons_self)
    | translate point =>
      rw [Dynamic.step] at hd1
      split at hd1
      case isTrue hpoint =>
        cases hd1
        exact ⟨hcount, hvalues, hglobals⟩
      case isFalse => cases hd1

theorem Sim.getValue_run (h : Sim s e d) {metadata value more} (hmore : ∀ a ∈ more, ¬a.IsAssign)
    (hrun : run (Dynamic.step table) (d.setValue metadata value) more = some d')
    (hin : d'.innermost metadata = d.innermost metadata) : d'.getValue metadata = value := by
  obtain ⟨-, hvalues, hglobals⟩ := values_run hmore hrun
  rw [Dynamic.getValue, hin]
  rw [Dynamic.setValue] at hvalues hglobals
  cases hbound : d.innermost metadata with
  | some p =>
    rw [hbound] at hvalues
    have hlt := h.paths.closed _ h.current_lt _ (innermost_some hbound).1
    exact (hvalues p hlt).trans (update_self ..)
  | none =>
    rw [hbound] at hglobals
    exact (congrFun hglobals metadata).trans (update_self ..)

/-! ## Parameters follow extents -/

/-- What the code computes in a state of the extents. A parameter reads as its innermost binding;
an escape to an extent brings its list back; an assignment is seen where its binding is active
and nowhere else, and until the next one. -/
structure Follows (table : MetadataId → Metadata V) (s : Params V) (d : Dynamic V) : Prop where
  reads : ∀ parameter, read table s.getValue parameter = read table d.getValue parameter
  escapes : ∀ more d', run (Dynamic.step table) d more = some d' → d'.current = d.current →
    ∃ s', run (Params.step table) s more = some s' ∧ s'.bindings = s.bindings
  visible : ∀ parameter value m w, assignment table s.getValue parameter value = some (m, w) →
    ∀ q < d.pointCount, q ≠ 1 → ∃ s' s'',
      run (Params.step table) s [.assign parameter value, .translate q] = some s' ∧
      run (Params.step table) s [.translate q] = some s'' ∧
      ∀ m', s'.getValue m' =
        if m' = m ∧ ({ d with current := q } : Dynamic V).innermost m = d.innermost m then w
        else s''.getValue m'
  lasting : ∀ parameter value m w, assignment table s.getValue parameter value = some (m, w) →
    ∀ more d', (∀ a ∈ more, ¬a.IsAssign) →
      run (Dynamic.step table) d (.assign parameter value :: more) = some d' →
      d'.innermost m = d.innermost m →
      ∃ s', run (Params.step table) s (.assign parameter value :: more) = some s' ∧
        s'.getValue m = w

theorem Dynamic.assign_eq {parameter value m w}
    (h : assignment table d.getValue parameter value = some (m, w)) :
    d.assign table parameter value = d.setValue m w := by
  rw [Dynamic.assign, h]

theorem Dynamic.setValue_pointCount (m w) : (d.setValue m w).pointCount = d.pointCount := by
  rw [Dynamic.setValue]
  cases d.innermost m with
  | some p => rfl
  | none => rfl

theorem env_run {more} : ∀ {s : Params V} {e : Extents} {d : Dynamic V},
    Sim s e d → run (Dynamic.step table) d more = some d' →
    ∀ x < d.pointCount, d'.env (d'.path x) = d.env (d.path x) := by
  induction more with
  | nil =>
    intro s e d _ hrun
    cases hrun
    exact fun _ _ => rfl
  | cons action more ih =>
    intro s e d h hrun x hx
    obtain ⟨d1, hd1, hrest⟩ := Option.bind_eq_some_iff.mp hrun
    obtain ⟨s1, e1, -, h1⟩ := h.step hd1
    cases action with
    | parameterize newBindings =>
      cases hd1
      rw [ih h1 hrest x (Nat.lt_succ_of_lt hx)]
      exact (congrArg _ (Dynamic.extend_path hx)).trans
        (Dynamic.env_extend (h.paths.closed x hx))
    | assign parameter value =>
      cases hd1
      have hassign : (d.assign table parameter value).pointCount = d.pointCount ∧
          (d.assign table parameter value).path = d.path ∧
          (d.assign table parameter value).keys = d.keys := by
        rw [Dynamic.assign]
        cases assignment table d.getValue parameter value with
        | none => exact ⟨rfl, rfl, rfl⟩
        | some p =>
          show (d.setValue p.1 p.2).pointCount = _ ∧ (d.setValue p.1 p.2).path = _ ∧
            (d.setValue p.1 p.2).keys = _
          rw [Dynamic.setValue]
          cases d.innermost p.1 with
          | some _ => exact ⟨rfl, rfl, rfl⟩
          | none => exact ⟨rfl, rfl, rfl⟩
      rw [ih h1 hrest x (hassign.1 ▸ hx), hassign.2.1]
      refine List.flatMap_congr fun y _ => ?_
      rw [Dynamic.cells, Dynamic.cells, hassign.2.2]
    | translate point =>
      rw [Dynamic.step] at hd1
      split at hd1
      case isTrue hpoint =>
        cases hd1
        exact ih h1 hrest x hx
      case isFalse => cases hd1

theorem Sim.follows (h : Sim s e d) : Follows table s d := by
  refine ⟨?_, ?_, ?_, ?_⟩
  · intro parameter
    rw [h.getValue]
  · intro more d' hrun hcur
    obtain ⟨s', e', hs', h'⟩ := h.runs hrun
    refine ⟨s', hs', ?_⟩
    rw [h'.kept.bindings, h.kept.bindings, hcur]
    exact env_run h hrun _ h.current_lt
  · intro parameter value m w hassign q hq hone
    rw [h.getValue] at hassign
    have h1 : Sim (s.assign table parameter value) e (d.assign table parameter value) :=
      h.assign parameter value
    rw [Dynamic.assign_eq hassign] at h1
    have hq1 : q < (d.setValue m w).pointCount := by rwa [Dynamic.setValue_pointCount]
    obtain ⟨s', e', hs', h'⟩ := h1.translate hq1 hone
    obtain ⟨s'', e'', hs'', h''⟩ := h.translate hq hone
    refine ⟨s', s'', ?_, ?_, fun m' => ?_⟩
    · exact congrArg (Option.bind · some) hs'
    · exact congrArg (Option.bind · some) hs''
    · rw [h'.getValue, h''.getValue]
      exact getValue_setValue m m' w q
  · intro parameter value m w hassign more d' hmore hrun hin
    rw [h.getValue] at hassign
    obtain ⟨s', e', hs', h'⟩ := h.runs hrun
    refine ⟨s', hs', ?_⟩
    have hrun' : run (Dynamic.step table) (d.assign table parameter value) more = some d' := hrun
    rw [Dynamic.assign_eq hassign] at hrun'
    rw [h'.getValue]
    exact h.getValue_run hmore hrun' hin

/-- **Parameters follow the dynamic extent.** After every program the code reads each parameter
as the innermost binding of the current extent, as it was last assigned. -/
theorem parameters_follow_extents (table : MetadataId → Metadata V) (actions : List (Action V))
    (hrun : run (Dynamic.step table) (Dynamic.start table) actions = some d) :
    ∃ s, run (Params.step table) (Params.start table) actions = some s ∧ Follows table s d := by
  obtain ⟨s, e, hs, h⟩ := sim_start.runs hrun
  exact ⟨s, hs, h.follows⟩

/-- One parameter bound twice and another by a forwarder; the first is assigned, the extent is
left and entered again. -/
theorem parameters_follow_extents_entered :
    ∃ d : Dynamic Nat, run (Dynamic.step fun _ => ⟨0, (· + 1), fun _ value => value, id, some some⟩)
        (Dynamic.start fun _ => ⟨0, (· + 1), fun _ value => value, id, some some⟩)
        [.parameterize [(.base 0, 5), (.base 0, 6), (.forwarder (.base 1) (· * 2) id, 7)],
          .assign (.base 0) 20, .translate 0, .translate 2] = some d ∧
      d.getValue 0 = 21 ∧ d.getValue 1 = 15 ∧
      ∃ s, run (Params.step fun _ => ⟨0, (· + 1), fun _ value => value, id, some some⟩)
        (Params.start fun _ => ⟨0, (· + 1), fun _ value => value, id, some some⟩)
        [.parameterize [(.base 0, 5), (.base 0, 6), (.forwarder (.base 1) (· * 2) id, 7)],
          .assign (.base 0) 20, .translate 0, .translate 2] = some s ∧
        Follows (fun _ => ⟨0, (· + 1), fun _ value => value, id, some some⟩) s d :=
  ⟨_, rfl, by decide, by decide, parameters_follow_extents _ _ rfl⟩

end MitScheme.Runtime.Parameters
