import MitScheme.Runtime.SyntaxRulesBinding
import MitScheme.Runtime.SyntaxRulesNesting

/-! # Syntax-rules: the expander against R7RS

The expander goes by the dictionary, where a sequence without a datum has lost its
items. It repeats an element as R7RS has it where one of its variables is in the
dictionary and all that are there have a datum. -/

namespace MitScheme.Runtime.SyntaxRules
open List (filter_map mapM_cons map_cons map_map mem_cons_self range)

variable {Id Atom : Type}

/-! ## Where the expander is right -/

def Env.hasDatum (env : Env Id Atom) (v : Id) : Bool :=
  match env v with
  | some x => x.hasDatum
  | none => false

section
variable [DecidableEq Id]

def Env.iterating (env : Env Id Atom) (vars : List Id) (v : Id) : Bool :=
  decide (v ∈ vars) && (env.items v).isSome

variable (rename : Id → Id) (underscore : Id) (present : List Id)

mutual

/-- No identifier is inserted that should be renamed, and wherever an element with an
ellipsis is reached, `present` being the variables in the dictionary, either one of those
that it repeats is present and all that are have a datum there, or nothing is to be
inserted and none is present or the first has no datum. -/
def Form.Right : Form Id Atom → Env Id Atom → Prop
  | .list elts, env => RightElts elts env
  | .vector elts, env => RightElts elts env
  | .dottedList elts tail, env => RightElts elts env ∧ tail.Right env
  | .literalId literal, _ => rename literal = literal
  | .literal _, _ => True
  | .var _, _ => True
  | .anonVar, _ => True

def Elt.Right : Elt Id Atom → Env Id Atom → Prop
  | .one form, env => form.Right env
  | .segment body, env =>
    (present.filter (env.iterating body.vars) ≠ [] ∧
        (∀ v ∈ present.filter (env.iterating body.vars), env.hasDatum v = true) ∧
        ∀ i < env.repetitions body.vars, body.Right (env.step i)) ∨
      ((∀ v ∈ (present.filter (env.iterating body.vars)).head?, env.hasDatum v = false) ∧
        instantiateElt rename underscore (.segment body) env = [])

def RightElts : List (Elt Id Atom) → Env Id Atom → Prop
  | [], _ => True
  | e :: elts, env => e.Right env ∧ RightElts elts env

end

end

/-! ## Sizes -/

mutual

def Datum.size : Datum Id Atom → Nat
  | .pair a d => a.size + 1 + d.size
  | .vector ds => weight ds + 1
  | _ => 1

def weight : List (Datum Id Atom) → Nat
  | [] => 0
  | d :: ds => d.size + 1 + weight ds

end

theorem weight_append : ∀ a b : List (Datum Id Atom), weight (a ++ b) = weight a + weight b
  | [], b => by rw [List.nil_append, weight, Nat.zero_add]
  | d :: a, b => by
    rw [List.cons_append, weight, weight, weight_append a b]
    omega

theorem size_ofList (tail : Datum Id Atom) :
    ∀ ds : List (Datum Id Atom), (Datum.ofList ds tail).size = weight ds + tail.size
  | [] => by rw [Datum.ofList, weight, Nat.zero_add]
  | d :: ds => by
    rw [Datum.ofList, Datum.size, size_ofList tail ds, weight]
    omega

variable {ds a : List (Datum Id Atom)} {d : Datum Id Atom} {e : Fault}

theorem weight_pos (h : ds ≠ []) : 0 < weight ds := by
  cases ds with
  | nil => exact absurd rfl h
  | cons d ds =>
    rw [weight]
    omega

theorem append_inj_of_weight {b a' b' : List (Datum Id Atom)} (ha : weight a ≤ weight a')
    (hb : weight b ≤ weight b') (h : a ++ b = a' ++ b') : a = a' ∧ b = b' := by
  have hw := congrArg weight h
  rw [weight_append, weight_append] at hw
  obtain ⟨c, rfl, rfl⟩ | ⟨c, rfl, rfl⟩ := List.append_eq_append_iff.mp h
  · have hc : c = [] := by
      by_contra hne
      have hpos := weight_pos hne
      rw [weight_append] at hb
      omega
    subst hc
    simp
  · have hc : c = [] := by
      by_contra hne
      have hpos := weight_pos hne
      rw [weight_append] at ha
      omega
    subst hc
    simp

theorem ofList_inj_of_size {a' : List (Datum Id Atom)} {d' : Datum Id Atom}
    (ha : weight a ≤ weight a') (hd : d.size ≤ d'.size)
    (h : Datum.ofList a d = Datum.ofList a' d') : a = a' ∧ d = d' := by
  have hw := congrArg Datum.size h
  rw [size_ofList, size_ofList] at hw
  induction a generalizing a' with
  | nil =>
    have hnil : a' = [] := by
      by_contra hne
      have hpos := weight_pos hne
      rw [weight] at hw
      omega
    subst hnil
    exact ⟨rfl, h⟩
  | cons x a ih =>
    cases a' with
    | nil =>
      rw [weight] at ha
      have hpos := weight_pos (List.cons_ne_nil x a)
      omega
    | cons x' a' =>
      rw [Datum.ofList, Datum.ofList] at h
      injection h with hx h
      subst hx
      rw [weight, weight] at ha hw
      obtain ⟨rfl, rfl⟩ := ih (by omega) h (by omega)
      exact ⟨rfl, rfl⟩

/-! ## Results -/

/-- What is computed is no heavier than what it should be, and is that just under a
condition. -/
def Rightly (r : Except Fault (List (Datum Id Atom))) (ds : List (Datum Id Atom)) (P : Prop) :
    Prop :=
  (∀ out, r = .ok out → weight out ≤ weight ds) ∧ (r = .ok ds ↔ P)

def RightlyOne (r : Except Fault (Datum Id Atom)) (d : Datum Id Atom) (P : Prop) : Prop :=
  (∀ out, r = .ok out → out.size ≤ d.size) ∧ (r = .ok d ↔ P)

theorem Rightly.error {P : Prop} (hP : ¬ P) : Rightly (.error e) ds P := by
  refine ⟨?_, ?_, fun hp => absurd hp hP⟩
  · intro out h
    cases h
  · intro h
    cases h

theorem RightlyOne.error {P : Prop} (hP : ¬ P) : RightlyOne (.error e) d P := by
  refine ⟨?_, ?_, fun hp => absurd hp hP⟩
  · intro out h
    cases h
  · intro h
    cases h

theorem Rightly.not {P : Prop} (h : Rightly (.error e) ds P) : ¬ P := by
  intro hp
  cases h.2.mpr hp

theorem RightlyOne.not {P : Prop} (h : RightlyOne (.error e) d P) : ¬ P := by
  intro hp
  cases h.2.mpr hp

theorem Rightly.append {r s : Except Fault (List (Datum Id Atom))} {b} {P Q : Prop}
    (hr : Rightly r a P) (hs : Rightly s b Q) :
    Rightly (r.bind fun x => s.bind fun y => .ok (x ++ y)) (a ++ b) (P ∧ Q) := by
  obtain e | x := r
  · exact .error fun h => hr.not h.1
  · obtain e | y := s
    · exact .error fun h => hs.not h.2
    · have hx := hr.1 x rfl
      have hy := hs.1 y rfl
      refine ⟨?_, ?_⟩
      · intro out h
        injection h with h
        rw [← h, weight_append, weight_append]
        omega
      · rw [← hr.2, ← hs.2]
        simp only [Except.bind, Except.ok.injEq]
        constructor
        · exact append_inj_of_weight hx hy
        · rintro ⟨rfl, rfl⟩
          rfl

theorem Rightly.ofList {r : Except Fault (List (Datum Id Atom))}
    {s : Except Fault (Datum Id Atom)} {a b} {P Q : Prop} (hr : Rightly r a P)
    (hs : RightlyOne s b Q) :
    RightlyOne (r.bind fun x => s.bind fun y => .ok (.ofList x y)) (.ofList a b) (P ∧ Q) := by
  obtain e | x := r
  · exact .error fun h => hr.not h.1
  · obtain e | y := s
    · exact .error fun h => hs.not h.2
    · have hx := hr.1 x rfl
      have hy := hs.1 y rfl
      refine ⟨?_, ?_⟩
      · intro out h
        injection h with h
        rw [← h, size_ofList, size_ofList]
        omega
      · rw [← hr.2, ← hs.2]
        simp only [Except.bind, Except.ok.injEq]
        constructor
        · exact ofList_inj_of_size hx hy
        · rintro ⟨rfl, rfl⟩
          rfl

theorem RightlyOne.single {r : Except Fault (Datum Id Atom)} {P : Prop} (h : RightlyOne r d P) :
    Rightly (r.bind fun x => .ok [x]) [d] P := by
  obtain e | x := r
  · exact .error h.not
  · have hx := h.1 x rfl
    refine ⟨?_, ?_⟩
    · intro out ho
      injection ho with ho
      rw [← ho, weight, weight, weight, weight]
      omega
    · rw [← h.2]
      simp only [Except.bind, Except.ok.injEq, List.cons.injEq, and_true]

theorem Rightly.flatMap {α : Type} {f : α → Except Fault (List (Datum Id Atom))}
    {g : α → List (Datum Id Atom)} {P : α → Prop} : ∀ (as : List α),
      (∀ a ∈ as, Rightly (f a) (g a) (P a)) →
        Rightly (appendMap f as) (as.flatMap g) (∀ a ∈ as, P a)
  | [], _ => by
    refine ⟨?_, ?_⟩
    · intro out h
      injection h with h
      rw [← h]
      exact Nat.le_refl _
    · simp [appendMap, pure, Except.pure, bind, Except.bind]
  | a :: as, h => by
    have hrest := Rightly.flatMap as fun b hb => h b (List.mem_cons_of_mem _ hb)
    have hboth := (h a mem_cons_self).append hrest
    have heq : appendMap f (a :: as) =
        (f a).bind fun x => (appendMap f as).bind fun y => .ok (x ++ y) := by
      unfold appendMap
      rw [mapM_cons]
      simp only [bind, Except.bind, pure, Except.pure]
      cases f a with
      | error e => rfl
      | ok x => cases as.mapM f <;> rfl
    rw [heq, List.flatMap_cons]
    refine ⟨hboth.1, hboth.2.trans ?_⟩
    exact List.forall_mem_cons.symm

/-! ## Unwrapping -/

def Env.binding (env : Env Id Atom) (depth : Id → Nat) (v : Id) : Binding Id Atom :=
  ⟨v, ((env v).map (·.collapse)).getD (.seq []), depth v⟩

def lower (depth : Id → Nat) : Id → Nat := fun v => depth v - 1

theorem collapseAll_eq_map (items : List (Nest Id Atom)) :
    collapseAll items = items.map (·.collapse) := by
  induction items with
  | nil => rfl
  | cons x items ih => rw [collapseAll, map_cons, ih]

/-- The items of a variable in the dictionary: one for each repetition, if it has a datum. -/
def Env.row (env : Env Id Atom) (depth : Id → Nat) (is : List Nat) (v : Id) :
    List (Binding Id Atom) :=
  if env.hasDatum v then is.map fun i => (env.step i).binding (lower depth) v else []

theorem items_binding {env : Env Id Atom} {depth : Id → Nat} {v} {items : List (Nest Id Atom)}
    (h : env.items v = some items) :
    (env.binding depth v).items = .ok (env.row depth (range items.length) v) := by
  have henv := items_eq_some.mp h
  unfold Env.row Env.hasDatum Env.binding Binding.items
  simp only [henv, Option.map_some, Option.getD_some, Nest.collapse, Nest.hasDatum]
  cases anyDatum items with
  | false => rfl
  | true =>
    simp only [if_true, Except.ok.injEq, collapseAll_eq_map, map_map]
    refine List.ext_getElem (by simp) ?_
    intro i hi _
    rw [List.length_map] at hi
    have hstep : env.step i v = some items[i] := by
      unfold Env.step
      simp only [henv]
      exact List.getElem?_eq_getElem hi
    simp [hstep, lower]

theorem unwrapLoop_rows {env : Env Id Atom} {depth : Id → Nat} (nonSeg : Dict Id Atom)
    (v : Id) (vs : List Id) (hv : env.hasDatum v = true)
    (hvs : ∀ w ∈ vs, env.hasDatum w = true) : ∀ is : List Nat,
      unwrapLoop nonSeg (env.row depth is v) (vs.map (env.row depth is)) =
        .ok (is.map fun i => nonSeg ++ (v :: vs).map ((env.step i).binding (lower depth)))
  | [] => by
    simp only [Env.row, hv, if_true, List.map_nil]
    rfl
  | i :: is => by
    have hrow : ∀ w, env.hasDatum w = true → env.row depth (i :: is) w =
        (env.step i).binding (lower depth) w :: env.row depth is w := by
      intro w hw
      simp [Env.row, hw]
    have hheads : (vs.map (env.row depth (i :: is))).mapM carItem =
        .ok (vs.map ((env.step i).binding (lower depth))) := by
      induction vs with
      | nil => rfl
      | cons w vs ih =>
        rw [map_cons, mapM_cons, hrow w (hvs w mem_cons_self),
          ih fun u hu => hvs u (List.mem_cons_of_mem _ hu)]
        rfl
    have htails : (vs.map (env.row depth (i :: is))).map List.tail =
        vs.map (env.row depth is) := by
      rw [map_map]
      refine List.map_congr_left fun w hw => ?_
      rw [Function.comp_apply, hrow w (hvs w hw), List.tail_cons]
    rw [hrow v hv, unwrapLoop, hheads, htails]
    simp only [bind, Except.bind, unwrapLoop_rows nonSeg v vs hv hvs is]
    rfl

theorem unwrapLoop_short {nonSeg : Dict Id Atom} {b : Binding Id Atom}
    {first : List (Binding Id Atom)} {rest : List (List (Binding Id Atom))} (h : [] ∈ rest) :
    unwrapLoop nonSeg (b :: first) rest = .error .wrongType := by
  have hheads : rest.mapM carItem = .error .wrongType := by
    induction rest with
    | nil => cases h
    | cons r rest ih =>
      rw [mapM_cons]
      cases r with
      | nil => rfl
      | cons c r =>
        have hmem : [] ∈ rest := by simpa using h
        simp only [carItem, ih hmem, bind, Except.bind]
  rw [unwrapLoop, hheads]
  rfl

section
variable [DecidableEq Id]

/-- The dictionary has the variables of the environment, in the order of `present`. -/
structure Represents (present : List Id) (vars : List Id) (env : Env Id Atom)
    (ids : List Id) (depth : Id → Nat) : Prop where
  nodup : ids.Nodup
  shape : ∀ v ∈ ids, v ∈ vars → ∃ x, env v = some x ∧ x.Shape (depth v)
  absent : ∀ v ∈ vars, env.hasDatum v = true → v ∈ ids
  order : ids.filter (env.iterating vars) = present.filter (env.iterating vars)

variable {present vars : List Id} {env : Env Id Atom} {ids : List Id} {depth : Id → Nat}

theorem filter_iterating {present ids : List Id}
    (h : ids.filter (env.iterating vars) = present.filter (env.iterating vars)) {vars'}
    {env' : Env Id Atom} (himp : ∀ v, env'.iterating vars' v = true → env.iterating vars v = true) :
    ids.filter (env'.iterating vars') = present.filter (env'.iterating vars') := by
  have hfilter : ∀ l : List Id, (l.filter (env.iterating vars)).filter (env'.iterating vars') =
      l.filter (env'.iterating vars') := by
    intro l
    rw [List.filter_filter]
    refine List.filter_congr fun v _ => ?_
    cases hv : env'.iterating vars' v with
    | true => rw [himp v hv]; rfl
    | false => rfl
  rw [← hfilter ids, ← hfilter present, h]

theorem Represents.mono (h : Represents present vars env ids depth) {vars'} (hsub : vars' ⊆ vars) :
    Represents present vars' env ids depth where
  nodup := h.nodup
  shape v hv hv' := h.shape v hv (hsub hv')
  absent v hv := h.absent v (hsub hv)
  order := by
    refine filter_iterating h.order fun v hv => ?_
    simp only [Env.iterating, Bool.and_eq_true, decide_eq_true_eq] at hv ⊢
    exact ⟨hsub hv.1, hv.2⟩

theorem isSome_items_iff (h : Represents present vars env ids depth) {v} (hv : v ∈ ids)
    (hv' : v ∈ vars) : 0 < depth v ↔ (env.items v).isSome = true := by
  obtain ⟨x, hx, hshape⟩ := h.shape v hv hv'
  unfold Env.items
  rw [hx]
  cases x with
  | datum d => simp [zero_of_shape_datum hshape]
  | seq items => simp [pos_of_shape_seq hshape]

/-- The variables that are left alone by an ellipsis, and those that it repeats. -/
def unwrapped (present vars : List Id) (env : Env Id Atom) (ids : List Id) : List Id :=
  ids.filter (fun v => decide (v ∈ vars) && !(env.items v).isSome) ++
    present.filter (env.iterating vars)

theorem mem_iterating {v} :
    v ∈ present.filter (env.iterating vars) ↔
      v ∈ present ∧ v ∈ vars ∧ ∃ items, env.items v = some items := by
  rw [List.mem_filter, Env.iterating, Bool.and_eq_true, decide_eq_true_eq,
    Option.isSome_iff_exists]

section
variable (h : Represents present vars env ids depth)
include h

theorem unwrapDict_eq (heven : ∀ v ∈ vars, ∀ items, env.items v = some items →
      items.length = env.repetitions vars) :
    unwrapDict (ids.map (env.binding depth)) vars =
      unwrapItems
        ((ids.filter fun v => decide (v ∈ vars) && !(env.items v).isSome).map
          (env.binding depth))
        ((present.filter (env.iterating vars)).map
          (env.row depth (range (env.repetitions vars)))) := by
  have hseg : ((ids.map (env.binding depth)).filter (·.id ∈ vars)).filter (0 < ·.depth) =
      (present.filter (env.iterating vars)).map (env.binding depth) := by
    rw [filter_map, filter_map, List.filter_filter, ← h.order]
    congr 1
    refine List.filter_congr fun v hv => ?_
    rw [Bool.eq_iff_iff]
    simp only [Function.comp_apply, Bool.and_eq_true, decide_eq_true_eq, Env.iterating]
    change (0 < depth v ∧ v ∈ vars) ↔ _
    constructor
    · rintro ⟨hd, hmem⟩
      exact ⟨hmem, (isSome_items_iff h hv hmem).mp hd⟩
    · rintro ⟨hmem, hs⟩
      exact ⟨(isSome_items_iff h hv hmem).mpr hs, hmem⟩
  have hnon : ((ids.map (env.binding depth)).filter (·.id ∈ vars)).filter (¬ 0 < ·.depth) =
      (ids.filter fun v => decide (v ∈ vars) && !(env.items v).isSome).map
        (env.binding depth) := by
    rw [filter_map, filter_map, List.filter_filter]
    congr 1
    refine List.filter_congr fun v hv => ?_
    rw [Bool.eq_iff_iff]
    simp only [Function.comp_apply, Bool.and_eq_true, decide_eq_true_eq,
      Bool.not_eq_true', ← Bool.not_eq_true]
    change (¬ 0 < depth v ∧ v ∈ vars) ↔ _
    constructor
    · rintro ⟨hd, hmem⟩
      exact ⟨hmem, fun hs => hd ((isSome_items_iff h hv hmem).mpr hs)⟩
    · rintro ⟨hmem, hs⟩
      exact ⟨fun hd => hs ((isSome_items_iff h hv hmem).mp hd), hmem⟩
  have hitems : ∀ vs : List Id, (∀ v ∈ vs, v ∈ present.filter (env.iterating vars)) →
      (vs.map (env.binding depth)).mapM Binding.items =
        .ok (vs.map (env.row depth (range (env.repetitions vars)))) := by
    intro vs
    induction vs with
    | nil => exact fun _ => rfl
    | cons v vs ih =>
      intro hvs
      obtain ⟨-, hmem, items, hitems⟩ := mem_iterating.mp (hvs v mem_cons_self)
      rw [map_cons, mapM_cons, items_binding hitems, heven v hmem items hitems,
        ih fun w hw => hvs w (List.mem_cons_of_mem _ hw)]
      rfl
  unfold unwrapDict
  simp only [hseg, hnon, hitems _ fun v hv => hv, bind, Except.bind]

theorem unwrapDict_nil (heven : ∀ v ∈ vars, ∀ items, env.items v = some items →
      items.length = env.repetitions vars)
    (hhead : ∀ v ∈ (present.filter (env.iterating vars)).head?, env.hasDatum v = false) :
    unwrapDict (ids.map (env.binding depth)) vars = .ok [] := by
  rw [unwrapDict_eq h heven]
  cases hvs : present.filter (env.iterating vars) with
  | nil => rfl
  | cons v vs =>
    rw [hvs] at hhead
    simp only [map_cons, unwrapItems, Env.row, hhead v rfl]
    rfl

theorem binding_step_of_datum (i : Nat) {v} (hv : v ∈ ids) (hv' : v ∈ vars)
    (hnone : env.items v = none) : env.binding depth v = (env.step i).binding (lower depth) v := by
  obtain ⟨x, hx, hshape⟩ := h.shape v hv hv'
  cases x with
  | datum d =>
    have hstep : env.step i v = some (.datum d) := by
      unfold Env.step
      simp only [hx]
    unfold Env.binding lower
    rw [hx, hstep, zero_of_shape_datum hshape]
  | seq items =>
    rw [items_eq_some.mpr hx] at hnone
    cases hnone

theorem unwrapDict_rows (heven : ∀ v ∈ vars, ∀ items, env.items v = some items →
      items.length = env.repetitions vars) (hne : present.filter (env.iterating vars) ≠ [])
    (hall : ∀ v ∈ present.filter (env.iterating vars), env.hasDatum v = true) :
    unwrapDict (ids.map (env.binding depth)) vars =
      .ok ((range (env.repetitions vars)).map fun i =>
        (unwrapped present vars env ids).map ((env.step i).binding (lower depth))) := by
  rw [unwrapDict_eq h heven]
  unfold unwrapped
  cases hvs : present.filter (env.iterating vars) with
  | nil => exact absurd hvs hne
  | cons v vs =>
    rw [hvs] at hall
    rw [map_cons, unwrapItems, unwrapLoop_rows _ v vs (hall v mem_cons_self)
      (fun w hw => hall w (List.mem_cons_of_mem _ hw))]
    congr 1
    refine List.map_congr_left fun i _ => ?_
    rw [List.map_append]
    congr 1
    refine List.map_congr_left fun w hw => ?_
    rw [List.mem_filter] at hw
    simp only [Bool.and_eq_true, decide_eq_true_eq, Bool.not_eq_true',
      Option.isSome_eq_false_iff, Option.isNone_iff_eq_none] at hw
    exact binding_step_of_datum h i hw.1 hw.2.1 hw.2.2

theorem unwrapDict_short (heven : ∀ v ∈ vars, ∀ items, env.items v = some items →
      items.length = env.repetitions vars) {v : Id} {vs : List Id}
    (hvs : present.filter (env.iterating vars) = v :: vs) (hv : env.hasDatum v = true) {w : Id}
    (hw : w ∈ vs) (hw' : env.hasDatum w = false) :
    unwrapDict (ids.map (env.binding depth)) vars = .error .wrongType := by
  rw [unwrapDict_eq h heven, hvs, map_cons, unwrapItems]
  have hmem : v ∈ present.filter (env.iterating vars) := by
    rw [hvs]
    exact mem_cons_self
  obtain ⟨-, hv', items, hitems⟩ := mem_iterating.mp hmem
  have hrow : ∃ b first, env.row depth (range (env.repetitions vars)) v = b :: first := by
    cases hn : env.repetitions vars with
    | zero =>
      have hnil := heven v hv' items hitems
      rw [hn] at hnil
      have hnil := List.length_eq_zero_iff.mp hnil
      unfold Env.hasDatum at hv
      rw [items_eq_some.mp hitems, hnil] at hv
      cases hv
    | succ n =>
      unfold Env.row
      rw [if_pos hv, List.range_succ_eq_map]
      exact ⟨_, _, rfl⟩
  obtain ⟨b, first, hrow⟩ := hrow
  rw [hrow]
  refine unwrapLoop_short (List.mem_map.mpr ⟨w, hw, ?_⟩)
  unfold Env.row
  rw [hw']
  rfl

end

omit [DecidableEq Id] in
theorem hasDatum_of_mem {items} {x : Nest Id Atom} (hx : x ∈ items) (h : x.hasDatum = true) :
    anyDatum items = true := by
  rw [anyDatum_eq]
  exact List.any_eq_true.mpr ⟨x, hx, h⟩

theorem Represents.step (h : Represents present vars env ids depth)
    (heven : ∀ v ∈ vars, ∀ items, env.items v = some items →
      items.length = env.repetitions vars) {i} (hi : i < env.repetitions vars) :
    Represents present vars (env.step i) (unwrapped present vars env ids) (lower depth) := by
  have hiter : ∀ v, (env.step i).iterating vars v = true → env.iterating vars v = true := by
    intro v hv
    simp only [Env.iterating, Bool.and_eq_true, decide_eq_true_eq,
      Option.isSome_iff_exists] at hv ⊢
    obtain ⟨hmem, items, hitems⟩ := hv
    obtain ⟨outer, henv, -⟩ | ⟨d, -, heq⟩ := step_eq_some.mp (items_eq_some.mp hitems)
    · exact ⟨hmem, outer, items_eq_some.mpr henv⟩
    · cases heq
  have hleft : ∀ v, v ∈ ids.filter (fun v => decide (v ∈ vars) && !(env.items v).isSome) ↔
      v ∈ ids ∧ v ∈ vars ∧ env.items v = none := by
    intro v
    rw [List.mem_filter]
    simp
  constructor
  · unfold unwrapped
    rw [← h.order]
    refine List.nodup_append.mpr ⟨h.nodup.filter _, h.nodup.filter _, ?_⟩
    intro v hv w hw heq
    subst heq
    have hnone := ((hleft v).mp hv).2.2
    obtain ⟨-, -, items, hitems⟩ := mem_iterating.mp hw
    rw [hnone] at hitems
    cases hitems
  · intro v hv hv'
    unfold unwrapped at hv
    rw [← h.order] at hv
    obtain hv | hv := List.mem_append.mp hv
    · obtain ⟨hids, -, hnone⟩ := (hleft v).mp hv
      obtain ⟨x, hx, hshape⟩ := h.shape v hids hv'
      cases x with
      | datum d =>
        refine ⟨.datum d, by unfold Env.step; simp only [hx], ?_⟩
        rw [lower, zero_of_shape_datum hshape]
        trivial
      | seq items =>
        rw [items_eq_some.mpr hx] at hnone
        cases hnone
    · obtain ⟨hids, -, items, hitems⟩ := mem_iterating.mp hv
      obtain ⟨x, hx, hshape⟩ := h.shape v hids hv'
      rw [items_eq_some.mp hitems] at hx
      injection hx with hx
      subst hx
      rw [← heven v hv' items hitems] at hi
      obtain ⟨items', heq, hitem⟩ := seq_of_shape hshape (pos_of_shape_seq hshape)
      injection heq with heq
      subst heq
      refine ⟨items[i], ?_, hitem _ (List.getElem_mem hi)⟩
      unfold Env.step
      simp only [items_eq_some.mp hitems]
      exact List.getElem?_eq_getElem hi
  · intro v hv hd
    unfold Env.hasDatum at hd
    unfold unwrapped
    rw [← h.order]
    cases hstep : env.step i v with
    | none =>
      rw [hstep] at hd
      cases hd
    | some x =>
      rw [hstep] at hd
      obtain ⟨items, henv, hitem⟩ | ⟨d, henv, -⟩ := step_eq_some.mp hstep
      · have hids := h.absent v hv (by
          unfold Env.hasDatum
          rw [henv]
          exact hasDatum_of_mem (List.mem_of_getElem? hitem) hd)
        exact List.mem_append_right _ (mem_iterating.mpr ⟨hids, hv, items, items_eq_some.mpr henv⟩)
      · have hids := h.absent v hv (by unfold Env.hasDatum; rw [henv]; rfl)
        refine List.mem_append_left _ ((hleft v).mpr ⟨hids, hv, ?_⟩)
        unfold Env.items
        rw [henv]
  · unfold unwrapped
    rw [List.filter_append]
    have hnil : (ids.filter fun v => decide (v ∈ vars) && !(env.items v).isSome).filter
        ((env.step i).iterating vars) = [] := by
      rw [List.filter_eq_nil_iff]
      intro v hv hit
      have hnone := ((hleft v).mp hv).2.2
      have hold := hiter v hit
      rw [Env.iterating, hnone] at hold
      simp at hold
    rw [hnil, List.nil_append]
    exact filter_iterating (List.filter_filter.trans (by simp)) hiter

omit [DecidableEq Id] in
theorem RightlyOne.ok (d : Datum Id Atom) {P : Prop} (hP : P) : RightlyOne (.ok d) d P := by
  refine ⟨?_, iff_of_true rfl hP⟩
  intro out h
  injection h with h
  rw [h]

omit [DecidableEq Id] in
theorem Rightly.vector {r : Except Fault (List (Datum Id Atom))} {a} {P : Prop}
    (hr : Rightly r a P) : RightlyOne (r.bind fun x => .ok (.vector x)) (.vector a) P := by
  obtain e | x := r
  · exact .error hr.not
  · refine ⟨?_, ?_⟩
    · intro out h
      injection h with h
      rw [← h, Datum.size, Datum.size]
      exact Nat.add_le_add_right (hr.1 x rfl) 1
    · rw [← hr.2]
      simp only [Except.bind, Except.ok.injEq, Datum.vector.injEq]

omit [DecidableEq Id] in
theorem Rightly.nil (ds : List (Datum Id Atom)) :
    Rightly (.ok []) ds (ds = []) := by
  refine ⟨?_, ?_⟩
  · intro out h
    injection h with h
    rw [← h]
    exact Nat.zero_le _
  · simp only [Except.ok.injEq]
    exact eq_comm

theorem lookup_binding (hnodup : ids.Nodup) {v} (hv : v ∈ ids) :
    lookup v (ids.map (env.binding depth)) = some (env.binding depth v) := by
  induction ids with
  | nil => cases hv
  | cons w ids ih =>
    rw [map_cons, lookup, List.find?_cons]
    by_cases hw : w = v
    · subst hw
      simp [Env.binding]
    · have hv := (List.mem_cons.mp hv).resolve_left fun h => hw h.symm
      have hne : decide ((env.binding depth w).id = v) = false := decide_eq_false hw
      rw [hne]
      exact ih (List.nodup_cons.mp hnodup).2 hv

variable (rename : Id → Id) (underscore : Id)

mutual

theorem rightly_expand : ∀ {form : Form Id Atom} {env : Env Id Atom} {ids : List Id}
    {depth : Id → Nat}, form.Even env → Represents present form.vars env ids depth →
      RightlyOne (expand rename underscore form (ids.map (env.binding depth)))
        (instantiate rename underscore form env) (form.Right rename underscore present env)
  | .list elts, env, ids, depth, heven, h => by
    rw [expand, instantiate, Form.Right]
    have hrow := (rightly_expandElts heven h).ofList (RightlyOne.ok .null trivial)
    rw [and_true] at hrow
    exact hrow
  | .vector elts, env, ids, depth, heven, h => by
    rw [expand, instantiate, Form.Right]
    exact (rightly_expandElts heven h).vector
  | .dottedList elts tail, env, ids, depth, heven, h => by
    rw [expand, instantiate, Form.Right]
    exact (rightly_expandElts heven.1 (h.mono (List.subset_append_left _ _))).ofList
      (rightly_expand heven.2 (h.mono (List.subset_append_right _ _)))
  | .literalId literal, _, _, _, _, _ => by
    rw [expand, instantiate, Form.Right]
    refine ⟨?_, ?_⟩
    · intro out ho
      injection ho with ho
      rw [← ho]
      exact Nat.le_refl 1
    · simp only [Except.ok.injEq, Datum.ident.injEq]
      exact eq_comm
  | .literal literal, _, _, _, _, _ => by
    rw [expand, instantiate]
    exact .ok _ trivial
  | .var v, env, ids, depth, heven, h => by
    rw [expand, instantiate]
    rw [Form.Even] at heven
    cases hv : env v with
    | none =>
      have hnot : v ∉ ids := by
        intro hmem
        obtain ⟨x, hx, -⟩ := h.shape v hmem (List.mem_singleton_self v)
        rw [hv] at hx
        cases hx
      have hnone : lookup v (ids.map (env.binding depth)) = none := by
        rw [lookup_eq_none, map_map]
        intro hmem
        obtain ⟨w, hw, rfl⟩ := List.mem_map.mp hmem
        exact hnot hw
      rw [hnone]
      exact .ok _ trivial
    | some x =>
      cases x with
      | datum d =>
        have hmem := h.absent v (List.mem_singleton_self v) (by
          unfold Env.hasDatum
          rw [hv]
          rfl)
        rw [lookup_binding h.nodup hmem]
        simp only [Env.binding, hv, Option.map_some, Option.getD_some, Nest.collapse]
        exact .ok _ trivial
      | seq items =>
        rw [items_eq_some.mpr hv] at heven
        cases heven
  | .anonVar, _, _, _, _, _ => by
    rw [expand, instantiate]
    exact .ok _ trivial

theorem rightly_expandSegment : ∀ {e : Elt Id Atom} {env : Env Id Atom} {ids : List Id}
    {depth : Id → Nat}, e.Even env → Represents present e.vars env ids depth →
      Rightly (expandSegment rename underscore e (ids.map (env.binding depth)))
        (instantiateElt rename underscore e env) (e.Right rename underscore present env)
  | .one form, env, ids, depth, heven, h => by
    rw [expandSegment, instantiateElt, Elt.Right]
    exact (rightly_expand heven h).single
  | .segment body, env, ids, depth, heven, h => by
    obtain ⟨hlen, hbody⟩ := heven
    rw [Elt.vars] at h
    rw [expandSegment, Elt.Right]
    by_cases hhead : ∀ v ∈ (present.filter (env.iterating body.vars)).head?,
        env.hasDatum v = false
    · rw [unwrapDict_nil h hlen hhead]
      refine ⟨(Rightly.nil _).1, (Rightly.nil _).2.trans ⟨fun hnil => .inr ⟨hhead, hnil⟩, ?_⟩⟩
      rintro (⟨hne, hall, -⟩ | ⟨-, hnil⟩)
      · obtain ⟨v, vs, hvs⟩ := List.exists_cons_of_ne_nil hne
        rw [hvs] at hhead hall
        have hfalse := hhead v rfl
        rw [hall v mem_cons_self] at hfalse
        cases hfalse
      · exact hnil
    · have hcons : ∃ v vs, present.filter (env.iterating body.vars) = v :: vs ∧
          env.hasDatum v = true := by
        cases hvs : present.filter (env.iterating body.vars) with
        | nil =>
          rw [hvs] at hhead
          exact absurd (fun v hv => by cases hv) hhead
        | cons v vs =>
          rw [hvs] at hhead
          refine ⟨v, vs, rfl, ?_⟩
          by_contra hv
          refine hhead fun w hw => ?_
          injection hw with hw
          rw [← hw]
          exact Bool.not_eq_true _ ▸ hv
      obtain ⟨v, vs, hvs, hv⟩ := hcons
      by_cases hall : ∀ w ∈ present.filter (env.iterating body.vars), env.hasDatum w = true
      · have hne : present.filter (env.iterating body.vars) ≠ [] := by
          rw [hvs]
          exact List.cons_ne_nil v vs
        rw [unwrapDict_rows h hlen hne hall, instantiateElt]
        have hrows := Rightly.flatMap (range (env.repetitions body.vars)) fun i hi =>
          rightly_expandSegment (hbody i (List.mem_range.mp hi))
            (h.step hlen (List.mem_range.mp hi))
        have hmap : ∀ is : List Nat, appendMap (expandSegment rename underscore body)
            (is.map fun i => (unwrapped present body.vars env ids).map
              ((env.step i).binding (lower depth))) =
            appendMap (fun i => expandSegment rename underscore body
              ((unwrapped present body.vars env ids).map ((env.step i).binding (lower depth))))
              is := by
          intro is
          unfold appendMap
          rw [List.mapM_map]
          rfl
        rw [← hmap] at hrows
        refine ⟨hrows.1, hrows.2.trans ⟨?_, ?_⟩⟩
        · intro hright
          exact .inl ⟨hne, hall, fun i hi => hright i (List.mem_range.mpr hi)⟩
        · rintro (⟨-, -, hright⟩ | ⟨hfalse, -⟩)
          · exact fun i hi => hright i (List.mem_range.mp hi)
          · exact absurd hfalse hhead
      · rw [hvs] at hall
        have hshort : ∃ w ∈ vs, env.hasDatum w = false := by
          by_contra hnone
          refine hall fun w hw => ?_
          obtain rfl | hw := List.mem_cons.mp hw
          · exact hv
          · by_contra hw'
            exact hnone ⟨w, hw, Bool.not_eq_true _ ▸ hw'⟩
        obtain ⟨w, hw, hw'⟩ := hshort
        rw [unwrapDict_short h hlen hvs hv hw hw']
        refine .error ?_
        rintro (⟨-, hall', -⟩ | ⟨hfalse, -⟩)
        · rw [hvs] at hall'
          exact hall hall'
        · exact absurd hfalse hhead

theorem rightly_expandElts : ∀ {elts : List (Elt Id Atom)} {env : Env Id Atom}
    {ids : List Id} {depth : Id → Nat}, EvenElts elts env →
      Represents present (eltsVars elts) env ids depth →
      Rightly (expandElts rename underscore elts (ids.map (env.binding depth)))
        (instantiateElts rename underscore elts env)
        (RightElts rename underscore present elts env)
  | [], _, _, _, _, _ => by
    rw [expandElts, instantiateElts, RightElts]
    refine ⟨(Rightly.nil []).1, iff_of_true rfl trivial⟩
  | e :: elts, env, ids, depth, heven, h => by
    rw [expandElts, instantiateElts, RightElts]
    exact (rightly_expandSegment heven.1 (h.mono (List.subset_append_left _ _))).append
      (rightly_expandElts heven.2 (h.mono (List.subset_append_right _ _)))

end

/-! ## The dictionary of a match -/

mutual

theorem length_of_mem_segs {v ps} : ∀ {form : Form Id Atom},
    form.vars.Nodup → ∀ {path : List Nat} {cells : List Cell},
      (v, ps) ∈ form.segs path cells → ps.length = form.depthOf v + cells.length
  | .list elts, hnodup, path, cells, h => length_of_mem_eltsSegs hnodup h
  | .vector elts, hnodup, path, cells, h => length_of_mem_eltsSegs hnodup h
  | .dottedList elts tail, hnodup, path, cells, h => by
    rw [Form.vars, List.nodup_append] at hnodup
    obtain ⟨hnodup₁, hnodup₂, hdisj⟩ := hnodup
    rw [Form.segs] at h
    rw [Form.depthOf]
    obtain h | h := List.mem_append.mp h
    · rw [if_pos (mem_eltsVars_of_mem_segs h)]
      exact length_of_mem_eltsSegs hnodup₁ h
    · rw [if_neg fun hv => hdisj v hv v (mem_vars_of_mem_segs h) rfl]
      exact length_of_mem_segs hnodup₂ h
  | .var id, _, path, cells, h => by
    injection List.mem_singleton.mp h with _ hps
    rw [hps]
    exact (Nat.zero_add _).symm
  | .literalId _, _, _, _, h => by cases h
  | .literal _, _, _, _, h => by cases h
  | .anonVar, _, _, _, h => by cases h

theorem length_of_mem_eltSegs {v ps} : ∀ {e : Elt Id Atom},
    e.vars.Nodup → ∀ {path : List Nat} {cells : List Cell} {level : Nat},
      (v, ps) ∈ e.segs path cells level → ps.length = e.depthOf v + cells.length
  | .one form, hnodup, path, cells, level, h => length_of_mem_segs hnodup h
  | .segment body, hnodup, path, cells, level, h => by
    rw [Elt.segs] at h
    rw [Elt.vars] at hnodup
    have hlen := length_of_mem_eltSegs hnodup h
    rw [List.length_cons] at hlen
    rw [Elt.depthOf, hlen]
    omega

theorem length_of_mem_eltsSegs {v ps} : ∀ {elts : List (Elt Id Atom)},
    (eltsVars elts).Nodup → ∀ {path : List Nat} {cells : List Cell} {i : Nat},
      (v, ps) ∈ eltsSegs path cells i elts → ps.length = eltsDepth v elts + cells.length
  | [], _, _, _, _, h => by cases h
  | e :: elts, hnodup, path, cells, i, h => by
    rw [eltsVars, List.nodup_append] at hnodup
    obtain ⟨hnodup₁, hnodup₂, hdisj⟩ := hnodup
    rw [eltsSegs] at h
    rw [eltsDepth]
    obtain h | h := List.mem_append.mp h
    · have hv : v ∈ e.vars := by
        rw [← map_fst_eltSegs e (i :: path) cells 0]
        exact List.mem_map_of_mem h
      rw [if_pos hv]
      exact length_of_mem_eltSegs hnodup₁ h
    · rw [if_neg fun hv => hdisj v hv v (mem_eltsVars_of_mem_segs h) rfl]
      exact length_of_mem_eltsSegs hnodup₂ h

end

theorem lookup_of_mem {dict : Dict Id Atom} (hnodup : (dict.map (·.id)).Nodup)
    {b : Binding Id Atom} (hb : b ∈ dict) : lookup b.id dict = some b := by
  induction dict with
  | nil => cases hb
  | cons c dict ih =>
    rw [map_cons, List.nodup_cons] at hnodup
    rw [lookup, List.find?_cons]
    obtain rfl | hb := List.mem_cons.mp hb
    · simp
    · have hne : decide (c.id = b.id) = false :=
        decide_eq_false fun h => hnodup.1 (h ▸ List.mem_map_of_mem hb)
      rw [hne]
      exact ih hnodup.2 hb

variable [DecidableEq Atom] {rename} {compare : Id → Id → Bool}

theorem represents_of_match {pattern : Form Id Atom} {datum}
    (hcheck : pattern.checkForMultipleSegments = true) (hnodup : pattern.vars.Nodup)
    {dict : Dict Id Atom} (hscan : scan rename compare pattern datum = .ok (some dict))
    (henv : env.Matched rename compare pattern datum) (vars : List Id) :
    dict = (dict.map (·.id)).map (env.binding pattern.depthOf) ∧
      Represents (dict.map (·.id)) vars env (dict.map (·.id)) pattern.depthOf := by
  have hids := nodup_scan hnodup hscan
  have hbinding : ∀ b ∈ dict, ∃ x, env b.id = some x ∧ x.Shape (pattern.depthOf b.id) ∧
      b = ⟨b.id, x.collapse, pattern.depthOf b.id⟩ := by
    intro b hb
    have hv := mem_vars_of_scan hscan (List.mem_map_of_mem hb)
    obtain ⟨x, hx, hcorr⟩ := henv.vars b.id hv
    obtain ⟨ps, -, hmem⟩ := exists_lookup_segs hv
    obtain ⟨A, hA, hshape⟩ := shape_of_corresponds hcheck hnodup hmem hcorr
    have hlen := length_of_mem_segs hnodup hmem
    rw [hA, List.length_append, Nat.add_right_cancel_iff] at hlen
    rw [hlen] at hshape
    refine ⟨x, hx, hshape, ?_⟩
    have hholds : lookup b.id dict = _ := holds_scan hcheck hnodup hscan hcorr
    rw [lookup_of_mem hids hb] at hholds
    split at hholds
    · injection hholds
    · cases hholds
  refine ⟨?_, hids, ?_, ?_, rfl⟩
  · rw [map_map]
    conv => lhs; rw [← List.map_id dict]
    refine List.map_congr_left fun b hb => ?_
    obtain ⟨x, hx, -, hb'⟩ := hbinding b hb
    rw [Function.comp_apply, Env.binding, hx]
    exact hb'
  · intro v hv _
    obtain ⟨b, hb, rfl⟩ := List.mem_map.mp hv
    obtain ⟨x, hx, hshape, -⟩ := hbinding b hb
    exact ⟨x, hx, hshape⟩
  · intro v _ hd
    unfold Env.hasDatum at hd
    by_cases hv : v ∈ pattern.vars
    · obtain ⟨x, hx, hcorr⟩ := henv.vars v hv
      rw [hx] at hd
      have hx' : x.hasDatum = true := hd
      have hholds : lookup v dict = _ := holds_scan hcheck hnodup hscan hcorr
      rw [hx', if_pos rfl] at hholds
      by_contra hno
      rw [lookup_eq_none.mpr hno] at hholds
      cases hholds
    · rw [henv.other v hv] at hd
      cases hd

theorem exists_dict_of_matches {pattern : Form Id Atom} {datum}
    (hcheck : pattern.checkForMultipleSegments = true) (h : Matches rename compare pattern datum) :
    ∃ dict, syntaxRulesMatchDatum rename compare pattern datum = .ok (some dict) := by
  have htells := tells_scan rename compare hcheck datum
  rw [syntaxRulesMatchDatum_eq rename compare hcheck]
  cases hscan : scan rename compare pattern datum with
  | error e =>
    rw [hscan] at htells
    exact absurd h htells.2
  | ok o =>
    cases o with
    | none =>
      rw [hscan] at htells
      exact absurd h htells.1
    | some dict => exact ⟨dict, rfl⟩

/-- **The expansion is the instance of the template just where the dictionary has not
lost a repetition that is needed** and no identifier of the literals is inserted. -/
theorem expandTemplate_eq_instantiate_iff (underscore : Id) {pattern template : Form Id Atom}
    (hparse : parseClause pattern template = true) {datum : Datum Id Atom}
    (hmatch : Matches rename compare pattern datum)
    (henv : env.Matched rename compare pattern datum) :
    ∃ dict, syntaxRulesMatchDatum rename compare pattern datum = .ok (some dict) ∧
      (syntaxRulesExpandTemplate rename underscore template dict =
          .ok (instantiate rename underscore template env) ↔
        template.Right rename underscore (dict.map (·.id)) env) := by
  have heven := even_of_parseClause hparse henv
  simp only [parseClause, Bool.and_eq_true, decide_eq_true_eq] at hparse
  obtain ⟨⟨hcheck, hnodup⟩, -⟩ := hparse
  obtain ⟨dict, hdict⟩ := exists_dict_of_matches hcheck hmatch
  refine ⟨dict, hdict, ?_⟩
  rw [syntaxRulesMatchDatum_eq rename compare hcheck] at hdict
  obtain ⟨heq, hrep⟩ := represents_of_match hcheck hnodup hdict henv template.vars
  have h := (rightly_expand rename underscore heven hrep).2
  rw [← heq] at h
  exact h

end

/-! ## Two clauses -/

/-- The pattern `((a b ...) ...)`. -/
def nestedPattern : Form Nat Nat :=
  .list [.segment (.one (.list [.one (.var 0), .segment (.one (.var 1))]))]

/-- The template `((b ...) ...)`. -/
def innerTemplate : Form Nat Nat := .list [.segment (.one (.list [.segment (.one (.var 1))]))]

/-- The datum `((1) (2))`. -/
def twoLists : Datum Nat Nat :=
  .pair (.pair (.atom 1) .null) (.pair (.pair (.atom 2) .null) .null)

/-- `a` stands for 1 and 2, `b` for two empty sequences. -/
def twoListsEnv : Env Nat Nat := fun v =>
  if v = 0 then some (.seq [.datum (.atom 1), .datum (.atom 2)])
  else if v = 1 then some (.seq [.seq [], .seq []])
  else none

theorem matches_nestedPattern : Matches (· + 100) (· == ·) nestedPattern twoLists := by
  have hone : ∀ n : Nat, Matches (· + 100) (· == ·)
      (.list [.one (.var 0), .segment (.one (.var 1))] : Form Nat Nat)
      (.pair (.atom n) .null) := by
    intro n
    rw [Matches]
    refine ⟨[.atom n], rfl, ?_⟩
    simp [MatchesElts, Matches]
  rw [nestedPattern, Matches]
  refine ⟨[.pair (.atom 1) .null, .pair (.atom 2) .null], rfl, ?_⟩
  rw [MatchesElts]
  refine ⟨_, [], (List.append_nil _).symm, ?_, by rw [MatchesElts]⟩
  intro d hd
  rw [MatchesBody]
  simp only [List.mem_cons, List.not_mem_nil, or_false] at hd
  obtain rfl | rfl := hd
  · exact hone 1
  · exact hone 2

theorem matched_twoListsEnv : twoListsEnv.Matched (· + 100) (· == ·) nestedPattern twoLists := by
  have hzero : ∀ n : Nat, Corresponds (· + 100) (· == ·)
      (.list [.one (.var 0), .segment (.one (.var 1))] : Form Nat Nat)
      (.pair (.atom n) .null) 0 (.datum (.atom n)) := by
    intro n
    rw [Corresponds]
    refine ⟨[.atom n], rfl, ?_⟩
    rw [CorrespondsElts]
    refine ⟨.atom n, [], rfl, .inl ?_⟩
    rw [Corresponds]
    exact ⟨rfl, rfl⟩
  have hone : ∀ n : Nat, Corresponds (· + 100) (· == ·)
      (.list [.one (.var 0), .segment (.one (.var 1))] : Form Nat Nat)
      (.pair (.atom n) .null) 1 (.seq []) := by
    intro n
    rw [Corresponds]
    refine ⟨[.atom n], rfl, ?_⟩
    rw [CorrespondsElts]
    refine ⟨.atom n, [], rfl, .inr ?_⟩
    rw [CorrespondsElts]
    exact ⟨[], [], rfl, by rw [MatchesElts], .inl ⟨List.mem_singleton_self 1, [], rfl, .nil⟩⟩
  have hrow : ∀ (v : Nat) (x y : Nest Nat Nat), v ∈ nestedPattern.vars →
      Corresponds (· + 100) (· == ·)
        (.list [.one (.var 0), .segment (.one (.var 1))] : Form Nat Nat)
        (.pair (.atom 1) .null) v x →
      Corresponds (· + 100) (· == ·)
        (.list [.one (.var 0), .segment (.one (.var 1))] : Form Nat Nat)
        (.pair (.atom 2) .null) v y →
      Corresponds (· + 100) (· == ·) nestedPattern twoLists v (.seq [x, y]) := by
    intro v x y hv hx hy
    rw [nestedPattern, Corresponds]
    refine ⟨[.pair (.atom 1) .null, .pair (.atom 2) .null], rfl, ?_⟩
    rw [CorrespondsElts]
    refine ⟨_, [], (List.append_nil _).symm, by rw [MatchesElts], .inl ⟨hv, [x, y], rfl, ?_⟩⟩
    refine .cons ?_ (.cons ?_ .nil)
    · rw [CorrespondsBody]
      exact hx
    · rw [CorrespondsBody]
      exact hy
  refine ⟨?_, ?_⟩
  · intro v hv
    have hcases : v = 0 ∨ v = 1 := by simpa [nestedPattern, Form.vars, eltsVars, Elt.vars] using hv
    obtain rfl | rfl := hcases
    · exact ⟨_, rfl, hrow 0 _ _ hv (hzero 1) (hzero 2)⟩
    · exact ⟨_, rfl, hrow 1 _ _ hv (hone 1) (hone 2)⟩
  · intro v hv
    have hcases : v ≠ 0 ∧ v ≠ 1 := by simpa [nestedPattern, Form.vars, eltsVars, Elt.vars] using hv
    unfold twoListsEnv
    rw [if_neg hcases.1, if_neg hcases.2]

/-- Where `b` matched nothing at all, its repetitions are lost: the expansion is `()` and
not `(() ())`. An identifier of the literals is inserted as it is. -/
theorem expandTemplate_innerTemplate :
    parseClause nestedPattern innerTemplate = true ∧
      Matches (· + 100) (· == ·) nestedPattern twoLists ∧
      twoListsEnv.Matched (· + 100) (· == ·) nestedPattern twoLists ∧
      (∃ dict,
        syntaxRulesMatchDatum (· + 100) (· == ·) nestedPattern twoLists = .ok (some dict) ∧
        syntaxRulesExpandTemplate (· + 100) 99 innerTemplate dict = .ok .null) ∧
      instantiate (· + 100) 99 innerTemplate twoListsEnv =
        .pair .null (.pair .null .null) ∧
      syntaxRulesExpandTemplate (· + 100) 99 (.literalId 7 : Form Nat Nat) [] =
        .ok (.ident 7) ∧
      instantiate (· + 100) 99 (.literalId 7 : Form Nat Nat) twoListsEnv = .ident 107 :=
  ⟨by decide, matches_nestedPattern, matched_twoListsEnv, ⟨_, rfl, rfl⟩, rfl, rfl, rfl⟩

/-- With `a` beside it the repetitions are kept. -/
theorem expandTemplate_nestedPattern : ∃ dict,
    syntaxRulesMatchDatum (· + 100) (· == ·) nestedPattern twoLists = .ok (some dict) ∧
      syntaxRulesExpandTemplate (· + 100) 99 nestedPattern dict = .ok twoLists := by
  obtain ⟨dict, hdict, h⟩ := expandTemplate_eq_instantiate_iff 99
    (show parseClause nestedPattern nestedPattern = true by decide) matches_nestedPattern
    matched_twoListsEnv
  refine ⟨dict, hdict, h.mpr ?_⟩
  injection hdict with hdict
  injection hdict with hdict
  subst hdict
  refine ⟨.inl ⟨by decide, by decide, fun i hi => ?_⟩, trivial⟩
  have hi : i < 2 := hi
  have hinner : ∀ j < 2, (Elt.segment (.one (.var 1)) : Elt Nat Nat).Right (· + 100) 99 [0]
      (twoListsEnv.step j) := by
    intro j hj
    refine .inr ⟨by simp [Env.iterating, Elt.vars, Form.vars], ?_⟩
    obtain rfl | rfl : j = 0 ∨ j = 1 := by omega
    · rfl
    · rfl
  exact ⟨trivial, hinner i hi, trivial⟩

end MitScheme.Runtime.SyntaxRules
