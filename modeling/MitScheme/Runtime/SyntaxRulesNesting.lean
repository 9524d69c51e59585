import MitScheme.Runtime.SyntaxRulesExpand

/-! # Syntax-rules: the ellipses of pattern and template

Two variables under one ellipsis of the pattern stand for sequences of one length.
`check-template-var-references` lets an ellipsis of the template only repeat variables
of this kind, at every depth. -/

namespace MitScheme.Runtime.SyntaxRules

variable {Id Atom : Type}

/-! ## Shapes -/

def Nest.Shape : Nat → Nest Id Atom → Prop
  | 0, .datum _ => True
  | k + 1, .seq items => ∀ x ∈ items, Shape k x
  | _, _ => False

def SameShape : Nat → Nest Id Atom → Nest Id Atom → Prop
  | 0, _, _ => True
  | k + 1, .seq xs, .seq ys => List.Forall₂ (SameShape k) xs ys
  | _, _, _ => False

/-! ## Where the cells come from -/

def Under (path : List Nat) (cells ps : List Cell) : Prop :=
  ∃ A, ps = A ++ cells ∧ ∀ c ∈ A, path <:+ c.1

variable {path : List Nat} {cells : List Cell} {env : Env Id Atom}

theorem Under.of_cons {ps i} (h : Under (i :: path) cells ps) : Under path cells ps := by
  obtain ⟨A, rfl, hA⟩ := h
  exact ⟨A, rfl, fun c hc => (List.suffix_cons i path).trans (hA c hc)⟩

theorem Under.of_cell {ps level} (h : Under path ((path, level) :: cells) ps) :
    Under path cells ps := by
  obtain ⟨A, rfl, hA⟩ := h
  refine ⟨A ++ [(path, level)], by simp, ?_⟩
  intro c hc
  obtain hc | hc := List.mem_append.mp hc
  · exact hA c hc
  · obtain rfl := List.mem_singleton.mp hc
    exact List.suffix_rfl

theorem Under.disjoint {ps qs C i j} (hij : i ≠ j) (hp : Under (i :: path) cells ps)
    (hq : Under (j :: path) cells qs) (hCp : C ++ cells <:+ ps) (hCq : C ++ cells <:+ qs) :
    C = [] := by
  obtain ⟨A, rfl, hA⟩ := hp
  obtain ⟨B, rfl, hB⟩ := hq
  rw [List.suffix_append_self_iff] at hCp hCq
  cases C with
  | nil => rfl
  | cons c C =>
    have hi := hA c (hCp.subset List.mem_cons_self)
    have hj := hB c (hCq.subset List.mem_cons_self)
    have heq : i :: path = j :: path :=
      (List.suffix_of_suffix_length_le hi hj (Nat.le_refl _)).eq_of_length rfl
    injection heq with h
    exact absurd h hij

theorem Under.last_cell {ps C : List Cell} {level} (hp : Under path ((path, level) :: cells) ps)
    (hC : C ++ cells <:+ ps) :
    C = [] ∨ ∃ C', C ++ cells = C' ++ (path, level) :: cells ∧ C.length = C'.length + 1 := by
  obtain rfl | ⟨C', c, rfl⟩ := C.eq_nil_or_concat'
  · exact .inl rfl
  · obtain ⟨A, rfl, -⟩ := hp
    have hsuf : [c] ++ cells <:+ A ++ (path, level) :: cells :=
      List.IsSuffix.trans ⟨C', by simp⟩ hC
    have heq := (List.suffix_of_suffix_length_le hsuf (List.suffix_append A _)
      (Nat.le_refl _)).eq_of_length rfl
    refine .inr ⟨C', ?_, by simp⟩
    rw [List.append_assoc, heq]

mutual

theorem map_fst_segs : ∀ (form : Form Id Atom) (path : List Nat) (cells : List Cell),
    (form.segs path cells).map (·.1) = form.vars
  | .list elts, path, cells => map_fst_eltsSegs elts path cells 0
  | .vector elts, path, cells => map_fst_eltsSegs elts path cells 0
  | .dottedList elts tail, path, cells => by
    rw [Form.segs, List.map_append, map_fst_eltsSegs elts, map_fst_segs tail, Form.vars]
  | .literalId _, _, _ => rfl
  | .literal _, _, _ => rfl
  | .var _, _, _ => rfl
  | .anonVar, _, _ => rfl

theorem map_fst_eltSegs : ∀ (e : Elt Id Atom) (path : List Nat) (cells : List Cell)
    (level : Nat), (e.segs path cells level).map (·.1) = e.vars
  | .one form, path, cells, _ => map_fst_segs form path cells
  | .segment body, path, _, level => map_fst_eltSegs body path _ (level + 1)

theorem map_fst_eltsSegs : ∀ (elts : List (Elt Id Atom)) (path : List Nat)
    (cells : List Cell) (i : Nat), (eltsSegs path cells i elts).map (·.1) = eltsVars elts
  | [], _, _, _ => rfl
  | e :: elts, path, cells, i => by
    rw [eltsSegs, List.map_append, map_fst_eltSegs e, map_fst_eltsSegs elts, eltsVars]

end

mutual

theorem under_segs {vs} : ∀ {form : Form Id Atom} {path : List Nat}
    {cells : List Cell}, vs ∈ form.segs path cells → Under path cells vs.2
  | .list elts, path, cells, h => by
    obtain ⟨j, -, -, hj⟩ := under_eltsSegs h
    exact hj.of_cons
  | .vector elts, path, cells, h => by
    obtain ⟨j, -, -, hj⟩ := under_eltsSegs h
    exact hj.of_cons
  | .dottedList elts tail, path, cells, h => by
    rw [Form.segs] at h
    obtain h | h := List.mem_append.mp h
    · obtain ⟨j, -, -, hj⟩ := under_eltsSegs h
      exact hj.of_cons
    · exact (under_segs h).of_cons
  | .var id, path, cells, h => by
    rw [List.mem_singleton.mp h]
    exact ⟨[], rfl, List.forall_mem_nil _⟩
  | .literalId _, _, _, h => by cases h
  | .literal _, _, _, h => by cases h
  | .anonVar, _, _, h => by cases h

theorem under_eltSegs {vs} : ∀ {e : Elt Id Atom} {path : List Nat}
    {cells : List Cell} {level : Nat}, vs ∈ e.segs path cells level → Under path cells vs.2
  | .one form, path, cells, _, h => under_segs h
  | .segment body, path, cells, level, h => by
    rw [Elt.segs] at h
    exact (under_eltSegs h).of_cell

theorem under_eltsSegs {vs} : ∀ {elts : List (Elt Id Atom)}
    {path : List Nat} {cells : List Cell} {i : Nat}, vs ∈ eltsSegs path cells i elts →
      ∃ j, i ≤ j ∧ j < i + elts.length ∧ Under (j :: path) cells vs.2
  | [], _, _, _, h => by cases h
  | e :: elts, path, cells, i, h => by
    rw [eltsSegs] at h
    rw [List.length_cons]
    obtain h | h := List.mem_append.mp h
    · exact ⟨i, Nat.le_refl i, by omega, under_eltSegs h⟩
    · obtain ⟨j, hij, hj, hu⟩ := under_eltsSegs h
      exact ⟨j, by omega, by omega, hu⟩

end

theorem mem_vars_of_mem_segs {vs : Id × List Cell} {form : Form Id Atom}
    (h : vs ∈ form.segs path cells) : vs.1 ∈ form.vars := by
  rw [← map_fst_segs form path cells]
  exact List.mem_map_of_mem h

theorem mem_eltsVars_of_mem_segs {vs : Id × List Cell} {elts : List (Elt Id Atom)} {i : Nat}
    (h : vs ∈ eltsSegs path cells i elts) : vs.1 ∈ eltsVars elts := by
  rw [← map_fst_eltsSegs elts path cells i]
  exact List.mem_map_of_mem h

/-! ## The pattern -/

section
variable {rename : Id → Id} {compare : Id → Id → Bool}

theorem forall_mem_right {α β : Type} {R : α → β → Prop} {P : β → Prop} {as bs}
    (h : List.Forall₂ R as bs) (hP : ∀ a b, R a b → P b) : ∀ b ∈ bs, P b := by
  induction h with
  | nil => exact List.forall_mem_nil _
  | cons hab _ ih => exact List.forall_mem_cons.mpr ⟨hP _ _ hab, ih⟩

mutual

theorem shape_of_corresponds {v ps} {x : Nest Id Atom} :
    ∀ {form : Form Id Atom}, form.checkForMultipleSegments = true → form.vars.Nodup →
      ∀ {path : List Nat} {cells : List Cell} {d : Datum Id Atom},
        (v, ps) ∈ form.segs path cells → Corresponds rename compare form d v x →
          ∃ A, ps = A ++ cells ∧ x.Shape A.length
  | .list elts, hcheck, hnodup, path, cells, d, hv, hx => by
    simp only [Form.checkForMultipleSegments, Bool.and_eq_true] at hcheck
    rw [Corresponds] at hx
    obtain ⟨ds, -, hx⟩ := hx
    exact shape_of_correspondsElts hcheck.2 hnodup hv hx
  | .vector elts, hcheck, hnodup, path, cells, d, hv, hx => by
    simp only [Form.checkForMultipleSegments, Bool.and_eq_true] at hcheck
    rw [Corresponds] at hx
    obtain ⟨ds, -, hx⟩ := hx
    exact shape_of_correspondsElts hcheck.2 hnodup hv hx
  | .dottedList elts tail, hcheck, hnodup, path, cells, d, hv, hx => by
    simp only [Form.checkForMultipleSegments, Bool.and_eq_true] at hcheck
    rw [Corresponds] at hx
    obtain ⟨ds, rest, -, -, -, hx⟩ := hx
    rw [Form.vars, List.nodup_append] at hnodup
    obtain ⟨hnodup₁, hnodup₂, hdisj⟩ := hnodup
    rw [Form.segs] at hv
    obtain hv | hv := List.mem_append.mp hv
    · obtain hx | hx := hx
      · exact shape_of_correspondsElts hcheck.1.2 hnodup₁ hv hx
      · exact absurd rfl (hdisj v (mem_eltsVars_of_mem_segs hv) v (mem_vars_of_corresponds hx))
    · obtain hx | hx := hx
      · exact absurd rfl (hdisj v (mem_eltsVars_of_corresponds hx) v (mem_vars_of_mem_segs hv))
      · exact shape_of_corresponds hcheck.2 hnodup₂ hv hx
  | .var id, _, _, path, cells, d, hv, hx => by
    rw [Corresponds] at hx
    obtain ⟨rfl, rfl⟩ := hx
    injection List.mem_singleton.mp hv with _ hps
    exact ⟨[], hps, trivial⟩
  | .literalId _, _, _, _, _, _, hv, _ => by cases hv
  | .literal _, _, _, _, _, _, hv, _ => by cases hv
  | .anonVar, _, _, _, _, _, hv, _ => by cases hv

theorem shape_of_correspondsElts {v ps} {x : Nest Id Atom} :
    ∀ {elts : List (Elt Id Atom)}, checkElts elts = true → (eltsVars elts).Nodup →
      ∀ {path : List Nat} {cells : List Cell} {i : Nat} {ds : List (Datum Id Atom)},
        (v, ps) ∈ eltsSegs path cells i elts → CorrespondsElts rename compare elts ds v x →
          ∃ A, ps = A ++ cells ∧ x.Shape A.length
  | [], _, _, _, _, _, _, hv, _ => by cases hv
  | .one form :: elts, hcheck, hnodup, path, cells, i, ds, hv, hx => by
    simp only [checkElts, Elt.checkStripped, Bool.and_eq_true] at hcheck
    rw [eltsVars, Elt.vars, List.nodup_append] at hnodup
    obtain ⟨hnodup₁, hnodup₂, hdisj⟩ := hnodup
    rw [CorrespondsElts] at hx
    obtain ⟨d, ds', -, hx⟩ := hx
    rw [eltsSegs, Elt.segs] at hv
    obtain hv | hv := List.mem_append.mp hv
    · obtain hx | hx := hx
      · exact shape_of_corresponds hcheck.1.2 hnodup₁ hv hx
      · exact absurd rfl (hdisj v (mem_vars_of_mem_segs hv) v (mem_eltsVars_of_corresponds hx))
    · obtain hx | hx := hx
      · exact absurd rfl (hdisj v (mem_vars_of_corresponds hx) v (mem_eltsVars_of_mem_segs hv))
      · exact shape_of_correspondsElts hcheck.2 hnodup₂ hv hx
  | .segment (.segment body) :: elts, hcheck, _, _, _, _, _, _, _ => by
    simp [checkElts, Elt.countSegments] at hcheck
  | .segment (.one form) :: elts, hcheck, hnodup, path, cells, i, ds, hv, hx => by
    simp only [checkElts, Elt.checkStripped, Bool.and_eq_true] at hcheck
    rw [eltsVars, Elt.vars, Elt.vars, List.nodup_append] at hnodup
    obtain ⟨hnodup₁, hnodup₂, hdisj⟩ := hnodup
    rw [CorrespondsElts] at hx
    obtain ⟨a, b, -, -, hx⟩ := hx
    rw [eltsSegs, Elt.segs, Elt.segs] at hv
    obtain hv | hv := List.mem_append.mp hv
    · obtain ⟨-, xs, rfl, hxs⟩ | hx := hx
      · obtain ⟨A, hA, -⟩ := under_segs hv
        refine ⟨A ++ [(i :: path, 0)], by simpa using hA, ?_⟩
        rw [List.length_append]
        refine forall_mem_right hxs fun d y hy => ?_
        rw [CorrespondsBody] at hy
        obtain ⟨A', hA', hshape⟩ := shape_of_corresponds hcheck.1.2 hnodup₁ hv hy
        have hlen : A'.length = A.length := by
          rw [List.append_cancel_right (hA'.symm.trans hA)]
        rw [← hlen]
        exact hshape
      · exact absurd rfl (hdisj v (mem_vars_of_mem_segs hv) v (mem_eltsVars_of_corresponds hx))
    · obtain ⟨hv', -⟩ | hx := hx
      · exact absurd rfl (hdisj v hv' v (mem_eltsVars_of_mem_segs hv))
      · exact shape_of_correspondsElts hcheck.2 hnodup₂ hv hx

end

theorem forall₂_sameShape {P Q : Datum Id Atom → Nest Id Atom → Prop} {k}
    (h : ∀ d x y, P d x → Q d y → SameShape k x y) : ∀ {ds : List (Datum Id Atom)}
      {xs ys : List (Nest Id Atom)}, List.Forall₂ P ds xs → List.Forall₂ Q ds ys →
        List.Forall₂ (SameShape k) xs ys
  | _, _, _, .nil, .nil => .nil
  | _, _, _, .cons hp hps, .cons hq hqs => .cons (h _ _ _ hp hq) (forall₂_sameShape h hps hqs)

mutual

theorem sameShape_of_corresponds {v w ps qs x y} :
    ∀ {form : Form Id Atom}, form.checkForMultipleSegments = true → form.vars.Nodup →
      ∀ {path : List Nat} {cells C : List Cell} {d : Datum Id Atom},
        (v, ps) ∈ form.segs path cells → (w, qs) ∈ form.segs path cells →
        Corresponds rename compare form d v x → Corresponds rename compare form d w y →
        C ++ cells <:+ ps → C ++ cells <:+ qs → SameShape C.length x y
  | .list elts, hcheck, hnodup, path, cells, C, d, hv, hw, hx, hy, hp, hq => by
    simp only [Form.checkForMultipleSegments, Bool.and_eq_true, decide_eq_true_eq] at hcheck
    rw [Corresponds] at hx hy
    obtain ⟨ds, rfl, hx⟩ := hx
    obtain ⟨ds', hds, hy⟩ := hy
    have hitems := congrArg Datum.items hds
    rw [Datum.items_ofList, Datum.items_ofList] at hitems
    obtain rfl : ds = ds' := List.append_cancel_right hitems
    exact sameShape_of_correspondsElts hcheck.1 hcheck.2 hnodup hv hw hx hy hp hq
  | .vector elts, hcheck, hnodup, path, cells, C, d, hv, hw, hx, hy, hp, hq => by
    simp only [Form.checkForMultipleSegments, Bool.and_eq_true, decide_eq_true_eq] at hcheck
    rw [Corresponds] at hx hy
    obtain ⟨ds, rfl, hx⟩ := hx
    obtain ⟨ds', hds, hy⟩ := hy
    injection hds with hds
    subst hds
    exact sameShape_of_correspondsElts hcheck.1 hcheck.2 hnodup hv hw hx hy hp hq
  | .dottedList elts tail, hcheck, hnodup, path, cells, C, d, hv, hw, hx, hy, hp, hq => by
    simp only [Form.checkForMultipleSegments, Bool.and_eq_true, decide_eq_true_eq] at hcheck
    rw [Corresponds] at hx hy
    obtain ⟨ds, rest, rfl, hmatch, hseg, hx⟩ := hx
    obtain ⟨ds', rest', heq, hmatch', hseg', hy⟩ := hy
    have hsame : ds = ds' ∧ rest = rest' := by
      have h := used_eq_self hmatch rest.items fun hs => Datum.items_of_not_isPair (hseg hs)
      have h' := used_eq_self hmatch' rest'.items fun hs =>
        Datum.items_of_not_isPair (hseg' hs)
      have hitems := congrArg Datum.items heq
      have hfinal := congrArg Datum.final heq
      rw [Datum.items_ofList, Datum.items_ofList] at hitems
      rw [Datum.final_ofList, Datum.final_ofList] at hfinal
      rw [hitems] at h
      refine ⟨h.1.symm.trans h'.1, ?_⟩
      rw [← Datum.ofList_items rest, ← Datum.ofList_items rest', hfinal, ← h.2, h'.2]
    obtain ⟨rfl, rfl⟩ := hsame
    rw [Form.vars, List.nodup_append] at hnodup
    obtain ⟨hnodup₁, hnodup₂, hdisj⟩ := hnodup
    rw [Form.segs] at hv hw
    obtain hv | hv := List.mem_append.mp hv
    · have hx := hx.resolve_right fun hx =>
        hdisj v (mem_eltsVars_of_mem_segs hv) v (mem_vars_of_corresponds hx) rfl
      obtain hw | hw := List.mem_append.mp hw
      · have hy := hy.resolve_right fun hy =>
          hdisj w (mem_eltsVars_of_mem_segs hw) w (mem_vars_of_corresponds hy) rfl
        exact sameShape_of_correspondsElts hcheck.1.1 hcheck.1.2 hnodup₁ hv hw hx hy hp hq
      · obtain ⟨j, -, hj, hu⟩ := under_eltsSegs hv
        rw [hu.disjoint (by omega) (under_segs hw) hp hq]
        trivial
    · have hx := hx.resolve_left fun hx =>
        hdisj v (mem_eltsVars_of_corresponds hx) v (mem_vars_of_mem_segs hv) rfl
      obtain hw | hw := List.mem_append.mp hw
      · obtain ⟨j, -, hj, hu⟩ := under_eltsSegs hw
        rw [hu.disjoint (by omega) (under_segs hv) hq hp]
        trivial
      · have hy := hy.resolve_left fun hy =>
          hdisj w (mem_eltsVars_of_corresponds hy) w (mem_vars_of_mem_segs hw) rfl
        exact sameShape_of_corresponds hcheck.2 hnodup₂ hv hw hx hy hp hq
  | .var id, _, _, path, cells, C, d, hv, _, _, _, hp, _ => by
    injection List.mem_singleton.mp hv with _ hps
    rw [hps] at hp
    have hnil : C = [] := by
      have hlen := hp.length_le
      rw [List.length_append] at hlen
      exact List.length_eq_zero_iff.mp (by omega)
    rw [hnil]
    trivial
  | .literalId _, _, _, _, _, _, _, hv, _, _, _, _, _ => by cases hv
  | .literal _, _, _, _, _, _, _, hv, _, _, _, _, _ => by cases hv
  | .anonVar, _, _, _, _, _, _, hv, _, _, _, _, _ => by cases hv

theorem sameShape_of_correspondsElts {v w ps qs x y} :
    ∀ {elts : List (Elt Id Atom)}, elts.countP (·.isSegment) ≤ 1 → checkElts elts = true →
      (eltsVars elts).Nodup →
      ∀ {path : List Nat} {cells C : List Cell} {i : Nat} {ds : List (Datum Id Atom)},
        (v, ps) ∈ eltsSegs path cells i elts → (w, qs) ∈ eltsSegs path cells i elts →
        CorrespondsElts rename compare elts ds v x →
        CorrespondsElts rename compare elts ds w y →
        C ++ cells <:+ ps → C ++ cells <:+ qs → SameShape C.length x y
  | [], _, _, _, _, _, _, _, _, hv, _, _, _, _, _ => by cases hv
  | .one form :: elts, hrow, hcheck, hnodup, path, cells, C, i, ds, hv, hw, hx, hy, hp, hq => by
    simp only [checkElts, Elt.checkStripped, Bool.and_eq_true] at hcheck
    rw [eltsVars, Elt.vars, List.nodup_append] at hnodup
    obtain ⟨hnodup₁, hnodup₂, hdisj⟩ := hnodup
    rw [CorrespondsElts] at hx hy
    obtain ⟨d, ds', rfl, hx⟩ := hx
    obtain ⟨d', ds'', heq, hy⟩ := hy
    injection heq with hd hds
    subst hd hds
    rw [eltsSegs, Elt.segs] at hv hw
    obtain hv | hv := List.mem_append.mp hv
    · have hx := hx.resolve_right fun hx =>
        hdisj v (mem_vars_of_mem_segs hv) v (mem_eltsVars_of_corresponds hx) rfl
      obtain hw | hw := List.mem_append.mp hw
      · have hy := hy.resolve_right fun hy =>
          hdisj w (mem_vars_of_mem_segs hw) w (mem_eltsVars_of_corresponds hy) rfl
        exact sameShape_of_corresponds hcheck.1.2 hnodup₁ hv hw hx hy hp hq
      · obtain ⟨j, hj, -, hu⟩ := under_eltsSegs hw
        rw [hu.disjoint (by omega) (under_segs hv) hq hp]
        trivial
    · have hx := hx.resolve_left fun hx =>
        hdisj v (mem_vars_of_corresponds hx) v (mem_eltsVars_of_mem_segs hv) rfl
      obtain hw | hw := List.mem_append.mp hw
      · obtain ⟨j, hj, -, hu⟩ := under_eltsSegs hv
        rw [hu.disjoint (by omega) (under_segs hw) hp hq]
        trivial
      · have hy := hy.resolve_left fun hy =>
          hdisj w (mem_vars_of_corresponds hy) w (mem_eltsVars_of_mem_segs hw) rfl
        exact sameShape_of_correspondsElts (oneSegment_tail hrow) hcheck.2 hnodup₂ hv hw hx hy hp hq
  | .segment (.segment body) :: elts, _, hcheck, _, _, _, _, _, _, _, _, _, _, _, _ => by
    simp [checkElts, Elt.countSegments] at hcheck
  | .segment (.one form) :: elts, hrow, hcheck, hnodup, path, cells, C, i, ds, hv, hw, hx, hy,
      hp, hq => by
    simp only [checkElts, Elt.checkStripped, Bool.and_eq_true] at hcheck
    have hfix := fixed_of_segment hrow
    rw [eltsVars, Elt.vars, Elt.vars, List.nodup_append] at hnodup
    obtain ⟨hnodup₁, hnodup₂, hdisj⟩ := hnodup
    rw [CorrespondsElts] at hx hy
    obtain ⟨a, b, rfl, hmatch, hx⟩ := hx
    obtain ⟨a', b', heq, hmatch', hy⟩ := hy
    obtain ⟨rfl, rfl⟩ : a = a' ∧ b = b' := by
      refine List.append_inj' heq ?_
      rw [length_of_matchesElts hfix hmatch, length_of_matchesElts hfix hmatch']
    rw [eltsSegs, Elt.segs, Elt.segs] at hv hw
    obtain hv | hv := List.mem_append.mp hv
    · have hx := hx.resolve_right fun hx =>
        hdisj v (mem_vars_of_mem_segs hv) v (mem_eltsVars_of_corresponds hx) rfl
      obtain hw | hw := List.mem_append.mp hw
      · have hy := hy.resolve_right fun hy =>
          hdisj w (mem_vars_of_mem_segs hw) w (mem_eltsVars_of_corresponds hy) rfl
        obtain ⟨-, xs, rfl, hxs⟩ := hx
        obtain ⟨-, ys, rfl, hys⟩ := hy
        obtain rfl | ⟨C', hC', hlen⟩ := (under_segs hv).last_cell hp
        · trivial
        rw [hC'] at hp hq
        rw [hlen]
        refine forall₂_sameShape (fun d x y hx hy => ?_) hxs hys
        rw [CorrespondsBody] at hx hy
        exact sameShape_of_corresponds hcheck.1.2 hnodup₁ hv hw hx hy hp hq
      · obtain ⟨j, hj, -, hu⟩ := under_eltsSegs hw
        rw [hu.disjoint (by omega) (under_segs hv).of_cell hq hp]
        trivial
    · have hx := hx.resolve_left fun hx => hdisj v hx.1 v (mem_eltsVars_of_mem_segs hv) rfl
      obtain hw | hw := List.mem_append.mp hw
      · obtain ⟨j, hj, -, hu⟩ := under_eltsSegs hv
        rw [hu.disjoint (by omega) (under_segs hw).of_cell hp hq]
        trivial
      · have hy := hy.resolve_left fun hy => hdisj w hy.1 w (mem_eltsVars_of_mem_segs hw) rfl
        exact sameShape_of_correspondsElts (oneSegment_tail hrow) hcheck.2 hnodup₂ hv hw hx hy hp hq

end

end

/-! ## The template -/

mutual

/-- Every ellipsis of the template repeats sequences of one length, and no variable is
left as a sequence. -/
def Form.Even : Form Id Atom → Env Id Atom → Prop
  | .list elts, env => EvenElts elts env
  | .vector elts, env => EvenElts elts env
  | .dottedList elts tail, env => EvenElts elts env ∧ tail.Even env
  | .var v, env => env.items v = none
  | _, _ => True

def Elt.Even : Elt Id Atom → Env Id Atom → Prop
  | .one form, env => form.Even env
  | .segment body, env =>
    (∀ v ∈ body.vars, ∀ items, env.items v = some items →
      items.length = env.repetitions body.vars) ∧
    ∀ i < env.repetitions body.vars, body.Even (env.step i)

def EvenElts : List (Elt Id Atom) → Env Id Atom → Prop
  | [], _ => True
  | e :: elts, env => e.Even env ∧ EvenElts elts env

end

theorem items_eq_some {v items} : env.items v = some items ↔ env v = some (.seq items) := by
  unfold Env.items
  cases env v with
  | none => simp
  | some x => cases x <;> simp

theorem step_eq_some {i v x} :
    env.step i v = some x ↔
      (∃ items, env v = some (.seq items) ∧ items[i]? = some x) ∨
        ∃ d, env v = some (.datum d) ∧ x = .datum d := by
  unfold Env.step
  cases env v with
  | none => simp
  | some y =>
    cases y with
    | datum d => simp [eq_comm]
    | seq items => simp

theorem repetitions_eq {vars}
    (h : ∀ v ∈ vars, ∀ w ∈ vars, ∀ xs ys, env.items v = some xs → env.items w = some ys →
      xs.length = ys.length) {v} (hv : v ∈ vars) {items : List (Nest Id Atom)}
    (hitems : env.items v = some items) : items.length = env.repetitions vars := by
  unfold Env.repetitions
  cases hfind : vars.findSome? env.items with
  | none =>
    rw [List.findSome?_eq_none_iff.mp hfind v hv] at hitems
    cases hitems
  | some ys =>
    obtain ⟨w, hw, hys⟩ := List.exists_of_findSome?_eq_some hfind
    exact h v hv w hw items ys hitems hys

/-- The variables of a part of the template, with the ellipses around them, in an
environment that has been unwrapped `j` times. -/
structure Fits (tvs : List (Id × List Cell)) (depth : Id → Nat) (j : Nat)
    (env : Env Id Atom) : Prop where
  shape : ∀ v ts x, (v, ts) ∈ tvs → env v = some x →
    depth v ≤ ts.length ∧ x.Shape (depth v - j)
  same : ∀ v ts w us x y, (v, ts) ∈ tvs → (w, us) ∈ tvs → env v = some x → env w = some y →
    ∀ C : List Cell, j < C.length → C <:+ ts → C <:+ us → C.length ≤ depth v →
      C.length ≤ depth w → SameShape (C.length - j) x y

theorem Fits.mono {tvs tvs' : List (Id × List Cell)} {depth : Id → Nat} {j : Nat}
    (h : Fits tvs depth j env) (hsub : tvs' ⊆ tvs) :
    Fits tvs' depth j env where
  shape v ts x hv := h.shape v ts x (hsub hv)
  same v ts w us x y hv hw := h.same v ts w us x y (hsub hv) (hsub hw)

theorem seq_of_shape {k} {x : Nest Id Atom} (h : x.Shape k) (hk : 0 < k) :
    ∃ items, x = .seq items ∧ ∀ y ∈ items, y.Shape (k - 1) := by
  cases k with
  | zero => cases hk
  | succ k =>
    cases x with
    | datum d => exact h.elim
    | seq items => exact ⟨items, rfl, h⟩

theorem pos_of_shape_seq {k} {items : List (Nest Id Atom)} (h : (Nest.seq items).Shape k) :
    0 < k := by
  cases k with
  | zero => exact h.elim
  | succ k => exact Nat.succ_pos k

theorem zero_of_shape_datum {k d} (h : (Nest.datum d : Nest Id Atom).Shape k) : k = 0 := by
  cases k with
  | zero => rfl
  | succ k => exact h.elim

theorem Fits.step {tvs} {depth : Id → Nat} {j} (h : Fits tvs depth j env) (i : Nat) :
    Fits tvs depth (j + 1) (env.step i) where
  shape v ts x hv hx := by
    obtain ⟨items, henv, hi⟩ | ⟨d, henv, rfl⟩ := step_eq_some.mp hx
    · obtain ⟨hle, hshape⟩ := h.shape v ts _ hv henv
      obtain ⟨items', heq, hitems⟩ := seq_of_shape hshape (pos_of_shape_seq hshape)
      injection heq with heq
      subst heq
      exact ⟨hle, hitems x (List.mem_of_getElem? hi)⟩
    · obtain ⟨hle, hshape⟩ := h.shape v ts _ hv henv
      have hzero := zero_of_shape_datum hshape
      have hsub : depth v - (j + 1) = 0 := by omega
      rw [hsub]
      exact ⟨hle, trivial⟩
  same v ts w us x y hv hw hx hy C hC hts hus hdv hdw := by
    obtain ⟨xs, henvx, hxs⟩ | ⟨d, henvx, rfl⟩ := step_eq_some.mp hx
    · obtain ⟨ys, henvy, hys⟩ | ⟨d, henvy, rfl⟩ := step_eq_some.mp hy
      · have hsame := h.same v ts w us _ _ hv hw henvx henvy C (by omega) hts hus hdv hdw
        have hlen : C.length - j = C.length - (j + 1) + 1 := by omega
        rw [hlen] at hsame
        obtain ⟨hi, rfl⟩ := List.getElem?_eq_some_iff.mp hxs
        obtain ⟨hi', rfl⟩ := List.getElem?_eq_some_iff.mp hys
        exact List.Forall₂.get hsame hi hi'
      · have hzero := zero_of_shape_datum (h.shape w us _ hw henvy).2
        omega
    · have hzero := zero_of_shape_datum (h.shape v ts _ hv henvx).2
      omega

mutual

theorem Fits.even {depth : Id → Nat} : ∀ {form : Form Id Atom} {path : List Nat}
    {cells : List Cell} {env : Env Id Atom},
      Fits (form.segs path cells) depth cells.length env → form.Even env
  | .list elts, path, cells, env, h => Fits.evenElts h
  | .vector elts, path, cells, env, h => Fits.evenElts h
  | .dottedList elts tail, path, cells, env, h => by
    rw [Form.segs] at h
    exact ⟨Fits.evenElts (h.mono (List.subset_append_left _ _)),
      Fits.even (h.mono (List.subset_append_right _ _))⟩
  | .var v, path, cells, env, h => by
    rw [Form.Even]
    cases hitems : env.items v with
    | none => rfl
    | some items =>
      obtain ⟨hle, hshape⟩ := h.shape v cells _ (List.mem_singleton_self _)
        (items_eq_some.mp hitems)
      have hpos := pos_of_shape_seq hshape
      omega
  | .literalId _, _, _, _, _ => trivial
  | .literal _, _, _, _, _ => trivial
  | .anonVar, _, _, _, _ => trivial

theorem Fits.evenElt {depth : Id → Nat} : ∀ {e : Elt Id Atom} {path : List Nat}
    {cells : List Cell} {level : Nat} {env : Env Id Atom},
      Fits (e.segs path cells level) depth cells.length env → e.Even env
  | .one form, path, cells, level, env, h => Fits.even h
  | .segment body, path, cells, level, env, h => by
    rw [Elt.segs] at h
    have hentry : ∀ v ∈ body.vars, ∃ ts,
        (v, ts) ∈ body.segs path ((path, level) :: cells) (level + 1) := by
      intro v hv
      rw [← map_fst_eltSegs body path ((path, level) :: cells) (level + 1)] at hv
      obtain ⟨⟨v, ts⟩, hmem, rfl⟩ := List.mem_map.mp hv
      exact ⟨ts, hmem⟩
    have hsuffix : ∀ v ts, (v, ts) ∈ body.segs path ((path, level) :: cells) (level + 1) →
        (path, level) :: cells <:+ ts := by
      intro v ts hmem
      obtain ⟨A, hA, -⟩ := under_eltSegs hmem
      exact ⟨A, hA.symm⟩
    refine ⟨?_, fun i _ => Fits.evenElt (h.step i)⟩
    intro v hv items hitems
    refine repetitions_eq ?_ hv hitems
    intro v hv w hw xs ys hxs hys
    obtain ⟨ts, hts⟩ := hentry v hv
    obtain ⟨us, hus⟩ := hentry w hw
    have hx := items_eq_some.mp hxs
    have hy := items_eq_some.mp hys
    have hdv := pos_of_shape_seq (h.shape v ts _ hts hx).2
    have hdw := pos_of_shape_seq (h.shape w us _ hus hy).2
    have hsame := h.same v ts w us _ _ hts hus hx hy ((path, level) :: cells)
      (by rw [List.length_cons]; omega) (hsuffix v ts hts) (hsuffix w us hus)
      (by rw [List.length_cons]; omega) (by rw [List.length_cons]; omega)
    have hone : ((path, level) :: cells).length - cells.length = 1 := by
      rw [List.length_cons, Nat.add_sub_cancel_left]
    rw [hone] at hsame
    exact List.Forall₂.length_eq hsame

theorem Fits.evenElts {depth : Id → Nat} : ∀ {elts : List (Elt Id Atom)} {path : List Nat}
    {cells : List Cell} {i : Nat} {env : Env Id Atom},
      Fits (eltsSegs path cells i elts) depth cells.length env → EvenElts elts env
  | [], _, _, _, _, _ => trivial
  | e :: elts, path, cells, i, env, h => by
    rw [eltsSegs] at h
    exact ⟨Fits.evenElt (h.mono (List.subset_append_left _ _)),
      Fits.evenElts (h.mono (List.subset_append_right _ _))⟩

end

/-! ## An accepted clause -/

theorem mem_tailPairs {C} (hne : C ≠ []) : ∀ {ts ps : List Cell},
    ts.length = ps.length → C <:+ ts →
      ∃ Q, Q <:+ ps ∧ Q.length = C.length ∧ (C, Q) ∈ tailPairs ts ps
  | [], _, _, hC => absurd (List.suffix_nil.mp hC) hne
  | t :: ts, [], hlen, _ => by cases hlen
  | t :: ts, p :: ps, hlen, hC => by
    rw [tailPairs]
    obtain rfl | hC := List.suffix_cons_iff.mp hC
    · exact ⟨p :: ps, List.suffix_rfl, hlen.symm, List.mem_cons_self⟩
    · obtain ⟨Q, hQ, hQlen, hmem⟩ := mem_tailPairs hne (Nat.succ.inj hlen) hC
      exact ⟨Q, hQ.trans (List.suffix_cons p ps), hQlen, List.mem_cons_of_mem _ hmem⟩

section
variable [DecidableEq Id]

def ellipses (pvs : List (Id × List Cell)) (v : Id) : Nat :=
  ((pvs.lookup v).map List.length).getD 0

theorem exists_lookup_segs {form : Form Id Atom} {v} (hv : v ∈ form.vars) :
    ∃ ps, (computeSegments form).lookup v = some ps ∧ (v, ps) ∈ computeSegments form := by
  cases h : (computeSegments form).lookup v with
  | none =>
    rw [← map_fst_segs form [] []] at hv
    obtain ⟨⟨w, ps⟩, hmem, rfl⟩ := List.mem_map.mp hv
    have hne := List.lookup_eq_none_iff.mp h (w, ps) hmem
    rw [bne_self_eq_false] at hne
    cases hne
  | some ps =>
    obtain ⟨l₁, l₂, heq, -⟩ := List.lookup_eq_some_iff.mp h
    refine ⟨ps, rfl, ?_⟩
    rw [heq]
    exact List.mem_append_right _ List.mem_cons_self

/-- **What `parse-clause` accepts can be built up**: in the environment of a match, every
ellipsis of the template repeats sequences of one length. -/
theorem even_of_parseClause {rename : Id → Id} {compare : Id → Id → Bool} {pattern}
    {template : Form Id Atom} (hparse : parseClause pattern template = true) {datum}
    {env : Env Id Atom} (henv : env.Matched rename compare pattern datum) : template.Even env := by
  simp only [parseClause, checkTemplateVarReferences, Bool.and_eq_true, decide_eq_true_eq,
    List.all_eq_true] at hparse
  obtain ⟨⟨hcheck, hnodup⟩, hdepth, htable⟩ := hparse
  have hvar : ∀ v x, env v = some x → ∃ ps,
      (computeSegments pattern).lookup v = some ps ∧ (v, ps) ∈ computeSegments pattern ∧
        ellipses (computeSegments pattern) v = ps.length ∧
        Corresponds rename compare pattern datum v x := by
    intro v x hx
    have hv : v ∈ pattern.vars := by
      by_contra hv
      rw [henv.other v hv] at hx
      cases hx
    obtain ⟨y, hy, hcorr⟩ := henv.vars v hv
    rw [hx] at hy
    injection hy with hy
    obtain ⟨ps, hps, hmem⟩ := exists_lookup_segs hv
    refine ⟨ps, hps, hmem, ?_, hy ▸ hcorr⟩
    rw [ellipses, hps]
    rfl
  suffices hfits : Fits (template.segs [] []) (ellipses (computeSegments pattern))
      ([] : List Cell).length env from Fits.even hfits
  refine ⟨?_, ?_⟩
  · intro v ts x hv hx
    obtain ⟨ps, hps, hmem, hlen, hcorr⟩ := hvar v x hx
    have hle := hdepth (v, ts) hv
    simp only [hps, decide_eq_true_eq] at hle
    obtain ⟨A, hA, hshape⟩ := shape_of_corresponds hcheck hnodup hmem hcorr
    rw [List.append_nil] at hA
    rw [hlen, List.length_nil, Nat.sub_zero, hA]
    exact ⟨by rw [← hA]; exact hle, hshape⟩
  · intro v ts w us x y hv hw hx hy C hC hts hus hdv hdw
    have hne : C ≠ [] := List.length_pos_iff.mp hC
    obtain ⟨ps, hps, hmem, hlen, hcorr⟩ := hvar v x hx
    obtain ⟨qs, hqs, hmem', hlen', hcorr'⟩ := hvar w y hy
    rw [hlen] at hdv
    rw [hlen'] at hdw
    -- the ellipses that the table relates to those of the pattern
    have hrow : ∀ (z : Id) (rs zs : List Cell), (z, zs) ∈ computeSegments template →
        (computeSegments pattern).lookup z = some rs → C.length ≤ rs.length → C <:+ zs →
        ∃ Q, Q <:+ rs ∧ Q.length = C.length ∧
          (C, Q) ∈ (computeSegments template).flatMap (references (computeSegments pattern)) := by
      intro z rs zs hz hrs hCr hCz
      have hle := hdepth (z, zs) hz
      simp only [hrs, decide_eq_true_eq] at hle
      have hdrop : (zs.drop (zs.length - rs.length)).length = rs.length := by
        rw [List.length_drop]
        omega
      have hCd : C <:+ zs.drop (zs.length - rs.length) :=
        List.suffix_of_suffix_length_le hCz (List.drop_suffix _ _) (by rw [hdrop]; exact hCr)
      obtain ⟨Q, hQ, hQlen, hmem⟩ := mem_tailPairs hne hdrop hCd
      refine ⟨Q, hQ, hQlen, List.mem_flatMap.mpr ⟨(z, zs), hz, ?_⟩⟩
      rw [references]
      simp only [hrs]
      exact hmem
    obtain ⟨Q, hQ, hQlen, hQmem⟩ := hrow v ps ts hv hps hdv hts
    obtain ⟨Q', hQ', -, hQmem'⟩ := hrow w qs us hw hqs hdw hus
    have heq : Q = Q' := htable (C, Q) hQmem (C, Q') hQmem' rfl
    subst heq
    have hsame := sameShape_of_corresponds (C := Q) hcheck hnodup hmem hmem' hcorr hcorr'
      (by rw [List.append_nil]; exact hQ) (by rw [List.append_nil]; exact hQ')
    rw [hQlen] at hsame
    exact hsame

end

end MitScheme.Runtime.SyntaxRules
