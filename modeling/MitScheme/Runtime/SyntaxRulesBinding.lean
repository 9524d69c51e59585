import MitScheme.Runtime.SyntaxRulesPattern

/-! # Syntax-rules: what the matcher binds

A variable is in the dictionary when some datum was given to it. `wrap-dicts` lets a
sequence of repetitions without such a datum stand for the empty one, at every depth. -/

namespace MitScheme.Runtime.SyntaxRules

variable {Id Atom : Type}

/-! ## Nested sequences -/

mutual

def Nest.hasDatum : Nest Id Atom → Bool
  | .datum _ => true
  | .seq items => anyDatum items

def anyDatum : List (Nest Id Atom) → Bool
  | [] => false
  | x :: items => x.hasDatum || anyDatum items

end

mutual

def Nest.collapse : Nest Id Atom → Nest Id Atom
  | .datum d => .datum d
  | .seq items => if anyDatum items then .seq (collapseAll items) else .seq []

def collapseAll : List (Nest Id Atom) → List (Nest Id Atom)
  | [] => []
  | x :: items => x.collapse :: collapseAll items

end

mutual

def Nest.Solid : Nest Id Atom → Prop
  | .datum _ => True
  | .seq items => (items = [] ∨ anyDatum items = true) ∧ AllSolid items

def AllSolid : List (Nest Id Atom) → Prop
  | [] => True
  | x :: items => x.Solid ∧ AllSolid items

end

theorem anyDatum_eq : ∀ items : List (Nest Id Atom), anyDatum items = items.any (·.hasDatum)
  | [] => rfl
  | x :: items => by rw [anyDatum, List.any_cons, anyDatum_eq items]

theorem collapse_of_not_hasDatum {x : Nest Id Atom} (h : x.hasDatum = false) :
    x.collapse = .seq [] := by
  cases x with
  | datum d => cases h
  | seq items =>
    rw [Nest.hasDatum] at h
    rw [Nest.collapse, h]
    rfl

mutual

theorem collapse_eq_self : ∀ x : Nest Id Atom, x.collapse = x ↔ x.Solid
  | .datum d => by simp [Nest.collapse, Nest.Solid]
  | .seq items => by
    rw [Nest.collapse, Nest.Solid]
    cases h : anyDatum items with
    | true => simp [collapseAll_eq_self items]
    | false =>
      simp only [Bool.false_eq_true, if_false, or_false, Nest.seq.injEq]
      constructor
      · rintro rfl
        exact ⟨rfl, trivial⟩
      · rintro ⟨rfl, -⟩
        rfl

theorem collapseAll_eq_self : ∀ items : List (Nest Id Atom),
    collapseAll items = items ↔ AllSolid items
  | [] => by simp [collapseAll, AllSolid]
  | x :: items => by
    rw [collapseAll, AllSolid, List.cons.injEq, collapse_eq_self x, collapseAll_eq_self items]

end

/-! ## Lookups -/

section
variable [DecidableEq Id]

mutual

def Form.depthOf (v : Id) : Form Id Atom → Nat
  | .list elts => eltsDepth v elts
  | .dottedList elts tail => if v ∈ eltsVars elts then eltsDepth v elts else tail.depthOf v
  | .vector elts => eltsDepth v elts
  | _ => 0

def Elt.depthOf (v : Id) : Elt Id Atom → Nat
  | .one form => form.depthOf v
  | .segment body => body.depthOf v + 1

def eltsDepth (v : Id) : List (Elt Id Atom) → Nat
  | [] => 0
  | e :: elts => if v ∈ e.vars then e.depthOf v else eltsDepth v elts

end

def Holds (v : Id) (depth : Nat) (dict : Dict Id Atom) (x : Nest Id Atom) : Prop :=
  lookup v dict = if x.hasDatum then some ⟨v, x.collapse, depth⟩ else none

/-- What the dictionary gives to an identifier; `wrap-dicts` takes the empty list for
one that is not there. -/
def value (v : Id) (dict : Dict Id Atom) : Nest Id Atom :=
  ((lookup v dict).map (·.datum)).getD (.seq [])

variable {news : List (Dict Id Atom)} {xs : List (Nest Id Atom)} {v : Id} {a b : Dict Id Atom}

theorem Holds.value_eq {depth dict} {x : Nest Id Atom} (h : Holds v depth dict x) :
    value v dict = x.collapse := by
  unfold Holds at h
  unfold value
  rw [h]
  cases hx : x.hasDatum with
  | true => rfl
  | false => exact (collapse_of_not_hasDatum hx).symm

theorem values_of_holds {depth} (h : List.Forall₂ (Holds v depth) news xs) :
    news.map (value v) = collapseAll xs := by
  induction h with
  | nil => rfl
  | cons hx _ ih => rw [List.map_cons, ih, hx.value_eq, collapseAll]

theorem exists_of_holds {depth} (h : List.Forall₂ (Holds v depth) news xs) :
    (∃ dict ∈ news, lookup v dict ≠ none) ↔ anyDatum xs = true := by
  induction h with
  | nil => simp [anyDatum]
  | cons hx _ ih =>
    simp only [List.mem_cons, exists_eq_or_imp, ih, anyDatum, Bool.or_eq_true]
    refine or_congr_left ?_
    rw [hx]
    split
    case isTrue hd => simp [hd]
    case isFalse hd => simp [hd]

theorem depth_of_holds {depth} (h : List.Forall₂ (Holds v depth) news xs) :
    ∀ dict ∈ news, ∀ b, lookup v dict = some b → b.depth = depth := by
  induction h with
  | nil =>
    intro dict hd
    cases hd
  | cons hx _ ih =>
    intro dict hd b hb
    obtain rfl | hd := List.mem_cons.mp hd
    · rw [hx] at hb
      split at hb
      · injection hb with hb
        rw [← hb]
      · cases hb
    · exact ih dict hd b hb

theorem holds_wrapDicts {depth} (h : List.Forall₂ (Holds v depth) news xs) :
    Holds v (depth + 1) (wrapDicts news.reverse []) (.seq xs) := by
  unfold Holds
  rw [lookup_wrapDicts, Nest.hasDatum, Nest.collapse]
  have hex : (∃ dict ∈ news.reverse, lookup v dict ≠ none) ↔ anyDatum xs = true := by
    simp only [List.mem_reverse]
    exact exists_of_holds h
  simp only [hex]
  split
  case isFalse => rfl
  case isTrue hany =>
    have hvalues : ((news.reverse.map (lookup v)).map
        fun b => (b.map (·.datum)).getD (.seq [])).reverse = collapseAll xs := by
      rw [List.map_map, ← List.map_reverse, List.reverse_reverse, ← values_of_holds h]
      rfl
    have hdepth : (((news.reverse.map (lookup v)).find? (·.isSome)).join.map (·.depth)).getD 0 =
        depth := by
      obtain ⟨dict, hd, hne⟩ := hex.mpr hany
      cases hfind : (news.reverse.map (lookup v)).find? (·.isSome) with
      | none =>
        have hnone := List.find?_eq_none.mp hfind _ (List.mem_map_of_mem hd)
        simp only [Option.isSome_iff_ne_none, not_not] at hnone
        exact absurd hnone hne
      | some o =>
        have ho := List.find?_some hfind
        obtain ⟨dict', hd', rfl⟩ := List.mem_map.mp (List.mem_of_find?_eq_some hfind)
        obtain ⟨b, hb⟩ := Option.isSome_iff_exists.mp ho
        rw [hb]
        exact depth_of_holds h dict' (List.mem_reverse.mp hd') b hb
    rw [wrapBinding]
    simp only [hvalues, hdepth]

/-! ## The dictionary of a pattern -/

omit [DecidableEq Id] in
theorem andThen_eq_some {α β : Type} {a} {f : α → Except Fault (Option β)} {y} :
    andThen a f = .ok (some y) ↔ ∃ x, a = .ok (some x) ∧ f x = .ok (some y) := by
  obtain e | o := a
  · simp [andThen]
  · cases o <;> simp [andThen]

theorem andThen_andThen {α β γ : Type} {a} {f : α → Except Fault (Option β)} {g : α → β → γ} {z}
    (h : andThen a (fun x => andThen (f x) fun y => .ok (some (g x y))) = .ok (some z)) :
    ∃ x y, a = .ok (some x) ∧ f x = .ok (some y) ∧ g x y = z := by
  obtain ⟨x, hx, h⟩ := andThen_eq_some.mp h
  obtain ⟨y, hy, h⟩ := andThen_eq_some.mp h
  exact ⟨x, y, hx, hy, Option.some.inj (Except.ok.inj h)⟩

omit [DecidableEq Id] in
theorem scanAll_eq_some {scan : Datum Id Atom → Answer Id Atom} :
    ∀ {ds : List (Datum Id Atom)} {dicts out : List (Dict Id Atom)},
      scanAll scan ds dicts = .ok (some out) →
      ∃ news, List.Forall₂ (fun d new => scan d = .ok (some new)) ds news ∧
        out = news.reverse ++ dicts
  | [], dicts, out, h => by
    injection h with h
    injection h with h
    exact ⟨[], .nil, h.symm⟩
  | d :: ds, dicts, out, h => by
    rw [scanAll, andThen_eq_some] at h
    obtain ⟨new, hd, h⟩ := h
    obtain ⟨news, hall, rfl⟩ := scanAll_eq_some h
    exact ⟨new :: news, .cons hd hall, by simp⟩

omit [DecidableEq Id] in
theorem leftover_nil_of_scan {elts : List (Elt Id Atom)} {ds : List (Datum Id Atom)}
    {a : Answer Id Atom} {new : Dict Id Atom}
    (h : (andThen a fun new => if (leftover elts ds).isEmpty then .ok (some new) else .ok none) =
      .ok (some new)) : a = .ok (some new) ∧ used elts ds = ds := by
  obtain ⟨new', ha, h⟩ := andThen_eq_some.mp h
  split at h
  case isTrue hnil =>
    injection h with h
    injection h with h
    have hall := used_append_leftover elts ds
    rw [List.isEmpty_iff.mp hnil, List.append_nil] at hall
    exact ⟨h ▸ ha, hall⟩
  case isFalse => cases h

theorem lookup_append_of_none (h : lookup v a = none) : lookup v (a ++ b) = lookup v b := by
  rw [lookup_append, h, Option.none_or]

theorem lookup_append_of_none' (h : lookup v b = none) : lookup v (a ++ b) = lookup v a := by
  rw [lookup_append, h, Option.or_none]

omit [DecidableEq Id] in
theorem exists_of_mem_forall₂ {α β : Type} {R : α → β → Prop} {as bs} (h : List.Forall₂ R as bs) :
    ∀ b ∈ bs, ∃ a ∈ as, R a b := by
  induction h with
  | nil =>
    intro b hb
    cases hb
  | cons hab _ ih =>
    intro b hb
    obtain rfl | hb := List.mem_cons.mp hb
    · exact ⟨_, List.mem_cons_self, hab⟩
    · obtain ⟨a, ha, hr⟩ := ih b hb
      exact ⟨a, List.mem_cons_of_mem _ ha, hr⟩

omit [DecidableEq Id] in
theorem forall₂_holds {P : Datum Id Atom → Dict Id Atom → Prop}
    {Q : Datum Id Atom → Nest Id Atom → Prop} {S : Dict Id Atom → Nest Id Atom → Prop}
    (hS : ∀ d new x, P d new → Q d x → S new x) : ∀ {ds : List (Datum Id Atom)}
      {news : List (Dict Id Atom)} {xs : List (Nest Id Atom)},
      List.Forall₂ P ds news → List.Forall₂ Q ds xs → List.Forall₂ S news xs
  | _, _, _, .nil, .nil => .nil
  | _, _, _, .cons hp hps, .cons hq hqs => .cons (hS _ _ _ hp hq) (forall₂_holds hS hps hqs)

theorem Holds.append_left {depth} {x} (h : Holds v depth a x) (hb : lookup v b = none) :
    Holds v depth (a ++ b) x := by
  unfold Holds
  rw [lookup_append_of_none' hb]
  exact h

theorem Holds.append_right {depth} {x} (h : Holds v depth b x) (ha : lookup v a = none) :
    Holds v depth (a ++ b) x := by
  unfold Holds
  rw [lookup_append_of_none ha]
  exact h

variable [DecidableEq Atom] {rename : Id → Id} {compare : Id → Id → Bool}

mutual

theorem lookup_scan {v : Id} : ∀ {form : Form Id Atom} {d : Datum Id Atom} {new : Dict Id Atom},
    scan rename compare form d = .ok (some new) → v ∉ form.vars → lookup v new = none
  | .list elts, d, new, h, hv => by
    rw [scan] at h
    split at h
    · exact lookup_scanElts (leftover_nil_of_scan h).1 hv
    · cases h
  | .vector elts, d, new, h, hv => by
    cases d with
    | vector ds =>
      rw [scan] at h
      split at h
      · exact lookup_scanElts (leftover_nil_of_scan h).1 hv
      · cases h
    | _ => cases h
  | .dottedList elts tail, d, new, h, hv => by
    rw [scan] at h
    split at h
    · obtain ⟨new₁, new₂, h₁, h₂, h⟩ := andThen_andThen h
      rw [Form.vars, List.mem_append, not_or] at hv
      rw [← h, lookup_append_of_none (lookup_scan h₂ hv.2)]
      exact lookup_scanElts h₁ hv.1
    · cases h
  | .literalId literal, d, new, h, _ => by
    cases d with
    | ident id =>
      rw [scan] at h
      split at h
      · injection h with h
        injection h with h
        rw [← h]
        rfl
      · cases h
    | _ => cases h
  | .literal literal, d, new, h, _ => by
    cases d with
    | atom a =>
      rw [scan] at h
      split at h
      · injection h with h
        injection h with h
        rw [← h]
        rfl
      · cases h
    | _ => cases h
  | .var id, d, new, h, hv => by
    rw [scan] at h
    injection h with h
    injection h with h
    rw [← h, lookup_eq_none]
    exact hv
  | .anonVar, d, new, h, _ => by
    rw [scan] at h
    injection h with h
    injection h with h
    rw [← h]
    rfl

theorem lookup_scanElts {v : Id} : ∀ {elts : List (Elt Id Atom)} {ds : List (Datum Id Atom)}
    {new : Dict Id Atom}, scanElts rename compare elts ds = .ok (some new) →
      v ∉ eltsVars elts → lookup v new = none
  | [], ds, new, h, _ => by
    rw [scanElts] at h
    injection h with h
    injection h with h
    rw [← h]
    rfl
  | .one form :: elts, [], new, h, _ => by cases h
  | .one form :: elts, d :: ds, new, h, hv => by
    rw [scanElts] at h
    obtain ⟨new₁, new₂, h₁, h₂, h⟩ := andThen_andThen h
    rw [eltsVars, Elt.vars, List.mem_append, not_or] at hv
    rw [← h, lookup_append_of_none (lookup_scanElts h₂ hv.2)]
    exact lookup_scan h₁ hv.1
  | .segment body :: elts, ds, new, h, hv => by
    rw [scanElts] at h
    obtain ⟨dicts, new₂, h₁, h₂, h⟩ := andThen_andThen h
    obtain ⟨news, hall, rfl⟩ := scanAll_eq_some h₁
    rw [eltsVars, Elt.vars, List.mem_append, not_or] at hv
    rw [← h, lookup_append_of_none (lookup_scanElts h₂ hv.2), lookup_wrapDicts, if_neg]
    rintro ⟨new, hn, hne⟩
    rw [List.append_nil, List.mem_reverse] at hn
    obtain ⟨d, -, hd⟩ := exists_of_mem_forall₂ hall new hn
    exact hne (lookup_scanBody hd hv.1)

theorem lookup_scanBody {v} : ∀ {e : Elt Id Atom} {d : Datum Id Atom} {new : Dict Id Atom},
    scanBody rename compare e d = .ok (some new) → v ∉ e.vars → lookup v new = none
  | .one form, d, new, h, hv => by
    rw [scanBody] at h
    exact lookup_scan h hv
  | .segment body, d, new, h, _ => by cases h

end

theorem mem_vars_of_scan {form : Form Id Atom} {d} {new : Dict Id Atom}
    (h : scan rename compare form d = .ok (some new)) (hv : v ∈ new.map (·.id)) :
    v ∈ form.vars := by
  by_contra hv'
  exact lookup_eq_none.mp (lookup_scan h hv') hv

theorem mem_eltsVars_of_scanElts {elts ds} {new : Dict Id Atom}
    (h : scanElts rename compare elts ds = .ok (some new)) (hv : v ∈ new.map (·.id)) :
    v ∈ eltsVars elts := by
  by_contra hv'
  exact lookup_eq_none.mp (lookup_scanElts h hv') hv

mutual

theorem nodup_scan : ∀ {form : Form Id Atom}, form.vars.Nodup →
    ∀ {d : Datum Id Atom} {new : Dict Id Atom}, scan rename compare form d = .ok (some new) →
      (new.map (·.id)).Nodup
  | .list elts, hnodup, d, new, h => by
    rw [scan] at h
    split at h
    · exact nodup_scanElts hnodup (leftover_nil_of_scan h).1
    · cases h
  | .vector elts, hnodup, d, new, h => by
    cases d with
    | vector ds =>
      rw [scan] at h
      split at h
      · exact nodup_scanElts hnodup (leftover_nil_of_scan h).1
      · cases h
    | _ => cases h
  | .dottedList elts tail, hnodup, d, new, h => by
    rw [Form.vars, List.nodup_append] at hnodup
    obtain ⟨hnodup₁, hnodup₂, hdisj⟩ := hnodup
    rw [scan] at h
    split at h
    · obtain ⟨new₁, new₂, h₁, h₂, rfl⟩ := andThen_andThen h
      rw [List.map_append, List.nodup_append]
      refine ⟨nodup_scan hnodup₂ h₂, nodup_scanElts hnodup₁ h₁, ?_⟩
      rintro v hv w hw rfl
      exact hdisj v (mem_eltsVars_of_scanElts h₁ hw) v (mem_vars_of_scan h₂ hv) rfl
    · cases h
  | .literalId literal, _, d, new, h => by
    have hnil : new.map (·.id) = [] :=
      List.eq_nil_iff_forall_not_mem.mpr fun v hv => List.not_mem_nil (mem_vars_of_scan h hv)
    rw [hnil]
    exact List.nodup_nil
  | .literal literal, _, d, new, h => by
    have hnil : new.map (·.id) = [] :=
      List.eq_nil_iff_forall_not_mem.mpr fun v hv => List.not_mem_nil (mem_vars_of_scan h hv)
    rw [hnil]
    exact List.nodup_nil
  | .var id, _, d, new, h => by
    rw [scan] at h
    injection h with h
    injection h with h
    rw [← h]
    exact List.nodup_cons.mpr ⟨List.not_mem_nil, List.nodup_nil⟩
  | .anonVar, _, d, new, h => by
    rw [scan] at h
    injection h with h
    injection h with h
    rw [← h]
    exact List.nodup_nil

theorem nodup_scanElts : ∀ {elts : List (Elt Id Atom)}, (eltsVars elts).Nodup →
    ∀ {ds : List (Datum Id Atom)} {new : Dict Id Atom},
      scanElts rename compare elts ds = .ok (some new) → (new.map (·.id)).Nodup
  | [], _, ds, new, h => by
    rw [scanElts] at h
    injection h with h
    injection h with h
    rw [← h]
    exact List.nodup_nil
  | .one form :: elts, _, [], new, h => by cases h
  | .one form :: elts, hnodup, d :: ds, new, h => by
    rw [eltsVars, Elt.vars, List.nodup_append] at hnodup
    obtain ⟨hnodup₁, hnodup₂, hdisj⟩ := hnodup
    rw [scanElts] at h
    obtain ⟨new₁, new₂, h₁, h₂, rfl⟩ := andThen_andThen h
    rw [List.map_append, List.nodup_append]
    refine ⟨nodup_scanElts hnodup₂ h₂, nodup_scan hnodup₁ h₁, ?_⟩
    rintro v hv w hw rfl
    exact hdisj v (mem_vars_of_scan h₁ hw) v (mem_eltsVars_of_scanElts h₂ hv) rfl
  | .segment body :: elts, hnodup, ds, new, h => by
    rw [eltsVars, Elt.vars, List.nodup_append] at hnodup
    obtain ⟨hnodup₁, hnodup₂, hdisj⟩ := hnodup
    rw [scanElts] at h
    obtain ⟨dicts, new₂, h₁, h₂, rfl⟩ := andThen_andThen h
    obtain ⟨news, hall, rfl⟩ := scanAll_eq_some h₁
    rw [List.append_nil, List.map_append, List.nodup_append, map_id_wrapDicts]
    have hdict : ∀ ids ∈ news.reverse.map fun dict => dict.map (·.id),
        ids.Nodup ∧ ∀ v ∈ ids, v ∈ body.vars := by
      intro ids hids
      obtain ⟨new, hn, rfl⟩ := List.mem_map.mp hids
      obtain ⟨d, -, hd⟩ := exists_of_mem_forall₂ hall new (List.mem_reverse.mp hn)
      refine ⟨nodup_scanBody hnodup₁ hd, fun v hv => ?_⟩
      by_contra hv'
      exact lookup_eq_none.mp (lookup_scanBody hd hv') hv
    refine ⟨nodup_scanElts hnodup₂ h₂, nodup_lsetUnion fun ids hids => (hdict ids hids).1, ?_⟩
    rintro v hv w hw rfl
    obtain ⟨ids, hids, hmem⟩ := (mem_lsetUnion _).mp hw
    exact hdisj v ((hdict ids hids).2 v hmem) v (mem_eltsVars_of_scanElts h₂ hv) rfl

theorem nodup_scanBody : ∀ {e : Elt Id Atom}, e.vars.Nodup → ∀ {d : Datum Id Atom}
    {new : Dict Id Atom}, scanBody rename compare e d = .ok (some new) →
      (new.map (·.id)).Nodup
  | .one form, hnodup, d, new, h => by
    rw [scanBody] at h
    exact nodup_scan hnodup h
  | .segment body, _, d, new, h => by cases h

end

mutual

theorem holds_scan {v} : ∀ {form : Form Id Atom},
    form.checkForMultipleSegments = true → form.vars.Nodup →
      ∀ {d : Datum Id Atom} {new : Dict Id Atom} {x : Nest Id Atom},
        scan rename compare form d = .ok (some new) → Corresponds rename compare form d v x →
          Holds v (form.depthOf v) new x
  | .list elts, hcheck, hnodup, d, new, x, h, hx => by
    simp only [Form.checkForMultipleSegments, Bool.and_eq_true, decide_eq_true_eq] at hcheck
    rw [Corresponds] at hx
    obtain ⟨ds, rfl, hx⟩ := hx
    have hitems : (Datum.ofList ds .null).items = ds :=
      (Datum.items_ofList .null ds).trans (List.append_nil ds)
    rw [scan, hitems] at h
    split at h
    · obtain ⟨hscan, hused⟩ := leftover_nil_of_scan h
      exact holds_scanElts hcheck.1 hcheck.2 hnodup hscan (by rwa [hused])
    · cases h
  | .vector elts, hcheck, hnodup, d, new, x, h, hx => by
    simp only [Form.checkForMultipleSegments, Bool.and_eq_true, decide_eq_true_eq] at hcheck
    rw [Corresponds] at hx
    obtain ⟨ds, rfl, hx⟩ := hx
    rw [scan] at h
    split at h
    · obtain ⟨hscan, hused⟩ := leftover_nil_of_scan h
      exact holds_scanElts hcheck.1 hcheck.2 hnodup hscan (by rwa [hused])
    · cases h
  | .dottedList elts tail, hcheck, hnodup, d, new, x, h, hx => by
    simp only [Form.checkForMultipleSegments, Bool.and_eq_true, decide_eq_true_eq] at hcheck
    rw [Corresponds] at hx
    obtain ⟨ds, rest, rfl, hmatch, hseg, hx⟩ := hx
    have hused := used_eq_self hmatch rest.items fun hs => Datum.items_of_not_isPair (hseg hs)
    rw [scan, Datum.items_ofList, hused.2, Datum.final_ofList, Datum.ofList_items] at h
    rw [Form.vars, List.nodup_append] at hnodup
    obtain ⟨hnodup₁, hnodup₂, hdisj⟩ := hnodup
    split at h
    · obtain ⟨new₁, new₂, h₁, h₂, rfl⟩ := andThen_andThen h
      rw [Form.depthOf]
      obtain hx | hx := hx
      · have hv := mem_eltsVars_of_corresponds hx
        rw [if_pos hv]
        refine (holds_scanElts hcheck.1.1 hcheck.1.2 hnodup₁ h₁ (by rwa [hused.1])).append_right ?_
        exact lookup_scan h₂ fun hv' => hdisj v hv v hv' rfl
      · have hv := mem_vars_of_corresponds hx
        have hv' : v ∉ eltsVars elts := fun hv' => hdisj v hv' v hv rfl
        rw [if_neg hv']
        exact (holds_scan hcheck.2 hnodup₂ h₂ hx).append_left (lookup_scanElts h₁ hv')
    · cases h
  | .literalId literal, _, _, d, new, x, _, hx => by
    rw [Corresponds] at hx
    exact hx.elim
  | .literal literal, _, _, d, new, x, _, hx => by
    rw [Corresponds] at hx
    exact hx.elim
  | .var id, _, _, d, new, x, h, hx => by
    rw [Corresponds] at hx
    obtain ⟨rfl, rfl⟩ := hx
    rw [scan] at h
    injection h with h
    injection h with h
    subst h
    unfold Holds lookup
    rw [List.find?_cons_of_pos (by simp)]
    rfl
  | .anonVar, _, _, d, new, x, _, hx => by
    rw [Corresponds] at hx
    exact hx.elim

theorem holds_scanElts {v} : ∀ {elts : List (Elt Id Atom)},
    elts.countP (·.isSegment) ≤ 1 → checkElts elts = true → (eltsVars elts).Nodup →
      ∀ {ds : List (Datum Id Atom)} {new : Dict Id Atom} {x : Nest Id Atom},
        scanElts rename compare elts ds = .ok (some new) →
          CorrespondsElts rename compare elts (used elts ds) v x →
            Holds v (eltsDepth v elts) new x
  | [], _, _, _, ds, new, x, _, hx => by
    rw [CorrespondsElts] at hx
    exact hx.elim
  | .one form :: elts, _, _, _, [], new, x, h, _ => by cases h
  | .one form :: elts, hrow, hcheck, hnodup, d :: ds, new, x, h, hx => by
    simp only [checkElts, Elt.checkStripped, Bool.and_eq_true] at hcheck
    rw [eltsVars, Elt.vars, List.nodup_append] at hnodup
    obtain ⟨hnodup₁, hnodup₂, hdisj⟩ := hnodup
    rw [used_cons_one, CorrespondsElts] at hx
    obtain ⟨d', ds', heq, hx⟩ := hx
    injection heq with hd hds
    rw [← hd, ← hds] at hx
    rw [scanElts] at h
    obtain ⟨new₁, new₂, h₁, h₂, rfl⟩ := andThen_andThen h
    rw [eltsDepth, Elt.vars, Elt.depthOf]
    obtain hx | hx := hx
    · have hv := mem_vars_of_corresponds hx
      rw [if_pos hv]
      refine (holds_scan hcheck.1.2 hnodup₁ h₁ hx).append_right ?_
      exact lookup_scanElts h₂ fun hv' => hdisj v hv v hv' rfl
    · have hv := mem_eltsVars_of_corresponds hx
      have hv' : v ∉ form.vars := fun hv' => hdisj v hv' v hv rfl
      rw [if_neg hv']
      exact (holds_scanElts (oneSegment_tail hrow) hcheck.2 hnodup₂ h₂ hx).append_left
        (lookup_scan h₁ hv')
  | .segment (.segment body) :: elts, _, hcheck, _, _, _, _, _, _ => by
    simp [checkElts, Elt.countSegments] at hcheck
  | .segment (.one form) :: elts, hrow, hcheck, hnodup, ds, new, x, h, hx => by
    simp only [checkElts, Elt.checkStripped, Bool.and_eq_true] at hcheck
    have hfix := fixed_of_segment hrow
    rw [eltsVars, Elt.vars, Elt.vars, List.nodup_append] at hnodup
    obtain ⟨hnodup₁, hnodup₂, hdisj⟩ := hnodup
    rw [used_segment, CorrespondsElts] at hx
    obtain ⟨a, b, rfl, hmatch, hx⟩ := hx
    have hlen : (a ++ b).length - elts.length = a.length := by
      rw [List.length_append, length_of_matchesElts hfix hmatch, Nat.add_sub_cancel]
    rw [scanElts, hlen, List.take_left, List.drop_left] at h
    obtain ⟨dicts, new₂, h₁, h₂, rfl⟩ := andThen_andThen h
    obtain ⟨news, hall, rfl⟩ := scanAll_eq_some h₁
    rw [List.append_nil, eltsDepth, Elt.vars, Elt.vars, Elt.depthOf, Elt.depthOf]
    obtain ⟨hv, xs, rfl, hxs⟩ | hx := hx
    · rw [Elt.vars] at hv
      rw [if_pos hv]
      refine Holds.append_right ?_ (lookup_scanElts h₂ fun hv' => hdisj v hv v hv' rfl)
      refine holds_wrapDicts (forall₂_holds (fun d new x hd hx => ?_) hall hxs)
      rw [scanBody] at hd
      rw [CorrespondsBody] at hx
      exact holds_scan hcheck.1.2 hnodup₁ hd hx
    · have hv := mem_eltsVars_of_corresponds hx
      have hv' : v ∉ form.vars := fun hv' => hdisj v hv' v hv rfl
      rw [if_neg hv']
      have hused : used elts b = b := by
        rw [used_of_fixed hfix, ← length_of_matchesElts hfix hmatch, List.take_length]
      refine (holds_scanElts (oneSegment_tail hrow) hcheck.2 hnodup₂ h₂
        (by rwa [hused])).append_left ?_
      rw [lookup_wrapDicts, if_neg]
      rintro ⟨new, hn, hne⟩
      obtain ⟨d, -, hd⟩ := exists_of_mem_forall₂ hall new (List.mem_reverse.mp hn)
      exact hne (lookup_scanBody hd hv')

end

end

/-! ## The matcher against R7RS -/

variable [DecidableEq Id] [DecidableEq Atom] (rename : Id → Id) (compare : Id → Id → Bool)

/-- The matcher answers with a dictionary just where the datum matches, with the right
values for the variables, and never with an error. -/
def MatchesRight (pattern : Form Id Atom) (datum : Datum Id Atom) : Prop :=
  (∀ fault, syntaxRulesMatchDatum rename compare pattern datum ≠ .error fault) ∧
    ((∃ dict, syntaxRulesMatchDatum rename compare pattern datum = .ok (some dict)) ↔
      Matches rename compare pattern datum) ∧
    (pattern.vars.Nodup → ∀ dict,
      syntaxRulesMatchDatum rename compare pattern datum = .ok (some dict) →
        ∀ v ∈ pattern.vars, (∃ x, Corresponds rename compare pattern datum v x) ∧
          ∀ x, Corresponds rename compare pattern datum v x → value v dict = x)

/-- **The matcher is right where the data do not run out behind an ellipsis** and no
sequence of repetitions without a datum is itself an item of a sequence. -/
theorem matchesRight_iff {pattern : Form Id Atom}
    (hcheck : pattern.checkForMultipleSegments = true) (datum : Datum Id Atom) :
    MatchesRight rename compare pattern datum ↔
      ¬ RunsOut rename compare pattern datum ∧
        (Matches rename compare pattern datum → pattern.vars.Nodup →
          ∀ v x, Corresponds rename compare pattern datum v x → x.Solid) := by
  have htells := tells_scan rename compare hcheck datum
  unfold MatchesRight
  rw [syntaxRulesMatchDatum_eq rename compare hcheck]
  cases hscan : scan rename compare pattern datum with
  | error e =>
    rw [hscan] at htells
    constructor
    · rintro ⟨h, -⟩
      exact absurd rfl (h e)
    · rintro ⟨h, -⟩
      exact absurd htells.1 h
  | ok o =>
    cases o with
    | none =>
      rw [hscan] at htells
      constructor
      · intro _
        exact ⟨htells.2, fun hm => absurd hm htells.1⟩
      · intro _
        refine ⟨by simp, ⟨?_, fun hm => absurd hm htells.1⟩, by simp⟩
        rintro ⟨dict, h⟩
        cases h
    | some dict =>
      rw [hscan] at htells
      have hvalue : pattern.vars.Nodup → ∀ v x, Corresponds rename compare pattern datum v x →
          value v dict = x.collapse := fun hnodup v x hx =>
        (holds_scan hcheck hnodup hscan hx).value_eq
      constructor
      · rintro ⟨-, -, h⟩
        refine ⟨htells.2, fun _ hnodup v x hx => ?_⟩
        have hright := (h hnodup dict rfl v (mem_vars_of_corresponds hx)).2 x hx
        rw [← collapse_eq_self, ← hvalue hnodup v x hx, hright]
      · rintro ⟨-, h⟩
        refine ⟨by simp, ⟨fun _ => htells.1, fun _ => ⟨dict, rfl⟩⟩, ?_⟩
        intro hnodup dict' hdict v hv
        injection hdict with hdict
        injection hdict with hdict
        subst hdict
        refine ⟨exists_corresponds htells.1 hv, fun x hx => ?_⟩
        rw [hvalue hnodup v x hx]
        exact (collapse_eq_self x).mpr (h htells.1 hnodup v x hx)

/-- The pattern `(a ... b)`. -/
def ellipsisThenOne : Form Nat Nat := .list [.segment (.one (.var 0)), .one (.var 1)]

/-- It is not matched by the empty list, and the matcher takes its `car`. -/
theorem syntaxRulesMatchDatum_ellipsisThenOne :
    ellipsisThenOne.checkForMultipleSegments = true ∧
      ¬ Matches id (· == ·) ellipsisThenOne (.null : Datum Nat Nat) ∧
      syntaxRulesMatchDatum id (· == ·) ellipsisThenOne .null = .error .wrongType ∧
      ¬ MatchesRight id (· == ·) ellipsisThenOne .null := by
  refine ⟨rfl, ?_, rfl, fun h => h.1 .wrongType rfl⟩
  intro h
  rw [ellipsisThenOne, matches_list] at h
  simp [MatchesElts, used, Elt.isSegment, Datum.items] at h

/-- One datum is enough: `a` stands for the empty sequence. -/
theorem matchesRight_ellipsisThenOne :
    MatchesRight id (· == ·) ellipsisThenOne (.pair (.atom 5) .null) := by
  refine (matchesRight_iff id (· == ·) rfl _).mpr ⟨?_, ?_⟩
  · simp [ellipsisThenOne, RunsOut, RunsOutElts, RunsOutBody, Datum.items]
  · intro _ _ v x hx
    simp only [ellipsisThenOne, Corresponds, CorrespondsElts, MatchesElts] at hx
    obtain ⟨ds, hds, a, b, rfl, ⟨d, ds', rfl, -, rfl⟩, hx⟩ := hx
    have hitems := congrArg Datum.items hds
    rw [Datum.items_ofList] at hitems
    have ha : a = [] := by
      refine List.length_eq_zero_iff.mp ?_
      have hlen := congrArg List.length hitems
      simp only [Datum.items, List.length_append, List.length_cons, List.length_nil] at hlen
      omega
    subst ha
    obtain ⟨-, xs, rfl, hxs⟩ | ⟨d', _, _, ⟨-, rfl⟩ | h⟩ := hx
    · rw [List.forall₂_nil_left_iff.mp hxs]
      exact ⟨.inl rfl, trivial⟩
    · trivial
    · exact h.elim

end MitScheme.Runtime.SyntaxRules
