import MitScheme.Runtime.Sre

/-! # The character-set expressions, and which expressions compile

The value of a character-set expression is a set unless a setting stands in it: then it
is a list, which no later step takes. Whether an expression compiles depends neither on
the context nor on the state of the compiler. -/

namespace MitScheme.Runtime.Srfi115
open Lib.Outcome

variable (t : CaseTables)

/-! ## The sets of the expressions -/

/-- `maybe-xform` on a set. -/
def xform (ctx : SreCtx) (cs : Finset CodePoint) : Finset CodePoint :=
  let cs := if ctx.ascii then t.ascii ∩ cs else cs
  if ctx.fold then cs ∪ t.charSetUpcase cs ∪ t.charSetDowncase cs else cs

mutual

/-- The value of the expression is a character set: no setting is in it, and a difference
is taken from something. -/
def isSetExpr : Sre → Bool
  | .char _ | .charSet _ | .charSetOf _ => true
  | .string s => s.length == 1
  | .range specs => specs.all RangeSpec.valid
  | .or es | .and es | .complement es => areSetExprs es
  | .difference es => !es.isEmpty && areSetExprs es
  | .quantified _ _ | .seq _ | .submatch _ _ | .anchor _ | .setting _ _ => false

def areSetExprs : List Sre → Bool
  | [] => true
  | e :: es => isSetExpr e && areSetExprs es

end

mutual

def charsOf (ctx : SreCtx) : Sre → Finset CodePoint
  | .char c => xform t ctx {c}
  | .string s | .charSetOf s => xform t ctx s.toFinset
  | .charSet cs => xform t ctx cs
  | .range specs => xform t ctx (rangeChars specs)
  | .or es => (charsOfList ctx es).foldr (· ∪ ·) ∅
  | .and es => (charsOfList ctx es).foldr (· ∩ ·) Finset.univ
  | .difference es =>
    ((charsOfList ctx es).headD ∅) \ ((charsOfList ctx es).tail.foldr (· ∪ ·) ∅)
  | .complement es =>
    (if ctx.ascii then t.ascii else Finset.univ) \ ((charsOfList ctx es).foldr (· ∪ ·) ∅)
  | .quantified _ _ | .seq _ | .submatch _ _ | .anchor _ | .setting _ _ => ∅

def charsOfList (ctx : SreCtx) : List Sre → List (Finset CodePoint)
  | [] => []
  | e :: es => charsOf ctx e :: charsOfList ctx es

end

/-- The set that the instruction for a character-set expression is made of. -/
def charsAt (ctx : SreCtx) (e : Sre) : Finset CodePoint := xform t ctx (charsOf t ctx e)

def Takes (fold : Bool) (cs : Finset CodePoint) (x : CodePoint) : Prop :=
  if fold then cs.card = 1 ∨ t.charFoldcase x ∈ t.charSetFoldcase cs else x ∈ cs

instance (fold : Bool) (cs : Finset CodePoint) (x : CodePoint) : Decidable (Takes t fold cs x) :=
  inferInstanceAs (Decidable (if fold then _ else _))

variable (x : CodePoint) (css : List (Finset CodePoint))

theorem mem_foldl_union (rest : List (Finset CodePoint)) (cs) :
    x ∈ rest.foldl (fun acc cs => cs ∪ acc) cs ↔ x ∈ cs ∨ ∃ c ∈ rest, x ∈ c := by
  induction rest generalizing cs with
  | nil => simp
  | cons c rest ih =>
    rw [List.foldl_cons, ih]
    simp only [Finset.mem_union, List.mem_cons, exists_eq_or_imp]
    tauto

theorem mem_foldl_inter (rest : List (Finset CodePoint)) (cs) :
    x ∈ rest.foldl (fun acc cs => cs ∩ acc) cs ↔ x ∈ cs ∧ ∀ c ∈ rest, x ∈ c := by
  induction rest generalizing cs with
  | nil => simp
  | cons c rest ih =>
    rw [List.foldl_cons, ih]
    simp only [Finset.mem_inter, List.forall_mem_cons]
    tauto

theorem mem_foldl_sdiff (rest : List (Finset CodePoint)) (cs) :
    x ∈ rest.foldl (fun acc cs => acc \ cs) cs ↔ x ∈ cs ∧ ∀ c ∈ rest, x ∉ c := by
  induction rest generalizing cs with
  | nil => simp
  | cons c rest ih =>
    rw [List.foldl_cons, ih]
    simp only [Finset.mem_sdiff, List.forall_mem_cons]
    tauto

theorem mem_foldr_union : x ∈ css.foldr (· ∪ ·) ∅ ↔ ∃ c ∈ css, x ∈ c := by
  induction css with
  | nil => simp
  | cons c css ih => simp [ih]

theorem mem_foldr_inter : x ∈ css.foldr (· ∩ ·) Finset.univ ↔ ∀ c ∈ css, x ∈ c := by
  induction css with
  | nil => simp
  | cons c css ih => simp [ih]

theorem mapM_charSet : (css.map CsetValue.set).mapM CsetValue.charSet = .ok css := by
  induction css with
  | nil => rfl
  | cons c css ih =>
    rw [List.map_cons, List.mapM_cons, ih]
    rfl

theorem charSetUnion_sets : charSetUnion (css.map .set) = .ok (.set (css.foldr (· ∪ ·) ∅)) := by
  match css with
  | [] => rfl
  | [c] => simp [charSetUnion]
  | c :: d :: css =>
    have hrest := mapM_charSet (d :: css)
    simp only [List.map_cons] at hrest
    simp only [List.map_cons, charSetUnion, CsetValue.charSet, hrest, bind, Except.bind, pure,
      Except.pure]
    refine congrArg (fun cs => Except.ok (CsetValue.set cs)) (Finset.ext fun x => ?_)
    simp only [mem_foldl_union, mem_foldr_union, List.mem_cons, exists_eq_or_imp]

theorem charSetIntersection_sets :
    charSetIntersection (css.map .set) = .ok (.set (css.foldr (· ∩ ·) Finset.univ)) := by
  match css with
  | [] => rfl
  | [c] => simp [charSetIntersection]
  | c :: d :: css =>
    have hrest := mapM_charSet (d :: css)
    simp only [List.map_cons] at hrest
    simp only [List.map_cons, charSetIntersection, CsetValue.charSet, hrest, bind, Except.bind,
      pure, Except.pure]
    refine congrArg (fun cs => Except.ok (CsetValue.set cs)) (Finset.ext fun x => ?_)
    simp only [mem_foldl_inter, mem_foldr_inter, List.forall_mem_cons]

theorem charSetDifference_sets (c) (css : List (Finset CodePoint)) :
    charSetDifference (.set c :: css.map .set) = .ok (.set (c \ css.foldr (· ∪ ·) ∅)) := by
  match css with
  | [] => simp [charSetDifference]
  | d :: css =>
    have hrest := mapM_charSet (d :: css)
    simp only [List.map_cons] at hrest
    simp only [List.map_cons, charSetDifference, CsetValue.charSet, hrest, bind, Except.bind,
      pure, Except.pure]
    refine congrArg (fun cs => Except.ok (CsetValue.set cs)) (Finset.ext fun x => ?_)
    rw [mem_foldl_sdiff, Finset.mem_sdiff, mem_foldr_union]
    simp

theorem maybeXform_set (ctx cs) : maybeXform t ctx (.set cs) = .ok (.set (xform t ctx cs)) := by
  have hinter : charSetIntersection [.set t.ascii, .set cs] = .ok (.set (t.ascii ∩ cs)) := by
    have := charSetIntersection_sets [t.ascii, cs]
    simpa using this
  have hunion (cs : Finset CodePoint) :
      charSetUnion [.set cs, .set (t.charSetUpcase cs), .set (t.charSetDowncase cs)] =
        .ok (.set (cs ∪ t.charSetUpcase cs ∪ t.charSetDowncase cs)) := by
    have := charSetUnion_sets [cs, t.charSetUpcase cs, t.charSetDowncase cs]
    simpa [Finset.union_assoc] using this
  obtain ⟨fold, ascii, noCapture⟩ := ctx
  cases ascii <;> cases fold <;> simp only [maybeXform, xform, hinter] <;>
    first | rfl | exact hunion _

theorem maybeXform_list {ctx vs cs} : maybeXform t ctx (.list vs) ≠ .ok (.set cs) := by
  obtain ⟨fold, ascii, noCapture⟩ := ctx
  cases ascii <;> cases fold <;> exact fun h => nomatch h

/-! ## The values of the rules for character sets -/

def HasList (vs : List CsetValue) : Prop := ∃ l, .list l ∈ vs

theorem HasList.mapM_charSet {vs} (h : HasList vs) :
    vs.mapM CsetValue.charSet = .error .wrongType := by
  induction vs with
  | nil => exact absurd h.choose_spec List.not_mem_nil
  | cons v vs ih =>
    rw [List.mapM_cons]
    cases v with
    | list l => rfl
    | set cs =>
      obtain ⟨l, hl⟩ := h
      have hl : CsetValue.list l ∈ vs := by simpa using hl
      rw [ih ⟨l, hl⟩]
      rfl

theorem HasList.not_set {op : List CsetValue → Except CompileFault CsetValue}
    {k : Finset CodePoint → List (Finset CodePoint) → CsetValue} (hone : ∀ v, op [v] = .ok v)
    (hmore : ∀ v w vs, op (v :: w :: vs) = (do
      let cs ← v.charSet
      let rest ← (w :: vs).mapM CsetValue.charSet
      return k cs rest)) {vs} (h : HasList vs) (cs) : op vs ≠ .ok (.set cs) := by
  obtain ⟨l, hl⟩ := h
  match vs with
  | [] => exact absurd hl List.not_mem_nil
  | [v] =>
    rw [← List.mem_singleton.mp hl, hone]
    exact fun h => nomatch h
  | v :: w :: vs =>
    rw [hmore]
    cases v with
    | list l' => exact fun h => nomatch h
    | set c =>
      have hl : CsetValue.list l ∈ w :: vs := by simpa using hl
      rw [HasList.mapM_charSet ⟨l, hl⟩]
      exact fun h => nomatch h

theorem HasList.union {vs} (h : HasList vs) (cs) : charSetUnion vs ≠ .ok (.set cs) :=
  h.not_set (fun _ => rfl) (fun _ _ _ => rfl) cs

theorem HasList.intersection {vs} (h : HasList vs) (cs) : charSetIntersection vs ≠ .ok (.set cs) :=
  h.not_set (fun _ => rfl) (fun _ _ _ => rfl) cs

theorem HasList.difference {vs} (h : HasList vs) (cs) : charSetDifference vs ≠ .ok (.set cs) :=
  h.not_set (fun _ => rfl) (fun _ _ _ => rfl) cs

theorem HasList.cons (v) {vs} (h : HasList vs) :
    HasList (v :: vs) := h.imp fun _ hl => List.mem_cons_of_mem v hl

mutual

theorem validCset_of_isSetExpr : ∀ {e : Sre}, isSetExpr e = true → validCset e = true
  | .char _, _ | .charSet _, _ | .charSetOf _, _ => rfl
  | .string _, h | .range _, h => h
  | .or _, h | .and _, h | .complement _, h => by
    rw [validCset]
    exact validCsets_of_areSetExprs h
  | .difference _, h => by
    rw [validCset]
    exact validCsets_of_areSetExprs (Bool.and_eq_true_iff.mp h).2

theorem validCsets_of_areSetExprs : ∀ {es : List Sre}, areSetExprs es = true → validCsets es = true
  | [], _ => rfl
  | e :: es, h => by
    obtain ⟨he, hes⟩ := Bool.and_eq_true_iff.mp h
    exact Bool.and_eq_true_iff.mpr ⟨validCset_of_isSetExpr he, validCsets_of_areSetExprs hes⟩

end

section Values

variable (pattern : Sre) (ctx : SreCtx)

mutual

theorem csetRule_set : ∀ {e : Sre}, isSetExpr e = true →
    csetRule t pattern ctx e = .ok (.set (charsOf t ctx e))
  | .char _, _ | .charSet _, _ | .charSetOf _, _ | .string _, _ | .range _, _ =>
    maybeXform_set t ctx _
  | .or es, h => by
    rw [csetRule, compileCsetSres_sets h]
    exact charSetUnion_sets _
  | .and es, h => by
    rw [csetRule, compileCsetSres_sets h]
    exact charSetIntersection_sets _
  | .complement es, h => by
    rw [csetRule, compileCsetSres_sets h]
    exact charSetDifference_sets _ _
  | .difference (e :: es), h => by
    have hes : areSetExprs (e :: es) = true := h
    rw [csetRule, compileCsetSres_sets hes]
    exact charSetDifference_sets _ _

theorem compileCsetSres_sets : ∀ {es : List Sre}, areSetExprs es = true →
    compileCsetSres t pattern ctx es = .ok ((charsOfList t ctx es).map .set)
  | [], _ => rfl
  | e :: es, h => by
    obtain ⟨he, hes⟩ := Bool.and_eq_true_iff.mp h
    rw [compileCsetSres, if_pos (validCset_of_isSetExpr he), csetRule_set he,
      compileCsetSres_sets hes]
    rfl

end

mutual

theorem csetRule_not_set : ∀ {e : Sre}, validCset e = true → isSetExpr e = false →
    ∀ cs, csetRule t pattern ctx e ≠ .ok (.set cs)
  | .or _, hv, hn => fun cs => bind_ne_ok fun _ h =>
    (compileCsetSres_hasList hv hn h).union cs
  | .and _, hv, hn => fun cs => bind_ne_ok fun _ h =>
    (compileCsetSres_hasList hv hn h).intersection cs
  | .complement _, hv, hn => fun cs => bind_ne_ok fun _ h =>
    ((compileCsetSres_hasList hv hn h).cons _).difference cs
  | .difference [], _, _ => fun _ h => nomatch h
  | .difference (_ :: _), hv, hn => fun cs => bind_ne_ok fun _ h =>
    (compileCsetSres_hasList hv hn h).difference cs
  | .setting _ _, _, _ => fun _ => bind_ne_ok fun _ _ h => nomatch h
  | .string _, hv, hn | .range _, hv, hn => absurd (hv.symm.trans hn) Bool.true_eq_false_eq_False

theorem compileCsetSres_hasList : ∀ {es : List Sre}, validCsets es = true →
    areSetExprs es = false → ∀ {vs}, compileCsetSres t pattern ctx es = .ok vs → HasList vs
  | e :: es, hv, hn, vs, h => by
    obtain ⟨hve, hves⟩ := Bool.and_eq_true_iff.mp hv
    rw [compileCsetSres, if_pos hve] at h
    obtain ⟨v, he, h⟩ := bind_eq_ok h
    obtain ⟨vs, hes, h⟩ := bind_eq_ok h
    cases h
    cases v with
    | list l => exact ⟨l, List.mem_cons_self⟩
    | set cs =>
      have hse : isSetExpr e = true := by
        by_contra hne
        exact csetRule_not_set hve (Bool.not_eq_true _ ▸ hne) cs he
      have hns : areSetExprs es = false := by simpa [areSetExprs, hse] using hn
      exact (compileCsetSres_hasList hves hns hes).cons _

end

end Values

/-! ## Which expressions compile -/

theorem insnCharSet_eq (cs fold) :
    insnCharSet t cs fold =
      if cs = ∅ then failInsn else matchInsn fun x => Takes t fold cs x := by
  rw [insnCharSet]
  split
  · rename_i h
    rw [if_pos (Finset.card_eq_zero.mp h)]
  · rename_i h
    obtain ⟨c, rfl⟩ := Finset.card_eq_one.mp h
    rw [if_neg (Finset.singleton_ne_empty c)]
    cases fold with
    | true => simp [insnChar, Takes]
    | false => simp [insnChar, Takes, charSetRef]
  · rename_i h0 h1
    rw [if_neg (mt Finset.card_eq_zero.mpr h0)]
    cases fold with
    | true => simp [Takes, show cs.card ≠ 1 from h1]
    | false => simp [Takes]

theorem insnCharSet_congr {cs cs' fold fold'} (hempty : cs = ∅ ↔ cs' = ∅)
    (h : ∀ x, Takes t fold cs x ↔ Takes t fold' cs' x) :
    insnCharSet t cs fold = insnCharSet t cs' fold' := by
  rw [insnCharSet_eq, insnCharSet_eq]
  simp only [hempty, h]

theorem csetInsn_set (pattern ctx) {e} (h : isSetExpr e = true) :
    csetInsn t pattern ctx e = .ok (insnCharSet t (charsAt t ctx e) ctx.fold) := by
  rw [csetInsn, csetRule_set t pattern ctx h]
  simp only [bind, Except.bind, maybeXform_set, CsetValue.charSet, pure, Except.pure, charsAt]

theorem csetInsn_not_set (pattern ctx) {e} (hv : validCset e = true) (hn : isSetExpr e = false)
    (insn) : csetInsn t pattern ctx e ≠ .ok insn := by
  refine bind_ne_ok fun v hrule => ?_
  cases v with
  | set cs => exact absurd hrule (csetRule_not_set t pattern ctx hv hn cs)
  | list vs =>
    refine bind_ne_ok fun v hv => ?_
    cases v with
    | set cs => exact absurd hv (maybeXform_list t)
    | list vs => exact fun h => nomatch h

def Succeeds {α : Type} (x : Compile α) (st : CompileState) : Prop := ∃ r, x st = .ok r

mutual

def compilableRule : Sre → Bool
  | .char _ | .string _ | .anchor _ => true
  | .quantified _ es | .or es | .seq es | .submatch _ es | .setting _ es => compilables es
  | .charSet _ | .charSetOf _ | .range _ | .and _ | .difference _ | .complement _ => false

def compilables : List Sre → Bool
  | [] => true
  | e :: es =>
    (if validCset e then isSetExpr e else sreRuleFits e && compilableRule e) && compilables es

end

/-- Neither the context nor the state has a part in whether an expression compiles. -/
def compilable (e : Sre) : Bool :=
  if validCset e then isSetExpr e else sreRuleFits e && compilableRule e

section Success

variable {α β : Type} {st : CompileState}

theorem succeeds_pure (a : α) : Succeeds (pure a) st := ⟨_, rfl⟩

theorem not_succeeds_throw (f) : ¬Succeeds (throw f : Compile α) st := by
  rintro ⟨r, h⟩
  cases h

theorem succeeds_bind {p : Prop} {x} {k : α → Compile β} (hk : ∀ a st, Succeeds (k a) st ↔ p) :
    Succeeds (x >>= k) st ↔ Succeeds x st ∧ p := by
  constructor
  · rintro ⟨r, h⟩
    change (x st >>= fun p => k p.1 p.2) = _ at h
    obtain ⟨q, hx, h⟩ := bind_eq_ok h
    exact ⟨⟨q, hx⟩, (hk q.1 q.2).mp ⟨r, h⟩⟩
  · rintro ⟨⟨q, hx⟩, hp⟩
    obtain ⟨r, hr⟩ := (hk q.1 q.2).mpr hp
    refine ⟨r, ?_⟩
    change (x st >>= fun p => k p.1 p.2) = _
    rw [hx]
    exact hr

theorem succeeds_bind_iff {x} {k : α → Compile β} (hk : ∀ a st, Succeeds (k a) st) :
    Succeeds (x >>= k) st ↔ Succeeds x st := by
  rw [succeeds_bind fun a st => iff_true_intro (hk a st), and_true]

theorem succeeds_submatch (name insn) : Succeeds (submatch name insn) st := by
  cases name with
  | none => exact ⟨_, rfl⟩
  | some name => exact ⟨_, rfl⟩

theorem succeeds_anchorInsn (a) : Succeeds (anchorInsn t a) st := by
  cases a <;> exact ⟨_, rfl⟩

variable (pattern : Sre) (ctx : SreCtx)

theorem succeeds_compileBy {e rule} (hrule : Succeeds rule st ↔ compilableRule e = true) :
    Succeeds (compileBy t pattern ctx e rule) st ↔ compilable e = true := by
  rw [compileBy, compilable]
  split
  · rename_i hv
    cases hs : isSetExpr e with
    | true =>
      refine iff_of_true ?_ rfl
      rw [csetInsn_set t pattern ctx hs]
      exact ⟨_, rfl⟩
    | false =>
      refine iff_of_false ?_ Bool.false_ne_true
      rintro ⟨r, h⟩
      cases hc : csetInsn t pattern ctx e with
      | error f => rw [hc] at h; cases h
      | ok insn => exact csetInsn_not_set t pattern ctx hv hs insn hc
  · split
    · rename_i hfits
      rw [hrule, hfits, Bool.true_and]
    · rename_i hfits
      exact iff_of_false (not_succeeds_throw _) (by simp [hfits])

mutual

theorem succeeds_sreRule (ctx : SreCtx) (st : CompileState) : ∀ e,
    Succeeds (sreRule t pattern ctx e) st ↔ compilableRule e = true
  | .char _ | .string _ => iff_of_true (succeeds_pure _) rfl
  | .anchor a => iff_of_true (succeeds_anchorInsn t a) rfl
  | .quantified _ es | .or es | .seq es => by
    rw [sreRule, succeeds_bind_iff fun _ _ => succeeds_pure _, succeeds_compileSres ctx st es,
      compilableRule]
  | .setting s es => by
    rw [sreRule, succeeds_bind_iff fun _ _ => succeeds_pure _, succeeds_compileSres _ st es,
      compilableRule]
  | .submatch name es => by
    rw [sreRule, succeeds_bind_iff, succeeds_compileSres ctx st es, compilableRule]
    intro insns st
    dsimp only
    split
    · exact succeeds_pure _
    · exact succeeds_submatch name _
  | .charSet _ | .charSetOf _ | .range _ | .and _ | .difference _ | .complement _ =>
    iff_of_false (not_succeeds_throw _) Bool.false_ne_true

theorem succeeds_compileSres (ctx : SreCtx) (st : CompileState) : ∀ es,
    Succeeds (compileSres t pattern ctx es) st ↔ compilables es = true
  | [] => iff_of_true (succeeds_pure _) rfl
  | e :: es => by
    have hes (st : CompileState) (insn : Insn) : Succeeds (do
        let insns ← compileSres t pattern ctx es
        return insn :: insns) st ↔ compilables es = true := by
      rw [succeeds_bind_iff fun _ _ => succeeds_pure _, succeeds_compileSres ctx st es]
    rw [compileSres, succeeds_bind fun insn st => hes st insn,
      succeeds_compileBy t pattern ctx (succeeds_sreRule ctx st e), compilables,
      Bool.and_eq_true_iff, compilable]

end

theorem succeeds_compileSre (st e) :
    Succeeds (compileSre t pattern ctx e) st ↔ compilable e = true :=
  succeeds_compileBy t pattern ctx (succeeds_sreRule t pattern ctx st e)

end Success

end MitScheme.Runtime.Srfi115
