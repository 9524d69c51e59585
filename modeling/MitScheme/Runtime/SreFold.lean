import Mathlib
import MitScheme.Runtime.SreCset

/-! # Regular s-expressions that ignore case

`w/nocase`. What it should mean is said by an expression without it, whose literals and
character sets are closed under case. A setting around a character set is read by the
rules for character sets, which return a list for it; an instruction for one character
takes every character; the other instructions compare case-folded characters with the
folded set. -/

namespace MitScheme.Runtime.Srfi115

variable (t : CaseTables)

/-! ## What `w/nocase` should mean -/

/-- The characters whose `char-foldcase` is that of `c`. -/
def foldClass (c : CodePoint) : Finset CodePoint :=
  Finset.univ.filter fun x => t.charFoldcase x = t.charFoldcase c

def caseClosure (cs : Finset CodePoint) : Finset CodePoint :=
  Finset.univ.filter fun x => ∃ y ∈ cs, t.charFoldcase x = t.charFoldcase y

mutual

/-- The expression with its literals replaced by their classes and its character sets by
their closures, where `fold` says whether case is ignored. -/
def foldLiterals (fold : Bool) : Sre → Sre
  | .char c => if fold then .charSet (foldClass t c) else .char c
  | .string s =>
    if fold then
      match s with
      | [c] => .charSet (foldClass t c)
      | s => .seq (s.map fun c => .charSet (foldClass t c))
    else .string s
  | .charSet cs => .charSet (if fold then caseClosure t cs else cs)
  | .charSetOf s => if fold then .charSet (caseClosure t s.toFinset) else .charSetOf s
  | .range specs =>
    if fold && specs.all RangeSpec.valid then .charSet (caseClosure t (rangeChars specs))
    else .range specs
  | .or es => .or (foldLiteralsList fold es)
  | .and es => .and (foldLiteralsList fold es)
  | .difference es => .difference (foldLiteralsList fold es)
  | .complement es => .complement (foldLiteralsList fold es)
  | .quantified q es => .quantified q (foldLiteralsList fold es)
  | .seq es => .seq (foldLiteralsList fold es)
  | .submatch name es => .submatch name (foldLiteralsList fold es)
  | .anchor a => .anchor a
  | .setting s es => .setting s (foldLiteralsList (s.folds fold) es)

def foldLiteralsList (fold : Bool) : List Sre → List Sre
  | [] => []
  | e :: es => foldLiterals fold e :: foldLiteralsList fold es

end

/-! ## Expressions that ignore case as they should

Two contexts go along: the first is that of the expression under `w/nocase`, the second
that of the expression whose literals are folded. -/

/-- The instruction under the first context takes what that of the folded expression takes
under the second. -/
def LeafExact (a b : SreCtx) (e : Sre) : Prop :=
  (charsAt t a e = ∅ ↔ charsAt t b (foldLiterals t a.fold e) = ∅) ∧
    ∀ x, Takes t a.fold (charsAt t a e) x ↔
      Takes t b.fold (charsAt t b (foldLiterals t a.fold e)) x

def ClassTakesAll (b : SreCtx) (c : CodePoint) : Prop :=
  charsAt t b (.charSet (foldClass t c)) ≠ ∅ ∧
    ∀ x, Takes t b.fold (charsAt t b (.charSet (foldClass t c))) x

mutual

/-- Where case is ignored, each character-set expression takes what it should, and the
characters of a longer string take all, as they should only if their classes do. -/
def CaseExactRule (a b : SreCtx) : Sre → Prop
  | .string s => a.fold = true → ∀ c ∈ s, ClassTakesAll t b c
  | .quantified _ es | .or es | .seq es | .submatch _ es => CaseExacts a b es
  | .setting s es => CaseExacts (s.apply a) (s.apply b) es
  | .char _ | .charSet _ | .charSetOf _ | .range _ | .and _ | .difference _ | .complement _
  | .anchor _ => True

def CaseExacts (a b : SreCtx) : List Sre → Prop
  | [] => True
  | e :: es => (if validCset e then LeafExact t a b e else CaseExactRule a b e) ∧ CaseExacts a b es

end

/-- The contexts differ in the fold flag alone, and the second folds only if the first does. -/
structure Along (a b : SreCtx) : Prop where
  ascii : a.ascii = b.ascii
  noCapture : a.noCapture = b.noCapture
  fold : a.fold = false → b.fold = false

theorem Along.apply {a b} (h : Along a b) (s : Setting) : Along (s.apply a) (s.apply b) := by
  cases s with
  | case => exact ⟨h.ascii, h.noCapture, fun _ => rfl⟩
  | nocase => exact ⟨h.ascii, h.noCapture, fun hf => nomatch hf⟩
  | unicode | ascii => exact ⟨rfl, h.noCapture, h.fold⟩
  | nocapture => exact ⟨h.ascii, rfl, h.fold⟩

section Folded

variable (fold : Bool)

theorem foldLiterals_string {s} (h : s.length ≠ 1) :
    foldLiterals t true (.string s) = .seq (s.map fun c => .charSet (foldClass t c)) := by
  match s with
  | [] | _ :: _ :: _ => rfl
  | [c] => exact absurd rfl h

mutual

theorem validCset_foldLiterals (fold : Bool) : ∀ e,
    validCset (foldLiterals t fold e) = validCset e
  | .char _ | .charSetOf _ => by cases fold <;> rfl
  | .string s => by
    cases fold with
    | false => rfl
    | true =>
      by_cases h : s.length = 1
      · obtain ⟨c, rfl⟩ := List.length_eq_one_iff.mp h
        rfl
      · rw [foldLiterals_string t h]
        simp [validCset, h]
  | .range specs => by
    rw [foldLiterals]
    split
    · rename_i h
      exact (Bool.and_eq_true_iff.mp h).2.symm
    · rfl
  | .or es | .and es | .difference es | .complement es => by
    simp only [foldLiterals, validCset, validCsets_foldLiterals fold es]
  | .setting s es => by
    simp only [foldLiterals, validCset, validCsets_foldLiterals _ es]
  | .charSet _ | .quantified _ _ | .seq _ | .submatch _ _ | .anchor _ => rfl

theorem validCsets_foldLiterals (fold : Bool) : ∀ es,
    validCsets (foldLiteralsList t fold es) = validCsets es
  | [] => rfl
  | e :: es => by
    simp only [foldLiteralsList, validCsets, validCset_foldLiterals fold e,
      validCsets_foldLiterals fold es]

end

theorem validSres_classes (s : List CodePoint) :
    validSres (s.map fun c => .charSet (foldClass t c)) = true := by
  induction s with
  | nil => rfl
  | cons c s ih =>
    rw [List.map_cons, validSres, ih]
    rfl

mutual

theorem sreRuleFits_foldLiterals (fold : Bool) : ∀ e, validCset e = false →
    sreRuleFits (foldLiterals t fold e) = sreRuleFits e
  | .string s, h => by
    cases fold with
    | false => rfl
    | true =>
      rw [foldLiterals_string t (by simpa [validCset] using h)]
      exact validSres_classes t s
  | .range specs, h => by
    rw [foldLiterals, if_neg]
    rw [validCset] at h
    simp [h]
  | .quantified q es, _ | .or es, _ | .seq es, _ | .submatch _ es, _ | .setting _ es, _ => by
    simp only [foldLiterals, sreRuleFits, validSres_foldLiterals _ es]
  | .and _, _ | .difference _, _ | .complement _, _ | .anchor _, _ => rfl

theorem validSres_foldLiterals (fold : Bool) : ∀ es,
    validSres (foldLiteralsList t fold es) = validSres es
  | [] => rfl
  | e :: es => by
    rw [foldLiteralsList, validSres, validSres, validCset_foldLiterals,
      validSres_foldLiterals fold es]
    cases hv : validCset e with
    | true => rfl
    | false => rw [sreRuleFits_foldLiterals fold e hv]

end

mutual

theorem isSetExpr_foldLiterals (fold : Bool) : ∀ e, isSetExpr e = true →
    isSetExpr (foldLiterals t fold e) = true
  | .char _, _ | .charSetOf _, _ => by cases fold <;> rfl
  | .charSet _, _ => rfl
  | .string s, h => by
    cases fold with
    | false => exact h
    | true =>
      obtain ⟨c, rfl⟩ := List.length_eq_one_iff.mp (by simpa [isSetExpr] using h)
      rfl
  | .range specs, h => by
    rw [foldLiterals]
    split
    · rfl
    · exact h
  | .or es, h | .and es, h | .complement es, h => areSetExprs_foldLiterals fold es h
  | .difference (e :: es), h => areSetExprs_foldLiterals fold (e :: es) h

theorem areSetExprs_foldLiterals (fold : Bool) : ∀ es, areSetExprs es = true →
    areSetExprs (foldLiteralsList t fold es) = true
  | [], _ => rfl
  | e :: es, h => by
    obtain ⟨he, hes⟩ := Bool.and_eq_true_iff.mp h
    exact Bool.and_eq_true_iff.mpr
      ⟨isSetExpr_foldLiterals fold e he, areSetExprs_foldLiterals fold es hes⟩

end

/-! ## The same instructions -/

variable (pattern pattern' : Sre) {a b : SreCtx}

theorem compileBy_leaf {e} (hv : validCset e = true) (hs : isSetExpr e = true)
    (h : LeafExact t a b e) (rule rule' : Compile Insn) :
    compileBy t pattern a e rule =
      compileBy t pattern' b (foldLiterals t a.fold e) rule' := by
  rw [compileBy, compileBy, if_pos hv, if_pos (validCset_foldLiterals t a.fold e ▸ hv),
    csetInsn_set t pattern a hs, csetInsn_set t pattern' b (isSetExpr_foldLiterals t a.fold e hs),
    insnCharSet_congr t h.1 h.2]

theorem compileBy_rule {e} (hv : validCset e = false) (hfits : sreRuleFits e = true) (fold : Bool)
    {rule rule'} (h : rule = rule') :
    compileBy t pattern a e rule = compileBy t pattern' b (foldLiterals t fold e) rule' := by
  rw [compileBy, compileBy, validCset_foldLiterals, sreRuleFits_foldLiterals t fold e hv, hv, hfits,
    h]
  rfl

theorem compileSres_classes {s : List CodePoint} (h : ∀ c ∈ s, ClassTakesAll t b c) :
    compileSres t pattern b (s.map fun c => .charSet (foldClass t c)) =
      pure (s.map (insnChar · true)) := by
  induction s with
  | nil => rfl
  | cons c s ih =>
    obtain ⟨hne, hall⟩ := h c List.mem_cons_self
    have hinsn : csetInsn t pattern b (.charSet (foldClass t c)) = .ok (insnChar c true) := by
      rw [csetInsn_set t pattern b rfl, insnCharSet_eq, if_neg hne]
      simp only [hall, decide_true, insnChar, if_true]
    rw [List.map_cons, compileSres, ih fun c hc => h c (List.mem_cons_of_mem _ hc), compileBy,
      if_pos (show validCset (.charSet (foldClass t c)) = true from rfl), hinsn]
    rfl

mutual

theorem sreRule_foldLiterals {a b : SreCtx} (hab : Along a b) : ∀ e, validCset e = false →
    compilableRule e = true → CaseExactRule t a b e →
    sreRule t pattern a e = sreRule t pattern' b (foldLiterals t a.fold e)
  | .string s, hv, _, h => by
    cases hf : a.fold with
    | false =>
      change sreRule t pattern a (.string s) = sreRule t pattern' b (.string s)
      rw [sreRule, sreRule, hf, hab.fold hf]
    | true =>
      rw [sreRule, foldLiterals_string t (by simpa [validCset] using hv), sreRule,
        compileSres_classes t pattern' (h hf), hf]
      rfl
  | .anchor _, _, _, _ => rfl
  | .quantified q es, _, hc, h | .or es, _, hc, h | .seq es, _, hc, h => by
    rw [sreRule, foldLiterals, sreRule, compileSres_foldLiterals hab es hc h]
  | .submatch name es, _, hc, h => by
    rw [sreRule, foldLiterals, sreRule, compileSres_foldLiterals hab es hc h, hab.noCapture]
  | .setting s es, _, hc, h => by
    rw [sreRule, foldLiterals, sreRule, compileSres_foldLiterals (hab.apply s) es hc h]
    rfl

theorem compileSres_foldLiterals {a b} (hab : Along a b) : ∀ es,
    compilables es = true → CaseExacts t a b es →
    compileSres t pattern a es = compileSres t pattern' b (foldLiteralsList t a.fold es)
  | [], _, _ => rfl
  | e :: es, hc, h => by
    obtain ⟨hce, hces⟩ := Bool.and_eq_true_iff.mp hc
    obtain ⟨he, hes⟩ := h
    rw [compileSres, foldLiteralsList, compileSres, compileSres_foldLiterals hab es hces hes]
    refine congrArg (· >>= _) ?_
    cases hv : validCset e with
    | true =>
      rw [hv, if_pos rfl] at hce he
      exact compileBy_leaf t pattern pattern' hv hce he _ _
    | false =>
      rw [hv, if_neg Bool.false_ne_true] at hce he
      obtain ⟨hfits, hrule⟩ := Bool.and_eq_true_iff.mp hce
      exact compileBy_rule t pattern pattern' hv hfits a.fold
        (sreRule_foldLiterals hab e hv hrule he)

end

end Folded

/-! ## The whole expression -/

/-- The context under a `w/nocase` that stands outermost. -/
def nocaseCtx : SreCtx := Setting.nocase.apply initialSreCtx

theorem Along.nocase : Along nocaseCtx initialSreCtx := ⟨rfl, rfl, fun _ => rfl⟩

/-- Each part of the expression takes under `w/nocase` what it should. -/
def CaseExact (e : Sre) : Prop := CaseExactRule t nocaseCtx initialSreCtx e

/-- The first expression compiles, and so does the second, to matchers that match the same
strings. -/
def MatchAlike (e e' : Sre) : Prop :=
  ∃ m keys m' keys', compileSreTopLevel t e = .ok (m, keys) ∧
    compileSreTopLevel t e' = .ok (m', keys') ∧
    ∀ gcbs fuel string start stop,
      regexpMatches m gcbs fuel string start stop = regexpMatches m' gcbs fuel string start stop

theorem compileSreTopLevel_isOk (e : Sre) :
    (compileSreTopLevel t e).isOk = true ↔ compilable e = true := by
  rw [← succeeds_compileSre t e initialSreCtx ⟨1, [], false⟩ e, compileSreTopLevel]
  cases h : compileSre t e initialSreCtx e ⟨1, [], false⟩ with
  | error f =>
    refine iff_of_false Bool.false_ne_true ?_
    rintro ⟨r, hr⟩
    rw [h] at hr
    cases hr
  | ok r => exact iff_of_true rfl ⟨r, h⟩

theorem compilable_nocase {e} (h : compilable e = true) :
    compilable (.setting .nocase [e]) = true ↔ validCset e = false := by
  have hvalid : validCset (.setting .nocase [e]) = validCset e := by
    simp [validCset, validCsets, Setting.isCset]
  rw [compilable, hvalid]
  cases hv : validCset e with
  | true => exact iff_of_false Bool.false_ne_true Bool.true_eq_false_eq_False
  | false =>
    rw [compilable, hv, if_neg Bool.false_ne_true] at h
    refine iff_of_true ?_ rfl
    rw [if_neg Bool.false_ne_true]
    simp [sreRuleFits, validSres, compilableRule, compilables, hv, Bool.and_eq_true_iff.mp h]

theorem insnSeq_single {e} (pattern : Sre) (ctx : SreCtx) :
    (do return insnSeq (← compileSres t pattern ctx [e]) : Compile Insn) =
      compileSre t pattern ctx e := by
  simp only [compileSres, compileSre, bind_assoc, pure_bind, insnSeq, bind_pure]

theorem compileSre_nocase {e} (hc : compilable e = true) (hv : validCset e = false)
    (h : CaseExact t e) (pattern pattern' : Sre) :
    compileSre t pattern initialSreCtx (.setting .nocase [e]) =
      compileSre t pattern' initialSreCtx (foldLiterals t true e) := by
  have hvalid : validCset (.setting .nocase [e]) = false := by
    simp [validCset, validCsets, hv]
  rw [compilable, hv, if_neg Bool.false_ne_true] at hc
  obtain ⟨hfits, hrule⟩ := Bool.and_eq_true_iff.mp hc
  have hfits' : sreRuleFits (.setting .nocase [e]) = true := by
    simp [sreRuleFits, validSres, hfits]
  rw [compileSre, compileBy, if_neg (by rw [hvalid]; exact Bool.false_ne_true), if_pos hfits',
    sreRule, insnSeq_single]
  exact compileBy_rule t pattern pattern' hv hfits true
    (sreRule_foldLiterals t pattern pattern' Along.nocase e hv hrule h)

/-- **An expression under `w/nocase` compiles exactly when it is not a valid character set**;
when in addition each part of it takes what it should, it matches what the expression with
folded literals matches. -/
theorem nocase_compiles_and_matches (e : Sre) (h : (compileSreTopLevel t e).isOk = true) :
    ((compileSreTopLevel t (.setting .nocase [e])).isOk = true ↔ validCset e = false) ∧
      (validCset e = false → CaseExact t e →
        MatchAlike t (.setting .nocase [e]) (foldLiterals t true e)) := by
  have hc := (compileSreTopLevel_isOk t e).mp h
  refine ⟨(compileSreTopLevel_isOk t _).trans (compilable_nocase hc), fun hv hexact => ?_⟩
  have hok := (compileSreTopLevel_isOk t _).mpr ((compilable_nocase hc).mpr hv)
  have hsame : compileSreTopLevel t (.setting .nocase [e]) =
      compileSreTopLevel t (foldLiterals t true e) := by
    rw [compileSreTopLevel, compileSreTopLevel,
      compileSre_nocase t hc hv hexact (.setting .nocase [e]) (foldLiterals t true e)]
  cases hm : compileSreTopLevel t (.setting .nocase [e]) with
  | error f => rw [hm] at hok; cases hok
  | ok r => exact ⟨r.1, r.2, r.1, r.2, hm, hsame ▸ hm, fun _ _ _ _ _ => rfl⟩

/-! ## The letters of ASCII -/

section
local instance instNeZeroCharCodeLimit : NeZero 0x110000 := ⟨by decide⟩

def asciiTables : CaseTables where
  charFoldcase c := if 65 ≤ c ∧ c ≤ 90 then c + 32 else c
  charUpcase c := if 97 ≤ c ∧ c ≤ 122 then c - 32 else c
  charDowncase c := if 65 ≤ c ∧ c ≤ 90 then c + 32 else c
  changesWhenCaseFolded := Finset.Icc 65 90
  changesWhenUpperCased := Finset.Icc 97 122
  changesWhenLowerCased := Finset.Icc 65 90
  ascii := Finset.Icc 0 127
  newline := {10}
  word := Finset.Icc 65 90 ∪ Finset.Icc 97 122 ∪ {95}

end

def matchesString (e : Sre) (string : List CodePoint) : Option Bool := do
  let (m, _) ← (compileSreTopLevel asciiTables e).toOption
  (regexpMatches m (fun _ _ _ => []) 10 string 0 string.length).toOption

theorem foldClass_digit : foldClass asciiTables 49 = {49} := by
  ext x
  rw [foldClass, Finset.mem_filter, Finset.mem_singleton]
  refine ⟨fun h => ?_, fun h => ⟨Finset.mem_univ x, h ▸ rfl⟩⟩
  have hx := h.2
  rw [show asciiTables.charFoldcase 49 = 49 from by decide +kernel] at hx
  simp only [asciiTables] at hx
  split at hx
  · rename_i hupper
    have hval := congrArg Fin.val hx
    simp only [Fin.val_add, Fin.le_def] at hval hupper
    have h65 : (65 : CodePoint).val = 65 := rfl
    have h90 : (90 : CodePoint).val = 90 := rfl
    have h32 : (32 : CodePoint).val = 32 := rfl
    have h49 : (49 : CodePoint).val = 49 := rfl
    omega
  · exact hx

theorem nocase_fails :
    (compileSreTopLevel asciiTables (.string [97])).isOk = true ∧
      (compileSreTopLevel asciiTables (.setting .nocase [.string [97]])).isOk = false ∧
      matchesString (.setting .nocase [.seq [.string [49], .anchor .eos]]) [97] = some true ∧
      matchesString (foldLiterals asciiTables true (.seq [.string [49], .anchor .eos])) [97] =
        some false := by
  have hfold : foldLiterals asciiTables true (.seq [.string [49], .anchor .eos]) =
      .seq [.charSet {49}, .anchor .eos] := by
    rw [← foldClass_digit]
    rfl
  rw [hfold]
  decide +kernel

/-- The expression `(: "a" eos)`. -/
theorem nocase_compiles_and_matches_letter :
    MatchAlike asciiTables (.setting .nocase [.seq [.string [97], .anchor .eos]])
      (foldLiterals asciiTables true (.seq [.string [97], .anchor .eos])) := by
  refine (nocase_compiles_and_matches asciiTables _ (by decide +kernel)).2 (by decide +kernel) ?_
  have hleft : charsAt asciiTables nocaseCtx (.string [97]) = {97, 65} := by decide +kernel
  have hcard : ({97, 65} : Finset CodePoint).card ≠ 1 := by decide +kernel
  have hfolded : asciiTables.charSetFoldcase {97, 65} = {97} := by decide +kernel
  have hmem (x : CodePoint) : x ∈ foldClass asciiTables 97 ↔ asciiTables.charFoldcase x = 97 := by
    rw [foldClass, Finset.mem_filter]
    exact ⟨fun h => h.2, fun h => ⟨Finset.mem_univ x, h⟩⟩
  have hright : charsAt asciiTables initialSreCtx (foldLiterals asciiTables true (.string [97])) =
      foldClass asciiTables 97 := rfl
  refine ⟨⟨?_, fun x => ?_⟩, trivial, trivial⟩
  · have hne : foldClass asciiTables 97 ≠ ∅ :=
      Finset.ne_empty_of_mem ((hmem 97).mpr (by decide +kernel))
    exact iff_of_false (by rw [hleft]; decide +kernel) hne
  · rw [hleft, show nocaseCtx.fold = true from rfl, hright]
    simp only [Takes, hcard, hfolded, false_or, Finset.mem_singleton, if_true, hmem,
      show initialSreCtx.fold = false from rfl, Bool.false_eq_true, if_false]

end MitScheme.Runtime.Srfi115
