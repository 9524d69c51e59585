import Mathlib.Data.List.Pairwise
import MitScheme.Runtime.SyntaxRename

/-! # Renaming identifiers: the binding structure

The post-pass keeps the binding structure exactly when no identifier that it does not count
is caught by a restored name: `compute-substitution` counts no quoted identifier, and an
unknown declaration makes it forget the identifiers it has counted. -/

namespace MitScheme.Runtime.SyntaxRename
open Lib.Binding

variable {S : Type}

/-! ## Alpha equivalence -/

def DeclItem.AlphaEq (ρ : List (Name S × Name S)) : DeclItem S → DeclItem S → Prop
  | id name, item => ∃ name', item = id name' ∧ Same ρ name name'
  | datum n, item => item = datum n

def Declaration.AlphaEq (ρ : List (Name S × Name S)) : Declaration S → Declaration S → Prop
  | known items, d => ∃ items', d = known items' ∧ List.Forall₂ (DeclItem.AlphaEq ρ) items items'
  | unknown text, d => d = unknown text

mutual

/-- Two expressions that differ in the names of their binders only. A quoted identifier is
matched by the symbol it stands for. -/
def AlphaEq (ρ : List (Name S × Name S)) : Expr S → Expr S → Prop
  | .constant datum, e => e = .constant datum
  | .variable name safe, e => ∃ name', e = .variable name' safe ∧ Same ρ name name'
  | .assignment name value, e => ∃ name' value', e = .assignment name' value' ∧
      Same ρ name name' ∧ AlphaEq ρ value value'
  | .unassigned name, e => ∃ name', e = .unassigned name' ∧ Same ρ name name'
  | .lambda pattern body, e => ∃ pattern' body', e = .lambda pattern' body' ∧
      pattern'.name = pattern.name ∧ pattern'.required.length = pattern.required.length ∧
      pattern'.optional.length = pattern.optional.length ∧
      pattern'.rest.isSome = pattern.rest.isSome ∧
      pattern.bound.Nodup ∧ pattern'.bound.Nodup ∧
      AlphaEq (pattern.bound.zip pattern'.bound ++ ρ) body body'
  | .openBlock names declarations actions, e => ∃ names' declarations' actions',
      e = .openBlock names' declarations' actions' ∧ names'.length = names.length ∧
      names.Nodup ∧ names'.Nodup ∧
      List.Forall₂ (Declaration.AlphaEq (names.zip names' ++ ρ)) declarations declarations' ∧
      AlphaEq (names.zip names' ++ ρ) actions actions'
  | .declaration text expression, e => ∃ text' expression', e = .declaration text' expression' ∧
      List.Forall₂ (Declaration.AlphaEq ρ) text text' ∧ AlphaEq ρ expression expression'
  | .quotedIdentifier name, e => ∃ name', e = .constant (.symbol name') ∧ Same ρ name name'
  | .access environment name, e => ∃ environment', e = .access environment' name ∧
      AlphaEq ρ environment environment'
  | .combination operator operands, e => ∃ operator' operands',
      e = .combination operator' operands' ∧ AlphaEq ρ operator operator' ∧
      AlphaEqList ρ operands operands'
  | .comment text expression, e => ∃ expression', e = .comment text expression' ∧
      AlphaEq ρ expression expression'
  | .conditional predicate consequent alternative, e => ∃ predicate' consequent' alternative',
      e = .conditional predicate' consequent' alternative' ∧ AlphaEq ρ predicate predicate' ∧
      AlphaEq ρ consequent consequent' ∧ AlphaEq ρ alternative alternative'
  | .definition name value, e => ∃ value', e = .definition name value' ∧ AlphaEq ρ value value'
  | .delay expression, e => ∃ expression', e = .delay expression' ∧
      AlphaEq ρ expression expression'
  | .disjunction predicate alternative, e => ∃ predicate' alternative',
      e = .disjunction predicate' alternative' ∧ AlphaEq ρ predicate predicate' ∧
      AlphaEq ρ alternative alternative'
  | .sequence actions, e => ∃ actions', e = .sequence actions' ∧ AlphaEqList ρ actions actions'

def AlphaEqList (ρ : List (Name S × Name S)) : List (Expr S) → List (Expr S) → Prop
  | [], es => es = []
  | e :: es, fs => ∃ e' es', fs = e' :: es' ∧ AlphaEq ρ e e' ∧ AlphaEqList ρ es es'

end

/-- A lambda or an open block: the names it binds, the identifiers of its body, and those that
count as free in it. -/
structure Frame (S : Type) where
  bound : List (Name S)
  ids : List (Name S)
  counted : List (Name S)

/-- The new names of a frame are different, and none is that of an identifier from outside. -/
structure Frame.Kept (σ : Name S → Name S) (f : Frame S) : Prop where
  nodup : (f.bound.map σ).Nodup
  outside : ∀ n ∈ f.ids, n ∉ f.bound → ∀ r ∈ f.bound, σ r ≠ σ n

/-! ## Substituting names -/

variable {σ : Name S → Name S} {ρ : List (Name S × Name S)}

def Declaration.names : Declaration S → List (Name S)
  | known items => items.flatMap DeclItem.names
  | unknown _ => []

theorem zip_map_self (bound) : bound.zip (bound.map σ) = renamed σ bound := by
  induction bound with
  | nil => rfl
  | cons b bound ih => rw [List.map_cons, List.zip_cons_cons, ih, renamed, renamed, List.map_cons]

theorem items_alphaEq {items} :
    List.Forall₂ (DeclItem.AlphaEq ρ) items (items.map (DeclItem.map σ)) ↔
      ∀ n ∈ items.flatMap DeclItem.names, Same ρ n (σ n) := by
  induction items with
  | nil => simp
  | cons item items ih =>
    rw [List.map_cons, List.forall₂_cons, ih, List.flatMap_cons]
    cases item <;> simp [DeclItem.AlphaEq, DeclItem.map, DeclItem.names]

theorem declarations_alphaEq (ds : List (Declaration S)) (σ ρ) :
    List.Forall₂ (Declaration.AlphaEq ρ) ds (ds.map (mapDeclIds σ)) ↔
      ∀ n ∈ ds.flatMap Declaration.names, Same ρ n (σ n) := by
  induction ds with
  | nil => simp
  | cons d ds ih =>
    rw [List.map_cons, List.forall₂_cons, ih, List.flatMap_cons, List.forall_mem_append]
    refine and_congr_left fun _ => ?_
    cases d with
    | known items =>
      rw [Declaration.names, ← items_alphaEq]
      simp [Declaration.AlphaEq, mapDeclIds]
    | unknown text => simp [Declaration.AlphaEq, mapDeclIds, Declaration.names]

theorem makeLambda_map (pattern body) :
    makeLambda pattern (pattern.bound.map σ) body =
      .lambda ⟨pattern.name, pattern.required.map σ, pattern.optional.map σ,
        pattern.rest.map σ⟩ body := by
  have htake : (pattern.optional.map σ).take pattern.optional.length = pattern.optional.map σ :=
    List.take_of_length_le (Nat.le_of_eq (List.length_map ..))
  cases h : pattern.rest <;> simp [makeLambda, LambdaPattern.bound, h, htake]

theorem kept_append {P Q : Prop} {R : Name S → Prop} {ids1 ids2 : List (Name S)}
    {fs1 fs2 : List (Frame S)}
    (h1 : P ↔ (∀ n ∈ ids1, R n) ∧ ∀ f ∈ fs1, f.Kept σ)
    (h2 : Q ↔ (∀ n ∈ ids2, R n) ∧ ∀ f ∈ fs2, f.Kept σ) :
    P ∧ Q ↔ (∀ n ∈ ids1 ++ ids2, R n) ∧ ∀ f ∈ fs1 ++ fs2, f.Kept σ := by
  rw [h1, h2, List.forall_mem_append, List.forall_mem_append]
  tauto

/-! ## Identifiers and frames -/

variable [DecidableEq S]

mutual

/-- The identifiers that an expression refers to and does not bind. -/
def identifiers : Expr S → List (Name S)
  | .constant _ => []
  | .variable name _ => [name]
  | .assignment name value => name :: identifiers value
  | .unassigned name => [name]
  | .lambda pattern body => (identifiers body).filter fun n => n ∉ pattern.bound
  | .openBlock names declarations actions =>
    (declarations.flatMap Declaration.names ++ identifiers actions).filter fun n => n ∉ names
  | .declaration text expression => text.flatMap Declaration.names ++ identifiers expression
  | .quotedIdentifier name => [name]
  | .access environment _ => identifiers environment
  | .combination operator operands => identifiers operator ++ identifiersList operands
  | .comment _ expression => identifiers expression
  | .conditional predicate consequent alternative =>
    identifiers predicate ++ identifiers consequent ++ identifiers alternative
  | .definition _ value => identifiers value
  | .delay expression => identifiers expression
  | .disjunction predicate alternative => identifiers predicate ++ identifiers alternative
  | .sequence actions => identifiersList actions

def identifiersList : List (Expr S) → List (Name S)
  | [] => []
  | e :: es => identifiers e ++ identifiersList es

end

/-- The names that are left after the declarations: an unknown one replaces those before it. -/
def countedDeclarations (ids : List (Name S)) : List (Declaration S) → List (Name S)
  | [] => ids
  | .known items :: ds => countedDeclarations (items.flatMap DeclItem.names ++ ids) ds
  | .unknown text :: ds => countedDeclarations text ds

mutual

/-- The identifiers that count as free: all but the quoted ones, and those that an unknown
declaration stands above. -/
def counted : Expr S → List (Name S)
  | .constant _ => []
  | .variable name _ => [name]
  | .assignment name value => name :: counted value
  | .unassigned name => [name]
  | .lambda pattern body => (counted body).filter fun n => n ∉ pattern.bound
  | .openBlock names declarations actions =>
    (countedDeclarations (counted actions) declarations).filter fun n => n ∉ names
  | .declaration text expression => countedDeclarations (counted expression) text
  | .quotedIdentifier _ => []
  | .access environment _ => counted environment
  | .combination operator operands => counted operator ++ countedList operands
  | .comment _ expression => counted expression
  | .conditional predicate consequent alternative =>
    counted predicate ++ counted consequent ++ counted alternative
  | .definition _ value => counted value
  | .delay expression => counted expression
  | .disjunction predicate alternative => counted predicate ++ counted alternative
  | .sequence actions => countedList actions

def countedList : List (Expr S) → List (Name S)
  | [] => []
  | e :: es => counted e ++ countedList es

end

mutual

/-- The lambdas and the open blocks of an expression, the inner ones first. -/
def frames : Expr S → List (Frame S)
  | .constant _ => []
  | .variable _ _ => []
  | .assignment _ value => frames value
  | .unassigned _ => []
  | .lambda pattern body => frames body ++ [⟨pattern.bound, identifiers body, counted body⟩]
  | .openBlock names declarations actions =>
    frames actions ++ [⟨names, declarations.flatMap Declaration.names ++ identifiers actions,
      countedDeclarations (counted actions) declarations⟩]
  | .declaration _ expression => frames expression
  | .quotedIdentifier _ => []
  | .access environment _ => frames environment
  | .combination operator operands => frames operator ++ framesList operands
  | .comment _ expression => frames expression
  | .conditional predicate consequent alternative =>
    frames predicate ++ frames consequent ++ frames alternative
  | .definition _ value => frames value
  | .delay expression => frames expression
  | .disjunction predicate alternative => frames predicate ++ frames alternative
  | .sequence actions => framesList actions

def framesList : List (Expr S) → List (Frame S)
  | [] => []
  | e :: es => frames e ++ framesList es

end

mutual

def OpenBlocks : Expr S → Prop
  | .constant _ | .variable _ _ | .unassigned _ | .quotedIdentifier _ => True
  | .assignment _ e | .lambda _ e | .declaration _ e | .access e _ | .comment _ e
  | .definition _ e | .delay e => OpenBlocks e
  | .openBlock names declarations e => (names ≠ [] ∨ declarations ≠ []) ∧ OpenBlocks e
  | .combination e es => OpenBlocks e ∧ OpenBlocksList es
  | .conditional e f g => OpenBlocks e ∧ OpenBlocks f ∧ OpenBlocks g
  | .disjunction e f => OpenBlocks e ∧ OpenBlocks f
  | .sequence es => OpenBlocksList es

def OpenBlocksList : List (Expr S) → Prop
  | [] => True
  | e :: es => OpenBlocks e ∧ OpenBlocksList es

end

theorem same_frame (f : Frame S) :
    ((f.bound.map σ).Nodup ∧ ∀ n ∈ f.ids, Same (renamed σ f.bound ++ ρ) n (σ n)) ↔
      (∀ n ∈ f.ids.filter (fun n => n ∉ f.bound), Same ρ n (σ n)) ∧ f.Kept σ := by
  constructor
  · rintro ⟨hnodup, hsame⟩
    have hout : ∀ n ∈ f.ids, n ∉ f.bound → _ := fun n hn hnb =>
      (same_of_notMem hnb).mp (hsame n hn)
    refine ⟨fun n hn => ?_, hnodup, fun n hn hnb => (hout n hn hnb).1⟩
    obtain ⟨hn, hnb⟩ := List.mem_filter.mp hn
    exact (hout n hn (of_decide_eq_true hnb)).2
  · rintro ⟨hsame, hkept⟩
    refine ⟨hkept.nodup, fun n hn => ?_⟩
    by_cases hnb : n ∈ f.bound
    · exact same_of_mem hkept.nodup hnb
    · refine (same_of_notMem hnb).mpr ⟨hkept.outside n hn hnb, hsame n ?_⟩
      exact List.mem_filter.mpr ⟨hn, decide_eq_true hnb⟩

mutual

theorem alphaEq_iff (σ : Name S → Name S) : ∀ (e : Expr S) (ρ : List (Name S × Name S)),
    OpenBlocks e → (∀ f ∈ frames e, f.bound.Nodup) →
    (AlphaEq ρ e (alphaSubstitute σ e) ↔
      (∀ n ∈ identifiers e, Same ρ n (σ n)) ∧ ∀ f ∈ frames e, f.Kept σ)
  | .constant _, ρ, _, _ => by simp [AlphaEq, alphaSubstitute, identifiers, frames]
  | .variable _ _, ρ, _, _ => by simp [AlphaEq, alphaSubstitute, identifiers, frames]
  | .unassigned _, ρ, _, _ => by simp [AlphaEq, alphaSubstitute, identifiers, frames]
  | .quotedIdentifier _, ρ, _, _ => by simp [AlphaEq, alphaSubstitute, identifiers, frames]
  | .assignment name value, ρ, hopen, hnodup => by
    have ih := alphaEq_iff σ value ρ hopen hnodup
    simp [AlphaEq, alphaSubstitute, identifiers, frames, ih, and_assoc]
  | .lambda pattern body, ρ, hopen, hnodup => by
    obtain ⟨hbody, hbound⟩ := List.forall_mem_append.mp hnodup
    have hbound := List.forall_mem_singleton.mp hbound
    have ih := alphaEq_iff σ body (renamed σ pattern.bound ++ ρ) hopen hbody
    have hnames : (LambdaPattern.mk pattern.name (pattern.required.map σ)
        (pattern.optional.map σ) (pattern.rest.map σ)).bound = pattern.bound.map σ := by
      cases h : pattern.rest <;> simp [LambdaPattern.bound, h]
    have hframe := same_frame (σ := σ) (ρ := ρ) ⟨pattern.bound, identifiers body, counted body⟩
    rw [alphaSubstitute, makeLambda_map, AlphaEq, identifiers, frames, List.forall_mem_append,
      List.forall_mem_singleton]
    constructor
    · rintro ⟨pattern', body', heq, -, -, -, -, -, hnodup', hsame⟩
      obtain ⟨rfl, rfl⟩ := Expr.lambda.inj heq
      rw [hnames] at hnodup' hsame
      rw [zip_map_self] at hsame
      obtain ⟨hids, hkept⟩ := ih.mp hsame
      obtain ⟨hout, hframe⟩ := hframe.mp ⟨hnodup', hids⟩
      exact ⟨hout, hkept, hframe⟩
    · rintro ⟨hout, hkept, hframe'⟩
      obtain ⟨hnodup', hids⟩ := hframe.mpr ⟨hout, hframe'⟩
      refine ⟨_, _, rfl, rfl, List.length_map .., List.length_map .., Option.isSome_map ..,
        hbound, ?_, ?_⟩
      · rw [hnames]
        exact hnodup'
      · rw [hnames, zip_map_self]
        exact ih.mpr ⟨hids, hkept⟩
  | .openBlock names declarations actions, ρ, hopen, hnodup => by
    obtain ⟨hactions, hbound⟩ := List.forall_mem_append.mp hnodup
    have hbound := List.forall_mem_singleton.mp hbound
    have ih := alphaEq_iff σ actions (renamed σ names ++ ρ) hopen.2 hactions
    have hds := declarations_alphaEq declarations σ (renamed σ names ++ ρ)
    have hblock : alphaSubstitute σ (.openBlock names declarations actions) =
        .openBlock (names.map σ) (declarations.map (mapDeclIds σ)) (alphaSubstitute σ actions) := by
      rw [alphaSubstitute, makeOpenBlock, if_neg]
      rcases hopen.1 with hne | hne <;> simp [hne]
    have hframe := same_frame (σ := σ) (ρ := ρ)
      ⟨names, declarations.flatMap Declaration.names ++ identifiers actions,
        countedDeclarations (counted actions) declarations⟩
    rw [hblock, AlphaEq, identifiers, frames, List.forall_mem_append, List.forall_mem_singleton]
    constructor
    · rintro ⟨names', declarations', actions', heq, -, -, hnodup', hdecls, hsame⟩
      obtain ⟨rfl, rfl, rfl⟩ := Expr.openBlock.inj heq
      rw [zip_map_self] at hdecls hsame
      obtain ⟨hids, hkept⟩ := ih.mp hsame
      obtain ⟨hout, hframe⟩ := hframe.mp
        ⟨hnodup', List.forall_mem_append.mpr ⟨hds.mp hdecls, hids⟩⟩
      exact ⟨hout, hkept, hframe⟩
    · rintro ⟨hout, hkept, hframe'⟩
      obtain ⟨hnodup', hids⟩ := hframe.mpr ⟨hout, hframe'⟩
      obtain ⟨hdecls, hids⟩ := List.forall_mem_append.mp hids
      refine ⟨_, _, _, rfl, List.length_map .., hbound, hnodup', ?_, ?_⟩
      · rw [zip_map_self]
        exact hds.mpr hdecls
      · rw [zip_map_self]
        exact ih.mpr ⟨hids, hkept⟩
  | .declaration text expression, ρ, hopen, hnodup => by
    have ih := alphaEq_iff σ expression ρ hopen hnodup
    have hds := declarations_alphaEq text σ ρ
    rw [identifiers, frames, List.forall_mem_append, and_assoc, ← ih, ← hds, alphaSubstitute,
      AlphaEq]
    constructor
    · rintro ⟨text', expression', heq, htext, hexpression⟩
      obtain ⟨rfl, rfl⟩ := Expr.declaration.inj heq
      exact ⟨htext, hexpression⟩
    · rintro ⟨htext, hexpression⟩
      exact ⟨_, _, rfl, htext, hexpression⟩
  | .access environment _, ρ, hopen, hnodup => by
    have ih := alphaEq_iff σ environment ρ hopen hnodup
    simp [AlphaEq, alphaSubstitute, identifiers, frames, ih]
  | .comment _ expression, ρ, hopen, hnodup => by
    have ih := alphaEq_iff σ expression ρ hopen hnodup
    simp [AlphaEq, alphaSubstitute, identifiers, frames, ih]
  | .definition _ value, ρ, hopen, hnodup => by
    have ih := alphaEq_iff σ value ρ hopen hnodup
    simp [AlphaEq, alphaSubstitute, identifiers, frames, ih]
  | .delay expression, ρ, hopen, hnodup => by
    have ih := alphaEq_iff σ expression ρ hopen hnodup
    simp [AlphaEq, alphaSubstitute, identifiers, frames, ih]
  | .combination operator operands, ρ, hopen, hnodup => by
    obtain ⟨h1, h2⟩ := List.forall_mem_append.mp hnodup
    have hboth := kept_append (alphaEq_iff σ operator ρ hopen.1 h1)
      (alphaEqList_iff σ operands ρ hopen.2 h2)
    rw [identifiers, frames, ← hboth]
    simp [AlphaEq, alphaSubstitute]
  | .conditional predicate consequent alternative, ρ, hopen, hnodup => by
    obtain ⟨h12, h3⟩ := List.forall_mem_append.mp hnodup
    obtain ⟨h1, h2⟩ := List.forall_mem_append.mp h12
    have hboth := kept_append (kept_append (alphaEq_iff σ predicate ρ hopen.1 h1)
      (alphaEq_iff σ consequent ρ hopen.2.1 h2)) (alphaEq_iff σ alternative ρ hopen.2.2 h3)
    rw [identifiers, frames, ← hboth]
    simp [AlphaEq, alphaSubstitute, and_assoc]
  | .disjunction predicate alternative, ρ, hopen, hnodup => by
    obtain ⟨h1, h2⟩ := List.forall_mem_append.mp hnodup
    have hboth := kept_append (alphaEq_iff σ predicate ρ hopen.1 h1)
      (alphaEq_iff σ alternative ρ hopen.2 h2)
    rw [identifiers, frames, ← hboth]
    simp [AlphaEq, alphaSubstitute]
  | .sequence actions, ρ, hopen, hnodup => by
    have ih := alphaEqList_iff σ actions ρ hopen hnodup
    simp [AlphaEq, alphaSubstitute, identifiers, frames, ih]

theorem alphaEqList_iff (σ : Name S → Name S) : ∀ (es : List (Expr S))
    (ρ : List (Name S × Name S)), OpenBlocksList es → (∀ f ∈ framesList es, f.bound.Nodup) →
    (AlphaEqList ρ es (alphaSubstituteList σ es) ↔
      (∀ n ∈ identifiersList es, Same ρ n (σ n)) ∧ ∀ f ∈ framesList es, f.Kept σ)
  | [], ρ, _, _ => by simp [AlphaEqList, alphaSubstituteList, identifiersList, framesList]
  | e :: es, ρ, hopen, hnodup => by
    obtain ⟨h1, h2⟩ := List.forall_mem_append.mp hnodup
    have hboth := kept_append (alphaEq_iff σ e ρ hopen.1 h1)
      (alphaEqList_iff σ es ρ hopen.2 h2)
    rw [identifiersList, framesList, ← hboth]
    simp [AlphaEqList, alphaSubstituteList]

end

/-! ## Renames -/

/-- The entries of a rename database: their renames are different, and a frame renames an
identifier once. -/
structure RenameDb.Ok (db : RenameDb S) : Prop where
  below : ∀ e ∈ db.entries, e.rename < db.counter
  rename : ∀ e ∈ db.entries, ∀ e' ∈ db.entries, e.rename = e'.rename → e = e'
  original : ∀ e ∈ db.entries, ∀ e' ∈ db.entries, e.original = e'.original →
    e.frame = e'.frame → e = e'

variable {db : RenameDb S} {n r : Name S}

theorem RenameDb.Ok.rename_step (hdb : db.Ok) (frame original) :
    (db.rename frame original).2.Ok := by
  rw [RenameDb.rename]
  cases hfind : db.entries.find? fun e => e.original = original ∧ e.frame = frame with
  | some e => exact hdb
  | none =>
    have hnew : ∀ e ∈ db.entries, ¬(e.original = original ∧ e.frame = frame) := by
      intro e he heq
      exact List.find?_eq_none.mp hfind e he (decide_eq_true heq)
    refine ⟨?_, ?_, ?_⟩
    · intro e he
      rcases List.mem_cons.mp he with rfl | he
      · exact Nat.lt_succ_self _
      · exact Nat.lt_succ_of_lt (hdb.below e he)
    · intro e he e' he' heq
      rcases List.mem_cons.mp he with rfl | he
      · rcases List.mem_cons.mp he' with rfl | he'
        · rfl
        · exact absurd heq (Nat.ne_of_gt (hdb.below e' he'))
      · rcases List.mem_cons.mp he' with rfl | he'
        · exact absurd heq (Nat.ne_of_lt (hdb.below e he))
        · exact hdb.rename e he e' he' heq
    · intro e he e' he' ho hf
      rcases List.mem_cons.mp he with rfl | he
      · rcases List.mem_cons.mp he' with rfl | he'
        · rfl
        · exact absurd ⟨ho.symm, hf.symm⟩ (hnew e' he')
      · rcases List.mem_cons.mp he' with rfl | he'
        · exact absurd ⟨ho, hf⟩ (hnew e he)
        · exact hdb.original e he e' he' ho hf

theorem RenameDb.Ok.run {calls} : ∀ {db : RenameDb S}, db.Ok →
    (db.run calls).Ok := by
  induction calls with
  | nil => exact fun hdb => hdb
  | cons call calls ih => exact fun hdb => ih (hdb.rename_step call.1 call.2)

omit [DecidableEq S] in
theorem RenameDb.ok_empty : (RenameDb.empty : RenameDb S).Ok :=
  ⟨fun _ he => absurd he List.not_mem_nil, fun _ he => absurd he List.not_mem_nil,
    fun _ he => absurd he List.not_mem_nil⟩

omit [DecidableEq S] in
theorem RenameDb.Ok.original_eq (hdb : db.Ok) {e : Entry S} (he : e ∈ db.entries) :
    db.original (.rename e.rename) = e.original.toOriginal := by
  rw [RenameDb.original]
  cases hfind : db.entries.find? fun e' => e'.rename = e.rename with
  | none => exact absurd (decide_eq_true rfl) (List.find?_eq_none.mp hfind e he)
  | some e' =>
    have heq := List.find?_some hfind
    rw [hdb.rename e' (List.mem_of_find?_eq_some hfind) e he (of_decide_eq_true heq)]

/-- The local binders of an expression carry the renames of their frames, each is bound once,
and the names that the expression does not bind are symbols of the program. -/
structure Renamed (db : RenameDb S) (e : Expr S) : Prop where
  calls : ∃ calls, db = RenameDb.empty.run calls
  bound : ∀ f ∈ frames e, ∃ frame, ∀ r ∈ f.bound, ∃ entry ∈ db.entries,
    entry.frame = frame ∧ r = .rename entry.rename
  once : ((frames e).flatMap Frame.bound).Nodup
  outer : ∀ n ∈ identifiers e, ∃ s, n = .symbol s
  blocks : OpenBlocks e

/-- A name of the symbol of `r` is free in the frame, and counts. -/
def Frame.Clash (db : RenameDb S) (f : Frame S) (r : Name S) : Prop :=
  ∃ n ∈ f.counted, n ∉ f.bound ∧ db.original r = db.original n

/-- Where an identifier is under a binder of another rename of its symbol, one of the two is
not restored: a counted name of the symbol is free in the frame that binds it. -/
def Guarded (db : RenameDb S) (e : Expr S) : Prop :=
  ∀ f ∈ frames e, ∀ r ∈ f.bound, ∀ n ∈ f.ids, n ∉ f.bound → ∀ s,
    db.original r = .symbol s → db.original n = .symbol s →
    f.Clash db r ∨ ∃ f' ∈ frames e, n ∈ f'.bound ∧ f'.Clash db n

/-! ## The free names -/

theorem mem_lsetAdjoin {ids} {id : Name S} : n ∈ lsetAdjoin ids id ↔ n = id ∨ n ∈ ids := by
  rw [lsetAdjoin]
  split
  · rename_i hmem
    exact ⟨.inr, fun h => h.elim (fun heq => heq ▸ hmem) fun h => h⟩
  · exact List.mem_cons

theorem mem_foldl_lsetAdjoin : ∀ {ids new : List (Name S)},
    n ∈ new.foldl lsetAdjoin ids ↔ n ∈ new ∨ n ∈ ids := by
  intro ids new
  induction new generalizing ids with
  | nil => simp
  | cons id new ih =>
    rw [List.foldl_cons, ih, mem_lsetAdjoin, List.mem_cons]
    tauto

theorem mem_foldl_lsetUnion {sets : List (List (Name S))} : ∀ {s : List (Name S)},
    n ∈ sets.foldl (fun acc s => lsetUnion s acc) s ↔ n ∈ s ∨ ∃ s' ∈ sets, n ∈ s' := by
  induction sets with
  | nil => simp
  | cons s' sets ih =>
    intro s
    rw [List.foldl_cons, ih, lsetUnion, mem_foldl_lsetAdjoin, List.exists_mem_cons_iff]
    tauto

theorem mem_lsetUnions {sets : List (List (Name S))} : n ∈ lsetUnions sets ↔ ∃ s ∈ sets, n ∈ s := by
  cases sets with
  | nil => simp [lsetUnions]
  | cons s sets => rw [lsetUnions, mem_foldl_lsetUnion, List.exists_mem_cons_iff]

theorem mem_foldDecls {ds} : ∀ {ids ids' : List (Name S)},
    (n ∈ ids ↔ n ∈ ids') → (n ∈ ds.foldl foldDeclIds ids ↔ n ∈ countedDeclarations ids' ds) := by
  induction ds with
  | nil => exact fun h => h
  | cons d ds ih =>
    intro ids ids' h
    cases d with
    | known items =>
      refine ih ?_
      rw [foldDeclIds, mem_foldl_lsetAdjoin, List.mem_append, h]
    | unknown text => exact ih Iff.rfl

mutual

theorem mem_free (n : Name S) : ∀ e : Expr S, n ∈ free e ↔ n ∈ counted e
  | .constant _ => Iff.rfl
  | .variable _ _ => Iff.rfl
  | .unassigned _ => Iff.rfl
  | .quotedIdentifier _ => Iff.rfl
  | .assignment _ e => by rw [free, counted, mem_lsetAdjoin, List.mem_cons, mem_free n e]
  | .access e _ => mem_free n e
  | .comment _ e => mem_free n e
  | .definition _ e => mem_free n e
  | .delay e => mem_free n e
  | .declaration text e => mem_foldDecls (mem_free n e)
  | .lambda pattern body => by
    rw [free, counted, lsetDifference, List.mem_filter, List.mem_filter, mem_free n body]
  | .openBlock names declarations actions => by
    rw [free, counted, lsetDifference, List.mem_filter, List.mem_filter,
      mem_foldDecls (mem_free n actions)]
  | .combination e es => by
    rw [free, counted, mem_lsetUnions, List.exists_mem_cons_iff, List.mem_append, mem_free n e,
      mem_freeLists n es]
  | .conditional e f g => by
    simp [free, counted, mem_lsetUnions, mem_free n e, mem_free n f, mem_free n g]
  | .disjunction e f => by
    simp [free, counted, mem_lsetUnions, mem_free n e, mem_free n f]
  | .sequence es => by rw [free, counted, mem_lsetUnions, mem_freeLists n es]

theorem mem_freeLists (n : Name S) : ∀ es : List (Expr S),
    (∃ s ∈ freeLists es, n ∈ s) ↔ n ∈ countedList es
  | [] => by simp [freeLists, countedList]
  | e :: es => by
    rw [freeLists, countedList, List.exists_mem_cons_iff, List.mem_append, mem_free n e,
      mem_freeLists n es]

end

theorem safeBindings_congr {bound free free' : List (Name S)} (h : ∀ n, n ∈ free ↔ n ∈ free') :
    safeBindings db bound (lsetDifference free bound) =
      safeBindings db bound (lsetDifference free' bound) := by
  have hany (p : Name S → Bool) :
      (lsetDifference free bound).any p = (lsetDifference free' bound).any p := by
    rw [Bool.eq_iff_iff, List.any_eq_true, List.any_eq_true]
    refine exists_congr fun n => and_congr_left fun _ => ?_
    rw [lsetDifference, lsetDifference, List.mem_filter, List.mem_filter, h n]
  rw [safeBindings, safeBindings]
  simp only [hany]

/-! ## The marks -/

def Frame.marks (db : RenameDb S) (f : Frame S) : List (Name S × Name S) :=
  safeBindings db f.bound (lsetDifference f.counted f.bound)

mutual

theorem marks_eq (db : RenameDb S) : ∀ e : Expr S, marks db e = (frames e).flatMap (Frame.marks db)
  | .constant _ => rfl
  | .variable _ _ => rfl
  | .unassigned _ => rfl
  | .quotedIdentifier _ => rfl
  | .assignment _ e => marks_eq db e
  | .declaration _ e => marks_eq db e
  | .access e _ => marks_eq db e
  | .comment _ e => marks_eq db e
  | .definition _ e => marks_eq db e
  | .delay e => marks_eq db e
  | .lambda pattern body => by
    rw [marks, frames, List.flatMap_append, marks_eq db body, List.flatMap_singleton]
    exact congrArg _ (safeBindings_congr fun n => mem_free n body)
  | .openBlock names declarations actions => by
    rw [marks, frames, List.flatMap_append, marks_eq db actions, List.flatMap_singleton]
    exact congrArg _ (safeBindings_congr fun n => mem_foldDecls (mem_free n actions))
  | .combination e es => by
    rw [marks, frames, List.flatMap_append, marks_eq db e, marksList_eq db es]
  | .conditional e f g => by
    rw [marks, frames, List.flatMap_append, List.flatMap_append, marks_eq db e, marks_eq db f,
      marks_eq db g]
  | .disjunction e f => by
    rw [marks, frames, List.flatMap_append, marks_eq db e, marks_eq db f]
  | .sequence es => marksList_eq db es

theorem marksList_eq (db : RenameDb S) : ∀ es : List (Expr S),
    marksList db es = (framesList es).flatMap (Frame.marks db)
  | [] => rfl
  | e :: es => by
    rw [marksList, framesList, List.flatMap_append, marks_eq db e, marksList_eq db es]

end

mutual

theorem bound_or_free (n : Name S) : ∀ e : Expr S, (∃ f ∈ frames e, n ∈ f.ids) →
    n ∈ identifiers e ∨ ∃ f ∈ frames e, n ∈ f.bound
  | .constant _ => by simp [frames]
  | .variable _ _ => by simp [frames]
  | .unassigned _ => by simp [frames]
  | .quotedIdentifier _ => by simp [frames]
  | .assignment _ e => fun h => (bound_or_free n e h).imp_left (List.mem_cons_of_mem _)
  | .declaration _ e => fun h => (bound_or_free n e h).imp_left (List.mem_append_right _)
  | .access e _ => bound_or_free n e
  | .comment _ e => bound_or_free n e
  | .definition _ e => bound_or_free n e
  | .delay e => bound_or_free n e
  | .lambda pattern body => by
    have ih := bound_or_free n body
    simp only [frames, identifiers, List.mem_append, List.mem_singleton, or_and_right, exists_or,
      exists_eq_left, List.mem_filter, decide_eq_true_eq]
    grind
  | .openBlock names declarations actions => by
    have ih := bound_or_free n actions
    simp only [frames, identifiers, List.mem_append, List.mem_singleton, or_and_right, exists_or,
      exists_eq_left, List.mem_filter, decide_eq_true_eq]
    grind
  | .combination e es => by
    have ih := bound_or_free n e
    have ihs := bound_or_freeList n es
    simp only [frames, identifiers, List.mem_append, or_and_right, exists_or]
    grind
  | .conditional e f g => by
    have ihe := bound_or_free n e
    have ihf := bound_or_free n f
    have ihg := bound_or_free n g
    simp only [frames, identifiers, List.mem_append, or_and_right, exists_or]
    grind
  | .disjunction e f => by
    have ihe := bound_or_free n e
    have ihf := bound_or_free n f
    simp only [frames, identifiers, List.mem_append, or_and_right, exists_or]
    grind
  | .sequence es => bound_or_freeList n es

theorem bound_or_freeList (n : Name S) : ∀ es : List (Expr S), (∃ f ∈ framesList es, n ∈ f.ids) →
    n ∈ identifiersList es ∨ ∃ f ∈ framesList es, n ∈ f.bound
  | [] => by simp [framesList]
  | e :: es => by
    have ih := bound_or_free n e
    have ihs := bound_or_freeList n es
    simp only [framesList, identifiersList, List.mem_append, or_and_right, exists_or]
    grind

end

theorem mem_frameMarks {f : Frame S} {o} :
    (r, o) ∈ f.marks db ↔ r ∈ f.bound ∧ (db.original r).toName = some o ∧ ¬f.Clash db r := by
  have hclash : (lsetDifference f.counted f.bound).any
      (fun r' => db.original r = db.original r') = true ↔ f.Clash db r := by
    rw [List.any_eq_true]
    constructor
    · rintro ⟨n, hn, heq⟩
      obtain ⟨hn, hnb⟩ := List.mem_filter.mp hn
      exact ⟨n, hn, of_decide_eq_true hnb, of_decide_eq_true heq⟩
    · rintro ⟨n, hn, hnb, heq⟩
      exact ⟨n, List.mem_filter.mpr ⟨hn, decide_eq_true hnb⟩, decide_eq_true heq⟩
  rw [Frame.marks, safeBindings, List.mem_filterMap]
  constructor
  · rintro ⟨r', hr', hsome⟩
    cases hname : (db.original r').toName with
    | none =>
      rw [hname] at hsome
      cases hsome
    | some o' =>
      rw [hname] at hsome
      dsimp only at hsome
      split at hsome
      · cases hsome
      · rename_i hany
        cases hsome
        exact ⟨hr', hname, mt hclash.mpr hany⟩
  · rintro ⟨hr, hname, hno⟩
    refine ⟨r, hr, ?_⟩
    rw [hname]
    exact if_neg (mt hclash.mp hno)

theorem substitution_eq {ms : List (Name S × Name S)} {o : Name S} (hmem : (r, o) ∈ ms)
    (hsame : ∀ o', (r, o') ∈ ms → o' = o) : substitution ms r = o := by
  rw [substitution]
  cases hfind : ms.reverse.find? fun m => m.1 = r with
  | none =>
    have hnot := List.find?_eq_none.mp hfind (r, o) (List.mem_reverse.mpr hmem)
    exact absurd (decide_eq_true rfl) hnot
  | some m =>
    have hm := List.mem_reverse.mp (List.mem_of_find?_eq_some hfind)
    have htest := List.find?_some hfind
    have hr : m.1 = r := of_decide_eq_true htest
    exact hsame m.2 (hr ▸ hm)

theorem substitution_none {ms : List (Name S × Name S)} (hnone : ∀ o, (r, o) ∉ ms) :
    substitution ms r = r := by
  rw [substitution]
  cases hfind : ms.reverse.find? fun m => m.1 = r with
  | none => rfl
  | some m =>
    have hm := List.mem_reverse.mp (List.mem_of_find?_eq_some hfind)
    have htest := List.find?_some hfind
    have hr : m.1 = r := of_decide_eq_true htest
    exact absurd (hr ▸ hm) (hnone m.2)

section
variable {db : RenameDb S} {e : Expr S} {r n : Name S} {s : S} {f : Frame S}

theorem mem_marks {o} : (r, o) ∈ marks db e ↔
    ∃ f ∈ frames e, r ∈ f.bound ∧ (db.original r).toName = some o ∧ ¬f.Clash db r := by
  rw [marks_eq, List.mem_flatMap]
  exact exists_congr fun f => and_congr_right fun _ => mem_frameMarks

theorem substitution_restored (hf : f ∈ frames e) (hr : r ∈ f.bound)
    (hs : db.original r = .symbol s) (hno : ¬f.Clash db r) :
    substitution (marks db e) r = .symbol s := by
  have hname : (db.original r).toName = some (.symbol s) := by rw [hs]; rfl
  refine substitution_eq (mem_marks.mpr ⟨f, hf, hr, hname, hno⟩) fun o' ho' => ?_
  obtain ⟨-, -, -, hname', -⟩ := mem_marks.mp ho'
  exact Option.some.inj (hname'.symm.trans hname)

section
variable (h : Renamed db e)
include h

theorem Renamed.db_ok : db.Ok := by
  obtain ⟨calls, rfl⟩ := h.calls
  exact RenameDb.ok_empty.run

theorem Renamed.original_bound (hf : f ∈ frames e) (hr : r ∈ f.bound) :
    ∃ m, r = .rename m ∧ ((∃ s, db.original r = .symbol s) ∨ ∃ c, db.original r = .closed c) := by
  obtain ⟨frame, hbound⟩ := h.bound f hf
  obtain ⟨entry, hentry, -, rfl⟩ := hbound r hr
  refine ⟨entry.rename, rfl, ?_⟩
  rw [h.db_ok.original_eq hentry]
  cases entry.original with
  | symbol s => exact .inl ⟨s, rfl⟩
  | closed c => exact .inr ⟨c, rfl⟩

theorem Renamed.frame_unique {f'} (hf : f ∈ frames e) (hf' : f' ∈ frames e) (hr : r ∈ f.bound)
    (hr' : r ∈ f'.bound) : f = f' := by
  have honce := List.nodup_flatMap.mp h.once
  have hsymm : Std.Symm (Function.onFun List.Disjoint (Frame.bound (S := S))) :=
    ⟨fun _ _ hd => List.disjoint_comm.mp hd⟩
  by_contra hne
  exact honce.2.forall hf hf' hne hr hr'

theorem Renamed.substitution_symbol (hs : substitution (marks db e) n = .symbol s) :
    db.original n = .symbol s ∧ ∀ f ∈ frames e, n ∈ f.bound → ¬f.Clash db n := by
  by_cases hmarked : ∃ o, (n, o) ∈ marks db e
  · obtain ⟨o, ho⟩ := hmarked
    obtain ⟨f, hf, hn, hname, hno⟩ := mem_marks.mp ho
    obtain ⟨m, -, hsym | hclosed⟩ := h.original_bound hf hn
    · obtain ⟨s', hs'⟩ := hsym
      have hrestored := substitution_restored hf hn hs' hno
      rw [hs] at hrestored
      refine ⟨by rw [hs', Name.symbol.inj hrestored], fun f' hf' hn' => ?_⟩
      rwa [← h.frame_unique hf hf' hn hn']
    · obtain ⟨c, hc⟩ := hclosed
      rw [hc] at hname
      cases hname
  · have hnone := substitution_none (not_exists.mp hmarked)
    rw [hs] at hnone
    subst hnone
    refine ⟨rfl, fun f hf hn => ?_⟩
    obtain ⟨m, hm, -⟩ := h.original_bound hf hn
    cases hm

theorem Renamed.substitution_self (s) : substitution (marks db e) (.symbol s) = .symbol s := by
  refine substitution_none fun o ho => ?_
  obtain ⟨f, hf, hn, -⟩ := mem_marks.mp ho
  obtain ⟨m, hm, -⟩ := h.original_bound hf hn
  cases hm

theorem Renamed.substitution_rename {m : Nat} (hm : substitution (marks db e) n = .rename m) :
    n = .rename m := by
  by_cases hmarked : ∃ o, (n, o) ∈ marks db e
  · obtain ⟨o, ho⟩ := hmarked
    obtain ⟨f, hf, hn, hname, hno⟩ := mem_marks.mp ho
    obtain ⟨-, -, hsym | hclosed⟩ := h.original_bound hf hn
    · obtain ⟨s, hs⟩ := hsym
      rw [substitution_restored hf hn hs hno] at hm
      cases hm
    · obtain ⟨c, hc⟩ := hclosed
      rw [hc] at hname
      cases hname
  · rw [substitution_none (not_exists.mp hmarked)] at hm
    exact hm

theorem Renamed.substitution_eq_iff (hf : f ∈ frames e) (hr : r ∈ f.bound) (hn : n ∈ f.ids)
    (hne : r ≠ n) :
    substitution (marks db e) r = substitution (marks db e) n ↔
      ∃ s, db.original r = .symbol s ∧ db.original n = .symbol s ∧ ¬f.Clash db r ∧
        ∀ f' ∈ frames e, n ∈ f'.bound → ¬f'.Clash db n := by
  constructor
  · intro heq
    cases hσ : substitution (marks db e) r with
    | rename m =>
      have hr' := h.substitution_rename hσ
      have hn' := h.substitution_rename (heq.symm.trans hσ)
      exact absurd (hr'.trans hn'.symm) hne
    | symbol s =>
      obtain ⟨hr', hno⟩ := h.substitution_symbol hσ
      obtain ⟨hn', hno'⟩ := h.substitution_symbol (heq.symm.trans hσ)
      exact ⟨s, hr', hn', hno f hf hr, hno'⟩
  · rintro ⟨s, hr', hn', hno, hno'⟩
    rw [substitution_restored hf hr hr' hno]
    rcases bound_or_free n e ⟨f, hf, hn⟩ with hfree | ⟨f', hf', hnb⟩
    · obtain ⟨s', rfl⟩ := h.outer n hfree
      rw [h.substitution_self]
      exact congrArg Name.symbol (Original.symbol.inj hn').symm
    · exact (substitution_restored hf' hnb hn' (hno' f' hf' hnb)).symm

theorem Renamed.nodup_map (hf : f ∈ frames e) :
    (f.bound.map (substitution (marks db e))).Nodup := by
  have honce : f.bound.Nodup := (List.nodup_flatMap.mp h.once).1 f hf
  refine honce.map_on fun r hr r' hr' heq => ?_
  cases hσ : substitution (marks db e) r with
  | rename m =>
    exact (h.substitution_rename hσ).trans (h.substitution_rename (heq.symm.trans hσ)).symm
  | symbol s =>
    obtain ⟨ho, -⟩ := h.substitution_symbol hσ
    obtain ⟨ho', -⟩ := h.substitution_symbol (heq.symm.trans hσ)
    obtain ⟨frame, hbound⟩ := h.bound f hf
    obtain ⟨entry, hentry, hframe, rfl⟩ := hbound r hr
    obtain ⟨entry', hentry', hframe', rfl⟩ := hbound r' hr'
    rw [h.db_ok.original_eq hentry] at ho
    rw [h.db_ok.original_eq hentry'] at ho'
    have hsame : entry.original = entry'.original := by
      cases hid : entry.original <;> cases hid' : entry'.original <;>
        simp_all [Identifier.toOriginal]
    rw [h.db_ok.original entry hentry entry' hentry' hsame (hframe.trans hframe'.symm)]

end

end

/-- **`post-process-output` keeps the binding structure exactly when every identifier that
could be caught is guarded by a clash that is counted.** -/
theorem post_process_output_alpha {db : RenameDb S} {e : Expr S} (h : Renamed db e) :
    AlphaEq [] e (postProcessOutput db e) ↔ Guarded db e := by
  have hnodup : ∀ f ∈ frames e, f.bound.Nodup := (List.nodup_flatMap.mp h.once).1
  rw [postProcessOutput, alphaEq_iff _ e [] h.blocks hnodup]
  constructor
  · rintro ⟨-, hkept⟩ f hf r hr n hn hnb s hr' hn'
    by_contra hclash
    obtain ⟨hno, hno'⟩ := not_or.mp hclash
    refine (hkept f hf).outside n hn hnb r hr ?_
    refine (h.substitution_eq_iff hf hr hn fun heq => hnb (heq ▸ hr)).mpr
      ⟨s, hr', hn', hno, fun f' hf' hn'' hc => hno' ⟨f', hf', hn'', hc⟩⟩
  · intro hguarded
    refine ⟨fun n hn => ?_, fun f hf => ⟨h.nodup_map hf, fun n hn hnb r hr heq => ?_⟩⟩
    · obtain ⟨s, rfl⟩ := h.outer n hn
      exact (h.substitution_self s).symm
    · obtain ⟨s, hr', hn', hno, hno'⟩ :=
        (h.substitution_eq_iff hf hr hn fun heq => hnb (heq ▸ hr)).mp heq
      rcases hguarded f hf r hr n hn hnb s hr' hn' with hclash | ⟨f', hf', hn'', hclash⟩
      · exact hno hclash
      · exact hno' f' hf' hn'' hclash

/-- Two renames of one symbol, both in use: the inner one is kept. -/
theorem post_process_output_alpha_shadowed :
    Renamed (RenameDb.empty.run [(0, .symbol "x"), (1, .symbol "x")])
      (.lambda ⟨"f", [.rename 0], [], none⟩ (.lambda ⟨"g", [.rename 1], [], none⟩
        (.combination (.variable (.rename 0) false) [.variable (.rename 1) false]))) ∧
    AlphaEq [] (.lambda ⟨"f", [.rename 0], [], none⟩ (.lambda ⟨"g", [.rename 1], [], none⟩
        (.combination (.variable (.rename 0) false) [.variable (.rename 1) false])))
      (postProcessOutput (RenameDb.empty.run [(0, .symbol "x"), (1, .symbol "x")])
        (.lambda ⟨"f", [.rename 0], [], none⟩ (.lambda ⟨"g", [.rename 1], [], none⟩
          (.combination (.variable (.rename 0) false) [.variable (.rename 1) false])))) := by
  have hrenamed : Renamed (RenameDb.empty.run [(0, .symbol "x"), (1, .symbol "x")])
      (.lambda ⟨"f", [.rename 0], [], none⟩ (.lambda ⟨"g", [.rename 1], [], none⟩
        (.combination (.variable (.rename 0) false) [.variable (.rename 1) false]))) := by
    refine ⟨⟨_, rfl⟩, fun f hf => ?_, by decide, ?_, trivial, trivial, trivial⟩
    · rcases List.mem_cons.mp hf with rfl | hf
      · refine ⟨1, fun r hr => ⟨⟨.symbol "x", 1, 1⟩, List.mem_cons_self, rfl, ?_⟩⟩
        exact List.mem_singleton.mp hr
      · rw [List.mem_singleton.mp hf]
        refine ⟨0, fun r hr => ⟨⟨.symbol "x", 0, 0⟩, List.mem_cons_of_mem _ List.mem_cons_self,
          rfl, ?_⟩⟩
        exact List.mem_singleton.mp hr
    · intro n hn
      exact absurd hn List.not_mem_nil
  refine ⟨hrenamed, (post_process_output_alpha hrenamed).mpr fun f hf r hr n hn hnb s _ _ => ?_⟩
  rcases List.mem_cons.mp hf with rfl | hf
  · -- the outer rename is free in the inner lambda
    rw [List.mem_singleton.mp hr]
    exact .inl ⟨.rename 0, List.mem_cons_self, by decide, rfl⟩
  · -- the outer lambda has no identifier from outside
    rw [List.mem_singleton.mp hf] at hn hnb
    exact absurd hn hnb

/-- The restored name of the inner binder catches the quoted identifier of the outer one. -/
theorem quoted_identifier_caught :
    Renamed (RenameDb.empty.run [(0, .symbol "x"), (1, .symbol "x")])
      (.lambda ⟨"f", [.rename 0], [], none⟩
        (.lambda ⟨"g", [.rename 1], [], none⟩ (.quotedIdentifier (.rename 0)))) ∧
    ¬AlphaEq [] (.lambda ⟨"f", [.rename 0], [], none⟩
        (.lambda ⟨"g", [.rename 1], [], none⟩ (.quotedIdentifier (.rename 0))))
      (postProcessOutput (RenameDb.empty.run [(0, .symbol "x"), (1, .symbol "x")])
        (.lambda ⟨"f", [.rename 0], [], none⟩
          (.lambda ⟨"g", [.rename 1], [], none⟩ (.quotedIdentifier (.rename 0))))) := by
  constructor
  · refine ⟨⟨_, rfl⟩, fun f hf => ?_, by decide, ?_, trivial⟩
    · rcases List.mem_cons.mp hf with rfl | hf
      · refine ⟨1, fun r hr => ⟨⟨.symbol "x", 1, 1⟩, List.mem_cons_self, rfl, ?_⟩⟩
        exact List.mem_singleton.mp hr
      · rw [List.mem_singleton.mp hf]
        refine ⟨0, fun r hr => ⟨⟨.symbol "x", 0, 0⟩, List.mem_cons_of_mem _ List.mem_cons_self,
          rfl, ?_⟩⟩
        exact List.mem_singleton.mp hr
    · intro n hn
      exact absurd hn List.not_mem_nil
  · have hout : postProcessOutput (RenameDb.empty.run [(0, .symbol "x"), (1, .symbol "x")])
        (.lambda ⟨"f", [.rename 0], [], none⟩
          (.lambda ⟨"g", [.rename 1], [], none⟩ (.quotedIdentifier (.rename 0)))) =
        .lambda ⟨"f", [.symbol "x"], [], none⟩
          (.lambda ⟨"g", [.symbol "x"], [], none⟩ (.constant (.symbol (.symbol "x")))) := rfl
    rw [hout]
    rintro ⟨p, b, heq, -, -, -, -, -, -, p', b', heq', -, -, -, -, -, -, n, hn, hsame⟩
    cases heq
    cases heq'
    cases hn
    rcases hsame with ⟨h, -⟩ | ⟨-, h, -⟩
    · cases h
    · exact h rfl

end MitScheme.Runtime.SyntaxRename
