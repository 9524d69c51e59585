import MitScheme.Runtime.SyntaxRulesMatch

/-! # Syntax-rules: the matcher without continuations

`scan` gives the bindings that a pattern adds. A row of elements is read from left
to right; its segment takes what the elements after it do not need. -/

namespace MitScheme.Runtime.SyntaxRules

variable {Id Atom : Type}

def andThen {α β : Type} (a : Except Fault (Option α)) (f : α → Except Fault (Option β)) :
    Except Fault (Option β) :=
  match a with
  | .ok (some x) => f x
  | .ok none => .ok none
  | .error e => .error e

theorem andThen_assoc {α β γ : Type} (a : Except Fault (Option α))
    (f : α → Except Fault (Option β)) (g : β → Except Fault (Option γ)) :
    andThen (andThen a f) g = andThen a fun x => andThen (f x) g := by
  obtain e | o := a
  · rfl
  · cases o <;> rfl

/-- The data of a segment are scanned one by one; the dictionaries come last first. -/
def scanAll (scan : Datum Id Atom → Answer Id Atom) :
    List (Datum Id Atom) → List (Dict Id Atom) → Except Fault (Option (List (Dict Id Atom)))
  | [], dicts => .ok (some dicts)
  | d :: ds, dicts => andThen (scan d) fun new => scanAll scan ds (new :: dicts)

/-- The matcher hands on what `scan` finds. -/
def Follows (pat : Matcher Id Atom) (scan : Datum Id Atom → Answer Id Atom) : Prop :=
  ∀ d dict k, pat d dict k = andThen (scan d) fun new => k (new ++ dict)

theorem segmentLoop_eq {pat} {scan : Datum Id Atom → Answer Id Atom} (hpat : Follows pat scan)
    (tail : Datum Id Atom) (n : Nat) (done : Datum Id Atom → List (Dict Id Atom) → Answer Id Atom) :
    ∀ (ds : List (Datum Id Atom)) (dicts : List (Dict Id Atom)),
      segmentLoop pat n done ds.length (.ofList ds tail) dicts =
        andThen (scanAll scan (ds.take (ds.length - n)) dicts) fun dicts =>
          done (.ofList (ds.drop (ds.length - n)) tail) dicts
  | [], dicts => by
    rw [List.take_nil, List.drop_nil]
    rfl
  | d :: ds, dicts => by
    have ih := segmentLoop_eq hpat tail n done ds
    rw [List.length_cons, segmentLoop]
    by_cases hn : n < ds.length + 1
    · have hsub : ds.length + 1 - n = ds.length - n + 1 := by omega
      rw [if_pos hn, hsub, List.take_succ_cons, List.drop_succ_cons, scanAll, andThen_assoc]
      simp only [Datum.ofList, Datum.car, Datum.cdr, Except.bind, hpat d, List.append_nil, ih]
    · have hsub : ds.length + 1 - n = 0 := by omega
      rw [if_neg hn, hsub]
      rfl

theorem kList_eq (k : Dict Id Atom → Answer Id Atom) (a : Answer Id Atom)
    (left : List (Datum Id Atom)) (dict : Dict Id Atom) :
    (andThen a fun new => kList k [] (.ofList left .null) (new ++ dict)) =
      andThen (andThen a fun new => if left.isEmpty then .ok (some new) else .ok none)
        fun new => k (new ++ dict) := by
  rw [andThen_assoc]
  congr 1
  funext new
  cases left <;> rfl

section
variable [DecidableEq Id] [DecidableEq Atom] (rename : Id → Id) (compare : Id → Id → Bool)

mutual

def scan : Form Id Atom → Datum Id Atom → Answer Id Atom
  | .list elts, d =>
    if d.final.isNull && decide (leading elts ≤ d.items.length) then
      andThen (scanElts elts d.items) fun new =>
        if (leftover elts d.items).isEmpty then .ok (some new) else .ok none
    else .ok none
  | .vector elts, d =>
    match d with
    | .vector ds =>
      if leading elts ≤ ds.length then
        andThen (scanElts elts ds) fun new =>
          if (leftover elts ds).isEmpty then .ok (some new) else .ok none
      else .ok none
    | _ => .ok none
  | .dottedList elts tail, d =>
    if leading elts ≤ d.items.length then
      andThen (scanElts elts d.items) fun new =>
        andThen (scan tail (.ofList (leftover elts d.items) d.final)) fun new' =>
          .ok (some (new' ++ new))
    else .ok none
  | .literalId literal, d =>
    match d with
    | .ident id => if compare (rename literal) id then .ok (some []) else .ok none
    | _ => .ok none
  | .literal literal, d =>
    match d with
    | .atom a => if literal = a then .ok (some []) else .ok none
    | _ => .ok none
  | .var id, d => .ok (some [⟨id, .datum d, 0⟩])
  | .anonVar, _ => .ok (some [])

def scanBody : Elt Id Atom → Datum Id Atom → Answer Id Atom
  | .one form, d => scan form d
  | .segment _, _ => .error .unknownMarker

def scanElts : List (Elt Id Atom) → List (Datum Id Atom) → Answer Id Atom
  | [], _ => .ok (some [])
  | .one _ :: _, [] => .error .wrongType
  | .one form :: elts, d :: ds =>
    andThen (scan form d) fun new =>
      andThen (scanElts elts ds) fun new' => .ok (some (new' ++ new))
  | .segment body :: elts, ds =>
    andThen (scanAll (scanBody body) (ds.take (ds.length - elts.length)) []) fun dicts =>
      andThen (scanElts elts (ds.drop (ds.length - elts.length))) fun new' =>
        .ok (some (new' ++ wrapDicts dicts []))

end

/-! ## A row -/

/-- The matcher of an element, or of the body of a segment, agrees with the scan. -/
def Sound : Elt Id Atom → Prop
  | .one form => Follows (matchDatum rename compare form) (scan rename compare form)
  | .segment body => Follows (matchBody rename compare body) (scanBody rename compare body)

variable {rename compare}

theorem fixed_eq {tail} (htail : tail.isPair = false) (k : Rest Id Atom)
    (rest : List (Piece Id Atom)) : ∀ {elts : List (Elt Id Atom)},
      (∀ e ∈ elts, Sound rename compare e) → (∀ e ∈ elts, e.isSegment = false) →
      ∀ (ds : List (Datum Id Atom)) (dict : Dict Id Atom),
        fixed (pieces rename compare elts ++ rest) (.ofList ds tail) dict elts.length k =
          andThen (scanElts rename compare elts ds) fun new =>
            k rest (.ofList (ds.drop elts.length) tail) (new ++ dict)
  | [], _, _, ds, dict => by
    rw [pieces, List.nil_append, List.length_nil, List.drop_zero, fixed, scanElts]
    rfl
  | .segment e :: elts, _, hfix, _, _ => by
    cases hfix _ List.mem_cons_self
  | .one form :: elts, hall, hfix, ds, dict => by
    have hform : Follows (matchDatum rename compare form) (scan rename compare form) :=
      hall _ List.mem_cons_self
    rw [pieces, List.cons_append, List.length_cons, fixed]
    cases ds with
    | nil =>
      rw [Datum.ofList, scanElts]
      cases tail with
      | pair a d => cases htail
      | _ => rfl
    | cons d ds =>
      have ih := fixed_eq htail k rest (fun e he => hall e (List.mem_cons_of_mem _ he))
        (fun e he => hfix e (List.mem_cons_of_mem _ he)) ds
      simp only [Datum.ofList, Datum.car, Datum.cdr, Except.bind, Piece.matchDatum,
        Bool.false_eq_true, if_false, hform d, ih, scanElts, andThen_assoc]
      simp only [andThen, List.append_assoc, List.drop_succ_cons]

theorem scanElts_append : ∀ {elts : List (Elt Id Atom)}, (∀ e ∈ elts, e.isSegment = false) →
    ∀ (elts' : List (Elt Id Atom)) (ds : List (Datum Id Atom)),
      scanElts rename compare (elts ++ elts') ds =
        andThen (scanElts rename compare elts ds) fun new =>
          andThen (scanElts rename compare elts' (ds.drop elts.length)) fun new' =>
            .ok (some (new' ++ new))
  | [], _, elts', ds => by
    simp only [List.nil_append, scanElts, andThen, List.length_nil, List.drop_zero,
      List.append_nil]
    obtain e | o := scanElts rename compare elts' ds
    · rfl
    · cases o <;> rfl
  | .segment e :: elts, hfix, _, _ => by
    cases hfix _ List.mem_cons_self
  | .one form :: elts, hfix, elts', [] => rfl
  | .one form :: elts, hfix, elts', d :: ds => by
    have ih := scanElts_append (fun e he => hfix e (List.mem_cons_of_mem _ he)) elts' ds
    simp only [List.cons_append, scanElts, ih, andThen_assoc, List.length_cons,
      List.drop_succ_cons]
    simp only [andThen, List.append_assoc]

theorem pieces_append : ∀ (elts elts' : List (Elt Id Atom)),
    pieces rename compare (elts ++ elts') =
      pieces rename compare elts ++ pieces rename compare elts'
  | [], _ => rfl
  | .one form :: elts, elts' => by
    rw [List.cons_append, pieces, pieces, pieces_append elts, List.cons_append]
  | .segment body :: elts, elts' => by
    rw [List.cons_append, pieces, pieces, pieces_append elts, List.cons_append]

theorem length_pieces : ∀ elts : List (Elt Id Atom),
    (pieces rename compare elts).length = elts.length
  | [] => rfl
  | .one form :: elts => by rw [pieces, List.length_cons, length_pieces elts, List.length_cons]
  | .segment body :: elts => by rw [pieces, List.length_cons, length_pieces elts, List.length_cons]

theorem pieces_fixed : ∀ {elts : List (Elt Id Atom)}, (∀ e ∈ elts, e.isSegment = false) →
    ∀ pat ∈ pieces rename compare elts, pat.segment = false
  | [], _, pat, hp => by
    rw [pieces] at hp
    cases hp
  | .segment e :: elts, hfix, _, _ => by
    cases hfix _ List.mem_cons_self
  | .one form :: elts, hfix, pat, hp => by
    rw [pieces] at hp
    obtain rfl | hp := List.mem_cons.mp hp
    · rfl
    · exact pieces_fixed (fun e he => hfix e (List.mem_cons_of_mem _ he)) pat hp

/-- **What `match-segment` does on a row**: the data before the segment, those of the
segment and those behind it, from left to right. -/
theorem matchSegment_eq {elts rest} (hrow : elts.countP (·.isSegment) ≤ 1)
    (hall : ∀ e ∈ elts, Sound rename compare e) (hrest : ∀ pat ∈ rest, pat.segment = false) {tail}
    (htail : tail.isPair = false) (ds : List (Datum Id Atom)) (dict : Dict Id Atom)
    (k : Rest Id Atom) :
    matchSegment (pieces rename compare elts ++ rest) (.ofList ds tail) dict elts.length
        ds.length k =
      if leading elts ≤ ds.length then
        andThen (scanElts rename compare elts ds) fun new =>
          k rest (.ofList (leftover elts ds) tail) (new ++ dict)
      else .ok none := by
  obtain hfix | ⟨pre, body, post, rfl, hpre, hpost⟩ := row_cases hrow
  · have hfind : (pieces rename compare elts ++ rest).findIdx? (·.segment) = none := by
      rw [List.findIdx?_eq_none_iff]
      intro pat hp
      obtain hp | hp := List.mem_append.mp hp
      · exact pieces_fixed hfix pat hp
      · exact hrest pat hp
    simp only [matchSegment, hfind]
    rw [leading_of_fixed hfix, leftover_of_fixed hfix, fixed_eq htail k rest hall hfix ds dict]
  · have hbody : Follows (matchBody rename compare body) (scanBody rename compare body) :=
      hall (.segment body) (by simp)
    have hpieces : pieces rename compare (pre ++ .segment body :: post) ++ rest =
        pieces rename compare pre ++
          (⟨true, matchBody rename compare body⟩ :: (pieces rename compare post ++ rest)) := by
      rw [pieces_append, pieces, List.append_assoc, List.cons_append]
    have hfind : (pieces rename compare (pre ++ .segment body :: post) ++ rest).findIdx?
        (·.segment) = some pre.length := by
      rw [hpieces, List.findIdx?_append, List.findIdx?_eq_none_iff.mpr (pieces_fixed hpre),
        List.findIdx?_cons, length_pieces]
      simp
    have hsub : (pre ++ .segment body :: post).length - pre.length - 1 = post.length := by
      simp
    simp only [matchSegment, hfind, hsub]
    rw [leading_append hpre, leftover_append, scanElts_append hpre, andThen_assoc]
    by_cases hlen : pre.length ≤ ds.length
    · have hdrop : (ds.drop pre.length).length = ds.length - pre.length := List.length_drop
      rw [if_pos hlen, if_pos hlen, hpieces,
        fixed_eq htail _ _ (fun e he => hall e (List.mem_append_left _ he)) hpre]
      congr 1
      funext new
      simp only
      rw [← hdrop, segmentLoop_eq hbody, scanElts, andThen_assoc, andThen_assoc]
      congr 1
      funext dicts
      rw [fixed_eq htail _ _ (fun e he =>
        hall e (List.mem_append_right _ (List.mem_cons_of_mem _ he))) hpost]
      have hnil : ((ds.drop pre.length).drop ((ds.drop pre.length).length - post.length)).drop
          post.length = [] := by
        rw [List.drop_drop]
        exact List.drop_eq_nil_of_le (by omega)
      rw [hnil, andThen_assoc]
      congr 1
      funext new'
      simp only [andThen]
      rw [wrapDicts_eq, List.append_assoc, List.append_assoc]
    · have hfew : ¬ (pre ++ .segment body :: post).length ≤ ds.length := by
        rw [List.length_append]
        omega
      rw [if_neg hlen, if_neg hlen]
      exact if_neg hfew

/-! ## A pattern -/

variable (rename compare)

mutual

theorem matchDatum_eq : ∀ {form : Form Id Atom}, form.checkForMultipleSegments = true →
    Follows (matchDatum rename compare form) (scan rename compare form)
  | .list elts, hcheck, d, dict, k => by
    simp only [Form.checkForMultipleSegments, Bool.and_eq_true, decide_eq_true_eq] at hcheck
    rw [matchDatum, scan]
    simp only
    rw [Datum.isList_eq]
    cases hnull : d.final.isNull with
    | false => rfl
    | true =>
      have hrow := matchSegment_eq hcheck.1 (sound_of_check hcheck.2) (List.forall_mem_nil _)
        (Datum.isPair_final d) d.items dict (kList k)
      rw [List.append_nil, Datum.ofList_items, Datum.isNull_iff.mp hnull] at hrow
      rw [if_pos rfl, Datum.countPairs_eq, hrow]
      by_cases hlead : leading elts ≤ d.items.length
      · rw [if_pos hlead, kList_eq]
        simp [hlead]
      · simp [hlead, andThen]
  | .vector elts, hcheck, d, dict, k => by
    simp only [Form.checkForMultipleSegments, Bool.and_eq_true, decide_eq_true_eq] at hcheck
    cases d with
    | vector ds =>
      have hnull : (Datum.null : Datum Id Atom).isPair = false := rfl
      have hrow := matchSegment_eq hcheck.1 (sound_of_check hcheck.2) (List.forall_mem_nil _)
        hnull ds dict (kList k)
      rw [List.append_nil] at hrow
      rw [matchDatum, scan]
      simp only
      rw [hrow]
      by_cases hlead : leading elts ≤ ds.length
      · rw [if_pos hlead, kList_eq, if_pos hlead]
      · rw [if_neg hlead, if_neg hlead]
        rfl
    | _ => rfl
  | .dottedList elts tail, hcheck, d, dict, k => by
    simp only [Form.checkForMultipleSegments, Bool.and_eq_true, decide_eq_true_eq] at hcheck
    rw [matchDatum, scan]
    have hrest : ∀ pat ∈ [(⟨false, matchDatum rename compare tail⟩ : Piece Id Atom)],
        pat.segment = false := by simp
    have hrow := matchSegment_eq hcheck.1.1 (sound_of_check hcheck.1.2) hrest
      (Datum.isPair_final d) d.items dict (kTail k)
    rw [Datum.ofList_items, ← Datum.countPairs_eq] at hrow
    simp only
    rw [hrow, Datum.countPairs_eq]
    split
    · rw [andThen_assoc]
      congr 1
      funext new
      simp only [kTail, Piece.matchDatum, Bool.false_eq_true, if_false, matchDatum_eq hcheck.2 _]
      rw [andThen_assoc]
      simp only [andThen, List.append_assoc]
    · rfl
  | .literalId literal, _, d, dict, k => by
    cases d with
    | ident id =>
      rw [matchDatum, scan]
      simp only
      split <;> rfl
    | _ => rfl
  | .literal literal, _, d, dict, k => by
    cases d with
    | atom a =>
      rw [matchDatum, scan]
      simp only
      split <;> rfl
    | _ => rfl
  | .var id, _, d, dict, k => rfl
  | .anonVar, _, d, dict, k => rfl

theorem sound_of_check : ∀ {elts : List (Elt Id Atom)}, checkElts elts = true →
    ∀ e ∈ elts, Sound rename compare e
  | [], _, e, he => by cases he
  | .one form :: elts, hcheck, e, he => by
    simp only [checkElts, Elt.checkStripped, Bool.and_eq_true] at hcheck
    obtain rfl | he := List.mem_cons.mp he
    · exact matchDatum_eq hcheck.1.2
    · exact sound_of_check hcheck.2 e he
  | .segment (.one form) :: elts, hcheck, e, he => by
    simp only [checkElts, Elt.checkStripped, Bool.and_eq_true] at hcheck
    obtain rfl | he := List.mem_cons.mp he
    · intro d dict k
      rw [matchBody, scanBody]
      exact matchDatum_eq hcheck.1.2 d dict k
    · exact sound_of_check hcheck.2 e he
  | .segment (.segment body) :: elts, hcheck, e, he => by
    obtain rfl | he := List.mem_cons.mp he
    · intro d dict k
      rfl
    · simp only [checkElts, Bool.and_eq_true] at hcheck
      exact sound_of_check hcheck.2 e he

end

theorem syntaxRulesMatchDatum_eq {pattern} (hcheck : pattern.checkForMultipleSegments = true)
    (datum : Datum Id Atom) :
    syntaxRulesMatchDatum rename compare pattern datum = scan rename compare pattern datum := by
  rw [syntaxRulesMatchDatum, matchDatum_eq rename compare hcheck]
  simp only [List.append_nil]
  obtain e | o := scan rename compare pattern datum
  · rfl
  · cases o <;> rfl

end

end MitScheme.Runtime.SyntaxRules
