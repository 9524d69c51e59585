import MitScheme.Runtime.SyntaxRulesScan

/-! # Syntax-rules: matching by R7RS 4.3.2

When a datum matches a pattern and what it gives to the variables, against what
`match-datum` answers. After its ellipsis a row of patterns does not look whether
there are data left, which is where the two part. -/

namespace MitScheme.Runtime.SyntaxRules

variable {Id Atom : Type} (rename : Id → Id) (compare : Id → Id → Bool)

mutual

/-- The datum matches the pattern. Literals are compared as the expander asks for. -/
def Matches : Form Id Atom → Datum Id Atom → Prop
  | .list elts, d => ∃ ds, d = .ofList ds .null ∧ MatchesElts elts ds
  | .dottedList elts tail, d => ∃ ds rest, d = .ofList ds rest ∧ MatchesElts elts ds ∧
      Matches tail rest ∧ (elts.any (·.isSegment) = true → rest.isPair = false)
  | .vector elts, d => ∃ ds, d = .vector ds ∧ MatchesElts elts ds
  | .literalId literal, d => ∃ id, d = .ident id ∧ compare (rename literal) id = true
  | .literal literal, d => d = .atom literal
  | .var _, _ => True
  | .anonVar, _ => True

def MatchesBody : Elt Id Atom → Datum Id Atom → Prop
  | .one form, d => Matches form d
  | .segment _, _ => False

def MatchesElts : List (Elt Id Atom) → List (Datum Id Atom) → Prop
  | [], ds => ds = []
  | .one form :: elts, ds => ∃ d ds', ds = d :: ds' ∧ Matches form d ∧ MatchesElts elts ds'
  | .segment body :: elts, ds => ∃ a b, ds = a ++ b ∧ (∀ d ∈ a, MatchesBody body d) ∧
      MatchesElts elts b

end

mutual

/-- What the datum gives to a variable of the pattern: the datum that stands in its
place, or the sequence of what it is given in each repetition. -/
def Corresponds : Form Id Atom → Datum Id Atom → Id → Nest Id Atom → Prop
  | .list elts, d, v, x => ∃ ds, d = .ofList ds .null ∧ CorrespondsElts elts ds v x
  | .dottedList elts tail, d, v, x => ∃ ds rest, d = .ofList ds rest ∧
      MatchesElts rename compare elts ds ∧ (elts.any (·.isSegment) = true → rest.isPair = false) ∧
      (CorrespondsElts elts ds v x ∨ Corresponds tail rest v x)
  | .vector elts, d, v, x => ∃ ds, d = .vector ds ∧ CorrespondsElts elts ds v x
  | .literalId _, _, _, _ => False
  | .literal _, _, _, _ => False
  | .var id, d, v, x => v = id ∧ x = .datum d
  | .anonVar, _, _, _ => False

def CorrespondsBody : Elt Id Atom → Datum Id Atom → Id → Nest Id Atom → Prop
  | .one form, d, v, x => Corresponds form d v x
  | .segment _, _, _, _ => False

def CorrespondsElts : List (Elt Id Atom) → List (Datum Id Atom) → Id → Nest Id Atom → Prop
  | [], _, _, _ => False
  | .one form :: elts, ds, v, x => ∃ d ds', ds = d :: ds' ∧
      (Corresponds form d v x ∨ CorrespondsElts elts ds' v x)
  | .segment body :: elts, ds, v, x => ∃ a b, ds = a ++ b ∧ MatchesElts rename compare elts b ∧
      ((v ∈ body.vars ∧ ∃ xs, x = .seq xs ∧
          List.Forall₂ (fun d y => CorrespondsBody body d v y) a xs) ∨
        CorrespondsElts elts b v x)

end

def used (elts : List (Elt Id Atom)) (ds : List (Datum Id Atom)) : List (Datum Id Atom) :=
  if elts.any (·.isSegment) then ds else ds.take elts.length

mutual

/-- Reading from left to right, everything matches until a pattern behind an ellipsis
finds no datum. -/
def RunsOut : Form Id Atom → Datum Id Atom → Prop
  | .list elts, d => d.isList = true ∧ leading elts ≤ d.items.length ∧ RunsOutElts elts d.items
  | .dottedList elts tail, d => leading elts ≤ d.items.length ∧
      (RunsOutElts elts d.items ∨ MatchesElts rename compare elts (used elts d.items) ∧
        RunsOut tail (.ofList (leftover elts d.items) d.final))
  | .vector elts, d => ∃ ds, d = .vector ds ∧ leading elts ≤ ds.length ∧ RunsOutElts elts ds
  | .literalId _, _ => False
  | .literal _, _ => False
  | .var _, _ => False
  | .anonVar, _ => False

def RunsOutBody : Elt Id Atom → Datum Id Atom → Prop
  | .one form, d => RunsOut form d
  | .segment _, _ => True

def RunsOutElts : List (Elt Id Atom) → List (Datum Id Atom) → Prop
  | [], _ => False
  | .one _ :: _, [] => True
  | .one form :: elts, d :: ds =>
    RunsOut form d ∨ Matches rename compare form d ∧ RunsOutElts elts ds
  | .segment body :: elts, ds =>
    (∃ a d b, ds.take (ds.length - elts.length) = a ++ d :: b ∧
        (∀ d ∈ a, MatchesBody rename compare body d) ∧ RunsOutBody body d) ∨
      (∀ d ∈ ds.take (ds.length - elts.length), MatchesBody rename compare body d) ∧
        RunsOutElts elts (ds.drop (ds.length - elts.length))

end

/-! ## What an answer tells -/

/-- The answer is an error where the data run out, a dictionary where they match. -/
def Tells {α : Type} (a : Except Fault (Option α)) (M R : Prop) : Prop :=
  match a with
  | .ok (some _) => M ∧ ¬ R
  | .ok none => ¬ M ∧ ¬ R
  | .error _ => R ∧ ¬ M

theorem Tells.congr {α : Type} {a : Except Fault (Option α)} {M M' R R' : Prop}
    (h : Tells a M R) (hM : M ↔ M') (hR : R ↔ R') : Tells a M' R' := by
  obtain e | o := a
  · exact ⟨hR.mp h.1, fun hm => h.2 (hM.mpr hm)⟩
  · cases o with
    | none => exact ⟨fun hm => h.1 (hM.mpr hm), fun hr => h.2 (hR.mpr hr)⟩
    | some _ => exact ⟨hM.mp h.1, fun hr => h.2 (hR.mpr hr)⟩

theorem Tells.andThen {α β : Type} {a : Except Fault (Option α)}
    {f : α → Except Fault (Option β)} {M M' R R' : Prop} (h : Tells a M R)
    (hf : ∀ x, Tells (f x) M' R') : Tells (andThen a f) (M ∧ M') (R ∨ M ∧ R') := by
  obtain e | o := a
  · exact ⟨.inl h.1, fun hm => h.2 hm.1⟩
  · cases o with
    | none =>
      refine ⟨fun hm => h.1 hm.1, ?_⟩
      rintro (hr | hr)
      · exact h.2 hr
      · exact h.1 hr.1
    | some x =>
      have hx := hf x
      simp only [SyntaxRules.andThen]
      refine hx.congr ⟨fun hm => ⟨h.1, hm⟩, And.right⟩ ⟨fun hr => .inr ⟨h.1, hr⟩, ?_⟩
      rintro (hr | hr)
      · exact absurd hr h.2
      · exact hr.2

theorem Tells.guard {α : Type} {a : Except Fault (Option α)} {M R c : Prop} [Decidable c]
    (h : c → Tells a M R) :
    Tells (if c then a else .ok none) (c ∧ M) (c ∧ R) := by
  by_cases hc : c
  · rw [if_pos hc]
    exact (h hc).congr ⟨fun hm => ⟨hc, hm⟩, And.right⟩ ⟨fun hr => ⟨hc, hr⟩, And.right⟩
  · rw [if_neg hc]
    exact ⟨fun hm => hc hm.1, fun hr => hc hr.1⟩

theorem Tells.some {α : Type} (x : α) : Tells (.ok (some x)) True False := ⟨trivial, not_false⟩

/-! ## Rows -/

section
variable {rename compare}

theorem length_of_matchesElts : ∀ {elts : List (Elt Id Atom)},
    (∀ e ∈ elts, e.isSegment = false) → ∀ {ds : List (Datum Id Atom)},
      MatchesElts rename compare elts ds → ds.length = elts.length
  | [], _, ds, h => by
    rw [MatchesElts] at h
    rw [h, List.length_nil, List.length_nil]
  | .segment e :: elts, hfix, _, _ => by cases hfix _ List.mem_cons_self
  | .one form :: elts, hfix, ds, h => by
    rw [MatchesElts] at h
    obtain ⟨d, ds', rfl, -, h⟩ := h
    rw [List.length_cons, List.length_cons,
      length_of_matchesElts (fun e he => hfix e (List.mem_cons_of_mem _ he)) h]

theorem leading_le_of_matchesElts : ∀ {elts : List (Elt Id Atom)} {ds : List (Datum Id Atom)},
    MatchesElts rename compare elts ds → leading elts ≤ ds.length
  | [], _, _ => Nat.zero_le _
  | .segment e :: elts, _, _ => Nat.zero_le _
  | .one form :: elts, ds, h => by
    rw [MatchesElts] at h
    obtain ⟨d, ds', rfl, -, h⟩ := h
    exact Nat.succ_le_succ (leading_le_of_matchesElts h)

theorem matchesElts_segment {elts} (hfix : ∀ e ∈ elts, e.isSegment = false) (body)
    (ds : List (Datum Id Atom)) :
    MatchesElts rename compare (.segment body :: elts) ds ↔
      (∀ d ∈ ds.take (ds.length - elts.length), MatchesBody rename compare body d) ∧
        MatchesElts rename compare elts (ds.drop (ds.length - elts.length)) := by
  rw [MatchesElts]
  constructor
  · rintro ⟨a, b, rfl, ha, hb⟩
    have hlen : (a ++ b).length - elts.length = a.length := by
      rw [List.length_append, length_of_matchesElts hfix hb, Nat.add_sub_cancel]
    rw [hlen, List.take_left, List.drop_left]
    exact ⟨ha, hb⟩
  · rintro ⟨ha, hb⟩
    exact ⟨_, _, (List.take_append_drop _ _).symm, ha, hb⟩

theorem used_append_leftover (elts : List (Elt Id Atom)) (ds : List (Datum Id Atom)) :
    used elts ds ++ leftover elts ds = ds := by
  unfold used leftover
  split
  · exact List.append_nil ds
  · exact List.take_append_drop _ _

theorem used_cons_one (form : Form Id Atom) (elts : List (Elt Id Atom)) (d : Datum Id Atom)
    (ds : List (Datum Id Atom)) : used (.one form :: elts) (d :: ds) = d :: used elts ds := by
  have hany : (Elt.one form :: elts).any (·.isSegment) = elts.any (·.isSegment) := rfl
  unfold used
  rw [hany]
  split <;> rfl

theorem used_of_fixed {elts} (hfix : ∀ e ∈ elts, e.isSegment = false) (ds : List (Datum Id Atom)) :
    used elts ds = ds.take elts.length := by
  unfold used
  rw [if_neg]
  simpa using hfix

theorem used_segment (body : Elt Id Atom) (elts : List (Elt Id Atom))
    (ds : List (Datum Id Atom)) : used (.segment body :: elts) ds = ds := rfl

theorem used_eq_self {elts ds} (h : MatchesElts rename compare elts ds)
    (rest : List (Datum Id Atom)) (hrest : elts.any (·.isSegment) = true → rest = []) :
    used elts (ds ++ rest) = ds ∧ leftover elts (ds ++ rest) = rest := by
  by_cases hseg : elts.any (·.isSegment) = true
  · rw [hrest hseg, List.append_nil]
    unfold used leftover
    rw [if_pos hseg, if_pos hseg]
    exact ⟨rfl, rfl⟩
  · have hfix : ∀ e ∈ elts, e.isSegment = false := by simpa using hseg
    rw [used_of_fixed hfix, leftover_of_fixed hfix, ← length_of_matchesElts hfix h]
    exact ⟨List.take_left, List.drop_left⟩

theorem matches_list {elts} {d : Datum Id Atom} :
    Matches rename compare (.list elts) d ↔
      d.isList = true ∧ leading elts ≤ d.items.length ∧
        MatchesElts rename compare elts (used elts d.items) ∧ leftover elts d.items = [] := by
  rw [Matches, Datum.isList_eq]
  constructor
  · rintro ⟨ds, rfl, h⟩
    have hused := used_eq_self h [] fun _ => rfl
    have hitems : (Datum.ofList ds .null).items = ds ++ [] := Datum.items_ofList .null ds
    rw [hitems, hused.1, hused.2, List.append_nil, Datum.final_ofList]
    exact ⟨rfl, leading_le_of_matchesElts h, h, rfl⟩
  · rintro ⟨hnull, -, h, hleft⟩
    have hall := used_append_leftover elts d.items
    rw [hleft, List.append_nil] at hall
    refine ⟨d.items, ?_, by rwa [hall] at h⟩
    rw [← Datum.isNull_iff.mp hnull, Datum.ofList_items]

theorem matches_vector {elts} {ds : List (Datum Id Atom)} :
    Matches rename compare (.vector elts) (.vector ds) ↔
      leading elts ≤ ds.length ∧
        MatchesElts rename compare elts (used elts ds) ∧ leftover elts ds = [] := by
  rw [Matches]
  constructor
  · rintro ⟨ds', hds, h⟩
    injection hds with hds
    subst hds
    have hused := used_eq_self h [] fun _ => rfl
    rw [List.append_nil] at hused
    rw [hused.1, hused.2]
    exact ⟨leading_le_of_matchesElts h, h, rfl⟩
  · rintro ⟨-, h, hleft⟩
    have hall := used_append_leftover elts ds
    rw [hleft, List.append_nil] at hall
    exact ⟨ds, rfl, by rwa [hall] at h⟩

theorem matches_dottedList {elts tail} {d : Datum Id Atom} :
    Matches rename compare (.dottedList elts tail) d ↔
      leading elts ≤ d.items.length ∧ MatchesElts rename compare elts (used elts d.items) ∧
        Matches rename compare tail (.ofList (leftover elts d.items) d.final) := by
  rw [Matches]
  constructor
  · rintro ⟨ds, rest, rfl, h, htail, hseg⟩
    have hused := used_eq_self h rest.items fun hs => Datum.items_of_not_isPair (hseg hs)
    rw [Datum.items_ofList, hused.1, hused.2, Datum.final_ofList, Datum.ofList_items]
    have hle := leading_le_of_matchesElts h
    exact ⟨by rw [List.length_append]; omega, h, htail⟩
  · rintro ⟨-, h, htail⟩
    refine ⟨_, _, ?_, h, htail, ?_⟩
    · rw [← Datum.ofList_append, used_append_leftover, Datum.ofList_items]
    · intro hseg
      unfold leftover
      rw [if_pos hseg]
      exact Datum.isPair_final d

theorem exists_split_cons {α : Type} {M R : α → Prop} {d ds} :
    (∃ a e b, d :: ds = a ++ e :: b ∧ (∀ d ∈ a, M d) ∧ R e) ↔
      R d ∨ M d ∧ ∃ a e b, ds = a ++ e :: b ∧ (∀ d ∈ a, M d) ∧ R e := by
  constructor
  · rintro ⟨a, e, b, heq, ha, he⟩
    cases a with
    | nil =>
      injection heq with hd _
      exact .inl (hd ▸ he)
    | cons x a =>
      injection heq with hd heq
      subst hd
      exact .inr ⟨ha d List.mem_cons_self, a, e, b, heq,
        fun y hy => ha y (List.mem_cons_of_mem _ hy), he⟩
  · rintro (h | ⟨hd, a, e, b, rfl, ha, he⟩)
    · exact ⟨[], d, ds, rfl, List.forall_mem_nil _, h⟩
    · refine ⟨d :: a, e, b, rfl, ?_, he⟩
      intro y hy
      obtain rfl | hy := List.mem_cons.mp hy
      · exact hd
      · exact ha y hy

theorem tells_scanAll {scan : Datum Id Atom → Answer Id Atom} {M R : Datum Id Atom → Prop}
    (h : ∀ d, Tells (scan d) (M d) (R d)) : ∀ (ds : List (Datum Id Atom))
      (dicts : List (Dict Id Atom)), Tells (scanAll scan ds dicts) (∀ d ∈ ds, M d)
        (∃ a d b, ds = a ++ d :: b ∧ (∀ d ∈ a, M d) ∧ R d)
  | [], dicts => by
    refine (Tells.some dicts).congr ?_ ?_
    · simp
    · simp
  | d :: ds, dicts => by
    rw [scanAll]
    refine ((h d).andThen fun new => tells_scanAll h ds (new :: dicts)).congr ?_ ?_
    · exact List.forall_mem_cons.symm
    · exact exists_split_cons.symm

theorem tells_leftover (new) (left : List (Datum Id Atom)) :
    Tells (if left.isEmpty then (.ok (some new) : Answer Id Atom) else .ok none) (left = [])
      False := by
  cases left with
  | nil => exact ⟨rfl, not_false⟩
  | cons d left => exact ⟨List.cons_ne_nil d left, not_false⟩

end

/-! ## What corresponds to a variable -/

section
variable {rename compare}

mutual

theorem mem_vars_of_corresponds {v} : ∀ {form : Form Id Atom} {d : Datum Id Atom}
    {x : Nest Id Atom}, Corresponds rename compare form d v x → v ∈ form.vars
  | .list elts, d, x, h => by
    rw [Corresponds] at h
    obtain ⟨ds, -, h⟩ := h
    exact mem_eltsVars_of_corresponds h
  | .vector elts, d, x, h => by
    rw [Corresponds] at h
    obtain ⟨ds, -, h⟩ := h
    exact mem_eltsVars_of_corresponds h
  | .dottedList elts tail, d, x, h => by
    rw [Corresponds] at h
    obtain ⟨ds, rest, -, -, -, h⟩ := h
    obtain h | h := h
    · exact List.mem_append_left _ (mem_eltsVars_of_corresponds h)
    · exact List.mem_append_right _ (mem_vars_of_corresponds h)
  | .literalId _, d, x, h => by
    rw [Corresponds] at h
    exact h.elim
  | .literal _, d, x, h => by
    rw [Corresponds] at h
    exact h.elim
  | .var id, d, x, h => by
    rw [Corresponds] at h
    rw [h.1]
    exact List.mem_singleton_self id
  | .anonVar, d, x, h => by
    rw [Corresponds] at h
    exact h.elim

theorem mem_eltsVars_of_corresponds {v} : ∀ {elts : List (Elt Id Atom)}
    {ds : List (Datum Id Atom)} {x : Nest Id Atom},
      CorrespondsElts rename compare elts ds v x → v ∈ eltsVars elts
  | [], ds, x, h => by
    rw [CorrespondsElts] at h
    exact h.elim
  | .one form :: elts, ds, x, h => by
    rw [CorrespondsElts] at h
    obtain ⟨d, ds', -, h⟩ := h
    obtain h | h := h
    · exact List.mem_append_left _ (mem_vars_of_corresponds h)
    · exact List.mem_append_right _ (mem_eltsVars_of_corresponds h)
  | .segment body :: elts, ds, x, h => by
    rw [CorrespondsElts] at h
    obtain ⟨a, b, -, -, h⟩ := h
    obtain h | h := h
    · exact List.mem_append_left _ h.1
    · exact List.mem_append_right _ (mem_eltsVars_of_corresponds h)

end

theorem exists_forall₂ {α β : Type} {R : α → β → Prop} : ∀ {as : List α},
    (∀ a ∈ as, ∃ b, R a b) → ∃ bs, List.Forall₂ R as bs
  | [], _ => ⟨[], .nil⟩
  | a :: as, h => by
    obtain ⟨b, hb⟩ := h a List.mem_cons_self
    obtain ⟨bs, hbs⟩ := exists_forall₂ fun a ha => h a (List.mem_cons_of_mem _ ha)
    exact ⟨b :: bs, .cons hb hbs⟩

mutual

theorem exists_corresponds {v} : ∀ {form : Form Id Atom} {d : Datum Id Atom},
    Matches rename compare form d → v ∈ form.vars → ∃ x, Corresponds rename compare form d v x
  | .list elts, d, h, hv => by
    rw [Matches] at h
    obtain ⟨ds, rfl, h⟩ := h
    obtain ⟨x, hx⟩ := exists_correspondsElts h hv
    exact ⟨x, by rw [Corresponds]; exact ⟨ds, rfl, hx⟩⟩
  | .vector elts, d, h, hv => by
    rw [Matches] at h
    obtain ⟨ds, rfl, h⟩ := h
    obtain ⟨x, hx⟩ := exists_correspondsElts h hv
    exact ⟨x, by rw [Corresponds]; exact ⟨ds, rfl, hx⟩⟩
  | .dottedList elts tail, d, h, hv => by
    rw [Matches] at h
    obtain ⟨ds, rest, rfl, h, htail, hseg⟩ := h
    obtain hv | hv := List.mem_append.mp hv
    · obtain ⟨x, hx⟩ := exists_correspondsElts h hv
      exact ⟨x, by rw [Corresponds]; exact ⟨ds, rest, rfl, h, hseg, .inl hx⟩⟩
    · obtain ⟨x, hx⟩ := exists_corresponds htail hv
      exact ⟨x, by rw [Corresponds]; exact ⟨ds, rest, rfl, h, hseg, .inr hx⟩⟩
  | .literalId _, d, _, hv => by cases hv
  | .literal _, d, _, hv => by cases hv
  | .var id, d, _, hv => by
    refine ⟨.datum d, ?_⟩
    rw [Corresponds]
    exact ⟨List.mem_singleton.mp hv, rfl⟩
  | .anonVar, d, _, hv => by cases hv

theorem exists_correspondsElts {v} : ∀ {elts : List (Elt Id Atom)}
    {ds : List (Datum Id Atom)}, MatchesElts rename compare elts ds → v ∈ eltsVars elts →
      ∃ x, CorrespondsElts rename compare elts ds v x
  | [], ds, _, hv => by cases hv
  | .one form :: elts, ds, h, hv => by
    rw [MatchesElts] at h
    obtain ⟨d, ds', rfl, hd, h⟩ := h
    obtain hv | hv := List.mem_append.mp hv
    · obtain ⟨x, hx⟩ := exists_corresponds hd hv
      exact ⟨x, by rw [CorrespondsElts]; exact ⟨d, ds', rfl, .inl hx⟩⟩
    · obtain ⟨x, hx⟩ := exists_correspondsElts h hv
      exact ⟨x, by rw [CorrespondsElts]; exact ⟨d, ds', rfl, .inr hx⟩⟩
  | .segment body :: elts, ds, h, hv => by
    rw [MatchesElts] at h
    obtain ⟨a, b, rfl, ha, h⟩ := h
    obtain hv | hv := List.mem_append.mp hv
    · obtain ⟨xs, hxs⟩ := exists_forall₂ fun d hd => exists_correspondsBody (ha d hd) hv
      exact ⟨.seq xs, by rw [CorrespondsElts]; exact ⟨a, b, rfl, h, .inl ⟨hv, xs, rfl, hxs⟩⟩⟩
    · obtain ⟨x, hx⟩ := exists_correspondsElts h hv
      exact ⟨x, by rw [CorrespondsElts]; exact ⟨a, b, rfl, h, .inr hx⟩⟩

theorem exists_correspondsBody {v} : ∀ {e : Elt Id Atom} {d : Datum Id Atom},
    MatchesBody rename compare e d → v ∈ e.vars → ∃ x, CorrespondsBody rename compare e d v x
  | .one form, d, h, hv => by
    rw [MatchesBody] at h
    obtain ⟨x, hx⟩ := exists_corresponds h hv
    exact ⟨x, by rw [CorrespondsBody]; exact hx⟩
  | .segment body, d, h, _ => by
    rw [MatchesBody] at h
    exact h.elim

end

end

/-! ## The matcher tells what matches -/

section
variable [DecidableEq Id] [DecidableEq Atom]

mutual

theorem tells_scan : ∀ {form : Form Id Atom}, form.checkForMultipleSegments = true →
    ∀ d, Tells (scan rename compare form d) (Matches rename compare form d)
      (RunsOut rename compare form d)
  | .list elts, hcheck, d => by
    simp only [Form.checkForMultipleSegments, Bool.and_eq_true, decide_eq_true_eq] at hcheck
    have hrow := (tells_scanElts hcheck.1 hcheck.2 d.items).andThen fun new =>
      tells_leftover new (leftover elts d.items)
    rw [scan]
    refine (Tells.guard (c := (d.final.isNull && decide (leading elts ≤ d.items.length)) = true)
      fun _ => hrow).congr ?_ ?_
    · rw [matches_list, Datum.isList_eq, Bool.and_eq_true, decide_eq_true_eq, and_assoc]
    · rw [RunsOut, Datum.isList_eq, Bool.and_eq_true, decide_eq_true_eq, and_assoc, and_false,
        or_false]
  | .vector elts, hcheck, d => by
    simp only [Form.checkForMultipleSegments, Bool.and_eq_true, decide_eq_true_eq] at hcheck
    cases d with
    | vector ds =>
      have hrow := (tells_scanElts hcheck.1 hcheck.2 ds).andThen fun new =>
        tells_leftover new (leftover elts ds)
      rw [scan]
      refine (Tells.guard fun _ => hrow).congr matches_vector.symm ?_
      rw [RunsOut, and_false, or_false]
      constructor
      · intro h
        exact ⟨ds, rfl, h⟩
      · rintro ⟨ds', hds, h⟩
        injection hds with hds
        rw [hds]
        exact h
    | _ => constructor <;> simp [Matches, RunsOut]
  | .dottedList elts tail, hcheck, d => by
    simp only [Form.checkForMultipleSegments, Bool.and_eq_true, decide_eq_true_eq] at hcheck
    have hrow := (tells_scanElts hcheck.1.1 hcheck.1.2 d.items).andThen fun new =>
      (tells_scan hcheck.2 (.ofList (leftover elts d.items) d.final)).andThen fun new' =>
        Tells.some (new' ++ new)
    rw [scan]
    refine (Tells.guard fun _ => hrow).congr ?_ ?_
    · rw [matches_dottedList, and_true]
    · rw [RunsOut, and_false, or_false]
  | .literalId literal, _, d => by
    cases d with
    | ident id =>
      by_cases h : compare (rename literal) id = true
      · simp [scan, h, Tells, Matches, RunsOut]
      · simp [scan, h, Tells, Matches, RunsOut]
    | _ => constructor <;> simp [Matches, RunsOut]
  | .literal literal, _, d => by
    cases d with
    | atom a =>
      by_cases h : literal = a
      · simp [scan, h, Tells, Matches, RunsOut]
      · have hne : a ≠ literal := fun he => h he.symm
        simp [scan, h, hne, Tells, Matches, RunsOut]
    | _ => constructor <;> simp [Matches, RunsOut]
  | .var id, _, d => by simp [scan, Tells, Matches, RunsOut]
  | .anonVar, _, d => by simp [scan, Tells, Matches, RunsOut]

theorem tells_scanElts : ∀ {elts : List (Elt Id Atom)}, elts.countP (·.isSegment) ≤ 1 →
    checkElts elts = true → ∀ ds, Tells (scanElts rename compare elts ds)
      (MatchesElts rename compare elts (used elts ds)) (RunsOutElts rename compare elts ds)
  | [], _, _, ds => by
    refine (Tells.some ([] : Dict Id Atom)).congr ?_ ?_
    · simp [MatchesElts, used]
    · simp [RunsOutElts]
  | .one form :: elts, hrow, hcheck, [] => by
    have hno : ¬ MatchesElts rename compare (.one form :: elts) (used (.one form :: elts) []) := by
      have hnil : used (.one form :: elts) ([] : List (Datum Id Atom)) = [] := by
        unfold used
        split <;> rfl
      rw [hnil, MatchesElts]
      rintro ⟨d, ds', h, -⟩
      cases h
    exact ⟨by rw [RunsOutElts]; trivial, hno⟩
  | .one form :: elts, hrow, hcheck, d :: ds => by
    simp only [checkElts, Elt.checkStripped, Bool.and_eq_true] at hcheck
    have h := (tells_scan hcheck.1.2 d).andThen fun new =>
      (tells_scanElts (oneSegment_tail hrow) hcheck.2 ds).andThen fun new' =>
        Tells.some (new' ++ new)
    rw [scanElts]
    refine h.congr ?_ ?_
    · rw [used_cons_one, MatchesElts, and_true]
      constructor
      · intro hm
        exact ⟨d, _, rfl, hm⟩
      · rintro ⟨d', ds', heq, hm⟩
        injection heq with hd hds
        rw [hd, hds]
        exact hm
    · rw [RunsOutElts, and_false, or_false]
  | .segment (.segment body) :: elts, _, hcheck, _ => by
    simp [checkElts, Elt.countSegments] at hcheck
  | .segment (.one form) :: elts, hrow, hcheck, ds => by
    simp only [checkElts, Elt.checkStripped, Bool.and_eq_true] at hcheck
    have hfix := fixed_of_segment hrow
    have hbody : ∀ d, Tells (scanBody rename compare (.one form) d)
        (MatchesBody rename compare (.one form) d) (RunsOutBody rename compare (.one form) d) := by
      intro d
      rw [scanBody, MatchesBody, RunsOutBody]
      exact tells_scan hcheck.1.2 d
    have hrest := tells_scanElts (oneSegment_tail hrow) hcheck.2
      (ds.drop (ds.length - elts.length))
    have hused : used elts (ds.drop (ds.length - elts.length)) =
        ds.drop (ds.length - elts.length) := by
      rw [used_of_fixed hfix, List.take_of_length_le]
      rw [List.length_drop]
      omega
    rw [hused] at hrest
    have h := (tells_scanAll hbody (ds.take (ds.length - elts.length)) []).andThen fun dicts =>
      hrest.andThen fun new' => Tells.some (new' ++ wrapDicts dicts [])
    rw [scanElts]
    refine h.congr ?_ ?_
    · rw [used_segment, matchesElts_segment hfix, and_true]
    · rw [RunsOutElts, and_false, or_false]

end

end

end MitScheme.Runtime.SyntaxRules
