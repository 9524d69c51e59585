import MitScheme.Runtime.RegexpFold

/-! # Cutting a text at the matches of a regexp, and replacing them

`regexp-replace`, `regexp-replace-all`, `regexp-extract`, `regexp-split` and
`regexp-partition` of `srfi-115.scm`. The folds assemble the pieces from the end of
the match before; `regexp-replace` searches with a start that moves. -/

namespace MitScheme.Runtime.Srfi115
open Lib.Outcome

variable {α : Type}

/-- `string-slice`, and `substring`. -/
def slice (string : List α) (start stop : Nat) : Result (List α) :=
  if start ≤ stop ∧ stop ≤ string.length then .ok ((string.drop start).take (stop - start))
  else .error .badRange

/-- `regexp-match-value`. -/
def Match.value (string : List α) (m : Match) : Result (List α) := slice string m.start m.stop

/-! ## Cut -/

section Cut

variable (re : Regexp α) (string : List α) (start stop : Nat)

def regexpSplit : Result (List (List α)) := do
  let strings ← regexpFoldRight re string start stop (some Match.isEmpty)
    (fun last m string strings => do
      let strings ← strings
      return (← slice string last m.start) :: strings)
    (.ok [])
    (some fun last string strings => do
      let strings ← strings
      return (← slice string last stop) :: strings)
  strings

def regexpPartition : Result (List (List α)) :=
  if start < stop then do
    let strings ← regexpFoldRight re string start stop (some Match.isEmpty)
      (fun last m string strings => do
        let strings ← strings
        let value ← m.value string
        return (← slice string last m.start) :: value :: strings)
      (.ok [])
      (some fun last string strings => do
        let strings ← strings
        let s ← slice string last stop
        return if s.isEmpty then strings else s :: strings)
    strings
  else .ok [[]]

end Cut

/-! ## Replacement -/

inductive SubstElt (α : Type)
  | string (s : List α)
  | pre
  | post
  | key (k : Key)
  | procedure (f : Match → Result (List α))

/-- What a match is replaced by: an element, or a list of elements. -/
inductive Subst (α : Type)
  | elt (e : SubstElt α)
  | list (es : List (SubstElt α))

/-- `regexp-match-submatch`. -/
def Match.submatch (string : List α) (m : Match) (key : Key) : Result (Option (List α)) :=
  if key = .number 0 then do return some (← m.value string)
  else if key ∈ m.keys then
    match m.groups.find? (·.key = key) with
    | some group => do return some (← slice string group.start group.stop)
    | none => .ok none
  else .error .badRange

/-- `subst-elt` of `subst-match`. -/
def substElt (m : Match) (string : List α) (start stop : Nat) : SubstElt α → Result (List α)
  | .string s => .ok s
  | .pre => slice string start m.start
  | .post => slice string m.stop stop
  | .key k => do return (← m.submatch string k).getD []
  | .procedure f => f m

def substMatch (subst : Subst α) (m : Match) (string : List α) (start stop : Nat) :
    Result (List α) :=
  match subst with
  | .elt e => substElt m string start stop e
  | .list es => do return (← es.mapM (substElt m string start stop)).flatten

section Replace

variable (re : Regexp α) (string : List α) (subst : Subst α)

/-- `find-match` of `regexp-replace`; the first argument is the number of the matches
that are still passed over. -/
def findMatch (start stop : Nat) : (remaining index : Nat) → Result (List α)
  | remaining, index => do
    match ← regexpSearch re string index stop index with
    | none => slice string start stop
    | some m =>
      match remaining with
      | remaining + 1 => findMatch start stop remaining (max m.stop (index + 1))
      | 0 =>
        let post ← substMatch (.elt .post) m string start stop
        let middle ← substMatch subst m string start stop
        let pre ← substMatch (.elt .pre) m string start stop
        return pre ++ middle ++ post

def regexpReplace (start stop count : Nat) : Result (List α) :=
  findMatch re string subst start stop count start

/-- The loop of `regexp-replace-all`. -/
def replaceAllLoop (stop : Nat) : (start : Nat) → List Match → Result (List (List α))
  | _, [] => .ok []
  | start, m :: ms => do
    let rest ← replaceAllLoop stop m.stop ms
    let middle ← substMatch subst m string start (ms.head?.elim stop Match.start)
    let pre ← substMatch (.elt .pre) m string start stop
    return pre :: middle :: rest

def regexpReplaceAll (start stop : Nat) : Result (List α) := do
  let ms ← regexpSearchAll re string start stop
  if ms.isEmpty then slice string start stop
  else return (← replaceAllLoop string subst stop start ms).flatten

end Replace

/-! ## The stretches between the matches -/

def stretch (string : List α) (start stop : Nat) : List α :=
  (string.drop start).take (stop - start)

variable {string : List α}

theorem slice_ok {start stop} (hle : start ≤ stop) (hstop : stop ≤ string.length) :
    slice string start stop = .ok (stretch string start stop) :=
  if_pos ⟨hle, hstop⟩

theorem stretch_append {a b c : Nat} (hab : a ≤ b) (hbc : b ≤ c) :
    stretch string a b ++ stretch string b c = stretch string a c := by
  obtain ⟨i, rfl⟩ := Nat.exists_eq_add_of_le hab
  obtain ⟨j, rfl⟩ := Nat.exists_eq_add_of_le hbc
  simp only [stretch, Nat.add_assoc, Nat.add_sub_cancel_left]
  rw [List.take_add, List.drop_drop, Nat.add_sub_add_left]
  simp

theorem stretch_eq_nil_iff {a b} (hab : a ≤ b) (hb : b ≤ string.length) :
    stretch string a b = [] ↔ a = b := by
  rw [← List.length_eq_zero_iff, stretch, List.length_take, List.length_drop]
  omega

def stretches (string : List α) (stop : Nat) : (start : Nat) → List Match → List (List α)
  | start, [] => [stretch string start stop]
  | start, m :: ms => stretch string start m.start :: stretches string stop m.stop ms

def weave : List (List α) → List (List α) → List α
  | s :: ss, t :: ts => s ++ t ++ weave ss ts
  | ss, [] => ss.flatten
  | [], _ :: _ => []

/-- The texts that take the place of the matches; for each, the text before it begins
behind the match before, and the text behind it stops at the next one. -/
def substitutions (subst : Subst α) (string : List α) (stop : Nat) :
    (start : Nat) → List Match → Result (List (List α))
  | _, [] => .ok []
  | start, m :: ms => do
    let texts ← substitutions subst string stop m.stop ms
    return (← substMatch subst m string start (ms.head?.elim stop Match.start)) :: texts

def replaceOne (subst : Subst α) (string : List α) (start stop : Nat) :
    Option Match → Result (List α)
  | none => .ok (stretch string start stop)
  | some m => do
    let middle ← substMatch subst m string start stop
    return stretch string start m.start ++ middle ++ stretch string m.stop stop

/-! ## What is left of the text -/

section Pieces

variable {re : Regexp α} {string : List α} {start stop last : Nat} {ms : List Match}

theorem regexpFoldRight_eq {β : Type} (ignore : Option (Match → Bool))
    (kons : Nat → Match → List α → β → β) (knil : β)
    (finish : Option (Nat → List α → β → β)) :
    regexpFoldRight re string start stop ignore kons knil finish =
      (regexpSearchAll re string start stop).map fun all =>
        foldRightEnds string kons knil finish start (kept ignore all) := by
  rw [regexpFoldRight, foldRightLoop_eq, regexpSearchAll_eq, map_map]
  rfl

theorem searchAll_ordered {all} (hle : start ≤ stop)
    (h : regexpSearchAll re string start stop = .ok all) : Ordered start stop all := by
  rw [regexpSearchAll_eq] at h
  obtain ⟨ms, hms, h⟩ := bind_eq_ok h
  rw [← Except.ok.inj h]
  exact visits_ordered hle hms

theorem split_pieces (hordered : Ordered last stop ms) (hstop : stop ≤ string.length) :
    foldRightEnds string
      (fun last m string (strings : Result (List (List α))) => do
        let strings ← strings
        return (← slice string last m.start) :: strings)
      (.ok [])
      (some fun last string strings => do
        let strings ← strings
        return (← slice string last stop) :: strings) last ms =
      .ok (stretches string stop last ms) := by
  induction hordered with
  | nil le =>
    simp only [foldRightEnds, Option.elim_some, slice_ok le hstop]
    rfl
  | cons lo_le start_le rest ih =>
    have hbound := start_le.trans (rest.le.trans hstop)
    simp only [foldRightEnds, ih hstop, slice_ok lo_le hbound]
    rfl

theorem partition_pieces (hordered : Ordered last stop ms) (hstop : stop ≤ string.length) :
    ∃ strings, foldRightEnds string
      (fun last m string (strings : Result (List (List α))) => do
        let strings ← strings
        let value ← m.value string
        return (← slice string last m.start) :: value :: strings)
      (.ok [])
      (some fun last string strings => do
        let strings ← strings
        let s ← slice string last stop
        return if s.isEmpty then strings else s :: strings) last ms = .ok strings ∧
      strings.flatten = stretch string last stop := by
  induction hordered with
  | @nil lo hi le =>
    simp only [foldRightEnds, Option.elim_some, slice_ok le hstop]
    refine ⟨_, rfl, ?_⟩
    split
    · rename_i hempty
      exact (List.isEmpty_iff.mp hempty).symm
    · simp
  | @cons lo hi m ms lo_le start_le rest ih =>
    obtain ⟨strings, hstrings, hflat⟩ := ih hstop
    have hbound := rest.le.trans hstop
    rw [foldRightEnds, hstrings]
    simp only [Match.value, slice_ok start_le hbound, slice_ok lo_le (start_le.trans hbound)]
    refine ⟨_, rfl, ?_⟩
    rw [List.flatten_cons, List.flatten_cons, hflat, stretch_append start_le rest.le,
      stretch_append lo_le (start_le.trans rest.le)]

theorem replaceAll_pieces (subst) (hordered : Ordered last stop ms) (hstop : stop ≤ string.length) :
    (∀ e, substitutions subst string stop last ms = .error e →
      replaceAllLoop string subst stop last ms = .error e) ∧
    ∀ texts, substitutions subst string stop last ms = .ok texts →
      ∃ pieces, replaceAllLoop string subst stop last ms = .ok pieces ∧
        pieces.flatten ++ stretch string (ms.getLast?.elim last Match.stop) stop =
          weave (stretches string stop last ms) texts := by
  induction hordered with
  | @nil lo hi le =>
    refine ⟨fun e h => (by cases h), fun texts h => ⟨[], rfl, ?_⟩⟩
    obtain rfl := Except.ok.inj h
    simp [stretches, weave]
  | @cons lo hi m ms lo_le start_le rest ih =>
    obtain ⟨ihError, ihOk⟩ := ih hstop
    rw [replaceAllLoop, substitutions]
    cases hrest : substitutions subst string hi m.stop ms with
    | error e =>
      rw [ihError e hrest]
      exact ⟨fun e' h => h, fun texts h => (by cases h)⟩
    | ok texts =>
      obtain ⟨pieces, hpieces, hflat⟩ := ihOk texts hrest
      have hbound := start_le.trans (rest.le.trans hstop)
      rw [hpieces]
      cases hmiddle : substMatch subst m string lo (ms.head?.elim hi Match.start) with
      | error e => exact ⟨fun e' h => h, fun texts h => (by cases h)⟩
      | ok middle =>
        refine ⟨fun e h => (by cases h), fun texts' h => ?_⟩
        obtain rfl := Except.ok.inj h
        refine ⟨stretch string lo m.start :: middle :: pieces, ?_, ?_⟩
        · simp only [substMatch, substElt, slice_ok lo_le hbound]
          rfl
        · have hlast : (m :: ms).getLast?.elim lo Match.stop =
              ms.getLast?.elim m.stop Match.stop := by
            cases ms with
            | nil => rfl
            | cons m' ms => rw [List.getLast?_cons_cons]; rfl
          rw [hlast, stretches, weave, ← hflat]
          simp

end Pieces

/-! ## The moving start of `regexp-replace` -/

section Moving

variable (re : Regexp α) (string : List α)

/-- The match that `find-match` arrives at: every search takes the position where it
begins for the start of the text. -/
def movedMatch (stop : Nat) : (remaining index : Nat) → Result (Option Match)
  | remaining, index => do
    match ← regexpSearch re string index stop index with
    | none => return none
    | some m =>
      match remaining with
      | remaining + 1 => movedMatch stop remaining (max m.stop (index + 1))
      | 0 => return some m

/-- The searches up to that match find with the moved start what they find from `start`. -/
def SearchesAgree (start stop : Nat) : (remaining index : Nat) → Prop
  | remaining, index =>
    regexpSearch re string index stop index = regexpSearch re string start stop index ∧
      match remaining with
      | remaining + 1 => ∀ m, regexpSearch re string start stop index = .ok (some m) →
        SearchesAgree start stop remaining (max m.stop (index + 1))
      | 0 => True

variable {re : Regexp α} {string : List α} {start stop : Nat}

theorem findMatch_eq (subst) (hle : start ≤ stop) (hstop : stop ≤ string.length) {remaining index}
    (hindex : start ≤ index) :
    findMatch re string subst start stop remaining index =
      movedMatch re string stop remaining index >>= replaceOne subst string start stop := by
  induction remaining generalizing index with
  | zero =>
    rw [findMatch, movedMatch]
    cases hfound : regexpSearch re string index stop index with
    | error e => rfl
    | ok found =>
      cases found with
      | none => exact slice_ok hle hstop
      | some m =>
        obtain ⟨hstart, hends, hbound, -⟩ := regexpSearch_some hfound
        have hpre := slice_ok (hindex.trans hstart) (hends.trans (hbound.trans hstop))
        have hpost := slice_ok hbound hstop
        change (do
          let post ← slice string m.stop stop
          let middle ← substMatch subst m string start stop
          let pre ← slice string start m.start
          return pre ++ middle ++ post) = replaceOne subst string start stop (some m)
        rw [hpre, hpost, replaceOne]
        cases substMatch subst m string start stop <;> rfl
  | succ remaining ih =>
    rw [findMatch, movedMatch]
    cases hfound : regexpSearch re string index stop index with
    | error e => rfl
    | ok found =>
      cases found with
      | none => exact slice_ok hle hstop
      | some m => exact ih (by omega)

theorem collected_cases {index last all}
    (h : foldRightLoop re string start stop none (fun _ m _ acc => m :: acc) [] none index
      last = .ok all) :
    (regexpSearch re string start stop index = .ok none ∧ all = []) ∨
      ∃ m rest, regexpSearch re string start stop index = .ok (some m) ∧ all = m :: rest ∧
        foldRightLoop re string start stop none (fun _ m _ acc => m :: acc) [] none
          (max m.stop (index + 1)) m.stop = .ok rest := by
  cases hfound : regexpSearch re string start stop index with
  | error e =>
    rw [foldRightLoop] at h
    split at h <;> rename_i h' <;> rw [hfound] at h' <;> cases h'
    cases h
  | ok found =>
    cases found with
    | none =>
      rw [foldRightLoop] at h
      split at h <;> rename_i h' <;> rw [hfound] at h' <;> cases h'
      exact .inl ⟨rfl, (Except.ok.inj h).symm⟩
    | some m =>
      rw [foldRightLoop_some hfound, if_neg (by simp [ignores])] at h
      obtain ⟨rest, hrest, h⟩ := bind_eq_ok h
      exact .inr ⟨m, rest, rfl, (Except.ok.inj h).symm, hrest⟩

theorem movedMatch_eq {remaining index last all}
    (hagree : SearchesAgree re string start stop remaining index)
    (hall : foldRightLoop re string start stop none (fun _ m _ acc => m :: acc) [] none index
      last = .ok all) : movedMatch re string stop remaining index = .ok all[remaining]? := by
  induction remaining generalizing index last all with
  | zero =>
    rw [movedMatch, hagree.1]
    obtain ⟨hfound, rfl⟩ | ⟨m, rest, hfound, rfl, hrest⟩ := collected_cases hall
    · rw [hfound]
      rfl
    · rw [hfound]
      rfl
  | succ remaining ih =>
    rw [movedMatch, hagree.1]
    obtain ⟨hfound, rfl⟩ | ⟨m, rest, hfound, rfl, hrest⟩ := collected_cases hall
    · rw [hfound]
      rfl
    · rw [hfound, List.getElem?_cons_succ]
      exact ih (hagree.2 m hfound) hrest

theorem replaceOne_inj {string : List α} {start stop : Nat} {found found' : Option Match}
    (h : ∀ subst, replaceOne subst string start stop found =
      replaceOne subst string start stop found') : found = found' := by
  -- a procedure that fails on all matches but one
  let only (m : Match) : Subst α :=
    .elt (.procedure fun m' => if m' = m then .ok [] else .error .badRange)
  have hself (m : Match) : ∃ text, replaceOne (only m) string start stop (some m) = .ok text := by
    refine ⟨stretch string start m.start ++ [] ++ stretch string m.stop stop, ?_⟩
    simp only [replaceOne, only, substMatch, substElt, if_pos]
    rfl
  have hother (m m' : Match) (hne : m' ≠ m) :
      replaceOne (only m) string start stop (some m') = .error .badRange := by
    simp only [replaceOne, only, substMatch, substElt, if_neg hne]
    rfl
  have hfail (m : Match) : replaceOne (.elt (.procedure fun _ => .error .badRange)) string start
      stop (some m) = .error .badRange := rfl
  cases found with
  | none =>
    cases found' with
    | none => rfl
    | some m' =>
      have heq := h (.elt (.procedure fun _ => .error .badRange))
      rw [hfail, replaceOne] at heq
      cases heq
  | some m =>
    cases found' with
    | none =>
      have heq := h (.elt (.procedure fun _ => .error .badRange))
      rw [hfail, replaceOne] at heq
      cases heq
    | some m' =>
      by_contra hne
      have heq := h (only m)
      obtain ⟨text, htext⟩ := hself m
      rw [htext, hother m m' fun heq => hne (by rw [heq])] at heq
      cases heq

end Moving

/-! ## What the procedures make -/

section Result

variable (re : Regexp α) (string : List α) (range : Range string)

theorem regexpSplit_eq : regexpSplit re string range.start range.stop =
    (regexpSearchAll re string range.start range.stop).map fun all =>
      stretches string range.stop range.start (all.filter fun m => !m.isEmpty) := by
  rw [regexpSplit, regexpFoldRight_eq]
  cases hall : regexpSearchAll re string range.start range.stop with
  | error e => rfl
  | ok all =>
    have hordered := (searchAll_ordered range.start_le hall).kept (some Match.isEmpty)
    exact split_pieces hordered range.stop_le

theorem regexpPartition_flatten {strings : List (List α)}
    (h : regexpPartition re string range.start range.stop = .ok strings) :
    strings.flatten = stretch string range.start range.stop := by
  rw [regexpPartition] at h
  split at h
  · rw [regexpFoldRight_eq] at h
    cases hall : regexpSearchAll re string range.start range.stop with
    | error e => rw [hall] at h; cases h
    | ok all =>
      have hordered := (searchAll_ordered range.start_le hall).kept (some Match.isEmpty)
      obtain ⟨strings', hstrings, hflat⟩ := partition_pieces hordered range.stop_le
      rw [hall] at h
      obtain rfl := Except.ok.inj (hstrings.symm.trans h)
      exact hflat
  · have hempty : range.start = range.stop := by
      have := range.start_le
      omega
    rw [← Except.ok.inj h, (stretch_eq_nil_iff range.start_le range.stop_le).mpr hempty]
    rfl

theorem regexpPartition_returns {all}
    (hall : regexpSearchAll re string range.start range.stop = .ok all) :
    ∃ strings, regexpPartition re string range.start range.stop = .ok strings := by
  rw [regexpPartition]
  split
  · have hordered := (searchAll_ordered range.start_le hall).kept (some Match.isEmpty)
    obtain ⟨strings, hstrings, -⟩ := partition_pieces hordered range.stop_le
    rw [regexpFoldRight_eq, hall]
    exact ⟨strings, hstrings⟩
  · exact ⟨[[]], rfl⟩

def replaceAllClaimed (subst : Subst α) : Result (List α) := do
  let all ← regexpSearchAll re string range.start range.stop
  return weave (stretches string range.stop range.start all)
    (← substitutions subst string range.stop range.start all)

theorem regexpReplaceAll_iff (subst) :
    regexpReplaceAll re string subst range.start range.stop =
        replaceAllClaimed re string range subst ↔
      ∀ all, regexpSearchAll re string range.start range.stop = .ok all →
        ∀ texts, substitutions subst string range.stop range.start all = .ok texts →
          ∀ m ∈ all.getLast?, m.stop = range.stop := by
  rw [regexpReplaceAll, replaceAllClaimed]
  cases hall : regexpSearchAll re string range.start range.stop with
  | error e => exact ⟨fun _ all h => (by cases h), fun _ => rfl⟩
  | ok all =>
    have hordered := searchAll_ordered range.start_le hall
    obtain ⟨herror, hok⟩ := replaceAll_pieces subst hordered range.stop_le
    cases all with
    | nil =>
      refine ⟨fun _ all h _ _ m hm => ?_, fun _ => ?_⟩
      · rw [← Except.ok.inj h] at hm
        cases hm
      · change slice string range.start range.stop = _
        rw [slice_ok range.start_le range.stop_le]
        simp [substitutions, weave, stretches, bind, Except.bind, pure, Except.pure]
    | cons m ms =>
      obtain ⟨final, hfinal⟩ : ∃ final, (m :: ms).getLast? = some final :=
        ⟨_, List.getLast?_eq_some_getLast (List.cons_ne_nil m ms)⟩
      cases htexts : substitutions subst string range.stop range.start (m :: ms) with
      | error e =>
        refine ⟨fun _ all h texts htexts' => ?_, fun _ => ?_⟩
        · rw [← Except.ok.inj h, htexts] at htexts'
          cases htexts'
        · rw [ok_bind, ok_bind, htexts, if_neg (by simp), herror e htexts]
          rfl
      | ok texts =>
        obtain ⟨pieces, hpieces, hflat⟩ := hok texts htexts
        have hbound : final.stop ≤ range.stop :=
          hordered.stop_le final (List.mem_of_getLast? hfinal)
        rw [hfinal, Option.elim_some] at hflat
        rw [ok_bind, ok_bind, htexts, if_neg (by simp), hpieces, ok_bind, ok_bind, ← hflat]
        change Except.ok pieces.flatten = Except.ok (pieces.flatten ++ _) ↔ _
        rw [Except.ok.injEq, List.self_eq_append_right,
          stretch_eq_nil_iff hbound range.stop_le]
        refine ⟨fun hstop all h texts' _ m' hm' => ?_, fun h => ?_⟩
        · rw [← Except.ok.inj h, hfinal] at hm'
          rw [← Option.some.inj hm', hstop]
        · exact h (m :: ms) rfl texts htexts final hfinal

/-- **Partitioning and splitting lose no text. `regexp-replace-all` gives the stretches
with the substitutions if and only if the last match ends at the end of the text;
`regexp-replace` replaces the match of the given number when each search up to it finds
the same with the moved start as from the start, and only when they arrive at it.** -/
theorem cut_and_replace (re : Regexp α) (string : List α) (range : Range string) :
    (∀ strings, regexpPartition re string range.start range.stop = .ok strings →
      strings.flatten = stretch string range.start range.stop) ∧
    (∀ all, regexpSearchAll re string range.start range.stop = .ok all →
      ∃ strings, regexpPartition re string range.start range.stop = .ok strings) ∧
    (regexpSplit re string range.start range.stop =
      (regexpSearchAll re string range.start range.stop).map fun all =>
        stretches string range.stop range.start (all.filter fun m => !m.isEmpty)) ∧
    (∀ subst, regexpReplaceAll re string subst range.start range.stop =
        replaceAllClaimed re string range subst ↔
      ∀ all, regexpSearchAll re string range.start range.stop = .ok all →
        ∀ texts, substitutions subst string range.stop range.start all = .ok texts →
          ∀ m ∈ all.getLast?, m.stop = range.stop) ∧
    ∀ all, regexpSearchAll re string range.start range.stop = .ok all → ∀ count,
      (SearchesAgree re string range.start range.stop count range.start →
        ∀ subst, regexpReplace re string subst range.start range.stop count =
          replaceOne subst string range.start range.stop all[count]?) ∧
      ((∀ subst, regexpReplace re string subst range.start range.stop count =
          replaceOne subst string range.start range.stop all[count]?) ↔
        movedMatch re string range.stop count range.start = .ok all[count]?) := by
  refine ⟨fun strings => regexpPartition_flatten re string range,
    fun all => regexpPartition_returns re string range, regexpSplit_eq re string range,
    regexpReplaceAll_iff re string range, fun all hall count => ?_⟩
  have heq (subst : Subst α) : regexpReplace re string subst range.start range.stop count =
      movedMatch re string range.stop count range.start >>=
        replaceOne subst string range.start range.stop :=
    findMatch_eq subst range.start_le range.stop_le (Nat.le_refl range.start)
  refine ⟨fun hagree subst => ?_, fun h => ?_, fun h subst => ?_⟩
  · rw [heq, movedMatch_eq hagree hall]
    rfl
  · simp only [heq] at h
    cases hmoved : movedMatch re string range.stop count range.start with
    | error e =>
      have hempty : ∃ text, replaceOne (.elt (.string [])) string range.start range.stop
          all[count]? = .ok text := by
        cases all[count]? with
        | none => exact ⟨_, rfl⟩
        | some m => exact ⟨_, rfl⟩
      obtain ⟨text, htext⟩ := hempty
      have herror := h (.elt (.string []))
      rw [hmoved, htext] at herror
      cases herror
    | ok found =>
      rw [hmoved] at h
      rw [replaceOne_inj h]
  · rw [heq, h]
    rfl

end Result

/-- The regexp `(: bos "a")`. -/
def bosRegexp : Regexp Char :=
  Matcher.regexp
    { initialNode := 2
      nodes := [.terminal, .matching (· == 'a') 0, .charZeroWidth (fun _ prev => prev.isNone) 1]
      needGcb := false }
    [] (fun _ _ _ => []) 4

/-- The text behind the last match is lost, and a second match is found where the text
does not begin. -/
theorem replace_bos :
    regexpReplaceAll bosRegexp ['a', 'a'] (.elt (.string ['b'])) 0 2 = .ok ['b'] ∧
      replaceAllClaimed bosRegexp ['a', 'a'] ⟨0, 2, by decide, by decide⟩
        (.elt (.string ['b'])) = .ok ['b', 'a'] ∧
      regexpReplace bosRegexp ['a', 'a'] (.elt (.string ['b'])) 0 2 1 = .ok ['a', 'b'] ∧
      (regexpSearchAll bosRegexp ['a', 'a'] 0 2).map (·[1]?) = .ok none ∧
      replaceOne (.elt (.string ['b'])) ['a', 'a'] 0 2 none = .ok ['a', 'a'] := by
  decide +kernel

end MitScheme.Runtime.Srfi115
