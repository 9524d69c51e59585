import MitScheme.Runtime.RegexpNfa
import Mathlib.Data.List.Basic
import Mathlib.Order.Lattice

/-! # Searching and folding over the matches of a regexp

`regexp-search`, `regexp-fold` and `regexp-fold-right` of `srfi-115.scm`. The folds
go on searching from the end of a match, and from the position behind the one where
the search began when that is further. -/

namespace MitScheme.Runtime.Srfi115
open Lib.Outcome

variable {α β : Type}

/-- A compiled regexp: what its matcher finds at a position of a string, between two
bounds. -/
structure Regexp (α : Type) where
  submatchKeys : List Key
  run : List α → (start stop index : Nat) → Result (Option (Group × List Group))
  run_within : ∀ {string : List α} {start stop index : Nat} {group : Group} {groups : List Group},
    index ≤ stop → run string start stop index = .ok (some (group, groups)) →
      group.start = index ∧ index ≤ group.stop ∧ group.stop ≤ stop

def Matcher.regexp (m : Matcher α) (submatchKeys : List Key)
    (gcbs : List α → Nat → Nat → List Nat) (fuel : Nat) : Regexp α where
  submatchKeys
  run string start stop index := runMatcher m false string start stop gcbs fuel true index
  run_within := runMatcher_within

/-- A `regexp-match`. -/
structure Match where
  group : Group
  groups : List Group
  keys : List Key
  deriving DecidableEq

/-- `regexp-match-start`. -/
def Match.start (m : Match) : Nat := m.group.start

/-- `regexp-match-end`. -/
def Match.stop (m : Match) : Nat := m.group.stop

/-- `regexp-match-empty?`. -/
def Match.isEmpty (m : Match) : Bool := m.start = m.stop

structure Range (string : List α) where
  start : Nat
  stop : Nat
  start_le : start ≤ stop
  stop_le : stop ≤ string.length

def regexpMatch (re : Regexp α) (string : List α) (start stop index : Nat) :
    Result (Option Match) := do
  return (← re.run string start stop index).map fun g => ⟨g.1, g.2, re.submatchKeys⟩

def regexpSearch (re : Regexp α) (string : List α) (start stop index : Nat) :
    Result (Option Match) :=
  if index < stop then
    match regexpMatch re string start stop index with
    | .error e => .error e
    | .ok (some m) => .ok (some m)
    | .ok none => regexpSearch re string start stop (index + 1)
  else if index = stop then regexpMatch re string start stop index
  else .ok none
termination_by stop - index

theorem regexpMatch_within {re : Regexp α} {string : List α} {start stop index : Nat} {m : Match}
    (hle : index ≤ stop) (h : regexpMatch re string start stop index = .ok (some m)) :
    m.start = index ∧ m.start ≤ m.stop ∧ m.stop ≤ stop := by
  obtain ⟨found, hfound, h⟩ := bind_eq_ok h
  obtain ⟨⟨group, groups⟩, rfl, rfl⟩ := Option.map_eq_some_iff.mp (Except.ok.inj h)
  obtain ⟨hstart, hbounds⟩ := re.run_within hle hfound
  exact ⟨hstart, hstart.trans_le hbounds.1, hbounds.2⟩

theorem regexpSearch_some {re : Regexp α} {string : List α} {start stop index : Nat} {m : Match}
    (h : regexpSearch re string start stop index = .ok (some m)) :
    index ≤ m.start ∧ m.start ≤ m.stop ∧ m.stop ≤ stop ∧
      ∀ j, index ≤ j → j ≤ m.start → regexpSearch re string start stop j = .ok (some m) := by
  fun_induction regexpSearch re string start stop index with
  | case1 | case5 => cases h
  | case2 index hlt m' hmatch =>
    obtain rfl := Option.some.inj (Except.ok.inj h)
    obtain ⟨hstart, hwithin⟩ := regexpMatch_within hlt.le hmatch
    refine ⟨hstart.ge, hwithin.1, hwithin.2, fun j hle hge => ?_⟩
    obtain rfl : j = index := by omega
    rw [regexpSearch, if_pos hlt, hmatch]
  | case3 index hlt hnone ih =>
    obtain ⟨hle, hstop, hbound, hagain⟩ := ih h
    refine ⟨by omega, hstop, hbound, fun j hj hge => ?_⟩
    rcases Nat.eq_or_lt_of_le hj with rfl | hj
    · rw [regexpSearch, if_pos hlt, hnone]
      exact h
    · exact hagain j hj hge
  | case4 hlt =>
    obtain ⟨hstart, hwithin⟩ := regexpMatch_within (Nat.le_refl _) h
    refine ⟨hstart.ge, hwithin.1, hwithin.2, fun j hle hge => ?_⟩
    obtain rfl : j = _ := Nat.le_antisymm (hge.trans hstart.le) hle
    rw [regexpSearch, if_neg hlt, if_pos rfl]
    exact h

/-! ## The folds -/

section Folds

variable (re : Regexp α) (string : List α) (start stop : Nat) (ignore : Option (Match → Bool))
variable (kons : Nat → Match → List α → β → β)

/-- `(and ignore? (ignore? match))`. -/
def ignores (m : Match) : Bool := ignore.any (· m)

/-- The loop of `regexp-fold`. -/
def foldLoop (finish : Option (Nat → List α → β → β)) (index lastMatchEnd : Nat) (acc : β) :
    Result β :=
  match h : regexpSearch re string start stop index with
  | .error e => .error e
  | .ok none => .ok (finish.elim acc fun finish => finish lastMatchEnd string acc)
  | .ok (some m) =>
    if ignores ignore m then foldLoop finish (max m.stop (index + 1)) lastMatchEnd acc
    else foldLoop finish (max m.stop (index + 1)) m.stop (kons lastMatchEnd m string acc)
termination_by stop + 1 - index
decreasing_by all_goals have := regexpSearch_some h; omega

def regexpFold (knil : β) (finish : Option (Nat → List α → β → β)) : Result β :=
  foldLoop re string start stop ignore kons finish start start knil

/-- The loop of `regexp-fold-right`. -/
def foldRightLoop (knil : β) (finish : Option (Nat → List α → β → β))
    (index lastMatchEnd : Nat) : Result β :=
  match h : regexpSearch re string start stop index with
  | .error e => .error e
  | .ok none => .ok (finish.elim knil fun finish => finish lastMatchEnd string knil)
  | .ok (some m) =>
    if ignores ignore m then foldRightLoop knil finish (max m.stop (index + 1)) lastMatchEnd
    else
      (foldRightLoop knil finish (max m.stop (index + 1)) m.stop).map
        (kons lastMatchEnd m string)
termination_by stop + 1 - index
decreasing_by all_goals have := regexpSearch_some h; omega

def regexpFoldRight (knil : β) (finish : Option (Nat → List α → β → β)) : Result β :=
  foldRightLoop re string start stop ignore kons knil finish start start

def regexpSearchAll : Result (List Match) :=
  regexpFoldRight re string start stop none (fun _ m _ acc => m :: acc) [] none

end Folds

/-! ## The sequence of the matches -/

/-- Where the search for the match behind `m` begins: at its end, or at the next position
when it is empty. -/
def Match.next (m : Match) : Nat := if m.isEmpty then m.stop + 1 else m.stop

theorem Match.next_gt {m : Match} (h : m.start ≤ m.stop) : m.start < m.next := by
  rw [Match.next, Match.isEmpty]
  split
  · omega
  · rename_i hne
    have : m.start ≠ m.stop := by simpa using hne
    omega

/-- The matches in their order, each the first one found by `regexp-search` from the one
before it, with the positions where their searches begin. -/
def matchSequence (re : Regexp α) (string : List α) (start stop index : Nat) :
    Result (List (Nat × Match)) :=
  match _found : regexpSearch re string start stop index with
  | .error e => .error e
  | .ok none => .ok []
  | .ok (some m) => (matchSequence re string start stop m.next).map ((index, m) :: ·)
termination_by stop + 1 - index
decreasing_by
  have hfound := regexpSearch_some _found
  have := Match.next_gt hfound.2.1
  omega

/-- An empty match that was found beyond the position where its search began. -/
def revisited (p : Nat × Match) : Bool := p.2.isEmpty && p.1 < p.2.start

/-- The matches that the folds find: an empty one may be found again from its own
position. -/
def visits (ms : List (Nat × Match)) : List Match :=
  ms.flatMap fun p => if revisited p then [p.2, p.2] else [p.2]

def kept (ignore : Option (Match → Bool)) (ms : List Match) : List Match :=
  ms.filter fun m => !ignores ignore m

/-- What `regexp-fold` makes of the matches that it passes on. -/
def foldEnds (string : List α) (kons : Nat → Match → List α → β → β)
    (finish : Option (Nat → List α → β → β)) (last : Nat) (acc : β) : List Match → β
  | [] => finish.elim acc fun finish => finish last string acc
  | m :: ms => foldEnds string kons finish m.stop (kons last m string acc) ms

/-- What `regexp-fold-right` makes of them. -/
def foldRightEnds (string : List α) (kons : Nat → Match → List α → β → β) (knil : β)
    (finish : Option (Nat → List α → β → β)) (last : Nat) : List Match → β
  | [] => finish.elim knil fun finish => finish last string knil
  | m :: ms => kons last m string (foldRightEnds string kons knil finish m.stop ms)

@[simp] theorem visits_nil : visits [] = [] := rfl

theorem visits_cons (p ms) :
    visits (p :: ms) = if revisited p then p.2 :: p.2 :: visits ms else p.2 :: visits ms := by
  rw [visits, List.flatMap_cons]
  split <;> rfl

theorem kept_cons (ignore m ms) :
    kept ignore (m :: ms) = if ignores ignore m then kept ignore ms else m :: kept ignore ms := by
  rw [kept, List.filter_cons]
  cases ignores ignore m <;> rfl

theorem map_map {β γ : Type} (x : Result α) (f : α → β) (g : β → γ) :
    (x.map f).map g = x.map (g ∘ f) := by
  cases x <;> rfl

section Loops

variable {re : Regexp α} {string : List α} {start stop index : Nat}
variable {ignore : Option (Match → Bool)} {kons : Nat → Match → List α → β → β}
variable {finish : Option (Nat → List α → β → β)} {m : Match}

section
variable (h : regexpSearch re string start stop index = .ok (some m))
include h

theorem foldLoop_some (last acc) :
    foldLoop re string start stop ignore kons finish index last acc =
      if ignores ignore m then
        foldLoop re string start stop ignore kons finish (max m.stop (index + 1)) last acc
      else
        foldLoop re string start stop ignore kons finish (max m.stop (index + 1)) m.stop
          (kons last m string acc) := by
  rw [foldLoop]
  split <;> rename_i h' <;> rw [h] at h' <;> cases h'
  rfl

theorem foldRightLoop_some (knil last) :
    foldRightLoop re string start stop ignore kons knil finish index last =
      if ignores ignore m then
        foldRightLoop re string start stop ignore kons knil finish (max m.stop (index + 1)) last
      else
        (foldRightLoop re string start stop ignore kons knil finish (max m.stop (index + 1))
          m.stop).map (kons last m string) := by
  rw [foldRightLoop]
  split <;> rename_i h' <;> rw [h] at h' <;> cases h'
  rfl

theorem next_position :
    (revisited (index, m) = false ∧ max m.stop (index + 1) = m.next) ∨
      revisited (index, m) = true ∧ max m.stop (index + 1) = m.start ∧
        regexpSearch re string start stop m.start = .ok (some m) ∧
        max m.stop (m.start + 1) = m.next := by
  obtain ⟨hle, hstop, hbound, hagain⟩ := regexpSearch_some h
  rw [revisited, Match.next]
  cases hempty : m.isEmpty with
  | false =>
    have hne : m.start ≠ m.stop := of_decide_eq_false hempty
    refine .inl ⟨rfl, ?_⟩
    rw [if_neg Bool.false_ne_true]
    omega
  | true =>
    have heq : m.start = m.stop := of_decide_eq_true hempty
    rw [if_pos rfl, Bool.true_and]
    by_cases hlt : index < m.start
    · exact .inr ⟨decide_eq_true hlt, by omega, hagain m.start hle (Nat.le_refl _), by omega⟩
    · exact .inl ⟨decide_eq_false hlt, by omega⟩

end

theorem foldLoop_eq (last : Nat) (acc : β) :
    foldLoop re string start stop ignore kons finish index last acc =
      (matchSequence re string start stop index).map fun ms =>
        foldEnds string kons finish last acc (kept ignore (visits ms)) := by
  fun_induction matchSequence re string start stop index generalizing last acc with
  | case1 index e h =>
    rw [foldLoop]
    split <;> rename_i h' <;> rw [h] at h' <;> cases h'
    rfl
  | case2 index h =>
    rw [foldLoop]
    split <;> rename_i h' <;> rw [h] at h' <;> cases h'
    rfl
  | case3 index m h ih =>
    rw [map_map]
    rcases next_position h with ⟨honce, hnext⟩ | ⟨htwice, hback, hagain, hnext⟩
    · rw [foldLoop_some h, hnext]
      simp only [Function.comp_def, visits_cons, honce, if_neg Bool.false_ne_true, kept_cons]
      split
      · exact ih last acc
      · exact ih m.stop (kons last m string acc)
    · rw [foldLoop_some h, hback, foldLoop_some hagain, foldLoop_some hagain, hnext]
      simp only [Function.comp_def, visits_cons, htwice, if_true, kept_cons]
      split
      · exact ih last acc
      · exact ih m.stop (kons m.stop m string (kons last m string acc))

theorem foldRightLoop_eq (knil : β) (last : Nat) :
    foldRightLoop re string start stop ignore kons knil finish index last =
      (matchSequence re string start stop index).map fun ms =>
        foldRightEnds string kons knil finish last (kept ignore (visits ms)) := by
  fun_induction matchSequence re string start stop index generalizing last with
  | case1 index e h =>
    rw [foldRightLoop]
    split <;> rename_i h' <;> rw [h] at h' <;> cases h'
    rfl
  | case2 index h =>
    rw [foldRightLoop]
    split <;> rename_i h' <;> rw [h] at h' <;> cases h'
    rfl
  | case3 index m h ih =>
    rw [map_map]
    rcases next_position h with ⟨honce, hnext⟩ | ⟨htwice, hback, hagain, hnext⟩
    · rw [foldRightLoop_some h, hnext]
      simp only [Function.comp_def, visits_cons, honce, if_neg Bool.false_ne_true, kept_cons]
      split
      · exact ih last
      · rw [ih m.stop, map_map]
        rfl
    · rw [foldRightLoop_some h, hback, foldRightLoop_some hagain, foldRightLoop_some hagain,
        hnext]
      simp only [Function.comp_def, visits_cons, htwice, if_true, kept_cons]
      split
      · exact ih last
      · rw [ih m.stop, map_map, map_map]
        rfl

end Loops

/-! ## The order of the matches -/

/-- The matches lie between two positions, one behind the other. -/
inductive Ordered : Nat → Nat → List Match → Prop
  | nil {lo hi : Nat} (le : lo ≤ hi) : Ordered lo hi []
  | cons {lo hi : Nat} {m : Match} {ms : List Match} (lo_le : lo ≤ m.start)
      (start_le : m.start ≤ m.stop) (rest : Ordered m.stop hi ms) : Ordered lo hi (m :: ms)

theorem Ordered.le {lo hi ms} (h : Ordered lo hi ms) : lo ≤ hi := by
  induction h with
  | nil le => exact le
  | cons lo_le start_le rest ih => omega

theorem Ordered.mono {lo lo' hi ms} (h : Ordered lo hi ms) (hle : lo' ≤ lo) :
    Ordered lo' hi ms := by
  cases h with
  | nil le => exact .nil (hle.trans le)
  | cons lo_le start_le rest => exact .cons (hle.trans lo_le) start_le rest

theorem Ordered.kept {lo hi ms} (h : Ordered lo hi ms) (ignore) :
    Ordered lo hi (kept ignore ms) := by
  induction h with
  | nil le => exact .nil le
  | cons lo_le start_le rest ih =>
    rw [kept_cons]
    split
    · exact ih.mono (lo_le.trans start_le)
    · exact .cons lo_le start_le ih

theorem Ordered.stop_le {lo hi ms} (h : Ordered lo hi ms) : ∀ m ∈ ms, m.stop ≤ hi := by
  induction h with
  | nil le => simp
  | cons lo_le start_le rest ih => exact List.forall_mem_cons.mpr ⟨rest.le, ih⟩

section Order

variable {re : Regexp α} {string : List α} {start stop index : Nat}
variable {ms : List (Nat × Match)}

theorem matchSequence_within (h : matchSequence re string start stop index = .ok ms) :
    ∀ p ∈ ms, index ≤ p.2.start ∧ p.2.start ≤ p.2.stop ∧ p.2.stop ≤ stop := by
  fun_induction matchSequence re string start stop index generalizing ms with
  | case1 => cases h
  | case2 => simp [← Except.ok.inj h]
  | case3 index m hfound ih =>
    obtain ⟨hle, hstop, hbound, -⟩ := regexpSearch_some hfound
    have hnext := Match.next_gt hstop
    obtain ⟨rest, hrest, h⟩ := bind_eq_ok h
    obtain rfl := Except.ok.inj h
    rintro p (_ | ⟨_, hp⟩)
    · exact ⟨hle, hstop, hbound⟩
    · have := ih hrest p hp
      omega

theorem matchSequence_pairwise (h : matchSequence re string start stop index = .ok ms) :
    ms.Pairwise fun p q => p.2.start < q.2.start ∧ p.2.stop ≤ q.2.start := by
  fun_induction matchSequence re string start stop index generalizing ms with
  | case1 => cases h
  | case2 => simp [← Except.ok.inj h]
  | case3 index m hfound ih =>
    obtain ⟨hle, hstop, hbound, -⟩ := regexpSearch_some hfound
    have hnext := Match.next_gt hstop
    have hend : m.stop ≤ m.next := by
      rw [Match.next]
      split <;> omega
    obtain ⟨rest, hrest, h⟩ := bind_eq_ok h
    obtain rfl := Except.ok.inj h
    refine List.pairwise_cons.mpr ⟨fun q hq => ?_, ih hrest⟩
    have hbounds := matchSequence_within hrest q hq
    exact ⟨hnext.trans_le hbounds.1, hend.trans hbounds.1⟩

theorem visits_ordered (hle : index ≤ stop)
    (h : matchSequence re string start stop index = .ok ms) : Ordered index stop (visits ms) := by
  fun_induction matchSequence re string start stop index generalizing ms with
  | case1 => cases h
  | case2 =>
    rw [← Except.ok.inj h]
    exact .nil hle
  | case3 index m hfound ih =>
    obtain ⟨hstart, hstop, hbound, -⟩ := regexpSearch_some hfound
    obtain ⟨rest, hrest, h⟩ := bind_eq_ok h
    obtain rfl := Except.ok.inj h
    have hordered : Ordered m.stop stop (visits rest) := by
      by_cases hnext : m.next ≤ stop
      · refine (ih hnext hrest).mono ?_
        rw [Match.next]
        split <;> omega
      · -- nothing is found behind the end
        have hnone : rest = [] := List.eq_nil_iff_forall_not_mem.mpr fun p hp => by
          have := matchSequence_within hrest p hp
          omega
        rw [hnone]
        exact .nil hbound
    rw [visits_cons]
    split
    · rename_i htwice
      have hempty : m.start = m.stop := of_decide_eq_true (Bool.and_eq_true_iff.mp htwice).1
      exact .cons hstart hstop (.cons hempty.ge hstop hordered)
    · exact .cons hstart hstop hordered

end Order

/-! ## Which matches the folds pass on -/

theorem kept_length_le (ignore ms) :
    (kept ignore (ms.map (·.2))).length ≤ (kept ignore (visits ms)).length := by
  induction ms with
  | nil => exact Nat.le_refl _
  | cons p ms ih =>
    rw [List.map_cons, visits_cons]
    by_cases hignore : ignores ignore p.2
    · split <;> simpa only [kept_cons, if_pos hignore] using ih
    · split <;> simp only [kept_cons, if_neg hignore, List.length_cons] <;> omega

theorem kept_visits_eq_iff (ignore ms) :
    kept ignore (visits ms) = kept ignore (ms.map (·.2)) ↔
      ∀ p ∈ ms, revisited p → ignores ignore p.2 := by
  induction ms with
  | nil => simp
  | cons p ms ih =>
    rw [List.map_cons, visits_cons, List.forall_mem_cons, ← ih]
    by_cases htwice : revisited p
    · rw [if_pos htwice]
      by_cases hignore : ignores ignore p.2
      · simp only [kept_cons, if_pos hignore]
        exact ⟨fun h => ⟨fun _ => hignore, h⟩, fun h => h.2⟩
      · simp only [kept_cons, if_neg hignore]
        refine ⟨fun heq => ?_, fun h => absurd (h.1 htwice) hignore⟩
        have hlen := congrArg List.length heq
        have := kept_length_le ignore ms
        simp only [List.length_cons] at hlen
        omega
    · rw [if_neg htwice]
      have hhead : revisited p → ignores ignore p.2 := fun h => absurd h htwice
      simp only [kept_cons]
      split
      · exact ⟨fun h => ⟨hhead, h⟩, fun h => h.2⟩
      · rw [List.cons_inj_right]
        exact ⟨fun h => ⟨hhead, h⟩, fun h => h.2⟩

section Passed

variable (re : Regexp α) (string : List α) (start stop : Nat) (ignore : Option (Match → Bool))

/-- The matches that `regexp-fold` passes to `kons`. -/
def passedByFold : Result (List Match) :=
  regexpFold re string start stop ignore (fun _ m _ acc => acc ++ [m]) [] none

/-- The matches that `regexp-fold-right` passes to `kons`. -/
def passedByFoldRight : Result (List Match) :=
  regexpFoldRight re string start stop ignore (fun _ m _ acc => m :: acc) [] none

theorem foldEnds_append (last acc ms) :
    foldEnds string (fun _ m _ acc => acc ++ [m]) none last acc ms = acc ++ ms := by
  induction ms generalizing last acc with
  | nil => simp [foldEnds]
  | cons m ms ih => simp [foldEnds, ih]

theorem foldRightEnds_cons (last ms) :
    foldRightEnds string (fun _ m _ acc => m :: acc) [] none last ms = ms := by
  induction ms generalizing last with
  | nil => rfl
  | cons m ms ih => rw [foldRightEnds, ih]

theorem passedByFold_eq : passedByFold re string start stop ignore =
    (matchSequence re string start stop start).map fun ms => kept ignore (visits ms) := by
  rw [passedByFold, regexpFold, foldLoop_eq]
  simp only [foldEnds_append, List.nil_append]

theorem passedByFoldRight_eq : passedByFoldRight re string start stop ignore =
    (matchSequence re string start stop start).map fun ms => kept ignore (visits ms) := by
  rw [passedByFoldRight, regexpFoldRight, foldRightLoop_eq]
  simp only [foldRightEnds_cons]

theorem regexpSearchAll_eq : regexpSearchAll re string start stop =
    (matchSequence re string start stop start).map visits := by
  have h := passedByFoldRight_eq re string start stop none
  have hkept : ∀ ms, kept none ms = ms := fun ms => List.filter_true ms
  simp only [hkept] at h
  exact h

end Passed

theorem map_eq_iff {γ δ : Type} {x : Result γ} {f g : γ → δ} :
    x.map f = x.map g ↔ ∀ a, x = .ok a → f a = g a := by
  cases x with
  | error e => simp [Except.map]
  | ok a => simp [Except.map]

/-- **Each match is passed on once if and only if no match that is not ignored is empty and
starts beyond the position where its search began.** The two folds always pass on the same
matches. -/
theorem fold_visits_once_iff (re : Regexp α) (string : List α) (range : Range string)
    (ignore : Option (Match → Bool)) :
    let sequence := matchSequence re string range.start range.stop range.start
    let claimed := sequence.map fun ms => kept ignore (ms.map (·.2))
    let once := ∀ ms, sequence = .ok ms → ∀ p ∈ ms, revisited p → ignores ignore p.2
    (passedByFold re string range.start range.stop ignore = claimed ↔ once) ∧
      (passedByFoldRight re string range.start range.stop ignore = claimed ↔ once) ∧
      (regexpSearchAll re string range.start range.stop = sequence.map (·.map (·.2)) ↔
        ∀ ms, sequence = .ok ms → ∀ p ∈ ms, ¬ revisited p) ∧
      passedByFold re string range.start range.stop ignore =
        passedByFoldRight re string range.start range.stop ignore ∧
      ∀ ms, sequence = .ok ms →
        ms.Pairwise fun p q => p.2.start < q.2.start ∧ p.2.stop ≤ q.2.start := by
  intro sequence claimed once
  refine ⟨?_, ?_, ?_, ?_, fun ms => matchSequence_pairwise⟩
  · rw [passedByFold_eq, map_eq_iff]
    simp only [kept_visits_eq_iff]
    rfl
  · rw [passedByFoldRight_eq, map_eq_iff]
    simp only [kept_visits_eq_iff]
    rfl
  · rw [regexpSearchAll_eq, map_eq_iff]
    have hkept : ∀ ms, kept none ms = ms := fun ms => List.filter_true ms
    have hiff := kept_visits_eq_iff none
    simp only [hkept, ignores, Option.any_none, Bool.false_eq_true, imp_false] at hiff
    simp only [hiff]
    rfl
  · rw [passedByFold_eq, passedByFoldRight_eq]

/-- The matcher of `eos`. -/
def eosMatcher : Matcher Char where
  initialNode := 1
  nodes := [.terminal, .charZeroWidth (fun next _ => next.isNone) 0]
  needGcb := false

def eosRegexp : Regexp Char := eosMatcher.regexp [] (fun _ _ _ => []) 4

/-- The match of `eos` at the end of a text of one character. -/
def eosMatch : Match := ⟨⟨.number 0, 1, 1⟩, [], []⟩

theorem eos_run_start : regexpMatch eosRegexp ['a'] 0 1 0 = .ok none := by
  have h : eosRegexp.run ['a'] 0 1 0 = .ok none := by
    change runMatcher eosMatcher false ['a'] 0 1 (fun _ _ _ => []) 4 true 0 = _
    rw [runMatcher, matchLoop]
    rfl
  rw [regexpMatch, h]
  rfl

theorem eos_run_end : regexpMatch eosRegexp ['a'] 0 1 1 = .ok (some eosMatch) := by
  have h : eosRegexp.run ['a'] 0 1 1 = .ok (some (eosMatch.group, [])) := by
    change runMatcher eosMatcher false ['a'] 0 1 (fun _ _ _ => []) 4 true 1 = _
    rw [runMatcher, matchLoop]
    rfl
  rw [regexpMatch, h]
  rfl

/-- The end of a text is found twice. -/
theorem fold_visits_eos_twice :
    passedByFold eosRegexp ['a'] 0 1 none = .ok [eosMatch, eosMatch] ∧
      matchSequence eosRegexp ['a'] 0 1 0 = .ok [(0, eosMatch)] := by
  have hend : regexpSearch eosRegexp ['a'] 0 1 1 = .ok (some eosMatch) := by
    rw [regexpSearch, if_neg (Nat.lt_irrefl 1), if_pos rfl, eos_run_end]
  have hstart : regexpSearch eosRegexp ['a'] 0 1 0 = .ok (some eosMatch) := by
    rw [regexpSearch, if_pos Nat.one_pos, eos_run_start]
    exact hend
  have hbehind : regexpSearch eosRegexp ['a'] 0 1 2 = .ok none := by
    rw [regexpSearch]
    rfl
  have hnil : matchSequence eosRegexp ['a'] 0 1 2 = .ok [] := by
    rw [matchSequence]
    split <;> rename_i h <;> rw [hbehind] at h <;> cases h
  have hsequence : matchSequence eosRegexp ['a'] 0 1 0 = .ok [(0, eosMatch)] := by
    rw [matchSequence]
    split <;> rename_i h <;> rw [hstart] at h <;> cases h
    have hnext : eosMatch.next = 2 := rfl
    rw [hnext, hnil]
    rfl
  refine ⟨?_, hsequence⟩
  rw [passedByFold_eq, hsequence]
  rfl

end MitScheme.Runtime.Srfi115
