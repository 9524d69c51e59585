import MitScheme.Runtime.RegsexpWays

/-! # The compiled matcher tries its ways

Every instruction hands the places of its ways to the success continuation, in
order, and each loop stops: it needs a turn for every character left and one
more. So the match of a string is the first of its ways. -/

namespace MitScheme.Runtime.Regexp
open Lib.Backtrack

variable {κ α : Type}

/-! ## The instructions try the ways -/

/-- The instruction hands the places of `w` to its success continuation, in
order, when the groups with the keys `keys` are started around it. -/
def Realizes (s : Source) (keys : List κ) (insn : Insn κ α) (w : Place κ → List (Place κ)) :
    Prop :=
  ∀ succeed started place fail, started.map Prod.fst = keys → place.position ≤ s.stop →
    insn succeed (place.state started) fail =
      runWays (fun place => succeed (place.state started)) (w place) fail

section Realizes
variable {s : Source} {keys : List κ} {insn insn' : Insn κ α} {w w' : Place κ → List (Place κ)}

theorem Realizes.seq (h : Realizes s keys insn w) (ha : Advances s w)
    (h' : Realizes s keys insn' w') :
    Realizes s keys (fun succeed => insn (insn' succeed)) fun place => (w place).flatMap w' := by
  intro succeed started place fail hkeys hp
  dsimp only
  rw [h _ _ _ _ hkeys hp, runWays_flatMap]
  exact runWays_congr fun mid hmid fail => h' _ _ _ _ hkeys (ha place hp mid hmid).2

theorem Realizes.congr (h : Realizes s keys insn w) (hw : ∀ place, w place = w' place) :
    Realizes s keys insn w' := by
  obtain rfl : w = w' := funext hw
  exact h

theorem realizes_stay : Realizes s keys (fun succeed => succeed : Insn κ α)
    fun place => [place] :=
  fun _ _ _ _ _ _ => rfl

theorem realizes_test (test) : Realizes s keys (insnTest test : Insn κ α)
    fun place => if test place.position then [place] else [] := by
  intro succeed started place fail _ _
  have hstate : (place.state started).position = place.position := rfl
  simp only [insnTest, hstate]
  split <;> rfl

theorem realizes_charMatching (predicate) :
    Realizes s keys (insnCharMatching s predicate : Insn κ α) (Place.afterChar s predicate) := by
  intro succeed started place fail _ _
  have hstate : (place.state started).position = place.position := rfl
  simp only [insnCharMatching, Place.afterChar, hstate]
  split <;> rfl

theorem afterChar_eq (c) (place : Place κ) : place.afterChar s (· = c) = place.after s [c] := by
  unfold Place.afterChar Place.after
  rw [stringLoop, stringLoop]
  split <;> rfl

theorem realizes_string : ∀ {string : List Char},
    Realizes s keys (insnString s string : Insn κ α) (Place.after s string)
  | [] => realizes_stay
  | [c] => (realizes_charMatching (· = c)).congr (afterChar_eq c)
  | c :: c' :: string => by
    intro succeed started place fail _ _
    have hstate : (place.state started).position = place.position := rfl
    simp only [insnString, Place.after, hstate]
    cases stringLoop s (c :: c' :: string) place.position with
    | none => rfl
    | some p => rfl

theorem realizes_ordered {greedy more succeed started} {place : Place κ} {fail : Unit → Result α}
    {ps} (h : ∀ fail, more (place.state started) fail =
      runWays (fun place => succeed (place.state started)) ps fail) :
    orderedChain greedy more succeed (place.state started) fail =
      runWays (fun place => succeed (place.state started)) (choose greedy ps place) fail := by
  unfold orderedChain choose
  cases greedy with
  | true =>
    rw [if_pos rfl, if_pos rfl, runWays_append]
    exact h _
  | false =>
    rw [if_neg Bool.false_ne_true, if_neg Bool.false_ne_true, runWays_cons]
    exact congrArg _ (funext fun _ => h fail)

theorem Realizes.optional (h : Realizes s keys insn w) (greedy) :
    Realizes s keys (insnOptional greedy insn) fun place => choose greedy (w place) place :=
  fun succeed _ _ _ hkeys hp => realizes_ordered fun fail => h succeed _ _ fail hkeys hp

theorem Realizes.starLoop (h : Realizes s keys insn w) (ha : Advances s w) (greedy : Bool)
    (succeed : Link κ α) (started : List (κ × Nat)) (hkeys : started.map Prod.fst = keys) :
    ∀ (fuel : Nat) (place : Place κ) (fail : Unit → Result α), place.position ≤ s.stop →
      place.left s < fuel → Regexp.starLoop greedy insn succeed fuel (place.state started) fail =
        runWays (fun place => succeed (place.state started))
          (starWays w (Place.left s) greedy place) fail
  | 0, _, _, _, hf => absurd hf (Nat.not_lt_zero _)
  | fuel + 1, place, fail, hp, hf => by
    rw [Regexp.starLoop, starWays]
    refine realizes_ordered fun fail => ?_
    rw [h _ _ _ _ hkeys hp, runWays_flatMap]
    refine runWays_congr fun mid hmid fail => ?_
    obtain ⟨h1, h2⟩ := ha place hp mid hmid
    have hmid' : (mid.state started).position = mid.position := rfl
    have hplace' : (place.state started).position = place.position := rfl
    rw [hmid', hplace']
    by_cases hsame : mid.position = place.position
    · have hsize : ¬ mid.left s < place.left s := by
        unfold Place.left
        omega
      rw [if_pos hsame, dif_neg hsize]
      rfl
    · have hsize : mid.left s < place.left s := by
        unfold Place.left
        omega
      rw [if_neg hsame, dif_pos hsize]
      exact h.starLoop ha greedy succeed started hkeys fuel mid fail h2 (by omega)

theorem Realizes.star (h : Realizes s keys insn w) (ha : Advances s w) (greedy) {fuel}
    (hf : s.stop < fuel) :
    Realizes s keys (insnStar fuel greedy insn) (starWays w (Place.left s) greedy) :=
  fun succeed started place fail hkeys hp =>
    h.starLoop ha greedy succeed started hkeys fuel place fail hp
      (lt_of_le_of_lt (Nat.sub_le _ _) hf)

/-! Both chains link the same instructions. -/

theorem delayedChain_eq (limit : Nat) (preLinker : Link κ α → Insn κ α) :
    delayedChain limit preLinker = immediateChain limit preLinker := by
  funext succeed
  unfold delayedChain immediateChain
  induction limit with
  | zero => rfl
  | succ left ih => rw [delayedChain.loop, immediateChain.loop, ih]

theorem hybridChain_eq (limit : Nat) (preLinker : Link κ α → Insn κ α) :
    hybridChain limit preLinker = immediateChain limit preLinker := by
  unfold hybridChain
  split
  · rfl
  · exact delayedChain_eq limit preLinker

theorem Realizes.exactly (h : Realizes s keys insn w) (ha : Advances s w) (n) :
    Realizes s keys (repeatExactly n insn) (exactlyWays w n) := by
  unfold repeatExactly
  rw [hybridChain_eq]
  induction n with
  | zero => exact realizes_stay
  | succ n ih => exact h.seq ha ih

theorem Realizes.atMost (h : Realizes s keys insn w) (ha : Advances s w) (greedy n) :
    Realizes s keys
      (hybridChain n fun succeed next => orderedChain greedy (insn next) succeed)
      (atMostWays w greedy n) := by
  rw [hybridChain_eq]
  induction n with
  | zero => exact realizes_stay
  | succ n ih =>
    intro succeed started place fail hkeys hp
    refine realizes_ordered fun fail => ?_
    exact (h.seq ha ih) succeed started place fail hkeys hp

end Realizes

section Groups
variable [DecidableEq κ] {s : Source} {keys : List κ} {key : κ}

theorem Realizes.group {insn : Insn κ α} {w : Place κ → List (Place κ)} (hkey : key ∉ keys)
    (h : Realizes s (key :: keys) insn w) :
    Realizes s keys (insnGroup s key insn) fun place => (w place).map fun place' =>
      ⟨place'.position, ⟨key, place.position, place'.position,
        s.extractString place.position place'.position⟩ :: place'.ended⟩ := by
  intro succeed started place fail hkeys hp
  have hstart : startGroup key place.position (place.state started).groups =
      .ok ⟨(key, place.position) :: started, place.ended⟩ :=
    if_neg (by rw [show (place.state started).groups.started = started from rfl, hkeys]; exact hkey)
  have hbody := fun succeed fail => h succeed ((key, place.position) :: started) place fail
    (by rw [List.map_cons, hkeys]) hp
  have hend : ∀ place' : Place κ, endGroup s key place'.position
      (place'.state ((key, place.position) :: started)).groups =
      .ok ⟨started, ⟨key, place.position, place'.position,
        s.extractString place.position place'.position⟩ :: place'.ended⟩ :=
    fun place' => if_pos rfl
  have hstate : (place.state started).position = place.position := rfl
  rw [insnGroup, runWays_map]
  simp only [hstate, hstart]
  refine (hbody _ fail).trans (runWays_congr fun place' _ fail => ?_)
  have hstate' : (place'.state ((key, place.position) :: started)).position = place'.position := rfl
  simp only [hstate', hend]
  rfl

theorem realizes_groupRef (hkey : key ∉ keys) :
    Realizes s keys (insnGroupRef s key : Insn κ α) (Place.afterGroup s key) := by
  intro succeed started place fail hkeys hp
  have hfind : findGroup key (place.state started).groups =
      .ok (place.ended.find? (·.key = key)) :=
    if_neg (by rw [show (place.state started).groups.started = started from rfl, hkeys]; exact hkey)
  simp only [insnGroupRef, hfind, Place.afterGroup]
  cases place.ended.find? (·.key = key) with
  | none => rfl
  | some group => exact realizes_string succeed started place fail hkeys hp

end Groups

/-! ## Legal expressions -/

section Legal

mutual

/-- A group does not stand in a group of its own key, a reference does not
stand in the group it names, and the bounds of a repetition are in order. -/
def Legal : List κ → Regsexp κ → Prop
  | keys, .seq rs | keys, .alt rs => LegalAll keys rs
  | keys, .optional _ r | keys, .star _ r | keys, .plus _ r => Legal keys r
  | keys, .repeated _ n m r => (∀ limit ∈ m, n ≤ limit) ∧ Legal keys r
  | keys, .group key r => key ∉ keys ∧ Legal (key :: keys) r
  | keys, .groupRef key => key ∉ keys
  | _, _ => True

def LegalAll : List κ → List (Regsexp κ) → Prop
  | _, [] => True
  | keys, r :: rs => Legal keys r ∧ LegalAll keys rs

end

end Legal

section Compile
variable [DecidableEq κ] {s : Source} {fuel : Nat}

mutual

/-- **A compiled expression tries its ways in order**, given a turn of each
loop for every character and one more. -/
theorem realizes_compile (hf : s.stop < fuel) : (r : Regsexp κ) → (keys : List κ) →
    Legal keys r → Realizes s keys (compile s fuel r : Insn κ α) (ways s r)
  | .char c, keys, _ => by
    simpa only [compile, insnChar, ways] using realizes_charMatching (· = c)
  | .string string, keys, _ => by simpa only [compile, ways] using realizes_string
  | .charIn charSet, keys, _ => by simpa only [compile, ways] using realizes_charMatching charSet
  | .anyChar, keys, _ => by simpa only [compile, ways] using realizes_charMatching (· ≠ '\n')
  | .lineStart, keys, _ => by
    simpa only [compile, insnLineStart, ways] using
      realizes_test fun p => (s.prevChar p).all (· = '\n')
  | .lineEnd, keys, _ => by
    simpa only [compile, insnLineEnd, ways] using
      realizes_test fun p => (s.nextChar p).all (· = '\n')
  | .stringStart, keys, _ => by
    simpa only [compile, insnStringStart, ways] using
      realizes_test fun p => (s.prevChar p).isNone
  | .stringEnd, keys, _ => by
    simpa only [compile, insnStringEnd, ways] using
      realizes_test fun p => (s.nextChar p).isNone
  | .seq rs, keys, hl => by
    simpa only [compile, ways] using realizes_seq hf rs keys (by simpa only [Legal] using hl)
  | .alt rs, keys, hl => by
    simpa only [compile, ways] using realizes_alt hf rs keys (by simpa only [Legal] using hl)
  | .optional greedy r, keys, hl => by
    simpa only [compile, ways] using
      (realizes_compile hf r keys (by simpa only [Legal] using hl)).optional greedy
  | .star greedy r, keys, hl => by
    simpa only [compile, ways] using
      (realizes_compile hf r keys (by simpa only [Legal] using hl)).star (advances_ways r) greedy hf
  | .plus greedy r, keys, hl => by
    have h := realizes_compile hf r keys (by simpa only [Legal] using hl)
    have ha := advances_ways (s := s) r
    have hone : ∀ place, exactlyWays (ways s r) 1 place = ways s r place := fun place => by
      rw [exactlyWays]
      exact List.flatMap_singleton' _
    have hstar := (h.exactly ha 1).seq (ha.exactly 1) (h.star ha greedy hf)
    simp only [hone] at hstar
    simpa only [compile, insnRepeat, ways] using hstar
  | .repeated greedy n (some m) r, keys, hl => by
    have h := realizes_compile hf r keys (by simp only [Legal] at hl; exact hl.2)
    have ha := advances_ways (s := s) r
    simpa only [compile, insnRepeat, ways] using
      (h.exactly ha n).seq (ha.exactly n) (h.atMost ha greedy (m - n))
  | .repeated greedy n none r, keys, hl => by
    have h := realizes_compile hf r keys (by simp only [Legal] at hl; exact hl.2)
    have ha := advances_ways (s := s) r
    simpa only [compile, insnRepeat, ways] using
      (h.exactly ha n).seq (ha.exactly n) (h.star ha greedy hf)
  | .group key r, keys, hl => by
    simp only [Legal] at hl
    simpa only [compile, ways] using
      Realizes.group hl.1 (realizes_compile hf r (key :: keys) hl.2)
  | .groupRef key, keys, hl => by
    simpa only [compile, ways] using realizes_groupRef (by simpa only [Legal] using hl)

theorem realizes_seq (hf : s.stop < fuel) : (rs : List (Regsexp κ)) → (keys : List κ) →
    LegalAll keys rs → Realizes s keys (insnSeq (compileAll s fuel rs) : Insn κ α) (seqWays s rs)
  | [], keys, _ => by
    intro succeed started place fail _ _
    rw [compileAll, seqWays]
    rfl
  | r :: rs, keys, hl => by
    simp only [LegalAll] at hl
    intro succeed started place fail hkeys hp
    rw [compileAll, seqWays]
    exact (realizes_compile hf r keys hl.1).seq (advances_ways r) (realizes_seq hf rs keys hl.2)
      succeed started place fail hkeys hp

theorem realizes_alt (hf : s.stop < fuel) : (rs : List (Regsexp κ)) → (keys : List κ) →
    LegalAll keys rs → Realizes s keys (insnAlt (compileAll s fuel rs) : Insn κ α) (altWays s rs)
  | [], keys, _ => by
    intro succeed started place fail _ _
    simp only [compileAll, altWays]
    rfl
  | [r], keys, hl => by
    simp only [LegalAll] at hl
    simpa only [compileAll, altWays, insnAlt, List.append_nil] using
      realizes_compile hf r keys hl.1
  | r :: next :: rs, keys, hl => by
    simp only [LegalAll] at hl
    have h := realizes_compile hf r keys hl.1
    have h' := realizes_alt hf (next :: rs) keys (by simpa only [LegalAll] using hl.2)
    intro succeed started place fail hkeys hp
    rw [altWays, runWays_append]
    simp only [compileAll, insnAlt, failureChain] at h' ⊢
    rw [h succeed started place _ hkeys hp]
    exact congrArg _ (funext fun _ => h' succeed started place fail hkeys hp)

end

theorem regsexpMatchString_eq {fuel : Nat} {r : Regsexp κ} (hl : Legal [] r) {string : List Char}
    {start stop : Nat} (hss : start ≤ stop) (hf : stop < fuel) :
    regsexpMatchString fuel r string start stop =
      .ok ((ways ⟨string, start, stop⟩ r ⟨start, []⟩).head?.map fun place =>
        ⟨start, place.position,
          place.ended.reverse.map fun group => (group.key, group.value)⟩) := by
  have h := realizes_compile (s := ⟨string, start, stop⟩) hf r [] hl
    (fun state _ => .ok (some (state.position, state.groups.ended.reverse))) [] ⟨start, []⟩
    (fun _ => .ok none) rfl hss
  have hstate : (Place.state ⟨start, []⟩ [] : State κ) = ⟨start, ⟨[], []⟩⟩ := rfl
  rw [hstate] at h
  unfold regsexpMatchString topLevelMatch
  rw [h]
  cases ways ⟨string, start, stop⟩ r ⟨start, []⟩ with
  | nil => rfl
  | cons place rest => rfl

end Compile

end MitScheme.Runtime.Regexp
