import MitScheme.Runtime.LineEnding

/-! # Reading characters from a port

The input operations of `generic-io.scm` over a normalizer of any kind, and the line that the port
counts: a newline read out of the peeked slot is not counted. -/

namespace MitScheme.Runtime.GenericIo
open LineEnding

inductive Fault
  | cannotUnread (char : Nat)

/-- An input buffer. `σ` is what the normalizer works on. -/
structure InputBuffer (σ : Type) where
  source : σ
  peeked : Option Nat
  line : Int

section
variable {σ : Type} (normalizer : σ → Item × σ)

/-- `generic-io/peek-char`. -/
def peekChar (ib : InputBuffer σ) : Item × InputBuffer σ :=
  match ib.peeked with
  | some char => (.char char, ib)
  | none =>
    match normalizer ib.source with
    | (.char char, source) => (.char char, { ib with source := source, peeked := some char })
    | (item, source) => (item, { ib with source := source })

/-- `generic-io/read-char`. -/
def readChar (ib : InputBuffer σ) : Item × InputBuffer σ :=
  match ib.peeked with
  | some char => (.char char, { ib with peeked := none })
  | none =>
    let (item, source) := normalizer ib.source
    let line := if item = .char lineFeed then ib.line + 1 else ib.line
    (item, { ib with source := source, line := line })

/-- `generic-io/unread-char`. -/
def unreadChar (ib : InputBuffer σ) (char : Nat) : Except Fault (InputBuffer σ) :=
  match ib.peeked with
  | some _ => .error (.cannotUnread char)
  | none =>
    let line := if char = lineFeed then ib.line - 1 else ib.line
    .ok { ib with peeked := some char, line := line }

/-- The loop of `generic-io/read-substring`: the result, and the characters put into the string from
the index on. The first argument is `end` less the index. -/
def readSubstringLoop (start stop : Nat) :
    Nat → Nat → InputBuffer σ → (Option Nat × List Nat) × InputBuffer σ
  | 0, _, ib => ((some (stop - start), []), ib)
  | n + 1, index, ib =>
    match readChar normalizer ib with
    | (.wouldBlock, ib) => ((if start < index then some (index - start) else none, []), ib)
    | (.eof, ib) => ((some (index - start), []), ib)
    | (.char char, ib) =>
      let ((result, chars), ib) := readSubstringLoop start stop n (index + 1) ib
      ((result, char :: chars), ib)

/-- `generic-io/read-substring`. -/
def readSubstring (ib : InputBuffer σ) (start stop : Nat) :
    (Option Nat × List Nat) × InputBuffer σ :=
  readSubstringLoop normalizer start stop (stop - start) start ib

/-- `generic-io/input-line`. -/
def inputLine (ib : InputBuffer σ) : Int := ib.line

/-! ## Runs -/

inductive Operation
  | peek
  | read
  | unread
  | substring (start stop : Nat)

/-- A port, and the characters that reads have returned and that were not unread. -/
structure Session (σ : Type) where
  port : InputBuffer σ
  consumed : List Nat

def chars (items : List Item) : List Nat :=
  items.filterMap fun
    | .char c => some c
    | _ => none

/-- What an operation does. Only the character just read is unread, and not where the port signals an
error. -/
def step (s : Session σ) : Operation → Option (Session σ)
  | .peek => some ⟨(peekChar normalizer s.port).2, s.consumed⟩
  | .read =>
    let (item, port) := readChar normalizer s.port
    some ⟨port, s.consumed ++ chars [item]⟩
  | .unread =>
    match s.consumed.getLast? with
    | none => none
    | some char =>
      match unreadChar s.port char with
      | .ok port => some ⟨port, s.consumed.dropLast⟩
      | .error _ => none
  | .substring start stop =>
    let ((_, chars), port) := readSubstring normalizer s.port start stop
    some ⟨port, s.consumed ++ chars⟩

def run (s : Session σ) : List Operation → Option (Session σ)
  | [] => some s
  | op :: ops => (step normalizer s op).bind fun s => run s ops

def fresh (source : σ) : Session σ := ⟨⟨source, none, 0⟩, []⟩

/-- The results of the first calls of the normalizer, and what it works on behind them. -/
def fetch : Nat → σ → List Item × σ
  | 0, source => ([], source)
  | n + 1, source =>
    let (item, source) := normalizer source
    let (items, source) := fetch n source
    (item :: items, source)

end

def newlines (l : List Nat) : Int := l.count lineFeed

def TakesNewline {σ : Type} (s : Session σ) (op : Operation) : Prop :=
  s.port.peeked = some lineFeed ∧
    match op with
    | .read => True
    | .substring start stop => start < stop
    | .peek | .unread => False

instance {σ : Type} (s : Session σ) (op : Operation) : Decidable (TakesNewline s op) :=
  match op with
  | .read => inferInstanceAs (Decidable (_ ∧ True))
  | .substring start stop => inferInstanceAs (Decidable (_ ∧ start < stop))
  | .peek | .unread => inferInstanceAs (Decidable (_ ∧ False))

/-! ## The stream -/

section
variable {σ : Type} {normalizer : σ → Item × σ} {origin : σ}

theorem fetch_succ (n source) :
    fetch normalizer (n + 1) source =
      ((fetch normalizer n source).1 ++ [(normalizer (fetch normalizer n source).2).1],
        (normalizer (fetch normalizer n source).2).2) := by
  induction n generalizing source with
  | zero => rfl
  | succ n ih =>
    rw [fetch]
    show (_ :: (fetch normalizer (n + 1) _).1, (fetch normalizer (n + 1) _).2) = _
    rw [ih]
    rfl

theorem chars_append (items items') :
    chars (items ++ items') = chars items ++ chars items' := List.filterMap_append

/-- What was consumed and what is peeked are the characters of the stream so far. -/
def InStream (normalizer : σ → Item × σ) (origin : σ) (s : Session σ) : Prop :=
  ∃ n, (fetch normalizer n origin).2 = s.port.source ∧
    chars (fetch normalizer n origin).1 = s.consumed ++ s.port.peeked.toList

theorem InStream.next {s} (h : InStream normalizer origin s) (hp : s.port.peeked = none) :
    ∃ n, (fetch normalizer n origin).2 = (normalizer s.port.source).2 ∧
      chars (fetch normalizer n origin).1 = s.consumed ++ chars [(normalizer s.port.source).1] := by
  obtain ⟨n, hsource, hchars⟩ := h
  rw [hp, Option.toList_none, List.append_nil] at hchars
  refine ⟨n + 1, ?_, ?_⟩
  · rw [fetch_succ, hsource]
  · rw [fetch_succ, chars_append, hsource, hchars]

def readStep (normalizer : σ → Item × σ) (s : Session σ) : Session σ :=
  ⟨(readChar normalizer s.port).2, s.consumed ++ chars [(readChar normalizer s.port).1]⟩

theorem readStep_peeked {s char} (hp : s.port.peeked = some char) :
    readStep normalizer s = ⟨{ s.port with peeked := none }, s.consumed ++ [char]⟩ := by
  rw [readStep, readChar, hp]
  rfl

theorem readStep_empty {s} (hp : s.port.peeked = none) :
    readStep normalizer s =
      ⟨⟨(normalizer s.port.source).2, none,
          if (normalizer s.port.source).1 = .char lineFeed then s.port.line + 1 else s.port.line⟩,
        s.consumed ++ chars [(normalizer s.port.source).1]⟩ := by
  rw [readStep, readChar, hp]

theorem InStream.read {s} (h : InStream normalizer origin s) :
    InStream normalizer origin (readStep normalizer s) := by
  cases hp : s.port.peeked with
  | some char =>
    obtain ⟨n, hsource, hchars⟩ := h
    rw [readStep_peeked hp]
    refine ⟨n, hsource, ?_⟩
    rw [hchars, hp]
    exact (List.append_nil _).symm
  | none =>
    obtain ⟨n, hsource, hchars⟩ := h.next hp
    rw [readStep_empty hp]
    exact ⟨n, hsource, hchars.trans (List.append_nil _).symm⟩

theorem InStream.peek {s} (h : InStream normalizer origin s) :
    InStream normalizer origin ⟨(peekChar normalizer s.port).2, s.consumed⟩ := by
  rw [peekChar]
  cases hp : s.port.peeked with
  | some char => exact h
  | none =>
    obtain ⟨n, hsource, hchars⟩ := h.next hp
    cases hnext : normalizer s.port.source with
    | mk item source =>
      rw [hnext] at hsource hchars
      cases item with
      | char char => exact ⟨n, hsource, hchars⟩
      | wouldBlock | eof => exact ⟨n, hsource, hchars⟩

theorem readStep_clears (normalizer : σ → Item × σ) (s : Session σ) :
    (readStep normalizer s).port.peeked = none := by
  cases hp : s.port.peeked with
  | some char => rw [readStep_peeked hp]
  | none => rw [readStep_empty hp]

theorem readSubstringLoop_succ {P : Session σ → Prop} {start stop n} (index : Nat)
    (hrest : ∀ s, P s → s.port.peeked = none →
      P ⟨(readSubstringLoop normalizer start stop n (index + 1) s.port).2,
        s.consumed ++ (readSubstringLoop normalizer start stop n (index + 1) s.port).1.2⟩) {s}
    (h : P (readStep normalizer s)) :
    P ⟨(readSubstringLoop normalizer start stop (n + 1) index s.port).2,
      s.consumed ++ (readSubstringLoop normalizer start stop (n + 1) index s.port).1.2⟩ := by
  have hpeeked := readStep_clears normalizer s
  rw [readStep] at h hpeeked
  rw [readSubstringLoop]
  cases hr : readChar normalizer s.port with
  | mk item port =>
    rw [hr] at h hpeeked
    cases item with
    | char char =>
      have hchars := hrest _ h hpeeked
      rw [List.append_assoc] at hchars
      exact hchars
    | wouldBlock | eof => exact h

theorem readSubstringLoop_invariant {P : Session σ → Prop}
    (hread : ∀ s, P s → s.port.peeked = none → P (readStep normalizer s)) (start stop n index s)
    (h : P s) (hp : s.port.peeked = none) :
    P ⟨(readSubstringLoop normalizer start stop n index s.port).2,
      s.consumed ++ (readSubstringLoop normalizer start stop n index s.port).1.2⟩ := by
  induction n generalizing index s with
  | zero =>
    rw [readSubstringLoop, List.append_nil]
    exact h
  | succ n ih => exact readSubstringLoop_succ index (fun s => ih (index + 1) s) (hread s h hp)

/-! ## The line -/

def deficit (s : Session σ) : Int := newlines s.consumed - s.port.line

theorem newlines_append (l l') : newlines (l ++ l') = newlines l + newlines l' := by
  rw [newlines, newlines, newlines, List.count_append]
  exact Int.natCast_add ..

theorem newlines_singleton (char) : newlines [char] = if char = lineFeed then 1 else 0 := by
  rw [newlines, List.count_singleton]
  by_cases h : char = lineFeed
  · rw [if_pos h, h]
    rfl
  · rw [if_neg h, if_neg (by simpa using h)]
    rfl

theorem deficit_readStep (s) :
    deficit (readStep normalizer s) =
      deficit s + if s.port.peeked = some lineFeed then 1 else 0 := by
  cases hp : s.port.peeked with
  | some char =>
    rw [readStep_peeked hp]
    simp only [deficit, newlines_append, newlines_singleton, Option.some.injEq]
    omega
  | none =>
    rw [readStep_empty hp]
    simp only [deficit, newlines_append]
    cases (normalizer s.port.source).1 with
    | char c =>
      have hchars : chars [.char c] = [c] := rfl
      rw [hchars, newlines_singleton]
      simp only [Item.char.injEq, reduceCtorEq, if_false]
      split_ifs <;> omega
    | wouldBlock | eof =>
      show newlines s.consumed + 0 - s.port.line = _
      simp

theorem deficit_readStep_empty {s} (hp : s.port.peeked = none) :
    deficit (readStep normalizer s) = deficit s := by
  rw [deficit_readStep, hp]
  exact Int.add_zero _

theorem step_spec {s s' op} (h : InStream normalizer origin s)
    (hstep : step normalizer s op = some s') :
    InStream normalizer origin s' ∧
      deficit s' = deficit s + if TakesNewline s op then 1 else 0 := by
  cases op with
  | peek =>
    obtain rfl : _ = s' := Option.some.inj hstep
    refine ⟨h.peek, ?_⟩
    rw [if_neg (fun ht => ht.2), Int.add_zero, deficit, deficit, peekChar]
    cases s.port.peeked with
    | some char => rfl
    | none =>
      cases normalizer s.port.source with
      | mk item source => cases item <;> rfl
  | read =>
    obtain rfl : _ = s' := Option.some.inj hstep
    refine ⟨h.read, (deficit_readStep s).trans ?_⟩
    simp only [TakesNewline, and_true]
  | unread =>
    cases hlast : s.consumed.getLast? with
    | none =>
      rw [step, hlast] at hstep
      cases hstep
    | some char =>
      cases hp : s.port.peeked with
      | some c =>
        simp only [step, hlast, unreadChar, hp] at hstep
        cases hstep
      | none =>
        simp only [step, hlast, unreadChar, hp] at hstep
        obtain rfl : _ = s' := Option.some.inj hstep
        have hconsumed : s.consumed.dropLast ++ [char] = s.consumed :=
          List.dropLast_append_getLast? char hlast
        obtain ⟨n, hsource, hchars⟩ := h
        rw [hp] at hchars
        refine ⟨⟨n, hsource, ?_⟩, ?_⟩
        · rw [hchars]
          exact (List.append_nil _).trans hconsumed.symm
        · have hcount := newlines_append s.consumed.dropLast [char]
          rw [hconsumed, newlines_singleton] at hcount
          rw [if_neg (show ¬TakesNewline s .unread from fun ht => ht.2), deficit, deficit, hcount]
          show newlines s.consumed.dropLast -
            (if char = lineFeed then s.port.line - 1 else s.port.line) = _
          split_ifs <;> omega
  | substring start stop =>
    obtain rfl : (⟨(readSubstring normalizer s.port start stop).2,
        s.consumed ++ (readSubstring normalizer s.port start stop).1.2⟩ : Session σ) = s' :=
      Option.some.inj hstep
    rw [readSubstring]
    cases hn : stop - start with
    | zero =>
      rw [if_neg (fun ht => Nat.not_le.mpr ht.2 (Nat.sub_eq_zero_iff_le.mp hn)), Int.add_zero,
        readSubstringLoop, List.append_nil]
      exact ⟨h, rfl⟩
    | succ n =>
      -- behind the first read the slot is empty
      have hloop : ∀ (index : Nat) (s₁ : Session σ), _ → s₁.port.peeked = none → _ :=
        readSubstringLoop_invariant (P := fun s₁ => InStream normalizer origin s₁ ∧
          deficit s₁ = deficit (readStep normalizer s))
        (fun s₁ hs hp => ⟨hs.1.read, (deficit_readStep_empty hp).trans hs.2⟩) start stop n
      have hdone := readSubstringLoop_succ start (hloop (start + 1)) (s := s) ⟨h.read, rfl⟩
      rw [deficit_readStep] at hdone
      have htakes : s.port.peeked = some lineFeed ↔ TakesNewline s (.substring start stop) :=
        ⟨fun hp => ⟨hp, by omega⟩, fun ht => ht.1⟩
      simp only [htakes] at hdone
      exact hdone

def taken (normalizer : σ → Item × σ) (s : Session σ) : List Operation → Nat
  | [] => 0
  | op :: ops =>
    (if TakesNewline s op then 1 else 0) +
      match step normalizer s op with
      | some s => taken normalizer s ops
      | none => 0

theorem run_spec {s s' ops} (h : InStream normalizer origin s)
    (hrun : run normalizer s ops = some s') :
    InStream normalizer origin s' ∧ deficit s' = deficit s + taken normalizer s ops := by
  induction ops generalizing s with
  | nil =>
    obtain rfl := Option.some.inj hrun
    exact ⟨h, (Int.add_zero _).symm⟩
  | cons op ops ih =>
    rw [run, Option.bind_eq_some_iff] at hrun
    obtain ⟨s₁, hstep, hrun⟩ := hrun
    obtain ⟨h₁, hline⟩ := step_spec h hstep
    obtain ⟨h', hrest⟩ := ih h₁ hrun
    refine ⟨h', ?_⟩
    rw [hrest, hline, taken, hstep]
    split_ifs <;> push_cast <;> omega

theorem taken_eq_zero_iff {s s' ops} (hrun : run normalizer s ops = some s') :
    taken normalizer s ops = 0 ↔ ∀ before op behind s₁, ops = before ++ op :: behind →
      run normalizer s before = some s₁ → ¬TakesNewline s₁ op := by
  induction ops generalizing s with
  | nil => exact iff_of_true rfl fun before op behind s₁ heq => by simp at heq
  | cons op ops ih =>
    rw [run, Option.bind_eq_some_iff] at hrun
    obtain ⟨s₁, hstep, hrun⟩ := hrun
    rw [taken, hstep]
    show _ + taken normalizer s₁ ops = 0 ↔ _
    rw [Nat.add_eq_zero_iff, ih hrun]
    constructor
    · rintro ⟨hfirst, hrest⟩ before op' behind s₂ heq hbefore htakes
      cases before with
      | nil =>
        obtain ⟨rfl, rfl⟩ := List.cons.inj heq
        obtain rfl := Option.some.inj hbefore
        rw [if_pos htakes] at hfirst
        cases hfirst
      | cons op₁ before =>
        obtain ⟨rfl, rfl⟩ := List.cons.inj heq
        rw [run, hstep] at hbefore
        exact hrest before op' behind s₂ rfl hbefore htakes
    · intro hall
      refine ⟨if_neg (hall [] op ops s rfl rfl), fun before op' behind s₂ heq hbefore => ?_⟩
      refine hall (op :: before) op' behind s₂ (by rw [heq]; rfl) ?_
      rw [run, hstep]
      exact hbefore

/-- **When the line is right.** The characters are those of the stream in order in every run. The line
is the number of newlines consumed when no operation reads a newline out of the peeked slot. -/
theorem input_line_iff (normalizer : σ → Item × σ) (origin : σ) (ops : List Operation)
    (s : Session σ) (hrun : run normalizer (fresh origin) ops = some s) :
    (∃ n, (fetch normalizer n origin).2 = s.port.source ∧
      chars (fetch normalizer n origin).1 = s.consumed ++ s.port.peeked.toList) ∧
    (inputLine s.port = newlines s.consumed ↔
      ∀ before op behind s₁, ops = before ++ op :: behind →
        run normalizer (fresh origin) before = some s₁ → ¬TakesNewline s₁ op) := by
  have hfresh : InStream normalizer origin (fresh origin) := ⟨0, rfl, rfl⟩
  obtain ⟨hstream, hline⟩ := run_spec hfresh hrun
  have hstart : deficit (fresh origin) = 0 := rfl
  rw [hstart, deficit] at hline
  refine ⟨hstream, ?_⟩
  rw [← taken_eq_zero_iff hrun, inputLine]
  omega

/-- An unread letter and a substring behind a line in CRLF. -/
theorem input_line_crlf :
    inputLine (⟨⟨[some 0x63], []⟩, none, 1⟩ :
      InputBuffer LineEnding.InputBuffer) = newlines [0x0A, 0x61, 0x62] :=
  (input_line_iff normalizerCrlf ⟨[some 0x0D, some 0x0A, none, some 0x61, some 0x62, some 0x63], []⟩
    [.read, .read, .read, .unread, .peek, .substring 0 2] ⟨⟨⟨[some 0x63], []⟩, none, 1⟩,
      [0x0A, 0x61, 0x62]⟩ rfl).2.mpr ((taken_eq_zero_iff rfl).mp (by decide +kernel))

/-- A newline that is peeked first, and one that is unread. -/
theorem input_line_slot :
    (run normalizerNewline (fresh ⟨[some 0x0A], []⟩) [.peek, .read]).map
        (fun s => (inputLine s.port, newlines s.consumed)) = some (0, 1) ∧
      (run normalizerNewline (fresh ⟨[some 0x0A], []⟩) [.read, .unread, .read]).map
        (fun s => (inputLine s.port, newlines s.consumed)) = some (0, 1) := by
  decide +kernel

end

end MitScheme.Runtime.GenericIo
