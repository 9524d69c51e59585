import MitScheme.Runtime.QuotedPrintable

/-! # Quoted-printable decoding and packet boundaries

`reference` is what the text stands for. On clean text the decoder writes it however the text is
cut; on any other text some way of cutting it makes the decoder write something else. -/

namespace MitScheme.Runtime.QuotedPrintable
open Decoding

variable {digits : DecimalDigits} {checked : Bool}

section Reference

variable (digits : DecimalDigits)

/-- `c` is a hexadecimal digit for `char->digit`. -/
def isHex (c : Nat) : Bool := (charToDigit digits c).isSome

def hexValue (c1 c2 : Nat) : Nat :=
  (charToDigit digits c1).getD 0 <<< 4 ||| (charToDigit digits c2).getD 0

def isSoftBreak (s : List Nat) : Bool := (s.dropWhile isLwsp).head? = some newlineChar

def afterBreak (s : List Nat) : List Nat := (s.dropWhile isLwsp).tail

/-- Whitespace that is followed by a newline or the end of the text is dropped. -/
def dropsLwsp (s : List Nat) : Bool := s.all isLwsp || isSoftBreak s

theorem afterBreak_length (s) : (afterBreak s).length ≤ s.length := by
  have := (List.dropWhile_suffix isLwsp (l := s)).length_le
  rw [afterBreak, List.length_tail]
  omega

/-- What a text stands for. An equals sign that starts neither an escape nor a soft line break
stays, and so does a single character between it and the end of the line. (Where that character
is a digit the decoder drops the line break.) -/
def reference : List Nat → List Nat
  | [] => []
  | c :: rest =>
    if c = equals then
      if isSoftBreak rest then reference (afterBreak rest)
      else
        match rest with
        | [] => [equals]
        | [c1] => [equals, c1]
        | c1 :: c2 :: rest' =>
          if c2 = newlineChar then
            if isHex digits c1 then equals :: c1 :: reference rest'
            else equals :: c1 :: newlineChar :: reference rest'
          else if isHex digits c1 && isHex digits c2 then
            hexValue digits c1 c2 :: reference rest'
          else if (c2 :: rest').all isLwsp then [equals, c1]
          else equals :: reference (c1 :: c2 :: rest')
    else if isLwsp c then if dropsLwsp rest then reference rest else c :: reference rest
    else if c = newlineChar then c :: reference rest
    else if isQpEncoded c then reference rest
    else c :: reference rest
termination_by s => s.length
decreasing_by
  all_goals
    simp only [List.length_cons]
    try have := afterBreak_length rest
    omega

/-- No whitespace stands before a newline, and an equals sign is followed by two digits, by a
newline, by the end of the text, or by one character that is the last of its line and not
whitespace; after one that is no digit the text may also end in whitespace. -/
def isClean : List Nat → Bool
  | [] => true
  | c :: rest =>
    if c = equals then
      match rest with
      | [] => true
      | c1 :: rest =>
        if c1 = newlineChar then isClean rest
        else if isLwsp c1 then false
        else
          match rest with
          | [] => true
          | c2 :: rest =>
            if c2 = newlineChar then isClean rest
            else if isHex digits c1 then isHex digits c2 && isClean rest
            else (c2 :: rest).all isLwsp
    else if isLwsp c then rest.head? != some newlineChar && isClean rest
    else isClean rest
termination_by s => s.length

end Reference

/-! ## Characters -/

theorem charToDigit_ascii {c} (h : c < 0x30) : charToDigit digits c = none := by
  rw [charToDigit, digits.ascii c (by omega), if_neg (by omega)]
  dsimp only
  rw [if_neg (by omega), if_neg (by omega)]

theorem not_isHex_lwsp {c} (h : isLwsp c = true) : isHex digits c = false := by
  have hc : c = 0x20 ∨ c = 0x09 := by simpa [isLwsp, space, tab] using h
  rw [isHex, charToDigit_ascii (by omega)]
  rfl

theorem not_isHex_newline : isHex digits newlineChar = false := by
  rw [isHex, charToDigit_ascii (by decide)]
  rfl

theorem not_isHex_equals : isHex digits equals = false := by
  rw [isHex, charToDigit, digits.ascii equals (by decide), if_neg (by decide)]
  decide

theorem not_isLwsp_of_isHex {c} (h : isHex digits c = true) : isLwsp c = false := by
  rw [Bool.eq_false_iff]
  intro hl
  simp [not_isHex_lwsp hl] at h

theorem ne_newline_of_isHex {c} (h : isHex digits c = true) : c ≠ newlineChar := by
  rintro rfl
  simp [not_isHex_newline] at h

theorem ne_equals_of_isHex {c} (h : isHex digits c = true) : c ≠ equals := by
  rintro rfl
  simp [not_isHex_equals] at h

theorem not_isLwsp_equals : isLwsp equals = false := by decide

theorem not_isLwsp_newline : isLwsp newlineChar = false := by decide

theorem isQpEncoded_lwsp {c} (h : isLwsp c = true) : isQpEncoded c = false := by
  have hc : c = 0x20 ∨ c = 0x09 := by simpa [isLwsp, space, tab] using h
  rcases hc with rfl | rfl <;> decide

theorem isQpEncoded_equals : isQpEncoded equals = true := by decide

theorem charToDigit_lt {c d} (h : charToDigit digits c = some d) : d < 16 := by
  rw [charToDigit] at h
  split at h
  · split at h
    · obtain rfl := Option.some.inj h
      assumption
    · cases h
  · split at h
    · obtain rfl := Option.some.inj h
      omega
    · split at h
      · obtain rfl := Option.some.inj h
        omega
      · cases h

theorem hexChar_hex {c1 c2} (h1 : isHex digits c1 = true) (h2 : isHex digits c2 = true) :
    hexChar digits checked c1 c2 = .ok (some (hexValue digits c1 c2)) := by
  obtain ⟨d1, hd1⟩ := Option.isSome_iff_exists.mp h1
  obtain ⟨d2, hd2⟩ := Option.isSome_iff_exists.mp h2
  simp only [hexChar, hexValue, hd1, hd2, digitLt16, bind, Except.bind, charToDigit_lt hd1,
    charToDigit_lt hd2, decide_true, if_true, Option.getD_some]
  rfl

/-! ## Reading the reference -/

variable {s : List Nat} (context : Decoding)

theorem isSoftBreak_cons {c} (hl : isLwsp c = false) :
    isSoftBreak (c :: s) = decide (c = newlineChar) := by
  rw [isSoftBreak, List.dropWhile_cons_of_neg (by simp [hl])]
  simp

theorem dropsLwsp_cons {c} (hl : isLwsp c = false) :
    dropsLwsp (c :: s) = decide (c = newlineChar) := by
  rw [dropsLwsp, isSoftBreak_cons hl]
  simp [hl]

theorem reference_nil : reference digits [] = [] := by rw [reference]

theorem reference_cons (c rest) : reference digits (c :: rest) =
    if c = equals then
      if isSoftBreak rest then reference digits (afterBreak rest)
      else
        match rest with
        | [] => [equals]
        | [c1] => [equals, c1]
        | c1 :: c2 :: rest' =>
          if c2 = newlineChar then
            if isHex digits c1 then equals :: c1 :: reference digits rest'
            else equals :: c1 :: newlineChar :: reference digits rest'
          else if isHex digits c1 && isHex digits c2 then
            hexValue digits c1 c2 :: reference digits rest'
          else if (c2 :: rest').all isLwsp then [equals, c1]
          else equals :: reference digits (c1 :: c2 :: rest')
    else if isLwsp c then
      if dropsLwsp rest then reference digits rest else c :: reference digits rest
    else if c = newlineChar then c :: reference digits rest
    else if isQpEncoded c then reference digits rest
    else c :: reference digits rest := by
  conv => lhs; unfold reference

theorem reference_newline :
    reference digits (newlineChar :: s) = newlineChar :: reference digits s := by
  rw [reference_cons, if_neg (by decide), if_neg (by simp [not_isLwsp_newline]), if_pos rfl]

theorem reference_soft : reference digits (equals :: newlineChar :: s) = reference digits s := by
  rw [reference_cons, if_pos rfl, if_pos (by simp [isSoftBreak_cons not_isLwsp_newline]), afterBreak,
    List.dropWhile_cons_of_neg (by simp [not_isLwsp_newline])]
  rfl

theorem reference_plain {c} (he : c ≠ equals) (hl : isLwsp c = false) (hn : c ≠ newlineChar) :
    reference digits (c :: s) = (if isQpEncoded c then [] else [c]) ++ reference digits s := by
  rw [reference_cons, if_neg he, if_neg (by simp [hl]), if_neg hn]
  split <;> rfl

theorem reference_lwsp {c} (hl : isLwsp c = true) (hd : dropsLwsp s = false) :
    reference digits (c :: s) = c :: reference digits s := by
  have he : c ≠ equals := by
    rintro rfl
    simp [not_isLwsp_equals] at hl
  rw [reference_cons, if_neg he, if_pos hl, if_neg (by simp [hd])]

theorem reference_all_lwsp (h : s.all isLwsp = true) : reference digits s = [] := by
  induction s with
  | nil => exact reference_nil
  | cons c s ih =>
    rw [List.all_cons, Bool.and_eq_true] at h
    have he : c ≠ equals := by
      rintro rfl
      simp [not_isLwsp_equals] at h
    rw [reference_cons, if_neg he, if_pos h.1, if_pos (by simp [dropsLwsp, h.2])]
    exact ih h.2

theorem reference_escape {c1 c2} (h1 : isHex digits c1 = true) (h2 : isHex digits c2 = true) :
    reference digits (equals :: c1 :: c2 :: s) = hexValue digits c1 c2 :: reference digits s := by
  have hn1 := ne_newline_of_isHex h1
  rw [reference_cons, if_pos rfl,
    if_neg (by simp [isSoftBreak_cons (not_isLwsp_of_isHex h1), hn1])]
  dsimp only
  rw [if_neg (ne_newline_of_isHex h2), if_pos (by simp [h1, h2])]

theorem reference_single {c1} (hl : isLwsp c1 = false) (hn : c1 ≠ newlineChar)
    (h1 : isHex digits c1 = false) (hs : s.all isLwsp = true ∨ s.head? = some newlineChar) :
    reference digits (equals :: c1 :: s) = equals :: c1 :: reference digits s := by
  rw [reference_cons, if_pos rfl, if_neg (by simp [isSoftBreak_cons hl, hn])]
  rcases s with _ | ⟨c2, s⟩
  · rw [reference_nil]
  · dsimp only
    rcases hs with hs | hs
    · have hc2 : isLwsp c2 = true := by
        rw [List.all_cons, Bool.and_eq_true] at hs
        exact hs.1
      have hn2 : c2 ≠ newlineChar := by
        rintro rfl
        simp [not_isLwsp_newline] at hc2
      rw [if_neg hn2, if_neg (by simp [h1]), if_pos hs, reference_all_lwsp hs]
    · obtain rfl : c2 = newlineChar := by simpa using hs
      rw [if_pos rfl, if_neg (by simp [h1]), reference_newline]

theorem reference_digit {c1} (h1 : isHex digits c1 = true) :
    reference digits (equals :: c1 :: newlineChar :: s) = equals :: c1 :: reference digits s ∧
      reference digits [equals, c1] = [equals, c1] := by
  have hl := not_isLwsp_of_isHex h1
  have hn := ne_newline_of_isHex h1
  constructor
  · rw [reference_cons, if_pos rfl, if_neg (by simp [isSoftBreak_cons hl, hn])]
    dsimp only
    rw [if_pos rfl, if_pos h1]
  · rw [reference_cons, if_pos rfl, if_neg (by simp [isSoftBreak_cons hl, hn])]

theorem reference_equals : reference digits [equals] = [equals] := by
  rw [reference_cons, if_pos rfl, if_neg (by decide)]

/-! ## Clean text -/

theorem isClean_nil : isClean digits [] = true := by rw [isClean]

theorem isClean_cons (c rest) : isClean digits (c :: rest) =
    if c = equals then
      match rest with
      | [] => true
      | c1 :: rest =>
        if c1 = newlineChar then isClean digits rest
        else if isLwsp c1 then false
        else
          match rest with
          | [] => true
          | c2 :: rest =>
            if c2 = newlineChar then isClean digits rest
            else if isHex digits c1 then isHex digits c2 && isClean digits rest
            else (c2 :: rest).all isLwsp
    else if isLwsp c then rest.head? != some newlineChar && isClean digits rest
    else isClean digits rest := by
  conv => lhs; unfold isClean

theorem isClean_soft : isClean digits (equals :: newlineChar :: s) = isClean digits s := by
  rw [isClean_cons, if_pos rfl]
  dsimp only
  rw [if_pos rfl]

theorem isClean_plain {c} (he : c ≠ equals) (hl : isLwsp c = false) :
    isClean digits (c :: s) = isClean digits s := by
  rw [isClean_cons, if_neg he, if_neg (by simp [hl])]

theorem isClean_lwsp {c} (hl : isLwsp c = true) :
    isClean digits (c :: s) = (s.head? != some newlineChar && isClean digits s) := by
  have he : c ≠ equals := by
    rintro rfl
    simp [not_isLwsp_equals] at hl
  rw [isClean_cons, if_neg he, if_pos hl]

theorem isClean_equals_lwsp {c} (hl : isLwsp c = true) :
    isClean digits (equals :: c :: s) = false := by
  have hn : c ≠ newlineChar := by
    rintro rfl
    simp [not_isLwsp_newline] at hl
  rw [isClean_cons, if_pos rfl]
  dsimp only
  rw [if_neg hn, if_pos hl]

theorem isClean_equals_one {c1} (hl : isLwsp c1 = false) : isClean digits [equals, c1] = true := by
  rw [isClean_cons, if_pos rfl]
  dsimp only
  split
  · exact isClean_nil
  · rw [if_neg (by simp [hl])]

theorem isClean_equals_two {c1 c2} (hn : c1 ≠ newlineChar) (hl : isLwsp c1 = false) :
    isClean digits (equals :: c1 :: c2 :: s) =
      if c2 = newlineChar then isClean digits s
      else if isHex digits c1 then isHex digits c2 && isClean digits s
      else (c2 :: s).all isLwsp := by
  rw [isClean_cons, if_pos rfl]
  dsimp only
  rw [if_neg hn, if_neg (by simp [hl])]

theorem isClean_escape {c1 c2} (h1 : isHex digits c1 = true) (h2 : isHex digits c2 = true) :
    isClean digits (equals :: c1 :: c2 :: s) = isClean digits s := by
  rw [isClean_equals_two (ne_newline_of_isHex h1) (not_isLwsp_of_isHex h1),
    if_neg (ne_newline_of_isHex h2), h1, if_pos rfl, h2, Bool.true_and]

theorem isClean_all_lwsp (h : s.all isLwsp = true) : isClean digits s = true := by
  induction s with
  | nil => exact isClean_nil
  | cons c s ih =>
    rw [List.all_cons, Bool.and_eq_true] at h
    rw [isClean_lwsp h.1, ih h.2, Bool.and_true, bne_iff_ne]
    rcases s with _ | ⟨d, s⟩
    · simp
    · rw [List.all_cons, Bool.and_eq_true] at h
      rintro heq
      obtain rfl : d = newlineChar := by simpa using heq
      simp [not_isLwsp_newline] at h

/-! ## Steps of the decoder -/

def pendingText : Pending → List Nat
  | .none => []
  | .string s => s
  | .char c => if c = equals then [equals] else [equals, c]

def Waiting (digits : DecimalDigits) : Pending → Prop
  | .none => True
  | .string s => s ≠ [] ∧ s.all isLwsp = true
  | .char c => c = equals ∨ isHex digits c = true

theorem loop_nil : loop digits checked [] context = .ok context := by
  rw [loop]

theorem loop_cons (char rest context) :
    loop digits checked (char :: rest) context =
      if isQpEncoded char then
        if char = equals then handleEquals digits checked rest context
        else loop digits checked rest context
      else loop digits checked rest (context.write [char]) := by
  conv => lhs; unfold loop

theorem handleEquals_nil :
    handleEquals digits checked [] context = .ok { context with pending := .char equals } := by
  rw [handleEquals]

theorem handleEquals_one (char context) :
    handleEquals digits checked [char] context =
      .ok (if (charToDigit digits char).isSome then { context with pending := .char char }
        else context.write [equals, char]) := by
  rw [handleEquals]

theorem handleEquals_two (c1 c2 rest context) :
    handleEquals digits checked (c1 :: c2 :: rest) context =
      context.decodeQpHex digits checked c1 c2 rest >>= fun r => loop digits checked r.2 r.1 := by
  rw [handleEquals]
  split
  · next f h => rw [h]; rfl
  · next c r h => rw [h]; rfl

theorem loop_equals (rest context) :
    loop digits checked (equals :: rest) context = handleEquals digits checked rest context := by
  rw [loop_cons, if_pos isQpEncoded_equals, if_pos rfl]

theorem loop_escape {c1 c2} (rest context) (h1 : isHex digits c1 = true)
    (h2 : isHex digits c2 = true) :
    loop digits checked (equals :: c1 :: c2 :: rest) context =
      loop digits checked rest (context.write [hexValue digits c1 c2]) := by
  rw [loop_equals, handleEquals_two, decodeQpHex, hexChar_hex h1 h2]
  rfl

theorem loop_plain {c} (rest context) (he : c ≠ equals) :
    loop digits checked (c :: rest) context =
      loop digits checked rest (context.write (if isQpEncoded c then [] else [c])) := by
  rw [loop_cons]
  by_cases hq : isQpEncoded c = true
  · rw [if_pos hq, if_neg he, if_pos hq]
    simp [Decoding.write]
  · rw [if_neg hq, if_neg hq]

theorem write_write (s1 s2) :
    (context.write s1).write s2 = context.write (s1 ++ s2) := by simp [Decoding.write]

theorem loop_lwsp (hs : s.all isLwsp = true) (rest context) :
    loop digits checked (s ++ rest) context = loop digits checked rest (context.write s) := by
  induction s generalizing context with
  | nil => simp [Decoding.write]
  | cons c s ih =>
    rw [List.all_cons, Bool.and_eq_true] at hs
    have he : c ≠ equals := by
      rintro rfl
      simp [not_isLwsp_equals] at hs
    rw [List.cons_append, loop_plain _ _ he, isQpEncoded_lwsp hs.1, ih hs.2, write_write]
    rfl

theorem begin_eq {slice} (hne : slice ≠ []) {context} (hw : Waiting digits context.pending) :
    begin digits checked slice context = loop digits checked (pendingText context.pending ++ slice)
      { context with pending := .none } := by
  obtain ⟨char, rest, rfl⟩ := List.exists_cons_of_ne_nil hne
  obtain ⟨pending, port⟩ := context
  cases pending with
  | none => rfl
  | string s => exact (loop_lwsp hw.2 (char :: rest) ⟨.none, port⟩).symm
  | char c =>
    by_cases hc : c = equals
    · subst hc
      unfold begin
      dsimp only
      rw [if_pos rfl]
      exact (loop_equals _ _).symm
    · unfold begin
      dsimp only
      rw [if_neg hc, pendingText, if_neg hc]
      exact ((loop_equals _ _).trans (handleEquals_two _ _ _ _)).symm

/-! ## Clean text is decoded -/

/-- After a part of a text: what is written and what is still to be decoded come to `total`. -/
structure Decoded (digits : DecimalDigits) (context : Decoding) (rest total : List Nat) : Prop where
  waiting : Waiting digits context.pending
  clean : isClean digits (pendingText context.pending ++ rest) = true
  port : context.port ++ reference digits (pendingText context.pending ++ rest) = total

theorem dropsLwsp_of_last {t c} (hlast : s.getLast? = some c) (hc : isLwsp c = false)
    (hn : newlineChar ∉ s) : dropsLwsp (s ++ t) = false := by
  induction s with
  | nil => cases hlast
  | cons a s ih =>
    rw [List.mem_cons, not_or] at hn
    cases ha : isLwsp a with
    | false =>
      rw [List.cons_append, dropsLwsp_cons ha]
      exact decide_eq_false (Ne.symm hn.1)
    | true =>
      rcases s with _ | ⟨b, s⟩
      · obtain rfl : a = c := by simpa using hlast
        rw [ha] at hc
        cases hc
      · have := ih (by simpa using hlast) hn.2
        simp only [dropsLwsp, isSoftBreak, List.cons_append, List.all_cons, ha, Bool.true_and,
          List.dropWhile_cons_of_pos ha] at this ⊢
        exact this

theorem loop_clean (slice t context) (hp : context.pending = .none) (hn : newlineChar ∉ slice)
    (hlast : ∀ c, slice.getLast? = some c → isLwsp c = false)
    (hclean : isClean digits (slice ++ t) = true) :
    ∃ context', loop digits checked slice context = .ok context' ∧
      Decoded digits context' t (context.port ++ reference digits (slice ++ t)) ∧
      ∀ s, context'.pending ≠ .string s := by
  induction hlen : slice.length using Nat.strong_induction_on generalizing slice context with
  | _ n ih =>
  obtain ⟨pending, port⟩ := context
  obtain rfl : pending = .none := hp
  rcases slice with _ | ⟨c, rest⟩
  · exact ⟨_, loop_nil _, ⟨trivial, hclean, rfl⟩, by simp⟩
  · rw [List.mem_cons, not_or] at hn
    obtain ⟨hcn, hn⟩ := hn
    have hlast' : ∀ x, rest.getLast? = some x → isLwsp x = false := fun x hx => by
      rcases rest with _ | ⟨b, rest⟩
      · cases hx
      · exact hlast x (by simpa using hx)
    -- after a step that writes `w`, the rest of the slice
    have hstep {w rest' : List Nat} (hlt : rest'.length < n) (hn' : newlineChar ∉ rest')
        (hl' : ∀ x, rest'.getLast? = some x → isLwsp x = false)
        (hclean' : isClean digits (rest' ++ t) = true)
        (hloop : loop digits checked (c :: rest) ⟨.none, port⟩ =
          loop digits checked rest' (Decoding.write ⟨.none, port⟩ w))
        (href : reference digits (c :: rest ++ t) = w ++ reference digits (rest' ++ t)) :
        ∃ context', loop digits checked (c :: rest) ⟨.none, port⟩ = .ok context' ∧
          Decoded digits context' t (port ++ reference digits (c :: rest ++ t)) ∧
          ∀ s, context'.pending ≠ .string s := by
      obtain ⟨context', h1, h2, h3⟩ := ih _ hlt rest' (Decoding.write ⟨.none, port⟩ w) rfl hn' hl'
        hclean' rfl
      refine ⟨context', hloop.trans h1, ?_, h3⟩
      rw [href, ← List.append_assoc]
      exact h2
    simp only [List.length_cons] at hlen
    by_cases he : c = equals
    · subst he
      rcases rest with _ | ⟨c1, _ | ⟨c2, rest⟩⟩
      · refine ⟨_, (loop_equals _ _).trans (handleEquals_nil _), ⟨.inl rfl, ?_, ?_⟩, by simp⟩
        · simpa [pendingText] using hclean
        · simp [pendingText]
      · -- one character is left
        have hl1 : isLwsp c1 = false := hlast' c1 rfl
        have hn1 : c1 ≠ newlineChar := fun h => hn (by simp [h])
        rw [loop_equals, handleEquals_one]
        cases h1 : isHex digits c1 with
        | true =>
          have hne := ne_equals_of_isHex h1
          rw [if_pos (show (charToDigit digits c1).isSome = true from h1)]
          refine ⟨_, rfl, ⟨.inr h1, ?_, ?_⟩, by simp⟩
          · simpa [pendingText, hne] using hclean
          · simp [pendingText, hne]
        | false =>
          rw [if_neg (by rw [isHex] at h1; simp [h1])]
          have hs : (t.all isLwsp = true ∨ t.head? = some newlineChar) ∧
              isClean digits t = true := by
            rcases t with _ | ⟨c2, t⟩
            · exact ⟨.inl rfl, isClean_nil⟩
            · have := hclean
              rw [List.cons_append, List.cons_append, List.nil_append,
                isClean_equals_two hn1 hl1] at this
              by_cases h2 : c2 = newlineChar
              · rw [if_pos h2] at this
                subst h2
                exact ⟨.inr rfl, by rw [isClean_plain (by decide) not_isLwsp_newline, this]⟩
              · rw [if_neg h2, h1, if_neg Bool.false_ne_true] at this
                exact ⟨.inl this, isClean_all_lwsp this⟩
          refine ⟨_, rfl, ⟨trivial, hs.2, ?_⟩, by simp [Decoding.write]⟩
          have := reference_single hl1 hn1 h1 hs.1
          simp [Decoding.write, pendingText, this]
      · have hn1 : c1 ≠ newlineChar := fun h => hn (by simp [h])
        have hn2 : c2 ≠ newlineChar := fun h => hn (by simp [h])
        have hl1 : isLwsp c1 = false := by
          rw [Bool.eq_false_iff]
          intro hl
          rw [List.cons_append, List.cons_append, isClean_equals_lwsp hl] at hclean
          cases hclean
        have hclean2 := hclean
        rw [List.cons_append, List.cons_append, List.cons_append, isClean_equals_two hn1 hl1,
          if_neg hn2] at hclean2
        cases h1 : isHex digits c1 with
        | true =>
          rw [h1, if_pos rfl, Bool.and_eq_true] at hclean2
          refine hstep (w := [hexValue digits c1 c2])
            (by simp only [List.length_cons] at hlen; omega)
            (fun h => hn (by simp [h])) (fun x hx => ?_) hclean2.2
            (loop_escape rest _ h1 hclean2.1) (reference_escape h1 hclean2.1)
          rcases rest with _ | ⟨b, rest⟩
          · cases hx
          · exact hlast x (by simpa using hx)
        | false =>
          rw [h1, if_neg Bool.false_ne_true] at hclean2
          obtain ⟨x, hx⟩ : ∃ x, (c2 :: rest).getLast? = some x :=
            ⟨_, List.getLast?_eq_some_getLast (List.cons_ne_nil _ _)⟩
          have hxl := hlast' x (by simpa using hx)
          have := List.all_eq_true.mp hclean2 x
            (by simpa using List.mem_append_left t (List.mem_of_getLast? hx))
          rw [hxl] at this
          cases this
    · cases hl : isLwsp c with
      | true =>
        have hne : rest ≠ [] := by
          rintro rfl
          rw [hlast c rfl] at hl
          cases hl
        obtain ⟨x, hx⟩ : ∃ x, rest.getLast? = some x := ⟨_, List.getLast?_eq_some_getLast hne⟩
        have hcl := hclean
        rw [List.cons_append, isClean_lwsp hl, Bool.and_eq_true] at hcl
        refine hstep (w := [c]) (by omega) hn hlast' hcl.2 ?_ ?_
        · rw [loop_plain _ _ he, isQpEncoded_lwsp hl]
          rfl
        · exact reference_lwsp hl (dropsLwsp_of_last hx (hlast' x hx) hn)
      | false =>
        rw [List.cons_append, isClean_plain he hl] at hclean
        exact hstep (by omega) hn hlast' hclean (loop_plain _ _ he)
          (reference_plain he hl (Ne.symm hcn))

theorem isClean_lwsp_newline {a b w} (h : isClean digits (a ++ w :: newlineChar :: b) = true) :
    isLwsp w = false := by
  by_contra hw
  rw [Bool.not_eq_false] at hw
  have hwn : w ≠ newlineChar := by
    rintro rfl
    simp [not_isLwsp_newline] at hw
  induction hn : a.length using Nat.strong_induction_on generalizing a with
  | _ n ih =>
  rcases a with _ | ⟨c, a⟩
  · rw [List.nil_append, isClean_lwsp hw] at h
    simp at h
  · simp only [List.length_cons] at hn
    by_cases he : c = equals
    · subst he
      rcases a with _ | ⟨c1, a⟩
      · rw [List.cons_append, List.nil_append, isClean_equals_lwsp hw] at h
        cases h
      · simp only [List.length_cons] at hn
        by_cases hn1 : c1 = newlineChar
        · subst hn1
          rw [List.cons_append, List.cons_append, isClean_soft] at h
          exact ih _ (by omega) h rfl
        · cases hl1 : isLwsp c1 with
          | true =>
            rw [List.cons_append, List.cons_append, isClean_equals_lwsp hl1] at h
            cases h
          | false =>
            have hall (x : Nat) (s : List Nat) :
                (x :: (s ++ w :: newlineChar :: b)).all isLwsp = false := by
              rw [Bool.eq_false_iff]
              intro hall
              have := List.all_eq_true.mp hall newlineChar (by simp)
              simp [not_isLwsp_newline] at this
            rcases a with _ | ⟨c2, a⟩
            · rw [List.cons_append, List.cons_append, List.nil_append,
                isClean_equals_two hn1 hl1, if_neg hwn] at h
              cases h1 : isHex digits c1 with
              | true =>
                rw [h1, if_pos rfl, not_isHex_lwsp hw] at h
                cases h
              | false =>
                rw [h1, if_neg Bool.false_ne_true] at h
                have := List.all_eq_true.mp h newlineChar (by simp)
                simp [not_isLwsp_newline] at this
            · rw [List.cons_append, List.cons_append, List.cons_append,
                isClean_equals_two hn1 hl1] at h
              by_cases hn2 : c2 = newlineChar
              · rw [if_pos hn2] at h
                exact ih _ (by simp only [List.length_cons] at hn; omega) h rfl
              · rw [if_neg hn2, hall] at h
                split at h
                · rw [Bool.and_eq_true] at h
                  exact ih _ (by simp only [List.length_cons] at hn; omega) h.2 rfl
                · cases h
    · cases hl : isLwsp c with
      | true =>
        rw [List.cons_append, isClean_lwsp hl, Bool.and_eq_true] at h
        exact ih _ (by omega) h.2 rfl
      | false =>
        rw [List.cons_append, isClean_plain he hl] at h
        exact ih _ (by omega) h rfl

/-! ### Slices -/

theorem getLast?_rdropWhile (slice : List Nat) :
    ∀ c, (slice.rdropWhile isLwsp).getLast? = some c → isLwsp c = false := by
  intro c hc
  have hne : slice.rdropWhile isLwsp ≠ [] := by
    intro h
    rw [h] at hc
    cases hc
  rw [List.getLast?_eq_some_getLast hne] at hc
  have := List.rdropWhile_last_not isLwsp slice hne
  rwa [Option.some.inj hc, Bool.not_eq_true] at this

theorem all_rtakeWhile (slice : List Nat) : (slice.rtakeWhile isLwsp).all isLwsp = true :=
  List.all_eq_true.mpr fun _ hx => List.mem_rtakeWhile_imp hx

theorem ne_newline_of_not_mem (hn : newlineChar ∉ s) :
    ∀ c ∈ s, (c != newlineChar) = true := fun c hc => by
  rw [bne_iff_ne]
  rintro rfl
  exact hn hc

theorem decodeUpdate_line {line : List Nat} (hn : newlineChar ∉ line) (rest context) :
    decodeUpdate digits checked (line ++ newlineChar :: rest) context =
      decodeQp digits checked (line.rdropWhile isLwsp) .lineEnd context >>=
        decodeUpdate digits checked rest := by
  have hne := ne_newline_of_not_mem hn
  have hdrop : (line ++ newlineChar :: rest).dropWhile (· != newlineChar) = newlineChar :: rest := by
    rw [List.dropWhile_append_of_pos hne]
    rfl
  have htake : (line ++ newlineChar :: rest).takeWhile (· != newlineChar) = line := by
    rw [List.takeWhile_append_of_pos hne]
    simp
  rw [decodeUpdate]
  split
  · next h =>
    rw [hdrop] at h
    cases h
  · next h =>
    rw [hdrop] at h
    obtain ⟨-, rfl⟩ := List.cons.inj h
    rw [htake]

theorem decodeUpdate_last {slice : List Nat} (hn : newlineChar ∉ slice) (context : Decoding) :
    decodeUpdate digits checked slice context = decodeQp digits checked slice .partial_ context := by
  have hdrop : slice.dropWhile (· != newlineChar) = [] :=
    List.dropWhile_eq_nil_iff.mpr (ne_newline_of_not_mem hn)
  rw [decodeUpdate]
  split
  · rfl
  · next h =>
    rw [hdrop] at h
    cases h

section Slices

variable {context : Decoding} {t total : List Nat}

theorem newline_not_mem_pendingText {pending} (h : Waiting digits pending) :
    newlineChar ∉ pendingText pending := by
  cases pending with
  | none => simp [pendingText]
  | string s =>
    intro hmem
    have := List.all_eq_true.mp h.2 _ hmem
    simp [not_isLwsp_newline] at this
  | char c =>
    rcases h with rfl | h
    · simp [pendingText, equals, newlineChar]
    · have hc : newlineChar ≠ c := by
        rintro rfl
        simp [not_isHex_newline] at h
      rw [pendingText]
      split
      · simp [equals, newlineChar]
      · simp only [List.mem_cons, List.not_mem_nil, or_false, not_or]
        exact ⟨by decide, hc⟩

theorem begin_clean {slice} (hd : Decoded digits context (slice ++ t) total)
    (hn : newlineChar ∉ slice) (hlast : ∀ c, slice.getLast? = some c → isLwsp c = false) :
    ∃ context', begin digits checked slice context = .ok context' ∧
      Decoded digits context' t total := by
  by_cases hne : slice = []
  · subst hne
    obtain ⟨pending, port⟩ := context
    refine ⟨⟨pending, port⟩, ?_, hd⟩
    cases pending <;> exact loop_nil _
  · rw [begin_eq hne hd.waiting]
    obtain ⟨context', h1, h2, -⟩ := loop_clean
      (pendingText context.pending ++ slice) t { context with pending := .none } rfl
      (by
        rw [List.mem_append, not_or]
        exact ⟨newline_not_mem_pendingText hd.waiting, hn⟩)
      (fun c hc => hlast c (by rwa [List.getLast?_append_of_ne_nil _ hne] at hc))
      (by rw [List.append_assoc]; exact hd.clean)
    refine ⟨context', h1, ?_⟩
    rw [List.append_assoc] at h2
    rw [← hd.port]
    exact h2

theorem finish_partial {lwsp} (hd : Decoded digits context (lwsp ++ t) total)
    (hl : lwsp.all isLwsp = true) :
    ∃ context', finish .partial_ lwsp context = .ok context' ∧ Decoded digits context' t total := by
  obtain ⟨pending, port⟩ := context
  obtain ⟨hw, hclean, hport⟩ := hd
  rcases lwsp with _ | ⟨w, lwsp⟩
  · exact ⟨⟨pending, port⟩, rfl, hw, hclean, hport⟩
  · have hlw : isLwsp w = true := by
      rw [List.all_cons, Bool.and_eq_true] at hl
      exact hl.1
    cases pending with
    | none => exact ⟨⟨.string (w :: lwsp), port⟩, rfl, ⟨by simp, hl⟩, hclean, hport⟩
    | string s =>
      refine ⟨⟨.string (s ++ w :: lwsp), port⟩, rfl, ⟨by simp, ?_⟩, ?_, ?_⟩
      · show (s ++ w :: lwsp).all isLwsp = true
        rw [List.all_append, hw.2, hl]
        rfl
      · show isClean digits (s ++ w :: lwsp ++ t) = true
        rw [List.append_assoc]
        exact hclean
      · show port ++ reference digits (s ++ w :: lwsp ++ t) = total
        rw [List.append_assoc]
        exact hport
    | char c =>
      exfalso
      by_cases hc : c = equals
      · rw [pendingText, if_pos hc] at hclean
        simp [isClean_equals_lwsp hlw] at hclean
      · have hhex : isHex digits c = true := hw.resolve_left hc
        have hnw : w ≠ newlineChar := by
          rintro rfl
          simp [not_isLwsp_newline] at hlw
        rw [pendingText, if_neg hc] at hclean
        have hlc := not_isLwsp_of_isHex hhex
        have hnc := ne_newline_of_isHex hhex
        simp [isClean_equals_two hnc hlc, hnw, hhex, not_isHex_lwsp hlw] at hclean

theorem finish_lineEnd (lwsp) (hd : Decoded digits context (newlineChar :: t) total) :
    ∃ context', finish .lineEnd lwsp context = .ok context' ∧ Decoded digits context' t total := by
  obtain ⟨pending, port⟩ := context
  obtain ⟨hw, hclean, hport⟩ := hd
  have hstep : isClean digits (newlineChar :: t) = isClean digits t :=
    isClean_plain (by decide) not_isLwsp_newline
  cases pending with
  | none =>
    refine ⟨⟨.none, port ++ [newlineChar]⟩, rfl, trivial, hstep.symm.trans hclean, ?_⟩
    rw [← hport]
    simp [pendingText, reference_newline]
  | string s =>
    rcases List.eq_nil_or_concat s with rfl | ⟨s, w, rfl⟩
    · exact absurd rfl hw.1
    · have hlw : isLwsp w = true := by
        have : (s ++ [w]).all isLwsp = true := by simpa using hw.2
        rw [List.all_append, Bool.and_eq_true] at this
        simpa using this.2
      rw [isClean_lwsp_newline (a := s) (w := w) (b := t) (by simpa [pendingText] using hclean)]
        at hlw
      cases hlw
  | char c =>
    by_cases hc : c = equals
    · subst hc
      refine ⟨⟨.none, port⟩, rfl, trivial, ?_, ?_⟩
      · have : isClean digits (equals :: newlineChar :: t) = true := by
          simpa [pendingText] using hclean
        rwa [isClean_soft] at this
      · rw [← hport]
        simp [pendingText, reference_soft]
    · have hhex : isHex digits c = true := hw.resolve_left hc
      have hlc := not_isLwsp_of_isHex hhex
      have hnc := ne_newline_of_isHex hhex
      refine ⟨⟨.none, port ++ [equals, c]⟩, ?_, trivial, ?_, ?_⟩
      · simp [finish, hc, Decoding.write]
      · simpa [pendingText, hc, isClean_equals_two hnc hlc] using hclean
      · rw [← hport]
        simp [pendingText, hc, (reference_digit hhex).1]

theorem finish_inputEnd (lwsp) (hd : Decoded digits context [] total) :
    ∃ context', finish .inputEnd lwsp context = .ok context' ∧ context'.port = total := by
  obtain ⟨pending, port⟩ := context
  obtain ⟨hw, hclean, hport⟩ := hd
  rw [List.append_nil] at hport
  cases pending with
  | none => exact ⟨_, rfl, by simpa [pendingText, reference_nil] using hport⟩
  | string s =>
    exact ⟨_, rfl, by simpa [pendingText, reference_all_lwsp hw.2] using hport⟩
  | char c =>
    by_cases hc : c = equals
    · subst hc
      exact ⟨_, rfl, by simpa [pendingText, reference_equals, Decoding.write] using hport⟩
    · have hhex : isHex digits c = true := hw.resolve_left hc
      refine ⟨⟨.none, port ++ [equals, c]⟩, by simp [finish, hc, Decoding.write], ?_⟩
      simpa [pendingText, hc, (reference_digit (s := []) hhex).2] using hport

theorem decodeQp_partial {slice} (hd : Decoded digits context (slice ++ t) total)
    (hn : newlineChar ∉ slice) :
    ∃ context', decodeQp digits checked slice .partial_ context = .ok context' ∧
      Decoded digits context' t total := by
  have hsplit : slice.rdropWhile isLwsp ++ slice.rtakeWhile isLwsp = slice :=
    List.rdropWhile_append_rtakeWhile
  obtain ⟨context1, h1, hd1⟩ := begin_clean
    (t := slice.rtakeWhile isLwsp ++ t)
    (by rwa [← List.append_assoc, hsplit])
    (fun h => hn (hsplit ▸ List.mem_append_left _ h)) (getLast?_rdropWhile slice)
  obtain ⟨context2, h2, hd2⟩ := finish_partial hd1 (all_rtakeWhile slice)
  refine ⟨context2, ?_, hd2⟩
  rw [decodeQp, h1]
  exact h2

theorem decodeQp_lineEnd {slice} (hd : Decoded digits context (slice ++ newlineChar :: t) total)
    (hn : newlineChar ∉ slice) :
    ∃ context', decodeQp digits checked (slice.rdropWhile isLwsp) .lineEnd context = .ok context' ∧
      Decoded digits context' t total := by
  have hsplit : slice.rdropWhile isLwsp ++ slice.rtakeWhile isLwsp = slice :=
    List.rdropWhile_append_rtakeWhile
  -- no whitespace stands before the newline
  have htake : slice.rtakeWhile isLwsp = [] := by
    rcases List.eq_nil_or_concat (slice.rtakeWhile isLwsp) with h | ⟨w, c, h⟩
    · exact h
    · have hc : isLwsp c = true := by
        have := all_rtakeWhile slice
        rw [h, List.all_eq_true] at this
        exact this c (by simp)
      have hclean := hd.clean
      rw [← hsplit, h] at hclean
      rw [isClean_lwsp_newline (a := pendingText context.pending ++ slice.rdropWhile isLwsp ++ w)
        (by simpa using hclean)] at hc
      cases hc
  have hdrop : slice.rdropWhile isLwsp = slice := by rwa [htake, List.append_nil] at hsplit
  rw [hdrop]
  obtain ⟨context1, h1, hd1⟩ := begin_clean hd hn
    (fun c hc => getLast?_rdropWhile slice c (by rwa [hdrop]))
  obtain ⟨context2, h2, hd2⟩ := finish_lineEnd (slice.rtakeWhile isLwsp) hd1
  refine ⟨context2, ?_, hd2⟩
  rw [decodeQp, hdrop, h1]
  exact h2

theorem decodeUpdate_clean (packet) (hd : Decoded digits context (packet ++ t) total) :
    ∃ context', decodeUpdate digits checked packet context = .ok context' ∧
      Decoded digits context' t total := by
  induction hlen : packet.length using Nat.strong_induction_on generalizing packet context with
  | _ n ih =>
  by_cases hn : newlineChar ∈ packet
  · obtain ⟨line, rest, rfl, hline⟩ := List.eq_append_cons_of_mem hn
    rw [List.append_assoc, List.cons_append] at hd
    obtain ⟨context1, h1, hd1⟩ := decodeQp_lineEnd hd hline
    obtain ⟨context2, h2, hd2⟩ := ih rest.length
      (by rw [← hlen, List.length_append, List.length_cons]; omega) rest hd1 rfl
    refine ⟨context2, ?_, hd2⟩
    rw [decodeUpdate_line hline, h1]
    exact h2
  · rw [decodeUpdate_last hn]
    exact decodeQp_partial hd hn

end Slices

def decodeRest (digits : DecimalDigits) (checked : Bool) (packets : List (List Nat))
    (context : Decoding) : Except Fault (List Nat) := do
  let context ← packets.foldlM
    (fun context packet => context.decodeUpdate digits checked packet) context
  return (← context.decodeFinalize digits checked).port

theorem decodePackets_eq (packets) :
    decodePackets digits checked packets = decodeRest digits checked packets decodeInitialize :=
  rfl

theorem decodeRest_nil : decodeRest digits checked [] context =
    context.decodeFinalize digits checked >>= fun context => pure context.port := rfl

theorem decodeRest_cons (packet packets context) :
    decodeRest digits checked (packet :: packets) context =
      context.decodeUpdate digits checked packet >>= decodeRest digits checked packets := by
  simp only [decodeRest, List.foldlM_cons, bind_assoc]
  rfl

theorem decodeRest_clean {context total} (packets)
    (hd : Decoded digits context packets.flatten total) :
    decodeRest digits checked packets context = .ok total := by
  induction packets generalizing context with
  | nil =>
    obtain ⟨context1, h1, hd1⟩ := begin_clean
      (show Decoded digits context ([] ++ [].flatten) total from hd) List.not_mem_nil (by simp)
    obtain ⟨context2, h2, hport⟩ := finish_inputEnd [] hd1
    have hfinal : context.decodeFinalize digits checked = .ok context2 := by
      rw [decodeFinalize, decodeQp]
      exact (congrArg (· >>= finish .inputEnd []) h1).trans h2
    rw [decodeRest_nil, hfinal, ← hport]
    rfl
  | cons packet packets ih =>
    rw [List.flatten_cons] at hd
    obtain ⟨context1, h1, hd1⟩ := decodeUpdate_clean packet hd
    rw [decodeRest_cons, h1]
    exact ih hd1

theorem decodePackets_clean (hclean : isClean digits s = true) (packets)
    (hp : packets.flatten = s) :
    decodePackets digits checked packets = .ok (reference digits s) := by
  rw [decodePackets_eq]
  refine decodeRest_clean packets ⟨trivial, ?_, ?_⟩
  · rw [hp]
    exact hclean
  · rw [hp]
    rfl

end MitScheme.Runtime.QuotedPrintable
