import MitScheme.Runtime.QuotedPrintableDecode

/-! # Quoted-printable encoding

The output is built of tokens and line breaks by a few rules. The rules bound the lines and say
what the decoder reads; the encoder follows them, whatever the packets. -/

namespace MitScheme.Runtime.QuotedPrintable
open Encoding

variable {digits : DecimalDigits}

/-! ## Lines of encoded text -/

/-- The output for a character, and whether it is whitespace as it stands. -/
inductive Token : List Nat → Nat → Bool → Prop where
  | clear {c : Nat} (hq : isQpEncoded c = false) : Token [c] c (isLwsp c)
  | escaped {c : Nat} (hc : c < 0x100) : Token (escape c) c false

/-- Complete lines, an incomplete one, the characters they stand for, and whether the last of them
is whitespace as it stands. -/
inductive Lines : List (List Nat) → List Nat → List Nat → Bool → Prop where
  | nil : Lines [] [] [] false
  | token {lines : List (List Nat)} {line value token : List Nat} {c : Nat} {b b' : Bool}
      (h : Lines lines line value b) (ht : Token token c b')
      (hlen : line.length + token.length ≤ 76) :
      Lines lines (line ++ token) (value ++ [c]) b'
  | soft {lines : List (List Nat)} {line value : List Nat} {b : Bool}
      (h : Lines lines line value b) (hlen : line.length < 76) :
      Lines (lines ++ [line ++ [equals]]) [] value false
  | hard {lines : List (List Nat)} {line value : List Nat} (h : Lines lines line value false) :
      Lines (lines ++ [line]) [] (value ++ [newlineChar]) false

def textOf (lines : List (List Nat)) (line : List Nat) : List Nat :=
  (lines.map (· ++ [newlineChar])).flatten ++ line

theorem textOf_append (lines line s) : textOf lines (line ++ s) = textOf lines line ++ s := by
  rw [textOf, textOf, List.append_assoc]

theorem textOf_newline (lines line) :
    textOf (lines ++ [line]) [] = textOf lines line ++ [newlineChar] := by
  simp [textOf]

def isPlainChar (c : Nat) : Prop := (0x20 ≤ c ∧ c < 0x7F) ∨ c = tab

theorem hex_ascii {d} (hd : d < 16) : 0x30 ≤ hex d ∧ hex d < 0x3A ∨
    0x41 ≤ hex d ∧ hex d < 0x47 := by
  rw [hex]
  split <;> omega

theorem charToDigit_hex {d} (hd : d < 16) : charToDigit digits (hex d) = some d := by
  have hascii := hex_ascii hd
  rw [charToDigit, digits.ascii _ (by omega), hex]
  by_cases h : d < 10
  · rw [if_pos h, if_pos (by omega)]
    dsimp only
    rw [if_pos (by omega)]
    exact congrArg some (by omega)
  · rw [if_neg h, if_neg (by omega)]
    dsimp only
    rw [if_pos (by omega)]
    exact congrArg some (by omega)

theorem shiftRight_lt {c} (hc : c < 0x100) : c >>> 4 < 16 := by
  rw [Nat.shiftRight_eq_div_pow]
  omega

theorem and_lt (c) : c &&& 0x0F < 16 := by
  have := Nat.and_le_right (n := c) (m := 0x0F)
  omega

theorem hexValue_escape {c} (hc : c < 0x100) :
    hexValue digits (hex (c >>> 4)) (hex (c &&& 0x0F)) = c := by
  rw [hexValue, charToDigit_hex (shiftRight_lt hc), charToDigit_hex (and_lt c), Option.getD_some,
    Option.getD_some, ← Nat.shiftLeft_add_eq_or_of_lt (and_lt c),
    show 0x0F = 2 ^ 4 - 1 from rfl, Nat.and_two_pow_sub_one_eq_mod, Nat.shiftRight_eq_div_pow,
    Nat.shiftLeft_eq]
  omega

theorem isHex_hex {d} (hd : d < 16) : isHex digits (hex d) = true := by
  rw [isHex, charToDigit_hex hd]
  rfl

theorem isPlainChar_clear {c} (hq : isQpEncoded c = false) : isPlainChar c := by
  have h : (0x21 ≤ c ∧ c < 0x7F ∧ c ≠ equals) ∨ c = space ∨ c = tab := by
    simpa [isQpEncoded, -Bool.not_or, and_assoc, or_assoc] using hq
  rcases h with h | rfl | rfl
  · exact .inl (by omega)
  · exact .inl (by decide)
  · exact .inr rfl

/-! ### What a line can be -/

section Lines

variable {lines : List (List Nat)} {line value token : List Nat} {c : Nat} {b : Bool}

theorem Token.isPlainChar (h : Token token c b) : ∀ x ∈ token, isPlainChar x := by
  cases h with
  | clear hq =>
    intro x hx
    obtain rfl := List.mem_singleton.mp hx
    exact isPlainChar_clear hq
  | escaped hc =>
    intro x hx
    have h1 := hex_ascii (shiftRight_lt hc)
    have h2 := hex_ascii (and_lt c)
    simp only [escape, List.mem_cons, List.not_mem_nil, or_false] at hx
    rcases hx with rfl | rfl | rfl
    · exact .inl (by decide)
    · exact .inl (by omega)
    · exact .inl (by omega)

theorem Token.getLast? (h : Token token c b) :
    ∃ x, token.getLast? = some x ∧ isLwsp x = b := by
  cases h with
  | clear hq => exact ⟨c, rfl, rfl⟩
  | escaped hc =>
    refine ⟨hex (c &&& 0x0F), rfl, ?_⟩
    have := hex_ascii (and_lt c)
    simp only [isLwsp, space, tab, Bool.or_eq_false_iff, beq_eq_false_iff_ne]
    omega

theorem Token.length_le (h : Token token c b) : token.length ≤ 3 := by
  cases h <;> simp [escape]

theorem forall_mem_concat {α : Type} {p : α → Prop} {l a} (hl : ∀ x ∈ l, p x) (ha : p a) :
    ∀ x ∈ l ++ [a], p x :=
  List.forall_mem_append.mpr ⟨hl, List.forall_mem_singleton.mpr ha⟩

section
variable (h : Lines lines line value b)
include h

theorem Lines.length_le : line.length ≤ 76 ∧ ∀ l ∈ lines, l.length ≤ 76 := by
  induction h with
  | nil => simp
  | token h ht hlen ih => exact ⟨by rwa [List.length_append], ih.2⟩
  | soft h hlen ih =>
    refine ⟨by simp, forall_mem_concat ih.2 ?_⟩
    rw [List.length_append, List.length_singleton]
    omega
  | hard h ih => exact ⟨by simp, forall_mem_concat ih.2 ih.1⟩

theorem Lines.isPlainChar : (∀ x ∈ line, isPlainChar x) ∧ ∀ l ∈ lines, ∀ x ∈ l, isPlainChar x := by
  induction h with
  | nil => simp
  | token h ht hlen ih => exact ⟨List.forall_mem_append.mpr ⟨ih.1, ht.isPlainChar⟩, ih.2⟩
  | soft h hlen ih =>
    exact ⟨by simp, forall_mem_concat ih.2 (forall_mem_concat ih.1 (.inl (by decide)))⟩
  | hard h ih => exact ⟨by simp, forall_mem_concat ih.2 ih.1⟩

theorem Lines.getLast? :
    (∀ x, line.getLast? = some x → isLwsp x = b) ∧ (line = [] → b = false) ∧
      ∀ l ∈ lines, ∀ x, l.getLast? = some x → isLwsp x = false := by
  induction h with
  | nil => simp
  | @token lines line value token c b b' h ht hlen ih =>
    obtain ⟨x, hx, hb⟩ := ht.getLast?
    have hne : token ≠ [] := by
      rintro rfl
      cases hx
    refine ⟨fun y hy => ?_, fun hnil => ?_, ih.2.2⟩
    · rw [List.getLast?_append_of_ne_nil _ hne, hx] at hy
      rw [← Option.some.inj hy, hb]
    · exact absurd (List.append_eq_nil_iff.mp hnil).2 hne
  | soft h hlen ih =>
    refine ⟨by simp, fun _ => rfl, forall_mem_concat ih.2.2 fun x hx => ?_⟩
    rw [List.getLast?_concat] at hx
    rw [← Option.some.inj hx]
    exact not_isLwsp_equals
  | hard h ih => exact ⟨by simp, fun _ => rfl, forall_mem_concat ih.2.2 ih.1⟩

/-- **What the decoder reads.** If the last character is whitespace as it stands, the text has to
go on with something that keeps it. -/
theorem Lines.read (r) (hr : b = true → dropsLwsp r = false) :
    reference digits (textOf lines line ++ r) = value ++ reference digits r ∧
      isClean digits (textOf lines line ++ r) = isClean digits r := by
  induction h generalizing r with
  | nil => exact ⟨rfl, rfl⟩
  | @token lines line value token c b b' h ht hlen ih =>
    rw [textOf_append, List.append_assoc]
    cases ht with
    | clear hq =>
      have he : c ≠ equals := by
        rintro rfl
        rw [isQpEncoded_equals] at hq
        cases hq
      have hn : c ≠ newlineChar := by
        rintro rfl
        exact absurd hq (by decide)
      cases hl : isLwsp c with
      | true =>
        have hdrops := hr hl
        have hkeep : dropsLwsp (c :: r) = false := by
          simpa [dropsLwsp, isSoftBreak, hl] using hdrops
        have hhead : r.head? ≠ some newlineChar := by
          intro hhead
          obtain ⟨s, rfl⟩ := List.head?_eq_some_iff.mp hhead
          rw [dropsLwsp_cons not_isLwsp_newline] at hdrops
          simp at hdrops
        obtain ⟨ih1, ih2⟩ := ih (c :: r) fun _ => hkeep
        rw [List.singleton_append, ih1, ih2, reference_lwsp hl hdrops, isClean_lwsp hl,
          bne_iff_ne.mpr hhead]
        exact ⟨by simp, rfl⟩
      | false =>
        obtain ⟨ih1, ih2⟩ := ih (c :: r) fun _ => by rw [dropsLwsp_cons hl, decide_eq_false hn]
        rw [List.singleton_append, ih1, ih2, reference_plain he hl hn, hq, isClean_plain he hl]
        exact ⟨by simp, rfl⟩
    | escaped hc =>
      have h1 : isHex digits (hex (c >>> 4)) = true := isHex_hex (shiftRight_lt hc)
      have h2 : isHex digits (hex (c &&& 15)) = true := isHex_hex (and_lt c)
      obtain ⟨ih1, ih2⟩ := ih (escape c ++ r) fun _ => by
        rw [escape, List.cons_append, dropsLwsp_cons not_isLwsp_equals]
        rfl
      rw [ih1, ih2]
      simp only [escape, List.cons_append, List.nil_append]
      rw [reference_escape h1 h2, hexValue_escape hc, isClean_escape h1 h2]
      exact ⟨by simp, rfl⟩
  | soft h hlen ih =>
    obtain ⟨ih1, ih2⟩ := ih (equals :: newlineChar :: r) fun _ => by
      rw [dropsLwsp_cons not_isLwsp_equals]
      rfl
    rw [textOf_newline, textOf_append, List.append_assoc, List.append_assoc]
    exact ⟨ih1.trans (by rw [reference_soft]), ih2.trans isClean_soft⟩
  | hard h ih =>
    obtain ⟨ih1, ih2⟩ := ih (newlineChar :: r) (by simp)
    rw [textOf_newline, List.append_assoc, List.singleton_append, ih1, ih2, reference_newline,
      isClean_plain (by decide) not_isLwsp_newline]
    exact ⟨by simp, rfl⟩

end

end Lines

/-! ## The encoder follows the rules -/

/-- The port holds lines, and a token that waits just fits on the last of them. -/
inductive Encoded (context : Encoding) (value : List Nat) (b : Bool) : Prop where
  | written (lines : List (List Nat)) (line : List Nat) (h : Lines lines line value b)
      (hpending : context.pendingOutput = none) (hport : context.port = textOf lines line)
      (hcolumn : context.column = line.length) (hlen : line.length ≤ 75)
  | waiting (lines : List (List Nat)) (line value' token : List Nat) (c : Nat) (b' : Bool)
      (h : Lines lines line value' b') (ht : Token token c b)
      (hpending : context.pendingOutput = some token) (hport : context.port = textOf lines line)
      (hvalue : value = value' ++ [c]) (hfits : line.length + token.length = 76)

section Encoder

variable {context : Encoding} {value : List Nat} {c : Nat} {b : Bool}

section
variable (h : Encoded context value b)
include h

theorem Encoded.softBreak (hp : context.pendingOutput = none) :
    Encoded context.writeQpSoftBreak value false := by
  cases h with
  | written lines line h hpending hport hcolumn hlen =>
    refine .written (lines ++ [line ++ [equals]]) [] (h.soft (by omega)) hp ?_ rfl (by simp)
    rw [textOf_newline, textOf_append, ← hport]
    simp [writeQpSoftBreak, Encoding.write]
  | waiting lines line value' token c b' h ht hpending =>
    rw [hp] at hpending
    cases hpending

theorem Encoded.write {token b'} (hp : context.pendingOutput = none) (ht : Token token c b')
    (hfits : context.column + token.length ≤ 75) {context'}
    (hpending : context'.pendingOutput = none) (hport : context'.port = context.port ++ token)
    (hcolumn : context'.column = context.column + token.length) :
    Encoded context' (value ++ [c]) b' := by
  cases h with
  | written lines line h _ hport' hcolumn' hlen =>
    refine .written lines (line ++ token) (h.token ht (by omega)) hpending ?_ ?_ ?_
    · rw [hport, hport', textOf_append]
    · rw [hcolumn, hcolumn', List.length_append]
    · rw [List.length_append]
      omega
  | waiting lines line value' token c b' h ht hpending =>
    rw [hp] at hpending
    cases hpending

theorem Encoded.wait {token b'} (hp : context.pendingOutput = none) (ht : Token token c b')
    (hfits : context.column + token.length = 76) :
    Encoded { context with pendingOutput := some token } (value ++ [c]) b' := by
  cases h with
  | written lines line h _ hport hcolumn hlen =>
    exact .waiting lines line value token c b h ht rfl hport rfl (by omega)
  | waiting lines line value' token c b' h ht hpending =>
    rw [hp] at hpending
    cases hpending

theorem Encoded.pendingOutput :
    Encoded (context.writeQpPendingOutput false) value b ∧
      (context.writeQpPendingOutput false).pendingOutput = none := by
  cases h with
  | written lines line h hpending hport hcolumn hlen =>
    rw [writeQpPendingOutput, hpending]
    exact ⟨.written lines line h hpending hport hcolumn hlen, hpending⟩
  | waiting lines line value' token c b' h ht hpending hport hvalue hfits =>
    have hlen := ht.length_le
    have hpos : token ≠ [] := by
      obtain ⟨x, hx, -⟩ := ht.getLast?
      rintro rfl
      cases hx
    rw [writeQpPendingOutput, hpending]
    refine ⟨.written (lines ++ [line ++ [equals]]) token ?_ rfl ?_ ?_ (by omega), rfl⟩
    · have hpos' := List.length_pos_of_ne_nil hpos
      have := (h.soft (by omega)).token ht (by rw [List.length_nil]; omega)
      rwa [List.nil_append, ← hvalue] at this
    · have htext := textOf_append (lines ++ [line ++ [equals]]) [] token
      rw [List.nil_append, textOf_newline, textOf_append, ← hport] at htext
      rw [htext]
      simp [writeQpSoftBreak, Encoding.write]
    · simp [writeQpSoftBreak, Encoding.write]

theorem Encoded.complete :
    ∃ lines line, Lines lines line value b ∧
      (context.writeQpPendingOutput true).port = textOf lines line ∧
      (context.writeQpPendingOutput true).pendingOutput = none := by
  cases h with
  | written lines line h hpending hport hcolumn hlen =>
    rw [writeQpPendingOutput, hpending]
    exact ⟨lines, line, h, hport, hpending⟩
  | waiting lines line value' token c b' h ht hpending hport hvalue hfits =>
    rw [writeQpPendingOutput, hpending]
    refine ⟨lines, line ++ token, ?_, ?_, rfl⟩
    · rw [hvalue]
      exact h.token ht (by omega)
    · rw [textOf_append, ← hport]
      rfl

end

def Kept (context context' : Encoding) : Prop :=
  context'.text = context.text ∧ context'.pendingLwsp = context.pendingLwsp

theorem Kept.trans {context1 context2 context3} (h12 : Kept context1 context2)
    (h23 : Kept context2 context3) : Kept context1 context3 :=
  ⟨h23.1.trans h12.1, h23.2.trans h12.2⟩

theorem writeQpPendingOutput_kept (context newline) :
    Kept context (context.writeQpPendingOutput newline) := by
  rw [writeQpPendingOutput]
  cases context.pendingOutput with
  | none => exact ⟨rfl, rfl⟩
  | some pending => cases newline <;> exact ⟨rfl, rfl⟩

theorem writeQpClear_kept (context c) : Kept context (context.writeQpClear c) := by
  refine (writeQpPendingOutput_kept context false).trans ?_
  rw [writeQpClear]
  dsimp only
  split
  · exact ⟨rfl, rfl⟩
  · split <;> exact ⟨rfl, rfl⟩

theorem writeQpEncoded_kept (context c) : Kept context (context.writeQpEncoded c) := by
  refine (writeQpPendingOutput_kept context false).trans ?_
  rw [writeQpEncoded]
  dsimp only
  split
  · exact ⟨rfl, rfl⟩
  · split <;> exact ⟨rfl, rfl⟩

theorem writeQpHardBreak_kept (context) : Kept context context.writeQpHardBreak :=
  (writeQpPendingOutput_kept context true).trans ⟨rfl, rfl⟩

theorem Encoded.column_le (h : Encoded context value b) (hp : context.pendingOutput = none) :
    context.column ≤ 75 := by
  cases h with
  | written lines line h _ hport hcolumn hlen => omega
  | waiting lines line value' token c b' h ht hpending =>
    rw [hp] at hpending
    cases hpending

theorem Encoded.clear (h : Encoded context value b) (hq : isQpEncoded c = false) :
    Encoded (context.writeQpClear c) (value ++ [c]) (isLwsp c) := by
  obtain ⟨h1, hp1⟩ := h.pendingOutput
  have hcolumn := h1.column_le hp1
  rw [writeQpClear]
  dsimp only
  split
  · exact h1.write hp1 (.clear hq) (by simpa using by omega) hp1 rfl rfl
  · next h75 =>
    split
    · exact (h1.softBreak hp1).write hp1 (.clear hq) (by simp [writeQpSoftBreak]) hp1 rfl
        (by simp [writeQpSoftBreak])
    · exact h1.wait hp1 (.clear hq) (by simpa using by omega)

theorem Encoded.escaped (h : Encoded context value b) (hc : c < 0x100) :
    Encoded (context.writeQpEncoded c) (value ++ [c]) false := by
  obtain ⟨h1, hp1⟩ := h.pendingOutput
  have hcolumn := h1.column_le hp1
  have hlen : (escape c).length = 3 := rfl
  rw [writeQpEncoded]
  dsimp only
  split
  · next h73 => exact h1.wait hp1 (.escaped hc) (by rw [h73, hlen])
  · split
    · exact (h1.softBreak hp1).write hp1 (.escaped hc) (by rw [hlen]; simp [writeQpSoftBreak]) hp1
        rfl rfl
    · exact h1.write hp1 (.escaped hc) (by omega) hp1 rfl rfl

theorem Encoded.hardBreak (h : Encoded context value false) :
    Encoded context.writeQpHardBreak (value ++ [newlineChar]) false := by
  obtain ⟨lines, line, h1, hport, hp⟩ := h.complete
  refine .written (lines ++ [line]) [] h1.hard hp ?_ rfl (by simp)
  rw [textOf_newline, ← hport]
  rfl

/-! ### Slices -/

/-- Between two slices: what is written or waits, and then the pending whitespace. -/
structure Consumed (context : Encoding) (value : List Nat) : Prop where
  lwsp : ∀ w, context.pendingLwsp = some w → isLwsp w = true
  encoded : ∃ value' b, Encoded context value' b ∧ value = value' ++ context.pendingLwsp.toList ∧
    (context.pendingLwsp = none → b = false)

def sliceEnd (type : SliceType) : List Nat := if type = .lineEnd then [newlineChar] else []

theorem Encoded.congr {context'} (h : Encoded context value b)
    (hpending : context'.pendingOutput = context.pendingOutput)
    (hport : context'.port = context.port) (hcolumn : context'.column = context.column) :
    Encoded context' value b := by
  cases h with
  | written lines line h hpending' hport' hcolumn' hlen =>
    exact .written lines line h (hpending.trans hpending') (hport.trans hport')
      (hcolumn.trans hcolumn') hlen
  | waiting lines line value' token c b' h ht hpending' hport' hvalue hfits =>
    exact .waiting lines line value' token c b' h ht (hpending.trans hpending')
      (hport.trans hport') hvalue hfits

theorem encodeLoop_consumed (type slice) (h : Encoded context value b)
    (hb : b = true → slice ≠ []) (hp : context.pendingLwsp = none) (h8 : ∀ c ∈ slice, c < 0x100) :
    ∃ context', encodeLoop type slice context = .ok context' ∧ context'.text = context.text ∧
      Consumed context' (value ++ slice ++ sliceEnd type) := by
  induction slice generalizing context value b with
  | nil =>
    obtain rfl : b = false := Bool.eq_false_iff.mpr fun h => hb h rfl
    by_cases htype : type = .lineEnd
    · refine ⟨context.writeQpHardBreak, by rw [encodeLoop, if_pos htype],
        (writeQpHardBreak_kept context).1, ?_⟩
      have hp' := (writeQpHardBreak_kept context).2.trans hp
      refine ⟨by simp [hp'], value ++ [newlineChar], false, h.hardBreak, ?_, fun _ => rfl⟩
      simp [hp', sliceEnd, htype]
    · refine ⟨context, by rw [encodeLoop, if_neg htype], rfl, by simp [hp], value, false, h, ?_,
        fun _ => rfl⟩
      simp [hp, sliceEnd, htype]
  | cons c rest ih =>
    have hc := h8 c List.mem_cons_self
    have h8' : ∀ c ∈ rest, c < 0x100 := fun c hc => h8 c (List.mem_cons_of_mem _ hc)
    -- after `c` is encoded, the rest of the slice
    have hnext {context' : Encoding} {b' : Bool} (hkept : Kept context context')
        (h' : Encoded context' (value ++ [c]) b') (hb' : b' = true → rest ≠ []) :
        ∃ context'', encodeLoop type rest context' = .ok context'' ∧
          context''.text = context.text ∧
          Consumed context'' (value ++ c :: rest ++ sliceEnd type) := by
      obtain ⟨context'', h1, htext, h2⟩ := ih h' hb' (hkept.2.trans hp) h8'
      refine ⟨context'', h1, htext.trans hkept.1, ?_⟩
      rwa [List.append_assoc value [c] rest] at h2
    rw [encodeLoop, if_neg (by simp [hc])]
    cases hl : isLwsp c with
    | false =>
      rw [if_pos (by simp)]
      cases hq : isQpEncoded c with
      | true =>
        rw [if_pos rfl]
        exact hnext (writeQpEncoded_kept context c) (h.escaped hc) (by simp)
      | false =>
        rw [if_neg Bool.false_ne_true]
        exact hnext (writeQpClear_kept context c) (h.clear hq) (by simp [hl])
    | true =>
      rw [if_neg (by simp)]
      split
      · next hlast =>
        -- the whitespace waits for the next packet
        obtain ⟨htype, rfl⟩ := hlast
        refine ⟨_, rfl, rfl, ?_, value, b, h.congr rfl rfl rfl, ?_, by simp⟩
        · intro w hw
          rwa [← Option.some.inj hw]
        · simp [sliceEnd, htype]
      · by_cases hrest : rest = []
        · rw [if_neg (by simp [hrest])]
          exact hnext (writeQpEncoded_kept context c) (h.escaped hc) (by simp)
        · rw [if_pos hrest]
          exact hnext (writeQpClear_kept context c) (h.clear (isQpEncoded_lwsp hl)) fun _ => hrest

theorem lwsp_lt {w} (h : isLwsp w = true) : w < 0x100 := by
  have hw : w = 0x20 ∨ w = 0x09 := by simpa [isLwsp, space, tab] using h
  omega

theorem encodeQp_consumed (type slice) (h : Consumed context value) (h8 : ∀ c ∈ slice, c < 0x100) :
    ∃ context', context.encodeQp slice type = .ok context' ∧ context'.text = context.text ∧
      Consumed context' (value ++ slice ++ sliceEnd type) := by
  obtain ⟨hlwsp, value', b, hv, rfl, hb⟩ := h
  rw [encodeQp, encodeQpPendingLwsp]
  cases hp : context.pendingLwsp with
  | none =>
    rw [Option.toList_none, List.append_nil]
    exact encodeLoop_consumed type slice hv (by simp [hb hp]) hp h8
  | some w =>
    have hw := hlwsp w hp
    have hv' : Encoded { context with pendingLwsp := none } value' b := hv.congr rfl rfl rfl
    dsimp only
    rw [Option.toList_some]
    by_cases hne : slice = []
    · subst hne
      rw [if_neg (by simp)]
      split
      · -- the whitespace ends the line
        have hkept := writeQpEncoded_kept { context with pendingLwsp := none } w
        obtain ⟨context', h1, htext, h2⟩ := encodeLoop_consumed type [] (hv'.escaped (lwsp_lt hw))
          (by simp) hkept.2 (by simp)
        exact ⟨context', h1, htext.trans hkept.1, h2⟩
      · next htype =>
        have htype' : type = .partial_ := by simpa using htype
        subst htype'
        refine ⟨context, rfl, rfl, hlwsp, value', b, hv, ?_, by simp [hp]⟩
        simp [sliceEnd, hp]
    · rw [if_pos (by simpa using hne)]
      have hkept := writeQpClear_kept { context with pendingLwsp := none } w
      obtain ⟨context', h1, htext, h2⟩ := encodeLoop_consumed type slice
        (hv'.clear (isQpEncoded_lwsp hw)) (fun _ => hne) hkept.2 h8
      exact ⟨context', h1, htext.trans hkept.1, h2⟩

theorem encodeLines_consumed (packet) (h : Consumed context value) (h8 : ∀ c ∈ packet, c < 0x100) :
    ∃ context', encodeLines packet context = .ok context' ∧ context'.text = context.text ∧
      Consumed context' (value ++ packet) := by
  induction hn : packet.length using Nat.strong_induction_on generalizing packet context value with
  | _ n ih =>
  rw [encodeLines]
  split
  · obtain ⟨context', h1, htext, h2⟩ := encodeQp_consumed .partial_ packet h h8
    refine ⟨context', h1, htext, ?_⟩
    simpa [sliceEnd] using h2
  · next c rest hdrop =>
    have hsplit := List.takeWhile_append_dropWhile (p := (· != newlineChar)) (l := packet)
    have hc : c = newlineChar := by
      have := List.head?_dropWhile_not (· != newlineChar) packet
      rw [hdrop] at this
      simpa using this
    rw [hdrop, hc] at hsplit
    have hmem (x : Nat) (hx : x ∈ packet.takeWhile (· != newlineChar) ∨ x ∈ rest) : x ∈ packet := by
      rw [← hsplit]
      rcases hx with hx | hx
      · exact List.mem_append_left _ hx
      · exact List.mem_append_right _ (List.mem_cons_of_mem _ hx)
    obtain ⟨context1, h1, htext1, hv1⟩ := encodeQp_consumed .lineEnd
      (packet.takeWhile (· != newlineChar)) h fun x hx => h8 x (hmem x (.inl hx))
    obtain ⟨context2, h2, htext2, hv2⟩ := ih rest.length
      (by rw [← hn, ← hsplit, List.length_append, List.length_cons]; omega) rest hv1
      (fun x hx => h8 x (hmem x (.inr hx))) rfl
    refine ⟨context2, ?_, htext2.trans htext1, ?_⟩
    · rw [h1]
      exact h2
    · rw [show sliceEnd .lineEnd = [newlineChar] from rfl, List.append_assoc, List.append_assoc,
        List.singleton_append, hsplit] at hv2
      exact hv2

theorem encodeUpdate_consumed (packet) (h : Consumed context value) (h8 : ∀ c ∈ packet, c < 0x100) :
    ∃ context', context.encodeUpdate packet = .ok context' ∧
      Consumed context' (value ++ packet) := by
  rw [encodeUpdate]
  split
  · obtain ⟨context', h1, -, h2⟩ := encodeLines_consumed packet h h8
    exact ⟨context', h1, h2⟩
  · obtain ⟨context', h1, -, h2⟩ := encodeQp_consumed .partial_ packet h h8
    refine ⟨context', h1, ?_⟩
    simpa [sliceEnd] using h2

theorem foldlM_encodeUpdate_consumed (packets : List (List Nat)) (h : Consumed context value)
    (h8 : ∀ packet ∈ packets, ∀ c ∈ packet, c < 0x100) :
    ∃ context', packets.foldlM (fun context packet => context.encodeUpdate packet) context =
        .ok context' ∧ Consumed context' (value ++ packets.flatten) := by
  induction packets generalizing context value with
  | nil => exact ⟨context, rfl, by simpa using h⟩
  | cons packet packets ih =>
    obtain ⟨context1, h1, hv1⟩ := encodeUpdate_consumed packet h (h8 packet List.mem_cons_self)
    obtain ⟨context2, h2, hv2⟩ := ih hv1 fun packet hp => h8 packet (List.mem_cons_of_mem _ hp)
    refine ⟨context2, ?_, ?_⟩
    · rw [List.foldlM_cons, h1]
      exact h2
    · rwa [List.flatten_cons, ← List.append_assoc]

theorem encodeFinalize_consumed (h : Consumed context value) :
    ∃ lines line, Lines lines line value false ∧
      context.encodeFinalize.port = textOf lines line := by
  obtain ⟨hlwsp, value', b, hv, rfl, hb⟩ := h
  rw [encodeFinalize, encodeQpPendingLwsp]
  cases hp : context.pendingLwsp with
  | none =>
    rw [Option.toList_none, List.append_nil]
    obtain rfl := hb hp
    obtain ⟨lines, line, h1, hport, -⟩ := hv.complete
    exact ⟨lines, line, h1, hport⟩
  | some w =>
    dsimp only
    rw [Option.toList_some, if_neg Bool.false_ne_true, if_pos (by decide)]
    have hv' : Encoded { context with pendingLwsp := none } value' b := hv.congr rfl rfl rfl
    obtain ⟨lines, line, h1, hport, -⟩ := (hv'.escaped (lwsp_lt (hlwsp w hp))).complete
    exact ⟨lines, line, h1, hport⟩

end Encoder

/-! ## The round trip -/

theorem newline_not_isPlainChar : ¬ isPlainChar newlineChar := by
  rintro (h | h)
  · exact absurd h.1 (by decide)
  · exact absurd h (by decide)

theorem splitOn_textOf (lines line) (h : ∀ l ∈ lines ++ [line], newlineChar ∉ l) :
    (textOf lines line).splitOn newlineChar = lines ++ [line] := by
  have htext : textOf lines line = [newlineChar].intercalate (lines ++ [line]) := by
    induction lines with
    | nil => simp [textOf]
    | cons l lines ih =>
      have ih := ih fun l hl => h l (List.mem_cons_of_mem _ hl)
      have hne : lines ++ [line] ≠ [] := by simp
      rw [List.cons_append, List.intercalate_cons_of_ne_nil hne, ← ih]
      simp [textOf]
  rw [htext]
  exact List.splitOn_intercalate _ h (by simp)

/-- **The round trip.** Whatever the packets, the lines of the encoded text have at most 76
characters, none ends in whitespace, all characters are printable ASCII, spaces or tabs, and the
decoder writes the characters that were encoded. -/
theorem quoted_printable_round_trip (digits : DecimalDigits) (checked text : Bool)
    (packets : List (List Nat)) (h8 : ∀ packet ∈ packets, ∀ c ∈ packet, c < 0x100) :
    ∃ out, encodePackets text packets = .ok out ∧
      (∀ line ∈ out.splitOn newlineChar, line.length ≤ 76 ∧
        (∀ c, line.getLast? = some c → isLwsp c = false) ∧ ∀ c ∈ line, isPlainChar c) ∧
      decodePackets digits checked [out] = .ok packets.flatten := by
  have hstart : Consumed (encodeInitialize text) [] :=
    ⟨by simp [encodeInitialize], [], false, .written [] [] .nil rfl rfl rfl (by simp), rfl,
      fun _ => rfl⟩
  obtain ⟨context, hfold, hconsumed⟩ := foldlM_encodeUpdate_consumed packets hstart h8
  obtain ⟨lines, line, hlines, hport⟩ := encodeFinalize_consumed hconsumed
  rw [List.nil_append] at hlines
  have hplain := forall_mem_concat hlines.isPlainChar.2 hlines.isPlainChar.1
  refine ⟨textOf lines line, ?_, fun l hl => ?_, ?_⟩
  · rw [encodePackets, hfold]
    exact congrArg Except.ok hport
  · rw [splitOn_textOf lines line fun l hl hmem =>
      newline_not_isPlainChar (hplain l hl _ hmem)] at hl
    exact ⟨forall_mem_concat hlines.length_le.2 hlines.length_le.1 l hl,
      forall_mem_concat hlines.getLast?.2.2 hlines.getLast?.1 l hl, hplain l hl⟩
  · obtain ⟨href, hclean⟩ := hlines.read [] (by simp)
    rw [List.append_nil, reference_nil, List.append_nil] at href
    rw [List.append_nil, isClean_nil] at hclean
    rw [decodePackets_clean hclean [textOf lines line] (by simp), href]

/-- `"a "` and `"="` in two packets. -/
theorem quoted_printable_round_trip_packets :
    ∃ out, encodePackets true [[0x61, space], [equals]] = .ok out ∧
      decodePackets asciiDigits true [out] = .ok [0x61, space, equals] := by
  obtain ⟨out, hencode, -, hdecode⟩ := quoted_printable_round_trip asciiDigits true true
    [[0x61, space], [equals]] (by decide)
  exact ⟨out, hencode, hdecode⟩

end MitScheme.Runtime.QuotedPrintable
