import Mathlib.Algebra.Group.Nat.Defs
import Mathlib.Data.List.TakeWhile

/-! # The BASE64 codec

The encoder of `mime-codec.scm` fills lines of 48 bytes, the decoder reads quanta
of four characters; both are fed in packets. A string is the list of its code
points, and the buffers are the lists of what is in them. -/

namespace MitScheme.Runtime.Base64

def newlineChar : Nat := 0x0A
def equals : Nat := 0x3D

def cpNewline : UInt8 := 0x0A
def cpReturn : UInt8 := 0x0D

/-! ## Digits -/

/-- `base64:digit->char`. -/
def digitToChar (digit : Nat) : Nat :=
  if digit < 26 then 0x41 + digit
  else if digit < 52 then 0x61 + (digit - 26)
  else if digit < 62 then 0x30 + (digit - 52)
  else if digit = 62 then 0x2B
  else 0x2F

/-- `base64:char->digit`. -/
def charToDigit (char : Nat) : Nat :=
  if 0x41 ≤ char ∧ char ≤ 0x5A then char - 0x41
  else if 0x61 ≤ char ∧ char ≤ 0x7A then char - 0x61 + 26
  else if 0x30 ≤ char ∧ char ≤ 0x39 then char - 0x30 + 52
  else if char = 0x2B then 62
  else if char = 0x2F then 63
  else 0xFF

theorem charToDigit_digitToChar : ∀ digit < 64, charToDigit (digitToChar digit) = digit := by
  decide

theorem digitToChar_ne : ∀ digit < 64,
    digitToChar digit ≠ equals ∧ digitToChar digit ≠ newlineChar := by
  decide

/-! ## Encoder -/

/-- `write-digit` of `write-base64-line`. -/
def writeDigit (d : Nat) : Nat := digitToChar (d &&& 0x3F)

/-- The loop of `write-base64-line`. -/
def encodeQuanta : List UInt8 → List Nat
  | d1 :: d2 :: d3 :: rest =>
    writeDigit (d1.toNat >>> 2) :: writeDigit (d1.toNat <<< 4 ||| d2.toNat >>> 4) ::
      writeDigit (d2.toNat <<< 2 ||| d3.toNat >>> 6) :: writeDigit d3.toNat :: encodeQuanta rest
  | [d1, d2] =>
    [writeDigit (d1.toNat >>> 2), writeDigit (d1.toNat <<< 4 ||| d2.toNat >>> 4),
      writeDigit (d2.toNat <<< 2), equals]
  | [d1] => [writeDigit (d1.toNat >>> 2), writeDigit (d1.toNat <<< 4), equals, equals]
  | [] => []

def encodeLine (bytes : List UInt8) : List Nat := encodeQuanta bytes ++ [newlineChar]

/-- The encoding context; between two steps the buffer is not full. -/
structure Encoding where
  text : Bool
  buffer : List UInt8
  port : List Nat
  notFull : buffer.length < 48

/-- `encode-base64:initialize`. -/
def encodeInitialize (text : Bool) : Encoding := ⟨text, [], [], by decide⟩

namespace Encoding

/-- `write-base64-line`. -/
def writeLine (context : Encoding) : Encoding :=
  if context.buffer = [] then context
  else
    { context with
      buffer := []
      port := context.port ++ encodeLine context.buffer
      notFull := by decide }

def fill (context : Encoding) (bytes : List UInt8)
    (hn : context.buffer.length + bytes.length ≤ 48) : Encoding :=
  if h : context.buffer.length + bytes.length = 48 then
    { context with
      buffer := []
      port := context.port ++ encodeLine (context.buffer ++ bytes)
      notFull := by decide }
  else
    { context with
      buffer := context.buffer ++ bytes
      notFull := by rw [List.length_append]; omega }

/-- `encode-base64`. -/
def encode (context : Encoding) (bytes : List UInt8) : Encoding :=
  if bytes = [] then context
  else
    (context.fill (bytes.take (48 - context.buffer.length)) (by
      have := context.notFull
      rw [List.length_take]
      omega)).encode (bytes.drop (48 - context.buffer.length))
termination_by bytes.length
decreasing_by
  have := context.notFull
  rename_i hne
  have := List.length_pos_iff.mpr hne
  rw [List.length_drop]
  omega

/-- The loop of `encode-base64:update` in text mode. -/
def encodeText (context : Encoding) (bytes : List UInt8) : Encoding :=
  match _h : bytes.dropWhile (· != cpNewline) with
  | [] => context.encode bytes
  | _ :: rest =>
    ((context.encode (bytes.takeWhile (· != cpNewline))).encode
      [cpReturn, cpNewline]).encodeText rest
termination_by bytes.length
decreasing_by
  have h1 := congrArg List.length _h
  have h2 := (List.dropWhile_suffix (l := bytes) (· != cpNewline)).length_le
  simp only [List.length_cons] at h1
  omega

/-- `encode-base64:update`. -/
def update (context : Encoding) (bytes : List UInt8) : Encoding :=
  if context.text then context.encodeText bytes else context.encode bytes

/-- `encode-base64:finalize`. -/
def finalize (context : Encoding) : Encoding := context.writeLine

end Encoding

def encodePackets (text : Bool) (packets : List (List UInt8)) : List Nat :=
  (packets.foldl Encoding.update (encodeInitialize text)).finalize.port

/-! ## Decoder -/

/-- The errors of `error:decode-base64`. -/
inductive Fault
  | misplacedEquals
  | notMultipleOfFour

inductive InputState
  | lineStart
  | inLine
  | finished
  deriving DecidableEq

structure Decoding where
  text : Bool
  inputBuffer : List Nat
  inputState : InputState
  pendingReturn : Bool
  port : List UInt8

/-- `decode-base64-char`. -/
def decodeChar (char : Nat) : Except Fault Nat :=
  if 0x40 < charToDigit char then .error .misplacedEquals else .ok (charToDigit char)

/-- `decode-base64-quantum-1`. -/
def decodeQuantum1 (c1 c2 c3 c4 : Nat) : Except Fault (List UInt8) := do
  let d1 ← decodeChar c1
  let d2 ← decodeChar c2
  if c4 ≠ equals then
    let n := (d1 <<< 18 + d2 <<< 12) + ((← decodeChar c3) <<< 6 + (← decodeChar c4))
    return [.ofNat (n >>> 16), .ofNat (0xFF &&& n >>> 8), .ofNat (0xFF &&& n)]
  else if c3 ≠ equals then
    let n := (d1 <<< 10 + d2 <<< 4) + (← decodeChar c3) >>> 2
    return [.ofNat (n >>> 8), .ofNat (0xFF &&& n)]
  else return [.ofNat (d1 <<< 2 + d2 >>> 4)]

/-- `decode-base64:initialize`. -/
def decodeInitialize (text : Bool) : Decoding := ⟨text, [], .lineStart, false, []⟩

namespace Decoding

/-- What `decode-base64-quantum` does with a byte in text mode. -/
def writeText (context : Decoding) (byte : UInt8) : Decoding :=
  if context.pendingReturn ∧ byte = cpNewline then
    { context with port := context.port ++ [byte], pendingReturn := false }
  else
    let port := if context.pendingReturn then context.port ++ [cpReturn] else context.port
    if byte = cpReturn then { context with port, pendingReturn := true }
    else { context with port := port ++ [byte], pendingReturn := false }

/-- `decode-base64-quantum` on the bytes of a quantum. -/
def writeOutput (context : Decoding) (bytes : List UInt8) : Decoding :=
  if context.text then bytes.foldl writeText context
  else { context with port := context.port ++ bytes }

/-- `decode-base64-quantum`, when the fourth character has come. -/
def quantum (context : Decoding) : List Nat → Except Fault Decoding
  | [c1, c2, c3, c4] => (decodeQuantum1 c1 c2 c3 c4).map context.writeOutput
  | _ => .ok context

/-- The loop of `decode-base64:update`. -/
def loop : List Nat → Decoding → Except Fault Decoding
  | [], context => .ok context
  | char :: rest, context =>
    let next := if char = newlineChar then InputState.lineStart else .inLine
    if char = equals ∨ charToDigit char < 0x40 then
      let buffer := context.inputBuffer ++ [char]
      if context.inputBuffer.length < 3 then
        loop rest { context with inputBuffer := buffer, inputState := next }
      else do
        let context ← context.quantum buffer
        loop rest { context with inputBuffer := [], inputState := next }
    else if context.inputState = .lineStart then .ok { context with inputState := .finished }
    else loop rest { context with inputState := next }

/-- `decode-base64:update`. -/
def update (context : Decoding) (string : List Nat) : Except Fault Decoding :=
  if context.inputState = .finished then .ok context else loop string context

/-- `decode-base64:finalize`. -/
def finalize (context : Decoding) : Except Fault Decoding :=
  if context.inputBuffer ≠ [] then .error .notMultipleOfFour
  else if context.pendingReturn then .ok { context with port := context.port ++ [cpReturn] }
  else .ok context

end Decoding

def decodePackets (text : Bool) (packets : List (List Nat)) : Except Fault (List UInt8) := do
  let context ← packets.foldlM Decoding.update (decodeInitialize text)
  return (← context.finalize).port

/-! ## What the encoder writes -/

/-- A byte as the encoder sees it: in text mode a newline becomes two bytes. -/
def crlf (byte : UInt8) : List UInt8 := if byte = cpNewline then [cpReturn, cpNewline] else [byte]

def canonical (text : Bool) (bytes : List UInt8) : List UInt8 :=
  if text then bytes.flatMap crlf else bytes

/-- The encoder has been given the bytes `all`: the full lines are written, the
rest is in the buffer. -/
def Encoding.Holds (context : Encoding) (all : List UInt8) : Prop :=
  ∃ lines : List (List UInt8), (∀ line ∈ lines, line.length = 48) ∧
    lines.flatten ++ context.buffer = all ∧ context.port = lines.flatMap encodeLine

namespace Encoding
variable {context : Encoding} {all : List UInt8}

theorem Holds.fill (h : context.Holds all) (bytes)
    (hn : context.buffer.length + bytes.length ≤ 48) :
    (context.fill bytes hn).Holds (all ++ bytes) ∧ (context.fill bytes hn).text = context.text := by
  obtain ⟨lines, hlen, rfl, hport⟩ := h
  unfold Encoding.fill
  split
  case isTrue hfull =>
    refine ⟨⟨lines ++ [context.buffer ++ bytes], ?_, ?_, ?_⟩, rfl⟩
    · intro line hl
      obtain hl | hl := List.mem_append.mp hl
      · exact hlen line hl
      · rw [List.mem_singleton.mp hl, List.length_append, hfull]
    · simp
    · simp [hport]
  case isFalse => exact ⟨⟨lines, hlen, (List.append_assoc _ _ _).symm, hport⟩, rfl⟩

theorem Holds.encode : ∀ (n : Nat) {context : Encoding} {all : List UInt8} (bytes : List UInt8),
    bytes.length = n → context.Holds all →
      (context.encode bytes).Holds (all ++ bytes) ∧ (context.encode bytes).text = context.text := by
  intro n
  induction n using Nat.strongRecOn with
  | _ n ih =>
    intro context all bytes hn h
    rw [Encoding.encode]
    split
    case isTrue hb =>
      subst hb
      rw [List.append_nil]
      exact ⟨h, rfl⟩
    case isFalse hb =>
      have hpos := List.length_pos_iff.mpr hb
      have hfull := context.notFull
      obtain ⟨hfill, htext⟩ := h.fill (bytes.take (48 - context.buffer.length)) (by
        rw [List.length_take]
        omega)
      obtain ⟨hrest, htext'⟩ := ih (bytes.drop (48 - context.buffer.length)).length (by
        rw [List.length_drop]
        omega) _ rfl hfill
      rw [List.append_assoc, List.take_append_drop] at hrest
      exact ⟨hrest, htext'.trans htext⟩

theorem flatMap_crlf_of_not_mem : ∀ {bytes : List UInt8}, cpNewline ∉ bytes →
    bytes.flatMap crlf = bytes
  | [], _ => rfl
  | b :: bytes, h => by
    rw [List.mem_cons, not_or] at h
    rw [List.flatMap_cons, flatMap_crlf_of_not_mem h.2, crlf, if_neg (Ne.symm h.1)]
    rfl

theorem Holds.encodeText : ∀ (n : Nat) {context : Encoding} {all : List UInt8}
    (bytes : List UInt8), bytes.length = n → context.Holds all →
      (context.encodeText bytes).Holds (all ++ bytes.flatMap crlf) ∧
        (context.encodeText bytes).text = context.text := by
  intro n
  induction n using Nat.strongRecOn with
  | _ n ih =>
    intro context all bytes hn h
    have hsplit := List.takeWhile_append_dropWhile (p := (· != cpNewline)) (l := bytes)
    have hline : cpNewline ∉ bytes.takeWhile (· != cpNewline) := by
      intro hm
      simpa using List.mem_takeWhile_imp hm
    rw [Encoding.encodeText]
    split
    case h_1 hdrop =>
      rw [hdrop, List.append_nil] at hsplit
      rw [hsplit] at hline
      rw [flatMap_crlf_of_not_mem hline]
      exact h.encode _ bytes rfl
    case h_2 b rest hdrop =>
      have hb : b = cpNewline := by
        have hhead := List.head?_dropWhile_not (· != cpNewline) bytes
        rw [hdrop] at hhead
        simpa using hhead
      rw [hdrop, hb] at hsplit
      obtain ⟨h1, ht1⟩ := h.encode _ (bytes.takeWhile (· != cpNewline)) rfl
      obtain ⟨h2, ht2⟩ := h1.encode _ [cpReturn, cpNewline] rfl
      have hlt : rest.length < n := by
        rw [← hn, ← hsplit, List.length_append, List.length_cons]
        omega
      obtain ⟨h3, ht3⟩ := ih rest.length hlt rest rfl h2
      have hcrlf : bytes.flatMap crlf =
          bytes.takeWhile (· != cpNewline) ++ [cpReturn, cpNewline] ++ rest.flatMap crlf := by
        conv => lhs; rw [← hsplit]
        rw [List.flatMap_append, flatMap_crlf_of_not_mem hline, List.flatMap_cons,
          List.append_assoc]
        rfl
      rw [hcrlf, ← List.append_assoc, ← List.append_assoc]
      exact ⟨h3, ht3.trans (ht2.trans ht1)⟩

theorem Holds.update (h : context.Holds all) (bytes) :
    (context.update bytes).Holds (all ++ canonical context.text bytes) ∧
      (context.update bytes).text = context.text := by
  unfold Encoding.update canonical
  split
  · exact h.encodeText _ bytes rfl
  · exact h.encode _ bytes rfl

theorem canonical_append (text a b) :
    canonical text (a ++ b) = canonical text a ++ canonical text b := by
  unfold canonical
  split
  · exact List.flatMap_append
  · rfl

theorem Holds.packets : ∀ (packets : List (List UInt8)) {context : Encoding} {all : List UInt8},
    context.Holds all →
      (packets.foldl Encoding.update context).Holds
        (all ++ canonical context.text packets.flatten)
  | [], context, all, h => by
    have hnil : canonical context.text [] = [] := by unfold canonical; split <;> rfl
    rw [List.flatten_nil, hnil, List.append_nil]
    exact h
  | bytes :: packets, context, all, h => by
    obtain ⟨h1, ht⟩ := h.update bytes
    have h2 := Holds.packets packets h1
    rw [ht, List.append_assoc, ← canonical_append] at h2
    exact h2

end Encoding

theorem encodePackets_lines (text packets) :
    ∃ lines : List (List UInt8), (∀ line ∈ lines, line ≠ []) ∧
      lines.flatten = canonical text packets.flatten ∧
      encodePackets text packets = lines.flatMap encodeLine := by
  have hinit : (encodeInitialize text).Holds [] := ⟨[], nofun, rfl, rfl⟩
  have h := hinit.packets packets
  rw [List.nil_append] at h
  obtain ⟨lines, hlen, hall, hport⟩ := h
  have htext : (encodeInitialize text).text = text := rfl
  rw [htext] at hall
  have hne : ∀ line ∈ lines, line ≠ [] := by
    intro line hl hnil
    have := hlen line hl
    rw [hnil] at this
    cases this
  unfold encodePackets Encoding.finalize Encoding.writeLine
  split
  case isTrue hnil =>
    rw [hnil, List.append_nil] at hall
    exact ⟨lines, hne, hall, hport⟩
  case isFalse hnil =>
    refine ⟨lines ++ [(packets.foldl Encoding.update (encodeInitialize text)).buffer], ?_, ?_, ?_⟩
    · intro line hl
      obtain hl | hl := List.mem_append.mp hl
      · exact hne line hl
      · rw [List.mem_singleton.mp hl]
        exact hnil
    · rw [← hall]
      simp
    · simp [hport]

/-! ## What the decoder reads -/

theorem writeDigit_eq (d) : writeDigit d = digitToChar (d % 64) := by
  rw [writeDigit, Nat.and_two_pow_sub_one_eq_mod d 6]

theorem decodeChar_writeDigit (d) : decodeChar (writeDigit d) = .ok (d % 64) := by
  have hlt : d % 64 < 64 := Nat.mod_lt d (by decide)
  rw [writeDigit_eq, decodeChar, charToDigit_digitToChar _ hlt, if_neg (by omega)]

theorem writeDigit_ne (d) : writeDigit d ≠ equals ∧ writeDigit d ≠ newlineChar := by
  rw [writeDigit_eq]
  exact digitToChar_ne _ (Nat.mod_lt d (by decide))

def Accepted (char : Nat) : Prop :=
  (char = equals ∨ charToDigit char < 0x40) ∧ char ≠ newlineChar

theorem accepted_writeDigit (d) : Accepted (writeDigit d) := by
  refine ⟨.inr ?_, (writeDigit_ne d).2⟩
  have hlt : d % 64 < 64 := Nat.mod_lt d (by decide)
  rw [writeDigit_eq, charToDigit_digitToChar _ hlt]
  exact hlt

theorem accepted_equals : Accepted equals := ⟨.inl rfl, by decide⟩

theorem shiftLeft_or_shiftRight (a b : UInt8) {i j} (hij : i + j = 8) :
    a.toNat <<< i ||| b.toNat >>> j = a.toNat * 2 ^ i + b.toNat / 2 ^ j := by
  have hb : b.toNat / 2 ^ j < 2 ^ i := by
    refine Nat.div_lt_of_lt_mul ?_
    rw [← Nat.pow_add, Nat.add_comm, hij]
    exact b.toNat_lt
  rw [Nat.shiftRight_eq_div_pow, ← Nat.shiftLeft_add_eq_or_of_lt hb, Nat.shiftLeft_eq]

theorem ofNat_eq {n a} (h : n % 256 = a.toNat) : UInt8.ofNat n = a := by
  rw [← UInt8.toNat_inj, UInt8.toNat_ofNat']
  exact h

theorem and_255 (n) : 0xFF &&& n = n % 256 := by
  rw [Nat.and_comm]
  exact Nat.and_two_pow_sub_one_eq_mod n 8

theorem decodeQuantum1_three (a b c : UInt8) :
    decodeQuantum1 (writeDigit (a.toNat >>> 2)) (writeDigit (a.toNat <<< 4 ||| b.toNat >>> 4))
      (writeDigit (b.toNat <<< 2 ||| c.toNat >>> 6)) (writeDigit c.toNat) = .ok [a, b, c] := by
  have ha := a.toNat_lt
  have hb := b.toNat_lt
  have hc := c.toNat_lt
  rw [shiftLeft_or_shiftRight a b rfl, shiftLeft_or_shiftRight b c rfl]
  simp only [decodeQuantum1, decodeChar_writeDigit, (writeDigit_ne _).1, ne_eq, not_false_eq_true,
    if_true, bind, Except.bind, pure, Except.pure]
  simp only [Nat.shiftLeft_eq, Nat.shiftRight_eq_div_pow, and_255]
  rw [ofNat_eq (a := a) (by omega), ofNat_eq (a := b) (by omega), ofNat_eq (a := c) (by omega)]

theorem decodeQuantum1_two (a b : UInt8) :
    decodeQuantum1 (writeDigit (a.toNat >>> 2)) (writeDigit (a.toNat <<< 4 ||| b.toNat >>> 4))
      (writeDigit (b.toNat <<< 2)) equals = .ok [a, b] := by
  have ha := a.toNat_lt
  have hb := b.toNat_lt
  rw [shiftLeft_or_shiftRight a b rfl]
  simp only [decodeQuantum1, decodeChar_writeDigit, (writeDigit_ne _).1, ne_eq, not_false_eq_true,
    not_true_eq_false, if_true, if_false, bind, Except.bind, pure, Except.pure]
  simp only [Nat.shiftLeft_eq, Nat.shiftRight_eq_div_pow, and_255]
  rw [ofNat_eq (a := a) (by omega), ofNat_eq (a := b) (by omega)]

theorem decodeQuantum1_one (a) :
    decodeQuantum1 (writeDigit (a.toNat >>> 2)) (writeDigit (a.toNat <<< 4)) equals equals =
      .ok [a] := by
  have ha := a.toNat_lt
  simp only [decodeQuantum1, decodeChar_writeDigit, ne_eq, not_true_eq_false, if_false, bind,
    Except.bind, pure, Except.pure]
  simp only [Nat.shiftLeft_eq, Nat.shiftRight_eq_div_pow]
  rw [ofNat_eq (a := a) (by omega)]

namespace Decoding

variable (context : Decoding)

theorem writeText_with (buffer state byte) :
    writeText { context with inputBuffer := buffer, inputState := state } byte =
      { context.writeText byte with inputBuffer := buffer, inputState := state } := by
  simp only [writeText]
  split
  · rfl
  · split <;> rfl

theorem foldl_writeText_with (buffer state) :
    ∀ (bytes : List UInt8) (context : Decoding),
      bytes.foldl writeText { context with inputBuffer := buffer, inputState := state } =
        { bytes.foldl writeText context with inputBuffer := buffer, inputState := state }
  | [], _ => rfl
  | byte :: bytes, context => by
    rw [List.foldl_cons, writeText_with, foldl_writeText_with buffer state bytes, List.foldl_cons]

theorem writeOutput_with (buffer state bytes) :
    writeOutput { context with inputBuffer := buffer, inputState := state } bytes =
      { context.writeOutput bytes with inputBuffer := buffer, inputState := state } := by
  unfold writeOutput
  split
  · exact foldl_writeText_with buffer state bytes context
  · rfl

theorem foldl_writeText_text : ∀ (bytes : List UInt8) (context : Decoding),
    (bytes.foldl writeText context).text = context.text
  | [], _ => rfl
  | byte :: bytes, context => by
    have hbyte : (context.writeText byte).text = context.text := by
      simp only [writeText]
      split
      · rfl
      · split <;> rfl
    rw [List.foldl_cons, foldl_writeText_text bytes, hbyte]

theorem writeOutput_append (a b) :
    (context.writeOutput a).writeOutput b = context.writeOutput (a ++ b) := by
  cases htext : context.text with
  | true => simp only [writeOutput, htext, foldl_writeText_text, if_true, List.foldl_append]
  | false => simp [writeOutput, htext]

def receive (context : Decoding) (state : InputState) (bytes : List UInt8) : Decoding :=
  { context.writeOutput bytes with inputBuffer := [], inputState := state }

theorem receive_receive (s s' a b) :
    (context.receive s a).receive s' b = context.receive s' (a ++ b) := by
  unfold receive
  rw [writeOutput_with, writeOutput_append]

theorem loop_buffer {char} (hchar : Accepted char) (rest context)
    (hroom : context.inputBuffer.length < 3) :
    loop (char :: rest) context =
      loop rest { context with
        inputBuffer := context.inputBuffer ++ [char], inputState := .inLine } := by
  rw [loop, if_pos hchar.1, if_pos hroom, if_neg hchar.2]

theorem loop_quantum {c1 c2 c3 c4 bytes} (h1 : Accepted c1) (h2 : Accepted c2) (h3 : Accepted c3)
    (h4 : Accepted c4) (hq : decodeQuantum1 c1 c2 c3 c4 = .ok bytes) (rest context)
    (hempty : context.inputBuffer = []) :
    loop (c1 :: c2 :: c3 :: c4 :: rest) context = loop rest (context.receive .inLine bytes) := by
  rw [loop_buffer h1 _ _ (by simp [hempty]), hempty, loop_buffer h2 _ _ (by simp),
    loop_buffer h3 _ _ (by simp), loop, if_pos h4.1, if_neg (by simp), if_neg h4.2]
  simp only [List.nil_append, List.cons_append, quantum, hq, Except.map, bind, Except.bind,
    writeOutput_with]
  rfl

theorem loop_encodeQuanta : ∀ (bytes : List UInt8) (rest : List Nat) (context : Decoding),
    context.inputBuffer = [] → bytes ≠ [] →
      loop (encodeQuanta bytes ++ rest) context = loop rest (context.receive .inLine bytes)
  | [], _, _, _, hne => absurd rfl hne
  | [a], rest, context, hempty, _ => by
    rw [encodeQuanta]
    exact loop_quantum (accepted_writeDigit _) (accepted_writeDigit _) accepted_equals
      accepted_equals (decodeQuantum1_one a) rest context hempty
  | [a, b], rest, context, hempty, _ => by
    rw [encodeQuanta]
    exact loop_quantum (accepted_writeDigit _) (accepted_writeDigit _) (accepted_writeDigit _)
      accepted_equals (decodeQuantum1_two a b) rest context hempty
  | a :: b :: c :: bytes, rest, context, hempty, _ => by
    rw [encodeQuanta]
    simp only [List.cons_append]
    rw [loop_quantum (accepted_writeDigit _) (accepted_writeDigit _) (accepted_writeDigit _)
      (accepted_writeDigit _) (decodeQuantum1_three a b c) _ context hempty]
    by_cases hb : bytes = []
    · rw [hb]
      rfl
    · rw [loop_encodeQuanta bytes rest _ rfl hb, receive_receive]
      rfl

theorem loop_newline (rest context) (hline : context.inputState = .inLine) :
    loop (newlineChar :: rest) context = loop rest { context with inputState := .lineStart } := by
  rw [loop, if_neg (by decide), if_neg (by rw [hline]; decide), if_pos rfl]

theorem loop_encodeLine (bytes) (hne : bytes ≠ []) (rest context)
    (hempty : context.inputBuffer = []) :
    loop (encodeLine bytes ++ rest) context = loop rest (context.receive .lineStart bytes) := by
  rw [encodeLine, List.append_assoc, loop_encodeQuanta bytes _ context hempty hne,
    List.singleton_append, loop_newline _ _ rfl]
  rfl

theorem loop_lines : ∀ (lines : List (List UInt8)) (context : Decoding),
    (∀ line ∈ lines, line ≠ []) → context.inputBuffer = [] → context.inputState = .lineStart →
      loop (lines.flatMap encodeLine) context = .ok (context.receive .lineStart lines.flatten)
  | [], context, _, hempty, hstart => by
    rw [List.flatMap_nil, List.flatten_nil, loop, receive]
    have hnil : context.writeOutput [] = context := by
      unfold writeOutput
      split
      · rfl
      · rw [List.append_nil]
    rw [hnil, ← hempty, ← hstart]
  | line :: lines, context, hne, hempty, hstart => by
    rw [List.flatMap_cons, loop_encodeLine line (hne line List.mem_cons_self) _ context hempty,
      loop_lines lines _ (fun l hl => hne l (List.mem_cons_of_mem _ hl)) rfl rfl, receive_receive,
      List.flatten_cons]

/-! ## Packets of characters -/

theorem loop_append : ∀ (a b : List Nat) (context : Decoding),
    context.inputState ≠ .finished →
      loop (a ++ b) context = (loop a context).bind (·.update b)
  | [], b, context, hlive => by
    rw [List.nil_append, loop, Except.bind, update, if_neg hlive]
  | char :: a, b, context, hlive => by
    have hnext : (if char = newlineChar then InputState.lineStart else .inLine) ≠ .finished := by
      split <;> decide
    rw [List.cons_append, loop, loop]
    simp only
    split
    case isTrue =>
      split
      case isTrue => exact loop_append a b _ hnext
      case isFalse =>
        cases context.quantum (context.inputBuffer ++ [char]) with
        | error _ => rfl
        | ok context' => exact loop_append a b _ hnext
    case isFalse =>
      split
      case isTrue => rfl
      case isFalse => exact loop_append a b _ hnext

theorem update_append (a b) (context : Decoding) :
    context.update (a ++ b) = (context.update a).bind (·.update b) := by
  by_cases hfin : context.inputState = .finished
  · rw [update, update, if_pos hfin, if_pos hfin, Except.bind, update, if_pos hfin]
  · rw [update, update, if_neg hfin, if_neg hfin, loop_append a b context hfin]

theorem foldlM_update : ∀ (packets : List (List Nat)) (context : Decoding),
    packets.foldlM update context = context.update packets.flatten
  | [], context => by
    rw [List.foldlM_nil, List.flatten_nil, update, loop]
    split <;> rfl
  | packet :: packets, context => by
    rw [List.foldlM_cons, List.flatten_cons, update_append]
    cases context.update packet with
    | error _ => rfl
    | ok context' => exact foldlM_update packets context'

/-! ## Text mode -/

def written (context : Decoding) : List UInt8 :=
  if context.pendingReturn then context.port ++ [cpReturn] else context.port

theorem written_crlf (byte) :
    ((crlf byte).foldl writeText context).written = context.written ++ [byte] := by
  obtain ⟨text, buffer, state, pending, port⟩ := context
  by_cases hb : byte = cpNewline
  · subst hb
    cases pending <;> simp [crlf, writeText, written, cpReturn, cpNewline]
  · by_cases hr : byte = cpReturn
    · subst hr
      cases pending <;> simp [crlf, writeText, written, cpReturn, cpNewline]
    · cases pending <;> simp [crlf, writeText, written, hb, hr]

theorem written_flatMap_crlf : ∀ (bytes : List UInt8) (context : Decoding),
    ((bytes.flatMap crlf).foldl writeText context).written = context.written ++ bytes
  | [], context => (List.append_nil _).symm
  | byte :: bytes, context => by
    rw [List.flatMap_cons, List.foldl_append, written_flatMap_crlf bytes, written_crlf,
      List.append_assoc]
    rfl

theorem written_canonical (text bytes) :
    ((decodeInitialize text).writeOutput (canonical text bytes)).written = bytes := by
  cases text with
  | true => exact written_flatMap_crlf bytes (decodeInitialize true)
  | false => exact List.nil_append bytes

theorem finalize_receive (state bytes) :
    (context.receive state bytes).finalize.map port = .ok (context.writeOutput bytes).written := by
  unfold finalize receive written
  rw [if_neg (by simp)]
  simp only
  split <;> rfl

end Decoding

/-- **What was encoded is decoded**: whatever the packets of the encoder and those
of the decoder are. -/
theorem decodePackets_encodePackets (text : Bool) (packets : List (List UInt8))
    (packets' : List (List Nat)) (h : packets'.flatten = encodePackets text packets) :
    decodePackets text packets' = .ok packets.flatten := by
  obtain ⟨lines, hne, hflat, hlines⟩ := encodePackets_lines text packets
  have hloop := Decoding.loop_lines lines (decodeInitialize text) hne rfl rfl
  have hfin := Decoding.finalize_receive (decodeInitialize text) .lineStart lines.flatten
  rw [hflat, Decoding.written_canonical] at hfin
  have hlive : (decodeInitialize text).inputState ≠ .finished := by
    intro hs
    cases hs
  unfold decodePackets
  rw [Decoding.foldlM_update, h, hlines, Decoding.update, if_neg hlive, hloop, hflat]
  exact hfin

/-- The text `a`, newline, `b` in two packets, its eight characters and the end of
the line read one by one. -/
theorem decodePackets_encodePackets_newline :
    encodePackets true [[0x61, 0x0A], [0x62]] =
      [0x59, 0x51, 0x30, 0x4B, 0x59, 0x67, 0x3D, 0x3D, 0x0A] ∧
    decodePackets true [[0x59, 0x51, 0x30], [0x4B], [], [0x59, 0x67, 0x3D, 0x3D, 0x0A]] =
      .ok [0x61, 0x0A, 0x62] := by
  have htext : encodePackets true [[0x61, 0x0A], [0x62]] =
      [0x59, 0x51, 0x30, 0x4B, 0x59, 0x67, 0x3D, 0x3D, 0x0A] := by
    decide +kernel
  exact ⟨htext, decodePackets_encodePackets true [[0x61, 0x0A], [0x62]]
    [[0x59, 0x51, 0x30], [0x4B], [], [0x59, 0x67, 0x3D, 0x3D, 0x0A]] htext.symm⟩

end MitScheme.Runtime.Base64
