import Mathlib

/-! # The quoted-printable codec

The encoder and the decoder are fed with packets. A string is the list of its code points, the
part of a packet between two indices is a list, and the port is the list of what was written. -/

namespace MitScheme.Runtime.QuotedPrintable

inductive Fault where
  | wrongType
  | unicode
deriving DecidableEq

def newlineChar : Nat := 0x0A
def space : Nat := 0x20
def tab : Nat := 0x09
def equals : Nat := 0x3D

/-- `char-lwsp?`. -/
def isLwsp (c : Nat) : Bool := c == space || c == tab

/-- Membership in `char-set:qp-encoded`. -/
def isQpEncoded (c : Nat) : Bool :=
  !((0x21 ≤ c && c < 0x7F && c != equals) || c == space || c == tab)

inductive SliceType where
  | partial_
  | lineEnd
  | inputEnd
deriving DecidableEq

/-! ## Encoder -/

structure Encoding where
  text : Bool
  pendingLwsp : Option Nat
  column : Nat
  pendingOutput : Option (List Nat)
  port : List Nat

/-- `encode-quoted-printable:initialize`. -/
def encodeInitialize (text : Bool) : Encoding := ⟨text, none, 0, none, []⟩

namespace Encoding

variable (context : Encoding)

def write (s : List Nat) : Encoding := { context with port := context.port ++ s }

def writeQpSoftBreak : Encoding :=
  { context.write [equals, newlineChar] with column := 0 }

def writeQpPendingOutput (newline : Bool) : Encoding :=
  match context.pendingOutput with
  | none => context
  | some pending =>
    let context := if newline then context else context.writeQpSoftBreak
    { context.write pending with
      pendingOutput := none, column := context.column + pending.length }

def writeQpClear (char : Nat) : Encoding :=
  let context := context.writeQpPendingOutput false
  if context.column < 75 then
    { context.write [char] with column := context.column + 1 }
  else if !context.text then { context.writeQpSoftBreak.write [char] with column := 1 }
  else { context with pendingOutput := some [char] }

/-- `hex` of `write-qp-encoded`. -/
def hex (d : Nat) : Nat := if d < 10 then 0x30 + d else 0x41 + (d - 10)

def escape (char : Nat) : List Nat := [equals, hex (char >>> 4), hex (char &&& 0x0F)]

def writeQpEncoded (char : Nat) : Encoding :=
  let context := context.writeQpPendingOutput false
  if context.column = 73 then { context with pendingOutput := some (escape char) }
  else
    let context := if 73 < context.column then context.writeQpSoftBreak else context
    { context.write (escape char) with column := context.column + 3 }

def writeQpHardBreak : Encoding :=
  { (context.writeQpPendingOutput true).write [newlineChar] with column := 0 }

def encodeQpPendingLwsp (packetNotEmpty : Bool) (type : SliceType) : Encoding :=
  match context.pendingLwsp with
  | none => context
  | some pending =>
    if packetNotEmpty then { context with pendingLwsp := none }.writeQpClear pending
    else if type ≠ .partial_ then { context with pendingLwsp := none }.writeQpEncoded pending
    else context

/-- The loop of `encode-qp`. -/
def encodeLoop (type : SliceType) : List Nat → Encoding → Except Fault Encoding
  | [], context => .ok (if type = .lineEnd then context.writeQpHardBreak else context)
  | char :: rest, context =>
    if ¬ char < 0x100 then .error .unicode
    else if ¬ isLwsp char then
      encodeLoop type rest
        (if isQpEncoded char then context.writeQpEncoded char else context.writeQpClear char)
    else if type = .partial_ ∧ rest = [] then .ok { context with pendingLwsp := some char }
    else
      encodeLoop type rest
        (if rest ≠ [] then context.writeQpClear char else context.writeQpEncoded char)

def encodeQp (slice : List Nat) (type : SliceType) : Except Fault Encoding :=
  encodeLoop type slice (context.encodeQpPendingLwsp (slice ≠ []) type)

/-- The loop of `encode-quoted-printable:update`, where newlines end lines. -/
def encodeLines (string : List Nat) (context : Encoding) : Except Fault Encoding :=
  match _h : string.dropWhile (· != newlineChar) with
  | [] => context.encodeQp string .partial_
  | _ :: rest => do
    encodeLines rest (← context.encodeQp (string.takeWhile (· != newlineChar)) .lineEnd)
termination_by string.length
decreasing_by
  have h1 := congrArg List.length _h
  have h2 := (List.dropWhile_suffix (· != newlineChar) (l := string)).length_le
  simp only [List.length_cons] at h1
  omega

/-- `encode-quoted-printable:update`. -/
def encodeUpdate (string : List Nat) : Except Fault Encoding :=
  if context.text then encodeLines string context else context.encodeQp string .partial_

/-- `encode-quoted-printable:finalize`. -/
def encodeFinalize : Encoding :=
  (context.encodeQpPendingLwsp false .inputEnd).writeQpPendingOutput true

end Encoding

def encodePackets (text : Bool) (packets : List (List Nat)) : Except Fault (List Nat) := do
  let context ← packets.foldlM (fun context packet => context.encodeUpdate packet)
    (encodeInitialize text)
  return context.encodeFinalize.port

/-! ## Decoder -/

structure DecimalDigits where
  digitValue : Nat → Option Nat
  lt_ten : ∀ c d, digitValue c = some d → d < 10
  ascii : ∀ c < 0x80, digitValue c = if 0x30 ≤ c ∧ c < 0x3A then some (c - 0x30) else none

def asciiDigits : DecimalDigits where
  digitValue c := if 0x30 ≤ c ∧ c < 0x3A then some (c - 0x30) else none
  lt_ten c d h := by
    split at h
    · obtain rfl := Option.some.inj h
      omega
    · cases h
  ascii c _ := rfl

/-- Input that waits for more; `char` is the equals sign, or a digit after one. -/
inductive Pending where
  | none
  | string (s : List Nat)
  | char (c : Nat)

structure Decoding where
  pending : Pending
  port : List Nat

/-- `decode-quoted-printable:initialize`; nothing reads `text?`. -/
def decodeInitialize : Decoding := ⟨.none, []⟩

section Decoder

variable (digits : DecimalDigits)

/-- `char->digit` in radix 16. -/
def charToDigit (c : Nat) : Option Nat :=
  match digits.digitValue c with
  | some d => if d < 16 then some d else none
  | none =>
    if 0x41 ≤ c ∧ c < 0x47 then some (c - 0x41 + 10)
    else if 0x61 ≤ c ∧ c < 0x67 then some (c - 0x61 + 10)
    else none

variable (checked : Bool)

/-- `(fix:< d #x10)` of a digit or `#f`. The primitive checks its argument; compiled code compares
the data of the objects, which is 0 for `#f`. -/
def digitLt16 : Option Nat → Except Fault Bool
  | some d => .ok (d < 16)
  | none => if checked then .error .wrongType else .ok true

/-- The character that `decode-qp-hex` computes. -/
def hexChar (c1 c2 : Nat) : Except Fault (Option Nat) := do
  let d1 := charToDigit digits c1
  let d2 := charToDigit digits c2
  if ← digitLt16 checked d1 then
    if ← digitLt16 checked d2 then return some (d1.getD 0 <<< 4 ||| d2.getD 0) else return none
  else return none

namespace Decoding

def write (context : Decoding) (s : List Nat) : Decoding :=
  { context with port := context.port ++ s }

/-- `decode-qp-hex`, with what is left of the slice after `c2`; the result is the slice to go on
with. -/
def decodeQpHex (context : Decoding) (c1 c2 : Nat) (rest : List Nat) :
    Except Fault (Decoding × List Nat) := do
  match ← hexChar digits checked c1 c2 with
  | some char => return (context.write [char], rest)
  | none => return (context.write [equals, c1], c2 :: rest)

theorem decodeQpHex_length {context'} {context : Decoding} {c1 c2} {rest rest' : List Nat}
    (h : context.decodeQpHex digits checked c1 c2 rest = .ok (context', rest')) :
    rest'.length ≤ rest.length + 1 := by
  rw [decodeQpHex] at h
  cases hchar : hexChar digits checked c1 c2 with
  | error f =>
    rw [hchar] at h
    cases h
  | ok r =>
    rw [hchar] at h
    cases r with
    | none =>
      obtain ⟨-, rfl⟩ : _ ∧ c2 :: rest = rest' := by
        simpa [bind, Except.bind, pure, Except.pure] using h
      simp
    | some char =>
      obtain ⟨-, rfl⟩ : _ ∧ rest = rest' := by
        simpa [bind, Except.bind, pure, Except.pure] using h
      omega

mutual

/-- `loop` of `decode-qp`, up to `finish`. -/
def loop : List Nat → Decoding → Except Fault Decoding
  | [], context => .ok context
  | char :: rest, context =>
    if isQpEncoded char then
      if char = equals then handleEquals rest context else loop rest context
    else loop rest (context.write [char])
termination_by slice => 2 * slice.length

/-- `handle-equals` of `decode-qp`, up to `finish`. -/
def handleEquals : List Nat → Decoding → Except Fault Decoding
  | c1 :: c2 :: rest, context =>
    match _h : context.decodeQpHex digits checked c1 c2 rest with
    | .error f => .error f
    | .ok (context', rest') => loop rest' context'
  | [char], context =>
    .ok (if (charToDigit digits char).isSome then { context with pending := .char char }
      else context.write [equals, char])
  | [], context => .ok { context with pending := .char equals }
termination_by slice => 2 * slice.length + 1
decreasing_by
  have := decodeQpHex_length digits checked _h
  simp only [List.length_cons]
  omega

end

/-- `decode-qp-pending-string`; `string-append` takes strings only. -/
def decodeQpPendingString (pending : Pending) (lwsp : List Nat) : Except Fault Pending :=
  if lwsp ≠ [] then
    match pending with
    | .none => .ok (.string lwsp)
    | .string s => .ok (.string (s ++ lwsp))
    | .char _ => .error .wrongType
  else .ok pending

/-- `finish` of `decode-qp`; `lwsp` is the whitespace at the end of the slice. -/
def finish (type : SliceType) (lwsp : List Nat) (context : Decoding) : Except Fault Decoding :=
  let pending := context.pending
  let context := { context with pending := .none }
  if type = .partial_ then do
    return { context with pending := ← decodeQpPendingString pending lwsp }
  else
    match pending with
    | .none => .ok (if type = .lineEnd then context.write [newlineChar] else context)
    | .char c =>
      .ok (if c = equals then if type = .lineEnd then context else context.write [equals]
        else context.write [equals, c])
    | .string _ => .ok context

/-- `decode-qp`, up to `finish`. -/
def begin (slice : List Nat) (context : Decoding) : Except Fault Decoding :=
  match slice, context.pending with
  | char :: rest, .char c =>
    let context := { context with pending := .none }
    if c = equals then handleEquals digits checked (char :: rest) context
    else do
      let (context', rest') ← context.decodeQpHex digits checked c char rest
      loop digits checked rest' context'
  | char :: rest, .string s =>
    loop digits checked (char :: rest) ({ context with pending := .none }.write s)
  | slice, _ => loop digits checked slice context

def decodeQp (slice : List Nat) (type : SliceType) (context : Decoding) :
    Except Fault Decoding := do
  finish type (slice.rtakeWhile isLwsp)
    (← begin digits checked (slice.rdropWhile isLwsp) context)

/-- `decode-quoted-printable:update`. -/
def decodeUpdate (string : List Nat) (context : Decoding) : Except Fault Decoding :=
  match _h : string.dropWhile (· != newlineChar) with
  | [] => decodeQp digits checked string .partial_ context
  | _ :: rest => do
    decodeUpdate rest (← decodeQp digits checked
      ((string.takeWhile (· != newlineChar)).rdropWhile isLwsp) .lineEnd context)
termination_by string.length
decreasing_by
  have h1 := congrArg List.length _h
  have h2 := (List.dropWhile_suffix (· != newlineChar) (l := string)).length_le
  simp only [List.length_cons] at h1
  omega

/-- `decode-quoted-printable:finalize`. -/
def decodeFinalize (context : Decoding) : Except Fault Decoding :=
  decodeQp digits checked [] .inputEnd context

end Decoding

def decodePackets (packets : List (List Nat)) : Except Fault (List Nat) := do
  let context ← packets.foldlM
    (fun context packet => context.decodeUpdate digits checked packet) decodeInitialize
  return (← context.decodeFinalize digits checked).port

end Decoder

end MitScheme.Runtime.QuotedPrintable
