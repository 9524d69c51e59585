import Mathlib.Data.List.Range
import MitScheme.Lib.Outcome

/-! # Line endings

The normalizers and denormalizers of `generic-io.scm`. The bytes and the decoder of an input buffer
are modelled by the characters they give, with a read that would block wherever one does; the end of
the file stays. A sink answers each write of a character as it likes. -/

namespace MitScheme.Runtime.LineEnding
open Lib.Outcome

/-- What is read: a character, `#f`, or the end-of-file object. -/
inductive Item
  | char (c : Nat)
  | wouldBlock
  | eof
  deriving DecidableEq

/-- The fields of an input buffer that its normalizer uses. -/
structure InputBuffer where
  source : List (Option Nat)
  decodedChars : List Item

def decodeChar (ib : InputBuffer) : Item × InputBuffer :=
  match ib.decodedChars with
  | char :: chars => (char, { ib with decodedChars := chars })
  | [] =>
    match ib.source with
    | [] => (.eof, ib)
    | some c :: rest => (.char c, { ib with source := rest })
    | none :: rest => (.wouldBlock, { ib with source := rest })

def unreadDecodedChar (ib : InputBuffer) (char : Item) : InputBuffer :=
  { ib with decodedChars := char :: ib.decodedChars }

def lineFeed : Nat := 0x0A
def carriageReturn : Nat := 0x0D
def nextLine : Nat := 0x85
def lineSeparator : Nat := 0x2028

/-! ## Normalizers -/

inductive Name
  | newline
  | cr
  | crlf
  | xml10
  | xml11

def afterReturn (joins : Nat → Bool) (alone : Nat) (ib : InputBuffer) : Item × InputBuffer :=
  match decodeChar ib with
  | (.char c1, ib) =>
    if joins c1 then (.char lineFeed, ib) else (.char alone, unreadDecodedChar ib (.char c1))
  | (.wouldBlock, ib) => (.wouldBlock, unreadDecodedChar ib (.char carriageReturn))
  | (.eof, ib) => (.char alone, unreadDecodedChar ib .eof)

/-- The normalizer `newline`. -/
def normalizerNewline (ib : InputBuffer) : Item × InputBuffer := decodeChar ib

/-- The normalizer `cr`. -/
def normalizerCr (ib : InputBuffer) : Item × InputBuffer :=
  match decodeChar ib with
  | (.char c0, ib) => (.char (if c0 = carriageReturn then lineFeed else c0), ib)
  | (c0, ib) => (c0, ib)

/-- The normalizer `crlf`. -/
def normalizerCrlf (ib : InputBuffer) : Item × InputBuffer :=
  match decodeChar ib with
  | (.char c0, ib) =>
    if c0 = carriageReturn then afterReturn (· = lineFeed) carriageReturn ib else (.char c0, ib)
  | (c0, ib) => (c0, ib)

/-- The normalizer `xml-1.0`. -/
def normalizerXml10 (ib : InputBuffer) : Item × InputBuffer :=
  match decodeChar ib with
  | (.char c0, ib) =>
    if c0 = carriageReturn then afterReturn (· = lineFeed) lineFeed ib else (.char c0, ib)
  | (c0, ib) => (c0, ib)

/-- The normalizer `xml-1.1`. -/
def normalizerXml11 (ib : InputBuffer) : Item × InputBuffer :=
  match decodeChar ib with
  | (.char c0, ib) =>
    if c0 = carriageReturn then afterReturn (fun c1 => c1 = lineFeed ∨ c1 = nextLine) lineFeed ib
    else if c0 = nextLine ∨ c0 = lineSeparator then (.char lineFeed, ib)
    else (.char c0, ib)
  | (c0, ib) => (c0, ib)

def normalizer : Name → InputBuffer → Item × InputBuffer
  | .newline => normalizerNewline
  | .cr => normalizerCr
  | .crlf => normalizerCrlf
  | .xml10 => normalizerXml10
  | .xml11 => normalizerXml11

/-! ## Denormalizers -/

inductive Fault
  | charEncoding

abbrev Result (α : Type) := Except Fault α

inductive Answer
  | whole
  | nothing
  | wouldBlock
  | short

/-- The answers of the sink, which takes everything after them, and the characters written. -/
structure OutputBuffer where
  answers : List Answer
  written : List Nat

/-- `encode-char`: 1, 0 or `#f`. -/
def encodeChar (ob : OutputBuffer) (char : Nat) : Result (Option Nat × OutputBuffer) :=
  let rest := ob.answers.tail
  match ob.answers.head?.getD .whole with
  | .whole => .ok (some 1, ⟨rest, ob.written ++ [char]⟩)
  | .nothing => .ok (some 0, ⟨rest, ob.written⟩)
  | .wouldBlock => .ok (none, ⟨rest, ob.written⟩)
  | .short => .error .charEncoding

/-- The denormalizer `newline`. -/
def denormalizerNewline (ob : OutputBuffer) (char : Nat) : Result (Option Nat × OutputBuffer) :=
  encodeChar ob char

/-- The denormalizer `cr`. -/
def denormalizerCr (ob : OutputBuffer) (char : Nat) : Result (Option Nat × OutputBuffer) :=
  encodeChar ob (if char = lineFeed then carriageReturn else char)

/-- The denormalizer `crlf`. -/
def denormalizerCrlf (ob : OutputBuffer) (char : Nat) : Result (Option Nat × OutputBuffer) := do
  if char = lineFeed then
    let (n1, ob) ← encodeChar ob carriageReturn
    if n1 = some 1 then
      let (n2, ob) ← encodeChar ob lineFeed
      if n2 ≠ some 1 then .error .charEncoding else return (some 2, ob)
    else return (n1, ob)
  else encodeChar ob char

/-- The denormalizer `xml-1.0`. -/
def denormalizerXml10 (ob : OutputBuffer) (char : Nat) : Result (Option Nat × OutputBuffer) :=
  encodeChar ob char

/-- The denormalizer `xml-1.1`. -/
def denormalizerXml11 (ob : OutputBuffer) (char : Nat) : Result (Option Nat × OutputBuffer) :=
  encodeChar ob char

def denormalizer : Name → OutputBuffer → Nat → Result (Option Nat × OutputBuffer)
  | .newline => denormalizerNewline
  | .cr => denormalizerCr
  | .crlf => denormalizerCrlf
  | .xml10 => denormalizerXml10
  | .xml11 => denormalizerXml11

/-- A writer that goes on with a character until it is written. -/
inductive Writes (name : Name) : OutputBuffer → List Nat → OutputBuffer → Prop
  | done {ob} : Writes name ob [] ob
  | again {ob ob' ob'' char chars n} : denormalizer name ob char = .ok (n, ob') → ¬0 < n.getD 0 →
      Writes name ob' (char :: chars) ob'' → Writes name ob (char :: chars) ob''
  | next {ob ob' ob'' char chars n} : denormalizer name ob char = .ok (n, ob') → 0 < n.getD 0 →
      Writes name ob' chars ob'' → Writes name ob (char :: chars) ob''

/-! ## What they should do -/

/-- The characters that end a line together with a carriage return before them. -/
def joins : Name → Nat → Bool
  | .newline, _ | .cr, _ => false
  | .crlf, c | .xml10, c => c = lineFeed
  | .xml11, c => c = lineFeed ∨ c = nextLine

def alone : Name → Nat → Nat
  | .newline, c | .crlf, c => c
  | .cr, c | .xml10, c => if c = carriageReturn then lineFeed else c
  | .xml11, c =>
    if c = carriageReturn ∨ c = nextLine ∨ c = lineSeparator then lineFeed else c

def translate (name : Name) : List Nat → List Nat
  | [] => []
  | [c] => [alone name c]
  | c :: c1 :: rest =>
    if c = carriageReturn ∧ joins name c1 then lineFeed :: translate name rest
    else alone name c :: translate name (c1 :: rest)

def reads (name : Name) : Nat → InputBuffer → List Item
  | 0, _ => []
  | n + 1, ib => (normalizer name ib).1 :: reads name n (normalizer name ib).2

/-- The results that are not `#f`. -/
def ready (items : List Item) : List Item := items.filter (· ≠ .wouldBlock)

def delivered (text : List Nat) (k : Nat) : Item := (text[k]?).elim .eof .char

def characters (source : List (Option Nat)) : List Nat := source.filterMap id

/-! ## Translation -/

variable (name : Name)

inductive Holds : InputBuffer → List Nat → Prop
  | empty (source) : Holds ⟨source, []⟩ (characters source)
  | one (source c) : Holds ⟨source, [.char c]⟩ (c :: characters source)
  | eof : Holds ⟨[], [.eof]⟩ []

def blocks (ib : InputBuffer) : Nat := ib.source.count none

/-- A call is blocked, or it reads one translated character, or the end. -/
def Advances (name : Name) (ib : InputBuffer) (text : List Nat) (result : Item × InputBuffer) :
    Prop :=
  (result.1 = .wouldBlock ∧ Holds result.2 text ∧ blocks result.2 < blocks ib) ∨
    blocks result.2 ≤ blocks ib ∧
      ((∃ c rest, result.1 = .char c ∧ translate name text = c :: translate name rest ∧
          Holds result.2 rest) ∨
        (result.1 = .eof ∧ text = [] ∧ Holds result.2 []))

inductive Decodes (ib : InputBuffer) (text : List Nat) : Prop
  | wouldBlock (source) (h : decodeChar ib = (.wouldBlock, ⟨source, []⟩))
      (htext : text = characters source) (hblocks : source.count none < blocks ib)
  | char (c source) (h : decodeChar ib = (.char c, ⟨source, []⟩))
      (htext : text = c :: characters source) (hblocks : source.count none ≤ blocks ib)
  | eof (h : decodeChar ib = (.eof, ⟨[], []⟩)) (htext : text = [])

def encoded : Name → Nat → List Nat
  | .newline, c | .xml10, c | .xml11, c => [c]
  | .cr, c => [if c = lineFeed then carriageReturn else c]
  | .crlf, c => if c = lineFeed then [carriageReturn, lineFeed] else [c]

def WrittenAs (ob : OutputBuffer) (chars : List Nat) (result : Option Nat × OutputBuffer) : Prop :=
  result.2.written = if 0 < result.1.getD 0 then ob.written ++ chars else ob.written

theorem encodeChar_written {ob c result} (h : encodeChar ob c = .ok result) :
    WrittenAs ob [c] result ∧ (result.1 = some 1 ∨ ¬0 < result.1.getD 0) := by
  rw [encodeChar] at h
  cases ha : ob.answers.head?.getD .whole <;> simp only [ha, Except.ok.injEq] at h
  · subst h
    exact ⟨rfl, .inl rfl⟩
  · subst h
    exact ⟨rfl, .inr (Nat.lt_irrefl 0)⟩
  · subst h
    exact ⟨rfl, .inr (Nat.lt_irrefl 0)⟩
  · cases h

theorem denormalizer_written {name ob c result} (h : denormalizer name ob c = .ok result) :
    WrittenAs ob (encoded name c) result := by
  cases name with
  | newline | cr | xml10 | xml11 => exact (encodeChar_written h).1
  | crlf =>
    rw [denormalizer, denormalizerCrlf] at h
    rw [encoded]
    by_cases hc : c = lineFeed
    · rw [if_pos hc] at h ⊢
      obtain ⟨⟨n1, ob1⟩, h1, h⟩ := bind_eq_ok h
      obtain ⟨hwritten, hn1⟩ := encodeChar_written h1
      rcases hn1 with rfl | hn1
      · obtain ⟨⟨n2, ob2⟩, h2, h⟩ := bind_eq_ok h
        obtain ⟨hwritten', hn2⟩ := encodeChar_written h2
        by_cases hone : n2 = some 1
        · subst hone
          cases h
          have hreturn : ob1.written = ob.written ++ [carriageReturn] := hwritten
          have hline : ob2.written = ob1.written ++ [lineFeed] := hwritten'
          show ob2.written = ob.written ++ [carriageReturn, lineFeed]
          rw [hline, hreturn, List.append_assoc]
          rfl
        · simp only [ne_eq, hone, not_false_eq_true, if_true] at h
          cases h
      · have hne : n1 ≠ some 1 := fun he => hn1 (by subst he; exact Nat.one_pos)
        simp only [if_neg hne] at h
        cases h
        rw [WrittenAs] at hwritten ⊢
        rw [hwritten, if_neg hn1, if_neg hn1]
    · rw [if_neg hc] at h ⊢
      exact (encodeChar_written h).1

theorem Writes.written {name ob ob' text} (h : Writes name ob text ob') :
    ob'.written = ob.written ++ text.flatMap (encoded name) := by
  induction h with
  | done => exact (List.append_nil _).symm
  | again hstep hn _ ih =>
    have hwritten := denormalizer_written hstep
    rw [WrittenAs, if_neg hn] at hwritten
    rw [ih, hwritten]
  | next hstep hn _ ih =>
    have hwritten := denormalizer_written hstep
    rw [WrittenAs, if_pos hn] at hwritten
    rw [ih, hwritten, List.flatMap_cons, List.append_assoc]

end MitScheme.Runtime.LineEnding
