import MitScheme.Runtime.CharDecoding
import MitScheme.Runtime.FixIndex

/-! # Strings as bytes

`string-encoder` and `bytes-decoder` of `bytevector.scm`, the procedures made of them, and the
two decoders that look for a byte order mark. A string is the list of its code points. -/

namespace MitScheme.Runtime.UtfString
open Lib.EncodingForm Lib.Outcome
open CharEncoding FixIndex

instance : Faults Fault := ⟨.badRange, .wrongType⟩

/-- A string. The index of every byte of its encodings is a fixnum. -/
structure Text where
  chars : List Nat
  short : 4 * chars.length + 4 < 2 ^ 57

/-! ## Encoding -/

def stringRef (string : List Nat) (index : Nat) : Result Nat :=
  match string[index]? with
  | some char => .ok char
  | none => .error .badRange

/-- `#\bom`. -/
def charBom : Nat := 0xFEFF

/-- The loop of `string-encoder` that computes the length. -/
def lengthLoop (charByteLength : Nat → Result Nat) (string : List Nat) (stop index nBytes : Nat) :
    Result Nat := do
  if index < stop then
    lengthLoop charByteLength string stop (index + 1)
      (nBytes + (← charByteLength (← stringRef string index)))
  else return nBytes
termination_by stop - index

/-- The loop of `string-encoder` that fills the bytes. -/
def encodeLoop (encodeChar : Bytes → Object → Nat → Result (Bytes × Object)) (string : List Nat)
    (stop start : Nat) (bytes : Bytes) (target : Object) : Result Bytes := do
  if start < stop then
    let (bytes, target) ← encodeChar bytes target (← stringRef string start)
    encodeLoop encodeChar string stop (start + 1) bytes target
  else return bytes
termination_by stop - start

def bomLength (charByteLength : Nat → Result Nat) (bom : Bool) : Result Nat :=
  if bom then charByteLength charBom else .ok 0

def encodeBom (encodeChar : Bytes → Object → Nat → Result (Bytes × Object)) (bom : Bool)
    (bytes : Bytes) : Result (Bytes × Object) :=
  if bom then encodeChar bytes (.fixnum 0) charBom else .ok (bytes, .fixnum 0)

def stringEncoder (charByteLength : Nat → Result Nat) (allocator : Allocator)
    (encodeChar : Bytes → Object → Nat → Result (Bytes × Object)) (bom : Bool) (string : Text)
    (start stop : Option Nat) : Result Bytes := do
  let stop ← fixEndIndex stop string.chars.length
  let start ← fixStartIndex start (some stop)
  let nBytes ← lengthLoop charByteLength string.chars stop start (← bomLength charByteLength bom)
  let (bytes, target) ← encodeBom encodeChar bom (allocator.allocate nBytes)
  encodeLoop encodeChar string.chars stop start bytes target

section
variable (allocator : Allocator)

def stringToUtf8 := stringEncoder charUtf8ByteLength allocator encodeUtf8Char false

def stringToUtf16be := stringEncoder charUtf16ByteLength allocator encodeUtf16beChar false

def stringToUtf16le := stringEncoder charUtf16ByteLength allocator encodeUtf16leChar false

def stringToUtf16beBom := stringEncoder charUtf16ByteLength allocator encodeUtf16beChar true

def stringToUtf16leBom := stringEncoder charUtf16ByteLength allocator encodeUtf16leChar true

def stringToUtf32be := stringEncoder charUtf32ByteLength allocator encodeUtf32beChar false

def stringToUtf32le := stringEncoder charUtf32ByteLength allocator encodeUtf32leChar false

def stringToUtf32beBom := stringEncoder charUtf32ByteLength allocator encodeUtf32beChar true

def stringToUtf32leBom := stringEncoder charUtf32ByteLength allocator encodeUtf32leChar true

end

/-! ## Decoding -/

def bytevectorCopy (bytevector : Bytes) (start stop : Nat) : Bytes :=
  (bytevector.take stop).drop start

/-- The character at an index in the loop of `bytes-decoder`. -/
def characterAt (decodeChar : Bytes → Nat → Result (Option Nat)) (bytevector : Bytes)
    (stop index n : Nat) (truncated illFormed : Result Nat) : Result Nat := do
  if !(index + n ≤ stop : Bool) then truncated
  else
    match ← decodeChar bytevector index with
    | some char => .ok char
    | none => illFormed

/-- The loop of `bytes-decoder`. Without `replace?` a bad sequence is an error. -/
def decodeLoop (getter : Bytes → Nat → Result Nat) (initialLength : Nat → Result Nat)
    (decodeChar : Bytes → Nat → Result (Option Nat)) (step : Nat) (noun : String)
    (bytevector : Bytes) (stop : Nat) (replace : Bool) : Nat → Nat → List Nat → Result (List Nat)
  | 0, _, _ => .error .outOfFuel
  | fuel + 1, index, chars => do
    let sequence := bytevectorCopy bytevector index (min (index + 4) stop)
    let truncated := if replace then .ok charReplacement else .error (.truncated noun sequence)
    let illFormed := if replace then .ok charReplacement else .error (.illFormed noun sequence)
    if index + step ≤ stop then
      let n ← initialLength (← getter bytevector index)
      let char ← characterAt decodeChar bytevector stop index n truncated illFormed
      decodeLoop getter initialLength decodeChar step noun bytevector stop replace fuel (index + n)
        (chars ++ [char])
    else if index < stop then return chars ++ [← truncated]
    else return chars

def bytesDecoder (getter : Bytes → Nat → Result Nat) (initialLength : Nat → Result Nat)
    (decodeChar : Bytes → Nat → Result (Option Nat)) (step : Nat) (noun : String)
    (bytevector : Bytes) (start stop : Option Nat) (replace : Option Bool) : Result (List Nat) := do
  let stop ← fixEndIndex stop bytevector.length
  let start ← fixStartIndex start (some stop)
  decodeLoop getter initialLength decodeChar step noun bytevector stop (replace = some true)
    (stop - start + 1) start []

def utf8ToString := bytesDecoder bytevectorU8Ref initialByteToUtf8CharLength decodeUtf8Char 1 "UTF-8"

def utf16beToString :=
  bytesDecoder bytevectorU16beRef initialU16ToUtf16CharLength decodeUtf16beChar 2 "UTF-16BE"

def utf16leToString :=
  bytesDecoder bytevectorU16leRef initialU16ToUtf16CharLength decodeUtf16leChar 2 "UTF-16LE"

def utf32beToString :=
  bytesDecoder bytevectorU32beRef initialU32ToUtf32CharLength decodeUtf32beChar 4 "UTF-32BE"

def utf32leToString :=
  bytesDecoder bytevectorU32leRef initialU32ToUtf32CharLength decodeUtf32leChar 4 "UTF-32LE"

def utf16ToString (hostBigEndian : Bool) (bytevector : Bytes) (start stop : Option Nat)
    (replace : Option Bool) : Result (List Nat) := do
  let stop ← fixEndIndex stop bytevector.length
  let start ← fixStartIndex start (some stop)
  let default :=
    if hostBigEndian then utf16beToString bytevector (some start) (some stop) replace
    else utf16leToString bytevector (some start) (some stop) replace
  if start + 2 ≤ stop then
    let b0 ← bytevectorU8Ref bytevector start
    let b1 ← bytevectorU8Ref bytevector (start + 1)
    if b0 = 0xFE && b1 = 0xFF then
      utf16beToString bytevector (some (start + 2)) (some stop) replace
    else if b0 = 0xFF && b1 = 0xFE then
      utf16leToString bytevector (some (start + 2)) (some stop) replace
    else default
  else default

def utf32ToString (hostBigEndian : Bool) (bytevector : Bytes) (start stop : Option Nat)
    (replace : Option Bool) : Result (List Nat) := do
  let stop ← fixEndIndex stop bytevector.length
  let start ← fixStartIndex start (some stop)
  let default :=
    if hostBigEndian then utf32beToString bytevector (some start) (some stop) replace
    else utf32leToString bytevector (some start) (some stop) replace
  if start + 4 ≤ stop then
    let b0 ← bytevectorU8Ref bytevector start
    let b1 ← bytevectorU8Ref bytevector (start + 1)
    let b2 ← bytevectorU8Ref bytevector (start + 2)
    let b3 ← bytevectorU8Ref bytevector (start + 3)
    if b0 = 0 && b1 = 0 && b2 = 0xFE && b3 = 0xFF then
      utf32beToString bytevector (some (start + 4)) (some stop) replace
    else if b0 = 0xFF && b1 = 0xFE && b2 = 0 && b3 = 0 then
      utf32leToString bytevector (some (start + 4)) (some stop) replace
    else default
  else default

/-! ## The encoders are right -/

def substring {α : Type} (string : List α) (start stop : Option Nat) : List α :=
  (string.take (stop.getD string.length)).drop (start.getD 0)

theorem drop_take_cons {α : Type} {l : List α} {i stop} (h : i < stop) (hs : stop ≤ l.length) :
    ∃ a, l[i]? = some a ∧ (l.take stop).drop i = a :: (l.take stop).drop (i + 1) := by
  have hlen : i < (l.take stop).length := by
    rw [List.length_take]
    omega
  have hil : i < l.length := by omega
  refine ⟨l[i], List.getElem?_eq_getElem hil, ?_⟩
  rw [List.drop_eq_getElem_cons hlen, List.getElem_take]

theorem drop_take_nil {α : Type} {l : List α} {i stop} (h : ¬i < stop) :
    (l.take stop).drop i = [] := by
  rw [List.drop_eq_nil_iff, List.length_take]
  omega

section
variable {enc : Nat → Bytes} {byteLength : Nat → Result Nat}
  {encodeChar : Bytes → Object → Nat → Result (Bytes × Object)} {after : Nat → Object}
  {string : List Nat} {stop : Nat}

section
variable (h : Encoder enc byteLength encodeChar after)
include h

theorem lengthLoop_ok (hs : stop ≤ string.length) {index} (n : Nat)
    (hall : ∀ c ∈ (string.take stop).drop index, unicodeScalarValue c = true) :
    lengthLoop byteLength string stop index n =
      .ok (n + (((string.take stop).drop index).flatMap enc).length) := by
  induction hk : stop - index generalizing index n with
  | zero =>
    rw [lengthLoop, if_neg (by omega), drop_take_nil (by omega)]
    rfl
  | succ k ih =>
    obtain ⟨c, hc, hdrop⟩ := drop_take_cons (l := string) (i := index) (by omega) hs
    rw [hdrop] at hall ⊢
    rw [lengthLoop, if_pos (by omega), stringRef, hc]
    show byteLength c >>= _ = _
    rw [h.length (hall c List.mem_cons_self), ok_bind,
      ih _ (fun d hd => hall d (List.mem_cons_of_mem c hd)) (by omega), List.flatMap_cons,
      List.length_append, Nat.add_assoc]

theorem lengthLoop_error (hs : stop ≤ string.length) {index} (n : Nat)
    (hbad : ∃ c ∈ (string.take stop).drop index, unicodeScalarValue c = false) :
    lengthLoop byteLength string stop index n = .error .wrongType := by
  induction hk : stop - index generalizing index n with
  | zero =>
    obtain ⟨c, hc, -⟩ := hbad
    rw [drop_take_nil (by omega)] at hc
    exact absurd hc List.not_mem_nil
  | succ k ih =>
    obtain ⟨c, hc, hdrop⟩ := drop_take_cons (l := string) (i := index) (by omega) hs
    rw [lengthLoop, if_pos (by omega), stringRef, hc]
    show byteLength c >>= _ = _
    cases hv : unicodeScalarValue c with
    | false =>
      rw [h.refuse hv]
      rfl
    | true =>
      rw [h.length hv, ok_bind]
      refine ih _ ?_ (by omega)
      obtain ⟨d, hd, hdv⟩ := hbad
      rw [hdrop] at hd
      rcases List.mem_cons.mp hd with rfl | hd
      · rw [hv] at hdv
        cases hdv
      · exact ⟨d, hd, hdv⟩

theorem encodeLoop_step {start} (hlt : start < stop) {c} (hc : string[start]? = some c)
    (hv : unicodeScalarValue c = true) (pre rest : Bytes) (hlen : (enc c).length ≤ rest.length) :
    encodeLoop encodeChar string stop start (pre ++ rest) (.fixnum pre.length) =
      encodeLoop encodeChar string stop (start + 1) (pre ++ enc c ++ rest.drop (enc c).length)
        (after (pre.length + (enc c).length)) := by
  have hsplit : pre ++ rest = pre ++ rest.take (enc c).length ++ rest.drop (enc c).length := by
    rw [List.append_assoc, List.take_append_drop]
  have hold : (rest.take (enc c).length).length = (enc c).length := by
    rw [List.length_take]
    omega
  conv => lhs; rw [encodeLoop, if_pos hlt, stringRef, hc, hsplit]
  show encodeChar _ (.fixnum pre.length) c >>= _ = _
  rw [h.encode hv pre _ _ hold]
  rfl

end

theorem encodeLoop_ok (h : Encoder enc byteLength encodeChar .fixnum) (hs : stop ≤ string.length)
    {start} {pre rest : Bytes}
    (hall : ∀ c ∈ (string.take stop).drop start, unicodeScalarValue c = true)
    (hlen : rest.length = (((string.take stop).drop start).flatMap enc).length) :
    encodeLoop encodeChar string stop start (pre ++ rest) (.fixnum pre.length) =
      .ok (pre ++ ((string.take stop).drop start).flatMap enc) := by
  induction hk : stop - start generalizing start pre rest with
  | zero =>
    rw [drop_take_nil (by omega)] at hlen
    rw [encodeLoop, if_neg (by omega), drop_take_nil (by omega), List.flatMap_nil,
      List.length_eq_zero_iff.mp hlen]
    rfl
  | succ k ih =>
    obtain ⟨c, hc, hdrop⟩ := drop_take_cons (l := string) (i := start) (by omega) hs
    rw [hdrop] at hall hlen ⊢
    rw [List.flatMap_cons, List.length_append] at hlen
    rw [encodeLoop_step h (by omega) hc (hall c List.mem_cons_self) pre rest (by omega),
      ← List.length_append, ih (fun d hd => hall d (List.mem_cons_of_mem c hd))
      (by rw [List.length_drop]; omega) (by omega), List.flatMap_cons, List.append_assoc]

theorem encodeLoop_unspecific {setter : Bytes → Nat → Nat → Result Bytes}
    (hs : stop ≤ string.length) {start : Nat} (hlt : start < stop) (bytes : Bytes) :
    encodeLoop (utf32CharEncoder setter) string stop start bytes .unspecific = .error .wrongType := by
  obtain ⟨c, hc, -⟩ := drop_take_cons (l := string) hlt hs
  rw [encodeLoop, if_pos hlt, stringRef, hc]
  show utf32CharEncoder setter bytes .unspecific c >>= _ = _
  rw [utf32CharEncoder, charToScalarValue]
  cases unicodeScalarValue c <;> rfl

end

end MitScheme.Runtime.UtfString
