import MitScheme.Runtime.CharDecoding

/-! # Windowed character codecs

`unicode-codec` of `char.scm`, and the sink of `textual->binary-port` in `binary-port.scm`, which
decodes a stream window by window. A decoder is modelled by what it passes to its continuation. -/

namespace MitScheme.Runtime.Codecs
open Lib.EncodingForm Lib.Outcome
open CharEncoding

structure CharCodec where
  encoder : Bytes → Nat → Nat → Nat → Result (Bytes × Option Nat)
  decoder : Bytes → Nat → Nat → Result (Option Nat × Nat)

/-- The procedures `next-char-length:`. The guard is the number of bytes that they look for. -/
def nextCharLength (guard : Nat) (getter : Bytes → Nat → Result Nat)
    (initialLength : Nat → Result Nat) (bv : Bytes) (bs be : Nat) : Result (Option Nat) := do
  if bs + guard ≤ be then return some (← initialLength (← getter bv bs)) else return none

def nextCharLengthUtf8 := nextCharLength 1 bytevectorU8Ref initialByteToUtf8CharLength

def nextCharLengthUtf16le := nextCharLength 2 bytevectorU16leRef initialU16ToUtf16CharLength

def nextCharLengthUtf16be := nextCharLength 2 bytevectorU16beRef initialU16ToUtf16CharLength

def nextCharLengthUtf32le := nextCharLength 2 bytevectorU32leRef initialU32ToUtf32CharLength

def nextCharLengthUtf32be := nextCharLength 2 bytevectorU32beRef initialU32ToUtf32CharLength

/-- The encoder of `unicode-codec`. -/
def codecEncoder (charByteLength : Nat → Result Nat)
    (encodeChar : Bytes → Object → Nat → Result (Bytes × Object)) (bv : Bytes) (bs be char : Nat) :
    Result (Bytes × Option Nat) := do
  let stop := bs + (← charByteLength char)
  if stop ≤ be then
    let (bv, _) ← encodeChar bv (.fixnum bs) char
    return (bv, some stop)
  else return (bv, none)

/-- The decoder of `unicode-codec`. -/
def codecDecoder (nextCharLength : Bytes → Nat → Nat → Result (Option Nat))
    (decodeChar : Bytes → Nat → Result (Option Nat)) (bv : Bytes) (bs be : Nat) :
    Result (Option Nat × Nat) := do
  match ← nextCharLength bv bs be with
  | none => return (none, bs)
  | some n =>
    let stop := bs + n
    if stop ≤ be then return (some ((← decodeChar bv bs).getD charReplacement), stop)
    else return (none, stop)

def unicodeCodec (charByteLength : Nat → Result Nat)
    (encodeChar : Bytes → Object → Nat → Result (Bytes × Object))
    (nextCharLength : Bytes → Nat → Nat → Result (Option Nat))
    (decodeChar : Bytes → Nat → Result (Option Nat)) : CharCodec where
  encoder := codecEncoder charByteLength encodeChar
  decoder := codecDecoder nextCharLength decodeChar

def utf8Codec : CharCodec :=
  unicodeCodec charUtf8ByteLength encodeUtf8Char nextCharLengthUtf8 decodeUtf8Char

def utf16leCodec : CharCodec :=
  unicodeCodec charUtf16ByteLength encodeUtf16leChar nextCharLengthUtf16le decodeUtf16leChar

def utf16beCodec : CharCodec :=
  unicodeCodec charUtf16ByteLength encodeUtf16beChar nextCharLengthUtf16be decodeUtf16beChar

def utf32leCodec : CharCodec :=
  unicodeCodec charUtf32ByteLength encodeUtf32leChar nextCharLengthUtf32le decodeUtf32leChar

def utf32beCodec : CharCodec :=
  unicodeCodec charUtf32ByteLength encodeUtf32beChar nextCharLengthUtf32be decodeUtf32beChar

/-- The loop of the sink of `textual->binary-port`: the characters written, and the number of bytes
taken from the window. -/
def sinkLoop (decoder : Bytes → Nat → Nat → Result (Option Nat × Nat)) (bv : Bytes) (bs be : Nat) :
    Nat → Nat → Result (List Nat × Nat)
  | 0, _ => .error .outOfFuel
  | fuel + 1, bi => do
    if bi < be then
      match ← decoder bv bi be with
      | (some char, bi') =>
        let (chars, n) ← sinkLoop decoder bv bs be fuel bi'
        return (char :: chars, n)
      | (none, _) => return ([], bi - bs)
    else return ([], bi - bs)

def sinkWrite (decoder : Bytes → Nat → Nat → Result (Option Nat × Nat)) (bv : Bytes) (bs be : Nat) :
    Result (List Nat × Nat) :=
  sinkLoop decoder bv bs be (be - bs + 1) bs

/-! ## A window -/

def window (bv : Bytes) (bs be : Nat) : Bytes := (bv.take be).drop bs

theorem window_length {bv} (bs : Nat) {be} (hbe : be ≤ bv.length) :
    (window bv bs be).length = be - bs := by
  rw [window, List.length_drop, List.length_take, Nat.min_eq_left hbe]

theorem window_begins (bv : Bytes) (bs be : Nat) : window bv bs be <+: bv.drop bs := by
  rw [window, List.drop_take]
  exact List.take_prefix ..

def character (decodeChar : Bytes → Nat → Result (Option Nat)) (word : Bytes) : Nat :=
  match decodeChar word 0 with
  | .ok (some char) => char
  | _ => charReplacement

section
variable {Valid : Nat → Prop} {enc : Nat → Bytes} {unit : Nat} {size : Bytes → Nat}
  {getter : Bytes → Nat → Result Nat} {initialLength : Nat → Result Nat}
  {decodeChar : Bytes → Nat → Result (Option Nat)} {guard : Nat} {bv : Bytes} {bs be : Nat}

theorem decoder_short (hshort : ¬bs + guard ≤ be) :
    codecDecoder (nextCharLength guard getter initialLength) decodeChar bv bs be =
      .ok (none, bs) := by
  rw [codecDecoder, nextCharLength, if_neg hshort]
  rfl

theorem nextCharLength_ok (h : Decoder Valid enc unit size getter initialLength decodeChar)
    (hguard : bs + guard ≤ be) (hunit : bs + unit ≤ bv.length) :
    nextCharLength guard getter initialLength bv bs be = .ok (some (size (bv.drop bs))) := by
  obtain ⟨b, hb, hn⟩ := bind_eq_ok (h.length bv bs hunit)
  rw [nextCharLength, if_pos hguard, hb, ok_bind, hn]
  rfl

theorem decoder_cut (h : Decoder Valid enc unit size getter initialLength decodeChar)
    (hguard : bs + guard ≤ be) (hunit : bs + unit ≤ bv.length)
    (hfit : ¬bs + size (bv.drop bs) ≤ be) :
    codecDecoder (nextCharLength guard getter initialLength) decodeChar bv bs be =
      .ok (none, bs + size (bv.drop bs)) := by
  rw [codecDecoder, nextCharLength_ok h hguard hunit, ok_bind]
  exact if_neg hfit

theorem complete_iff (unit : Nat) (size : Bytes → Nat) (hbs : bs ≤ be) (hbe : be ≤ bv.length) :
    ¬Incomplete unit size (window bv bs be) ↔
      bs + unit ≤ be ∧ bs + size (window bv bs be) ≤ be := by
  rw [Incomplete, window_length bs hbe]
  omega

def word (size : Bytes → Nat) (w : Bytes) : Bytes := w.take (size w)

theorem decoder_complete (h : Decoder Valid enc unit size getter initialLength decodeChar)
    (hguard : guard ≤ unit) (hbs : bs ≤ be) (hbe : be ≤ bv.length)
    (hw : ¬Incomplete unit size (window bv bs be)) :
    codecDecoder (nextCharLength guard getter initialLength) decodeChar bv bs be =
        .ok (some (character decodeChar (word size (window bv bs be))),
          bs + size (window bv bs be)) ∧
      ((∃ c, Valid c ∧ enc c <+: window bv bs be ∧
          character decodeChar (word size (window bv bs be)) = c) ∨
        (∀ c, Valid c → ¬enc c <+: window bv bs be) ∧
          character decodeChar (word size (window bv bs be)) = charReplacement) := by
  obtain ⟨hunit, hfit⟩ := (complete_iff unit size hbs hbe).mp hw
  have hlen := window_length bs hbe
  have hsize : size (bv.drop bs) = size (window bv bs be) :=
    h.announced.size_prefix (window_begins bv bs be) (by omega)
  have hword : word size (window bv bs be) <+: window bv bs be := List.take_prefix ..
  have hwordlen : (word size (window bv bs be)).length = size (window bv bs be) := by
    rw [word, List.length_take]
    omega
  have hunitle := h.announced.unit_le_size (w := window bv bs be) (by omega)
  have hwordsize : size (word size (window bv bs be)) = size (window bv bs be) :=
    (h.announced.size_prefix hword (by omega)).symm
  obtain ⟨o, ho, hiff⟩ := h.decode bv bs (by omega) (by omega)
  obtain ⟨o', ho', hiff'⟩ := h.decode (word size (window bv bs be)) 0 (by omega)
    (by rw [List.drop_zero]; omega)
  -- the bytes behind the word have no say
  have hpre {c} (hc : Valid c) : enc c <+: bv.drop bs ↔ enc c <+: word size (window bv bs be) := by
    constructor
    · intro hp
      refine List.prefix_of_prefix_length_le hp (hword.trans (window_begins bv bs be)) ?_
      rw [hwordlen, ← hsize, h.announced.size_eq hc hp]
    · intro hp
      exact hp.trans (hword.trans (window_begins bv bs be))
  have hsame : o' = o := by
    refine Option.ext fun c => ?_
    rw [hiff' c, hiff c, List.drop_zero]
    exact and_congr_right fun hc => (hpre hc).symm
  subst hsame
  have hchar : character decodeChar (word size (window bv bs be)) = o'.getD charReplacement := by
    rw [character, ho']
    cases o' <;> rfl
  rw [hchar]
  constructor
  · rw [codecDecoder, nextCharLength_ok h (by omega) (by omega), ok_bind, hsize]
    show (if bs + size (window bv bs be) ≤ be then _ else _) = _
    rw [if_pos hfit, ho]
    rfl
  · cases hcase : o' with
    | none =>
      refine .inr ⟨fun c hc hp => ?_, rfl⟩
      have hsome := (hiff c).mpr ⟨hc, hp.trans (window_begins bv bs be)⟩
      rw [hcase] at hsome
      cases hsome
    | some c =>
      obtain ⟨hc, hp⟩ := (hiff c).mp hcase
      exact .inl ⟨c, hc, ((hpre hc).mp hp).trans hword, rfl⟩

/-! ## What the codecs should do -/

/-- The character that a window begins with, or the replacement for an ill-formed one. -/
def Reads (enc : Nat → Bytes) (w : Bytes) (char : Nat) : Prop :=
  (Scalar char ∧ enc char <+: w) ∨ (∀ c, Scalar c → ¬enc c <+: w) ∧ char = charReplacement

/-- The decoder looks at the window only, tells an incomplete character by an index not above the
window, and passes a character and an index behind it otherwise. -/
structure DecodesWindow (enc : Nat → Bytes) (unit : Nat) (size : Bytes → Nat)
    (decoder : Bytes → Nat → Nat → Result (Option Nat × Nat)) (bv : Bytes) (bs be : Nat) :
    Prop where
  window_only : ∀ bv' : Bytes, be ≤ bv'.length → window bv' bs be = window bv bs be →
    decoder bv' bs be = decoder bv bs be
  incomplete_iff : Incomplete unit size (window bv bs be) ↔
    ∃ i, i ≤ be ∧ decoder bv bs be = .ok (none, i)
  complete : ¬Incomplete unit size (window bv bs be) →
    ∃ char i, decoder bv bs be = .ok (some char, i) ∧ bs < i ∧ i ≤ be ∧
      Reads enc (window bv bs be) char

/-- The encoder writes the character where it fits, and nothing where it does not. -/
structure EncodesWindow (enc : Nat → Bytes)
    (encoder : Bytes → Nat → Nat → Nat → Result (Bytes × Option Nat)) (bv : Bytes)
    (bs be char : Nat) : Prop where
  fits : bs + (enc char).length ≤ be → encoder bv bs be char =
    .ok (bv.take bs ++ enc char ++ bv.drop (bs + (enc char).length), some (bs + (enc char).length))
  full : ¬bs + (enc char).length ≤ be → encoder bv bs be char = .ok (bv, none)

theorem decodesWindow_short (hbs : bs ≤ be) (hguard : guard ≤ unit)
    (hshort : ¬bs + guard ≤ be) (hbe : be ≤ bv.length) :
    DecodesWindow enc unit size (codecDecoder (nextCharLength guard getter initialLength) decodeChar)
      bv bs be := by
  have hw : Incomplete unit size (window bv bs be) := by
    rw [Incomplete, window_length bs hbe]
    omega
  refine ⟨fun bv' _ _ => ?_, ⟨fun _ => ⟨bs, hbs, decoder_short hshort⟩, fun _ => hw⟩,
    fun hcomplete => absurd hw hcomplete⟩
  rw [decoder_short hshort, decoder_short hshort]

theorem decodesWindow_iff (h : Decoder Scalar enc unit size getter initialLength decodeChar)
    (hbs : bs ≤ be) (hbe : be ≤ bv.length) :
    DecodesWindow enc unit size (codecDecoder (nextCharLength unit getter initialLength) decodeChar)
        bv bs be ↔
      (window bv bs be).length < unit ∨ size (window bv bs be) ≤ (window bv bs be).length := by
  have hlen := window_length bs hbe
  by_cases hshort : bs + unit ≤ be
  · have hsize : size (bv.drop bs) = size (window bv bs be) :=
      h.announced.size_prefix (window_begins bv bs be) (by omega)
    by_cases hfit : bs + size (window bv bs be) ≤ be
    · have hw := (complete_iff unit size hbs hbe).mpr ⟨hshort, hfit⟩
      obtain ⟨heq, hreads⟩ := decoder_complete h (Nat.le_refl unit) hbs hbe hw
      have hunit := h.announced.unit_pos
      have hunitle := h.announced.unit_le_size (w := window bv bs be) (by omega)
      refine iff_of_true ⟨fun bv' hbe' hsame => ?_, iff_of_false hw ?_, fun _ => ?_⟩
        (.inr (by omega))
      · rw [heq, (decoder_complete h (Nat.le_refl unit) hbs hbe' (hsame ▸ hw)).1, hsame]
      · rintro ⟨i, -, hi⟩
        rw [heq] at hi
        cases hi
      · refine ⟨_, _, heq, by omega, hfit, ?_⟩
        rcases hreads with ⟨c, hc, hp, hchar⟩ | ⟨hnone, hchar⟩
        · exact .inl ⟨hchar ▸ hc, hchar ▸ hp⟩
        · exact .inr ⟨hnone, hchar⟩
    · refine iff_of_false (fun hd => ?_) (by omega)
      obtain ⟨i, hi, heq⟩ := hd.incomplete_iff.mp (.inr (by omega))
      rw [decoder_cut h hshort (by omega) (by omega)] at heq
      cases heq
      omega
  · exact iff_of_true (decodesWindow_short hbs (Nat.le_refl unit) hshort hbe) (.inl (by omega))

end

theorem utf32_decodesWindow_iff {getter : Bytes → Nat → Result Nat} {order : Order}
    (hr : ReadsFour getter order) {bv : Bytes} {bs be : Nat} (hbs : bs ≤ be)
    (hbe : be ≤ bv.length) :
    DecodesWindow (utf32 order) 4 utf32Size
        (codecDecoder (nextCharLength 2 getter initialU32ToUtf32CharLength) (utf32CharDecoder getter))
        bv bs be ↔
      (window bv bs be).length < 2 ∨ 4 ≤ (window bv bs be).length ∧
        ∀ c, Scalar c → utf32 order c <+: window bv bs be → unicodeScalarValue c = true := by
  have h := utf32_decoder hr
  have hlen := window_length bs hbe
  by_cases hshort : bs + 2 ≤ be
  · by_cases hfit : bs + 4 ≤ be
    · have hw := (complete_iff 4 utf32Size hbs hbe).mpr ⟨hfit, hfit⟩
      obtain ⟨heq, hreads⟩ := decoder_complete h (show 2 ≤ 4 by omega) hbs hbe hw
      rw [and_iff_right (by omega), or_iff_right (by omega)]
      constructor
      · intro hd d hds hdp
        obtain ⟨char, i, heq', -, -, hchar⟩ := hd.complete hw
        rw [heq] at heq'
        cases heq'
        rcases hreads with ⟨c, hc, hp, -⟩ | ⟨hnone, hreplace⟩
        · have hscalar := scalar_of_unicodeScalarValue hc
          have hwords : utf32 order d = utf32 order c :=
            (List.prefix_of_prefix_length_le hdp hp
              (by rw [utf32_length, utf32_length])).eq_of_length (by rw [utf32_length, utf32_length])
          rwa [utf32_injective hds hscalar hwords]
        · rcases hchar with ⟨-, hp⟩ | ⟨hnone', -⟩
          · rw [hreplace] at hp
            exact absurd hp (hnone charReplacement (by decide))
          · exact absurd hdp (hnone' d hds)
      · intro hall
        refine ⟨fun bv' hbe' hsame => ?_, iff_of_false hw ?_, fun _ => ⟨_, _, heq, ?_, hfit, ?_⟩⟩
        · rw [heq, (decoder_complete h (by omega) hbs hbe' (hsame ▸ hw)).1, hsame]
        · rintro ⟨i, -, hi⟩
          rw [heq] at hi
          cases hi
        · exact Nat.lt_add_of_pos_right (show 0 < 4 by decide)
        · rcases hreads with ⟨c, hc, hp, hchar⟩ | ⟨hnone, hchar⟩
          · exact .inl ⟨hchar ▸ scalar_of_unicodeScalarValue hc, hchar ▸ hp⟩
          · exact .inr ⟨fun c hc hp => hnone c (hall c hc hp) hp, hchar⟩
    · refine iff_of_false (fun hd => ?_) (by omega)
      -- in a longer bytevector the decoder fails with an index above the window
      have hlen' : be ≤ (bv.take be ++ [0, 0, 0, 0]).length := by
        rw [List.length_append, List.length_take]
        omega
      have hroom : bs + 4 ≤ (bv.take be ++ [0, 0, 0, 0]).length := by
        rw [List.length_append, List.length_take, List.length_cons, List.length_cons,
          List.length_cons, List.length_cons, List.length_nil]
        omega
      have hsame : window (bv.take be ++ [0, 0, 0, 0]) bs be = window bv bs be := by
        rw [window, List.take_append_of_le_length (by rw [List.length_take]; omega), List.take_take,
          Nat.min_self, window]
      obtain ⟨i, hi, heq⟩ := hd.incomplete_iff.mp (.inl (by omega))
      rw [← hd.window_only _ hlen' hsame, decoder_cut h hshort hroom hfit] at heq
      cases heq
      exact hfit hi
  · exact iff_of_true (decodesWindow_short hbs (by omega) hshort hbe) (.inl (by omega))

theorem encodesWindow_iff {enc : Nat → Bytes} {byteLength : Nat → Result Nat}
    {encodeChar : Bytes → Object → Nat → Result (Bytes × Object)} {after : Nat → Object}
    (h : Encoder enc byteLength encodeChar after) {bv bs be} (hbe : be ≤ bv.length) (char : Nat) :
    EncodesWindow enc (codecEncoder byteLength encodeChar) bv bs be char ↔
      unicodeScalarValue char = true := by
  cases hv : unicodeScalarValue char with
  | false =>
    have herror : codecEncoder byteLength encodeChar bv bs be char = .error .wrongType := by
      rw [codecEncoder, h.refuse hv]
      rfl
    refine iff_of_false (fun he => ?_) Bool.false_ne_true
    by_cases hfit : bs + (enc char).length ≤ be
    · exact nomatch herror.symm.trans (he.fits hfit)
    · exact nomatch herror.symm.trans (he.full hfit)
  | true =>
    refine iff_of_true ⟨fun hfit => ?_, fun hfit => ?_⟩ rfl
    · have hpre : (bv.take bs).length = bs := by
        rw [List.length_take]
        omega
      have hold : ((bv.drop bs).take (enc char).length).length = (enc char).length := by
        rw [List.length_take, List.length_drop]
        omega
      have hbv : bv = bv.take bs ++ (bv.drop bs).take (enc char).length ++
          bv.drop (bs + (enc char).length) := by
        rw [List.append_assoc, ← List.drop_drop, List.take_append_drop, List.take_append_drop]
      have hencode := h.encode hv (bv.take bs) _ (bv.drop (bs + (enc char).length)) hold
      rw [hpre, ← hbv] at hencode
      rw [codecEncoder, h.length hv, ok_bind]
      show (if bs + (enc char).length ≤ be then _ else _) = _
      rw [if_pos hfit, hencode]
      rfl
    · rw [codecEncoder, h.length hv, ok_bind]
      exact if_neg hfit

end MitScheme.Runtime.Codecs
