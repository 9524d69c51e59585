import MitScheme.Runtime.UtfString

/-! # Strings as bytes and back

An encoder and the matching decoder agree when every character is one that `unicode-scalar-value?`
takes and, for UTF-32, when the encoder does not have to go on from what it returned. -/

namespace MitScheme.Runtime.UtfString
open Lib.EncodingForm Lib.Outcome
open CharEncoding FixIndex

/-! ## What an encoder returns -/

def mark (enc : Nat → Bytes) (bom : Bool) : Bytes := if bom then enc charBom else []

theorem charBom_scalar : unicodeScalarValue charBom = true := by decide

section
variable {enc : Nat → Bytes} {byteLength : Nat → Result Nat}
  {encodeChar : Bytes → Object → Nat → Result (Bytes × Object)} {after : Nat → Object}
  {string : Text} {start stop : Option Nat} {allocator : Allocator} {bom : Bool}

theorem bomLength_ok (h : Encoder enc byteLength encodeChar after) (bom) :
    bomLength byteLength bom = .ok (mark enc bom).length := by
  cases bom with
  | false => rfl
  | true => exact h.length charBom_scalar

theorem encodeBom_ok (h : Encoder enc byteLength encodeChar after) (bom) {n bytes}
    (hlen : bytes.length = (mark enc bom).length + n) :
    ∃ rest : Bytes, rest.length = n ∧ encodeBom encodeChar bom bytes =
      .ok (mark enc bom ++ rest, if bom then after (enc charBom).length else .fixnum 0) := by
  cases bom with
  | false => exact ⟨bytes, hlen.trans (Nat.zero_add n), rfl⟩
  | true =>
    have hlen : bytes.length = (enc charBom).length + n := hlen
    refine ⟨bytes.drop (enc charBom).length, by rw [List.length_drop]; omega, ?_⟩
    have hold : (bytes.take (enc charBom).length).length = (enc charBom).length := by
      rw [List.length_take]
      omega
    have hfirst := h.encode charBom_scalar [] _ (bytes.drop (enc charBom).length) hold
    rw [List.nil_append, List.take_append_drop, List.nil_append, List.length_nil, Nat.zero_add] at hfirst
    exact hfirst

theorem indices_ok (string : Text) (hr : InRange start stop string.chars.length) :
    (fixEndIndex stop string.chars.length : Result Nat) = .ok (stop.getD string.chars.length) ∧
      (fixStartIndex start (some (stop.getD string.chars.length)) : Result Nat) =
        .ok (start.getD 0) := by
  have hshort := string.short
  have hstop := hr.stop_le
  exact ⟨fixEndIndex_ok hstop (by omega), fixStartIndex_ok hr.start_le (by omega)⟩

theorem stringEncoder_error (allocator bom) (h : Encoder enc byteLength encodeChar after)
    (hr : InRange start stop string.chars.length)
    (hbad : ∃ c ∈ substring string.chars start stop, unicodeScalarValue c = false) :
    stringEncoder byteLength allocator encodeChar bom string start stop = .error .wrongType := by
  obtain ⟨hstop, hstart⟩ := indices_ok string hr
  rw [stringEncoder, hstop, ok_bind, hstart, ok_bind, bomLength_ok h, ok_bind,
    lengthLoop_error h hr.stop_le _ hbad]
  rfl

theorem stringEncoder_eq (allocator bom) (h : Encoder enc byteLength encodeChar after)
    (hr : InRange start stop string.chars.length)
    (hall : ∀ c ∈ substring string.chars start stop, unicodeScalarValue c = true) :
    ∃ rest : Bytes, rest.length = ((substring string.chars start stop).flatMap enc).length ∧
      stringEncoder byteLength allocator encodeChar bom string start stop =
        encodeLoop encodeChar string.chars (stop.getD string.chars.length) (start.getD 0)
          (mark enc bom ++ rest) (if bom then after (enc charBom).length else .fixnum 0) := by
  obtain ⟨hstop, hstart⟩ := indices_ok string hr
  obtain ⟨rest, hlen, hbom⟩ := encodeBom_ok h bom (allocator.length_allocate _)
  refine ⟨rest, hlen, ?_⟩
  rw [stringEncoder, hstop, ok_bind, hstart, ok_bind, bomLength_ok h, ok_bind,
    lengthLoop_ok h hr.stop_le _ hall, ok_bind]
  exact congrArg (· >>= _) hbom

theorem stringEncoder_ok (h : Encoder enc byteLength encodeChar .fixnum)
    (hr : InRange start stop string.chars.length)
    (hall : ∀ c ∈ substring string.chars start stop, unicodeScalarValue c = true) :
    stringEncoder byteLength allocator encodeChar bom string start stop =
      .ok (mark enc bom ++ (substring string.chars start stop).flatMap enc) := by
  obtain ⟨rest, hlen, heq⟩ := stringEncoder_eq allocator bom h hr hall
  have hindex : (if bom then .fixnum (enc charBom).length else .fixnum 0 : Object) =
      .fixnum (mark enc bom).length := by
    cases bom <;> rfl
  rw [heq, hindex]
  exact encodeLoop_ok h hr.stop_le hall hlen

theorem encodeLoop_unspecific_eq {setter : Bytes → Nat → Nat → Result Bytes} {string stop start}
    (hs : stop ≤ string.length) (bytes) :
    encodeLoop (utf32CharEncoder setter) string stop start bytes .unspecific =
      if start < stop then .error .wrongType else .ok bytes := by
  by_cases hlt : start < stop
  · rw [if_pos hlt, encodeLoop_unspecific hs hlt]
  · rw [if_neg hlt, encodeLoop, if_neg hlt]
    rfl

theorem utf32_stringEncoder (allocator bom) {setter : Bytes → Nat → Nat → Result Bytes} {order}
    (hw : WritesFour setter order) (hr : InRange start stop string.chars.length)
    (hall : ∀ c ∈ substring string.chars start stop, unicodeScalarValue c = true) :
    stringEncoder charUtf32ByteLength allocator (utf32CharEncoder setter) bom string start stop =
      if (if bom then 1 else 0) + (substring string.chars start stop).length ≤ 1 then
        .ok (mark (utf32 order) bom ++ (substring string.chars start stop).flatMap (utf32 order))
      else .error .wrongType := by
  have h := utf32_encoder hw
  have hstop := hr.stop_le
  have hlen : (substring string.chars start stop).length =
      stop.getD string.chars.length - start.getD 0 := by
    rw [substring, List.length_drop, List.length_take, Nat.min_eq_left hstop]
  obtain ⟨rest, hrest, heq⟩ := stringEncoder_eq allocator bom h hr hall
  rw [heq, hlen]
  by_cases hlt : start.getD 0 < stop.getD string.chars.length
  · cases bom with
    | true => rw [if_pos rfl, if_pos rfl, encodeLoop_unspecific hstop hlt, if_neg (by omega)]
    | false =>
      obtain ⟨c, hc, hdrop⟩ := drop_take_cons hlt hstop
      have hsub : substring string.chars start stop = c :: _ := hdrop
      rw [hsub] at hall hrest ⊢
      rw [List.flatMap_cons, List.length_append] at hrest
      rw [if_neg Bool.false_ne_true, if_neg Bool.false_ne_true]
      refine (encodeLoop_step h hlt hc (hall c List.mem_cons_self) [] rest (by omega)).trans ?_
      rw [encodeLoop_unspecific_eq hstop]
      by_cases hlt' : start.getD 0 + 1 < stop.getD string.chars.length
      · rw [if_pos hlt', if_neg (by omega)]
      · rw [drop_take_nil hlt', List.flatMap_nil, List.length_nil, Nat.add_zero] at hrest
        rw [if_neg hlt', if_pos (by omega), drop_take_nil hlt', ← hrest, List.drop_length]
        rfl
  · have hsub : substring string.chars start stop = [] := drop_take_nil hlt
    rw [hsub] at hrest ⊢
    rw [List.length_eq_zero_iff.mp hrest, encodeLoop, if_neg hlt, if_pos (by split <;> omega)]
    rfl

end

/-! ## What a decoder returns -/

theorem prefix_window_iff {v bytes : Bytes} {index stop} :
    v <+: (bytes.take stop).drop index ↔ v <+: bytes.drop index ∧ v.length ≤ stop - index := by
  rw [List.drop_take]
  exact List.prefix_take_iff

section
variable {Valid : Nat → Prop} {enc : Nat → Bytes} {unit : Nat} {size : Bytes → Nat}
  {getter : Bytes → Nat → Result Nat} {initialLength : Nat → Result Nat}
  {decodeChar : Bytes → Nat → Result (Option Nat)} {noun : String} {bytes : Bytes} {stop : Nat}

theorem decodeLoop_cases (noun) (h : Decoder Valid enc unit size getter initialLength decodeChar)
    (hs : stop ≤ bytes.length) (replace fuel index chars) :
    let loop := decodeLoop getter initialLength decodeChar unit noun bytes stop replace
    (stop ≤ index ∧ loop (fuel + 1) index chars = .ok chars) ∨
      (index < stop ∧ (∀ c, Valid c → ¬enc c <+: (bytes.take stop).drop index) ∧
        (replace = false → ∃ fault, loop (fuel + 1) index chars = .error fault) ∧
        (replace = true → loop (fuel + 1) index chars = .ok (chars ++ [charReplacement]) ∨
          ∃ n, 0 < n ∧ loop (fuel + 1) index chars =
            loop fuel (index + n) (chars ++ [charReplacement]))) ∨
      ∃ c, Valid c ∧ enc c <+: (bytes.take stop).drop index ∧
        (∀ d, Valid d → enc d <+: (bytes.take stop).drop index → d = c) ∧
        loop (fuel + 1) index chars = loop fuel (index + (enc c).length) (chars ++ [c]) := by
  intro loop
  by_cases hunit : index + unit ≤ stop
  · have hget := h.length bytes index (by omega)
    obtain ⟨b, hb, hn⟩ := bind_eq_ok hget
    have hpos := h.announced.unit_pos
    have hle := h.announced.unit_le_size (w := bytes.drop index) (by rw [List.length_drop]; omega)
    by_cases hfit : index + size (bytes.drop index) ≤ stop
    · obtain ⟨o, ho, hiff⟩ := h.decode bytes index (by omega) (by omega)
      cases o with
      | none =>
        refine .inr (.inl ⟨by omega, fun c hc hp => ?_, ?_, ?_⟩)
        · exact nomatch (hiff c).mpr ⟨hc, (prefix_window_iff.mp hp).1⟩
        · rintro rfl
          refine ⟨.illFormed noun (bytevectorCopy bytes index (min (index + 4) stop)), ?_⟩
          show decodeLoop _ _ _ _ _ _ _ _ _ _ _ = _
          rw [decodeLoop, if_pos hunit, hb, ok_bind, hn, ok_bind, characterAt, decide_eq_true hfit, ho]
          rfl
        · rintro rfl
          refine .inr ⟨size (bytes.drop index), by omega, ?_⟩
          show decodeLoop _ _ _ _ _ _ _ _ _ _ _ = _
          rw [decodeLoop, if_pos hunit, hb, ok_bind, hn, ok_bind, characterAt, decide_eq_true hfit, ho]
          rfl
      | some c =>
        obtain ⟨hc, hp⟩ := (hiff c).mp rfl
        have hsize := h.announced.size_eq hc hp
        refine .inr (.inr ⟨c, hc, prefix_window_iff.mpr ⟨hp, by omega⟩, fun d hd hpd => ?_, ?_⟩)
        · exact (Option.some.inj ((hiff d).mpr ⟨hd, (prefix_window_iff.mp hpd).1⟩)).symm
        show decodeLoop _ _ _ _ _ _ _ _ _ _ _ = _
        rw [decodeLoop, if_pos hunit, hb, ok_bind, hn, ok_bind, characterAt, decide_eq_true hfit, ho,
          hsize]
        rfl
    · refine .inr (.inl ⟨by omega, fun c hc hp => ?_, ?_, ?_⟩)
      · obtain ⟨hp, hlen⟩ := prefix_window_iff.mp hp
        rw [h.announced.size_eq hc hp] at hfit
        omega
      · rintro rfl
        refine ⟨.truncated noun (bytevectorCopy bytes index (min (index + 4) stop)), ?_⟩
        show decodeLoop _ _ _ _ _ _ _ _ _ _ _ = _
        rw [decodeLoop, if_pos hunit, hb, ok_bind, hn, ok_bind, characterAt, decide_eq_false hfit]
        rfl
      · rintro rfl
        refine .inr ⟨size (bytes.drop index), by omega, ?_⟩
        show decodeLoop _ _ _ _ _ _ _ _ _ _ _ = _
        rw [decodeLoop, if_pos hunit, hb, ok_bind, hn, ok_bind, characterAt, decide_eq_false hfit]
        rfl
  · by_cases hlt : index < stop
    · refine .inr (.inl ⟨hlt, fun c hc hp => ?_, ?_, ?_⟩)
      · have hlen := (prefix_window_iff.mp hp).2
        have := h.announced.unit_le hc
        omega
      · rintro rfl
        refine ⟨.truncated noun (bytevectorCopy bytes index (min (index + 4) stop)), ?_⟩
        show decodeLoop _ _ _ _ _ _ _ _ _ _ _ = _
        rw [decodeLoop, if_neg hunit, if_pos hlt]
        rfl
      · rintro rfl
        refine .inl ?_
        show decodeLoop _ _ _ _ _ _ _ _ _ _ _ = _
        rw [decodeLoop, if_neg hunit, if_pos hlt]
        rfl
    · refine .inl ⟨by omega, ?_⟩
      show decodeLoop _ _ _ _ _ _ _ _ _ _ _ = _
      rw [decodeLoop, if_neg hunit, if_neg hlt]
      rfl

theorem decodes_nil_iff (h : Announced Valid enc unit size) {cs} :
    Decodes Valid enc [] cs ↔ cs = [] := by
  constructor
  · rintro ⟨hvalid, hflat⟩
    cases cs with
    | nil => rfl
    | cons c cs =>
      rw [List.flatMap_cons] at hflat
      exact absurd (List.append_eq_nil_iff.mp hflat.symm).1
        (h.enc_ne_nil (hvalid c List.mem_cons_self))
  · rintro rfl
    exact Decodes.nil

theorem decodes_cons_iff (h : Announced Valid enc unit size) {index c} (hc : Valid c)
    (hinj : ∀ d, Valid d → enc d <+: (bytes.take stop).drop index → d = c)
    (hp : enc c <+: (bytes.take stop).drop index) {cs} :
    Decodes Valid enc ((bytes.take stop).drop index) cs ↔
      ∃ cs', cs = c :: cs' ∧
        Decodes Valid enc ((bytes.take stop).drop (index + (enc c).length)) cs' := by
  have hdrop : (bytes.take stop).drop (index + (enc c).length) =
      ((bytes.take stop).drop index).drop (size ((bytes.take stop).drop index)) := by
    rw [List.drop_drop, h.size_eq hc hp]
  rw [hdrop]
  constructor
  · intro hd
    have hne : (bytes.take stop).drop index ≠ [] := fun hnil => by
      rw [hnil, List.prefix_nil] at hp
      exact h.enc_ne_nil hc hp
    obtain ⟨d, cs', rfl, hvd, hpd, -, -, hcs⟩ := hd.cases h hne
    rw [hinj d hvd hpd]
    exact ⟨cs', rfl, hcs⟩
  · rintro ⟨cs', rfl, hcs⟩
    exact hcs.cons h hc hp

theorem not_decodes (h : Announced Valid enc unit size) (hs : stop ≤ bytes.length) {index}
    (hlt : index < stop) (hnone : ∀ c, Valid c → ¬enc c <+: (bytes.take stop).drop index) {cs} :
    ¬Decodes Valid enc ((bytes.take stop).drop index) cs := by
  intro hd
  have hne : (bytes.take stop).drop index ≠ [] := fun hnil => by
    rw [List.drop_eq_nil_iff, List.length_take] at hnil
    omega
  obtain ⟨c, cs', -, hc, hp, -⟩ := hd.cases h hne
  exact hnone c hc hp

section
variable (h : Decoder Valid enc unit size getter initialLength decodeChar)
include h

theorem decodeLoop_strict_iff (hs : stop ≤ bytes.length) {fuel index}
    (hfuel : stop - index < fuel) (hi : index ≤ stop) (chars) {l} :
    decodeLoop getter initialLength decodeChar unit noun bytes stop false fuel index chars = .ok l ↔
      ∃ cs, l = chars ++ cs ∧ Decodes Valid enc ((bytes.take stop).drop index) cs := by
  induction fuel generalizing index chars with
  | zero => omega
  | succ fuel ih =>
    rcases decodeLoop_cases noun h hs false fuel index chars with
      ⟨hend, heq⟩ | ⟨hlt, hnone, herror, -⟩ | ⟨c, hc, hp, hinj, heq⟩
    · rw [heq, drop_take_nil (by omega)]
      simp only [decodes_nil_iff h.announced, exists_eq_right, List.append_nil, Except.ok.injEq,
        eq_comm]
    · obtain ⟨fault, heq⟩ := herror rfl
      rw [heq]
      exact iff_of_false (fun hok => nomatch hok)
        fun ⟨_, _, hd⟩ => not_decodes h.announced hs hlt hnone hd
    · have hpos := h.announced.unit_le hc
      have hunit := h.announced.unit_pos
      have hle := (prefix_window_iff.mp hp).2
      rw [heq, ih (by omega) (by omega)]
      simp only [decodes_cons_iff h.announced hc hinj hp, List.append_assoc, List.singleton_append]
      constructor
      · rintro ⟨cs, rfl, hd⟩
        exact ⟨c :: cs, rfl, cs, rfl, hd⟩
      · rintro ⟨_, rfl, cs, rfl, hd⟩
        exact ⟨cs, rfl, hd⟩

theorem decodeLoop_decodes (hs : stop ≤ bytes.length) (replace) {fuel index}
    (hfuel : stop - index < fuel) (hi : index ≤ stop) (chars) {cs}
    (hd : Decodes Valid enc ((bytes.take stop).drop index) cs) :
    decodeLoop getter initialLength decodeChar unit noun bytes stop replace fuel index chars =
      .ok (chars ++ cs) := by
  induction fuel generalizing index chars cs with
  | zero => omega
  | succ fuel ih =>
    rcases decodeLoop_cases noun h hs replace fuel index chars with
      ⟨hend, heq⟩ | ⟨hlt, hnone, -⟩ | ⟨c, hc, hp, hinj, heq⟩
    · rw [drop_take_nil (by omega), decodes_nil_iff h.announced] at hd
      rw [heq, hd, List.append_nil]
    · exact absurd hd (not_decodes h.announced hs hlt hnone)
    · have hpos := h.announced.unit_le hc
      have hunit := h.announced.unit_pos
      have hle := (prefix_window_iff.mp hp).2
      obtain ⟨cs', rfl, hd'⟩ := (decodes_cons_iff h.announced hc hinj hp).mp hd
      rw [heq, ih (by omega) (by omega) _ hd', List.append_assoc]
      rfl

theorem decodeLoop_replace (hs : stop ≤ bytes.length) {fuel index} (hfuel : stop - index < fuel)
    (chars) :
    ∃ l, decodeLoop getter initialLength decodeChar unit noun bytes stop true fuel index chars =
      .ok l := by
  induction fuel generalizing index chars with
  | zero => omega
  | succ fuel ih =>
    rcases decodeLoop_cases noun h hs true fuel index chars with
      ⟨-, heq⟩ | ⟨hlt, -, -, hreplace⟩ | ⟨c, hc, hp, -, heq⟩
    · exact ⟨_, heq⟩
    · rcases hreplace rfl with heq | ⟨n, hn, heq⟩
      · exact ⟨_, heq⟩
      · rw [heq]
        exact ih (by omega) _
    · have hpos := h.announced.unit_le hc
      have hunit := h.announced.unit_pos
      have hle := (prefix_window_iff.mp hp).2
      rw [heq]
      exact ih (by omega) _

end

theorem bytesDecoder_eq {start stop} (hr : InRange start stop bytes.length)
    (hshort : stop = none ∧ start = none ∨ bytes.length < 2 ^ 57) (replace) :
    bytesDecoder getter initialLength decodeChar unit noun bytes start stop replace =
      decodeLoop getter initialLength decodeChar unit noun bytes (stop.getD bytes.length)
        (replace = some true) (stop.getD bytes.length - start.getD 0 + 1) (start.getD 0) [] := by
  rcases hshort with ⟨rfl, rfl⟩ | hshort
  · rfl
  · rw [bytesDecoder, fixEndIndex_ok hr.stop_le hshort, ok_bind,
      fixStartIndex_ok hr.start_le (Nat.lt_of_le_of_lt hr.stop_le hshort)]
    rfl

section
variable (h : Decoder Valid enc unit size getter initialLength decodeChar)
include h

theorem bytesDecoder_strict_iff {start stop} (hr : InRange start stop bytes.length)
    (hshort : bytes.length < 2 ^ 57) {replace} (hreplace : replace ≠ some true) {l} :
    bytesDecoder getter initialLength decodeChar unit noun bytes start stop replace = .ok l ↔
      Decodes Valid enc (substring bytes start stop) l := by
  rw [bytesDecoder_eq hr (.inr hshort), decide_eq_false hreplace,
    decodeLoop_strict_iff h hr.stop_le (Nat.lt_succ_self _) hr.start_le]
  simp only [List.nil_append, exists_eq_left']
  rfl

theorem bytesDecoder_replace {start stop} (hr : InRange start stop bytes.length)
    (hshort : bytes.length < 2 ^ 57) :
    ∃ l, bytesDecoder getter initialLength decodeChar unit noun bytes start stop (some true) =
      .ok l := by
  rw [bytesDecoder_eq hr (.inr hshort)]
  exact decodeLoop_replace h hr.stop_le (Nat.lt_succ_self _) []

theorem bytesDecoder_decodes {cs} (hvalid : ∀ c ∈ cs, Valid c) (replace) :
    bytesDecoder getter initialLength decodeChar unit noun (cs.flatMap enc) none none replace =
      .ok cs := by
  rw [bytesDecoder_eq ⟨Nat.zero_le _, Nat.le_refl _⟩ (.inl ⟨rfl, rfl⟩)]
  refine decodeLoop_decodes h (Nat.le_refl _) _ (Nat.lt_succ_self _) (Nat.zero_le _) [] ⟨hvalid, ?_⟩
  exact List.take_length

theorem bytesDecoder_behind {cs} (hvalid : ∀ c ∈ cs, Valid c) (pre replace)
    (hshort : (pre ++ cs.flatMap enc).length < 2 ^ 57) :
    bytesDecoder getter initialLength decodeChar unit noun (pre ++ cs.flatMap enc) (some pre.length)
      (some (pre ++ cs.flatMap enc).length) replace = .ok cs := by
  have hle : pre.length ≤ (pre ++ cs.flatMap enc).length := by
    rw [List.length_append]
    exact Nat.le_add_right ..
  have hr : InRange (some pre.length) (some (pre ++ cs.flatMap enc).length)
      (pre ++ cs.flatMap enc).length := ⟨hle, Nat.le_refl _⟩
  rw [bytesDecoder_eq hr (.inr hshort)]
  refine decodeLoop_decodes h (Nat.le_refl _) _ (Nat.lt_succ_self _) hle [] ⟨hvalid, ?_⟩
  show List.drop pre.length (List.take (pre ++ cs.flatMap enc).length _) = _
  rw [List.take_length, List.drop_left]

end

end

/-! ## Round trips -/

/-- What an encoder returns for a range does not depend on what the new bytes held, and it decodes
to the characters of the range. -/
def RoundTrips (encode : Allocator → Text → Option Nat → Option Nat → Result Bytes)
    (decode : Bytes → Option Nat → Option Nat → Option Bool → Result (List Nat)) (string : Text)
    (start stop : Option Nat) : Prop :=
  ∃ bytes, (∀ allocator, encode allocator string start stop = .ok bytes) ∧
    ∀ replace, decode bytes none none replace = .ok (substring string.chars start stop)

section
variable {enc : Nat → Bytes} {byteLength : Nat → Result Nat}
  {encodeChar : Bytes → Object → Nat → Result (Bytes × Object)} {after : Nat → Object}
  {decode : Bytes → Option Nat → Option Nat → Option Bool → Result (List Nat)}
  {string : Text} {start stop : Option Nat} {bom : Bool}

theorem RoundTrips.scalars (h : Encoder enc byteLength encodeChar after)
    (hr : InRange start stop string.chars.length)
    (hround : RoundTrips (fun allocator => stringEncoder byteLength allocator encodeChar bom) decode
      string start stop) :
    ∀ c ∈ substring string.chars start stop, unicodeScalarValue c = true := by
  intro c hc
  by_contra hv
  obtain ⟨bytes, hencode, -⟩ := hround
  have herror := stringEncoder_error zeroAllocator bom h hr
    ⟨c, hc, Bool.eq_false_iff.mpr hv⟩
  exact nomatch (hencode zeroAllocator).symm.trans herror

theorem roundTrips_iff (h : Encoder enc byteLength encodeChar .fixnum)
    (hr : InRange start stop string.chars.length)
    (hdecode : ∀ replace, (∀ c ∈ substring string.chars start stop, unicodeScalarValue c = true) →
      decode (mark enc bom ++ (substring string.chars start stop).flatMap enc) none none replace =
        .ok (substring string.chars start stop)) :
    RoundTrips (fun allocator => stringEncoder byteLength allocator encodeChar bom) decode string
        start stop ↔
      ∀ c ∈ substring string.chars start stop, unicodeScalarValue c = true :=
  ⟨RoundTrips.scalars h hr, fun hall =>
    ⟨_, fun _ => stringEncoder_ok h hr hall, fun replace => hdecode replace hall⟩⟩

theorem utf32_roundTrips_iff {setter : Bytes → Nat → Nat → Result Bytes} {order}
    (hw : WritesFour setter order) (hr : InRange start stop string.chars.length)
    (hdecode : ∀ replace, (∀ c ∈ substring string.chars start stop, unicodeScalarValue c = true) →
      (if bom then 1 else 0) + (substring string.chars start stop).length ≤ 1 →
      decode (mark (utf32 order) bom ++ (substring string.chars start stop).flatMap (utf32 order))
        none none replace = .ok (substring string.chars start stop)) :
    RoundTrips (fun allocator => stringEncoder charUtf32ByteLength allocator
        (utf32CharEncoder setter) bom) decode string start stop ↔
      (∀ c ∈ substring string.chars start stop, unicodeScalarValue c = true) ∧
        (if bom then 1 else 0) + (substring string.chars start stop).length ≤ 1 := by
  constructor
  · intro hround
    have hall := hround.scalars (utf32_encoder hw) hr
    obtain ⟨bytes, hencode, -⟩ := hround
    refine ⟨hall, ?_⟩
    by_contra hlen
    have herror := utf32_stringEncoder zeroAllocator bom hw hr hall
    rw [if_neg hlen] at herror
    exact nomatch (hencode zeroAllocator).symm.trans herror
  · rintro ⟨hall, hlen⟩
    refine ⟨_, fun allocator => ?_, fun replace => hdecode replace hall hlen⟩
    exact (utf32_stringEncoder allocator bom hw hr hall).trans (if_pos hlen)

end

/-! ## Byte order marks -/

theorem flatMap_length_le {enc : Nat → Bytes} (h : ∀ c, (enc c).length ≤ 4) (cs : List Nat) :
    (cs.flatMap enc).length ≤ 4 * cs.length := by
  induction cs with
  | nil => exact Nat.le_refl 0
  | cons c cs ih =>
    have hc := h c
    rw [List.flatMap_cons, List.length_append, List.length_cons]
    omega

theorem substring_length_le {α : Type} (string : List α) (start stop) :
    (substring string start stop).length ≤ string.length := by
  rw [substring, List.length_drop, List.length_take]
  omega

theorem utf16ToString_mark (hostBigEndian : Bool) (order) {cs} (hvalid : ∀ c ∈ cs, Scalar c)
    (hshort : 4 * cs.length + 4 < 2 ^ 57) (replace) :
    utf16ToString hostBigEndian (mark (utf16 order) true ++ cs.flatMap (utf16 order)) none none
      replace = .ok cs := by
  have hflat : (cs.flatMap (utf16 order)).length ≤ 4 * cs.length := by
    refine flatMap_length_le (fun c => ?_) cs
    rw [utf16_length]
    split <;> omega
  have hlen : (mark (utf16 order) true ++ cs.flatMap (utf16 order)).length =
      2 + (cs.flatMap (utf16 order)).length := by
    rw [List.length_append]
    cases order <;> rfl
  rw [utf16ToString]
  show (if 0 + 2 ≤ _ then _ else _) = _
  rw [if_pos (by omega)]
  cases order with
  | big =>
    exact bytesDecoder_behind (utf16_decoder bytevectorU16beRef_reads) hvalid
      (mark (utf16 .big) true) replace (by omega)
  | little =>
    exact bytesDecoder_behind (utf16_decoder bytevectorU16leRef_reads) hvalid
      (mark (utf16 .little) true) replace (by omega)

theorem utf32ToString_mark (hostBigEndian : Bool) (order replace) :
    utf32ToString hostBigEndian (mark (utf32 order) true) none none replace = .ok [] := by
  cases order <;> rfl

theorem mark_alone_iff {P : Nat → Prop} {l} :
    (∀ c ∈ l, P c) ∧ (if true then 1 else 0) + l.length ≤ 1 ↔ l = [] := by
  rw [if_pos rfl]
  constructor
  · rintro ⟨-, hlen⟩
    exact List.length_eq_zero_iff.mp (by omega)
  · rintro rfl
    exact ⟨fun _ h => absurd h List.not_mem_nil, Nat.le_refl 1⟩

theorem nil_of_mark_alone {l : List Nat} (h : (if true then 1 else 0) + l.length ≤ 1) : l = [] :=
  List.length_eq_zero_iff.mp (by rw [if_pos rfl] at h; omega)

/-! ## The codecs -/

structure Bytevector where
  bytes : Bytes
  short : bytes.length < 2 ^ 57

theorem utf32_strict_iff {decoded : Result (List Nat)} {order : Order} {window : Bytes}
    (hdecode : ∀ l, decoded = .ok l ↔
      Decodes (fun c => unicodeScalarValue c = true) (utf32 order) window l) :
    ((∃ l, decoded = .ok l) ↔ WellFormed Scalar (utf32 order) window) ↔
      ∀ cs, Decodes Scalar (utf32 order) window cs → ∀ c ∈ cs, unicodeScalarValue c = true := by
  constructor
  · intro h cs hcs
    obtain ⟨ds, hds⟩ := h.mpr ⟨cs, hcs⟩
    have hds := (hdecode ds).mp hds
    have hds' : Decodes Scalar (utf32 order) window ds :=
      ⟨fun d hd => scalar_of_unicodeScalarValue (hds.1 d hd), hds.2⟩
    rw [hcs.unique (utf32_announced order) (fun _ _ => utf32_injective) hds']
    exact hds.1
  · intro h
    constructor
    · rintro ⟨l, hl⟩
      have hl := (hdecode l).mp hl
      exact ⟨l, fun d hd => scalar_of_unicodeScalarValue (hl.1 d hd), hl.2⟩
    · rintro ⟨cs, hcs⟩
      exact ⟨cs, (hdecode cs).mpr ⟨h cs hcs, hcs.2⟩⟩

/-- **When the codecs of strings are right.** The characters must pass `unicode-scalar-value?`, which
takes some characters of the supplementary planes for surrogates. A UTF-32 encoder returns no index,
so it writes one character. The decoders are right but for those characters in UTF-32. -/
theorem utf_codecs_iff (string : Text) (start stop : Option Nat)
    (hr : InRange start stop string.chars.length)
    (hscalar : ∀ c ∈ substring string.chars start stop, Scalar c) (hostBigEndian : Bool)
    (bytevector : Bytevector) (bstart bstop : Option Nat)
    (hb : InRange bstart bstop bytevector.bytes.length) :
    (∀ codec ∈ [(stringToUtf8, utf8ToString), (stringToUtf16be, utf16beToString),
        (stringToUtf16le, utf16leToString), (stringToUtf16beBom, utf16ToString hostBigEndian),
        (stringToUtf16leBom, utf16ToString hostBigEndian)],
      RoundTrips codec.1 codec.2 string start stop ↔
        ∀ c ∈ substring string.chars start stop, unicodeScalarValue c = true) ∧
    (∀ codec ∈ [(stringToUtf32be, utf32beToString), (stringToUtf32le, utf32leToString)],
      RoundTrips codec.1 codec.2 string start stop ↔
        (∀ c ∈ substring string.chars start stop, unicodeScalarValue c = true) ∧
          (substring string.chars start stop).length ≤ 1) ∧
    (∀ codec ∈ [(stringToUtf32beBom, utf32ToString hostBigEndian),
        (stringToUtf32leBom, utf32ToString hostBigEndian)],
      RoundTrips codec.1 codec.2 string start stop ↔ substring string.chars start stop = []) ∧
    (∀ codec ∈ [(utf8ToString, utf8), (utf16beToString, utf16 .big),
        (utf16leToString, utf16 .little)], ∀ replace, replace ≠ some true →
      ((∃ l, codec.1 bytevector.bytes bstart bstop replace = .ok l) ↔
        WellFormed Scalar codec.2 (substring bytevector.bytes bstart bstop))) ∧
    (∀ codec ∈ [(utf32beToString, Order.big), (utf32leToString, Order.little)],
      ∀ replace, replace ≠ some true →
      (((∃ l, codec.1 bytevector.bytes bstart bstop replace = .ok l) ↔
        WellFormed Scalar (utf32 codec.2) (substring bytevector.bytes bstart bstop)) ↔
        ∀ cs, Decodes Scalar (utf32 codec.2) (substring bytevector.bytes bstart bstop) cs →
          ∀ c ∈ cs, unicodeScalarValue c = true)) ∧
    ∀ decode ∈ [utf8ToString, utf16beToString, utf16leToString, utf32beToString, utf32leToString],
      ∃ l, decode bytevector.bytes bstart bstop (some true) = .ok l := by
  have hsub : 4 * (substring string.chars start stop).length + 4 < 2 ^ 57 := by
    have hle := substring_length_le string.chars start stop
    have hshort := string.short
    omega
  have hstrict {enc unit size getter initialLength decodeChar noun}
      (h : Decoder Scalar enc unit size getter initialLength decodeChar) {replace : Option Bool}
      (hreplace : replace ≠ some true) :
      (∃ l, bytesDecoder getter initialLength decodeChar unit noun bytevector.bytes bstart bstop
        replace = .ok l) ↔ WellFormed Scalar enc (substring bytevector.bytes bstart bstop) :=
    exists_congr fun l => bytesDecoder_strict_iff h hb bytevector.short hreplace
  simp only [List.forall_mem_cons, List.not_mem_nil, false_implies, implies_true, and_true]
  refine ⟨⟨?_, ?_, ?_, ?_, ?_⟩, ⟨?_, ?_⟩, ⟨?_, ?_⟩, ⟨?_, ?_, ?_⟩, ⟨?_, ?_⟩, ⟨?_, ?_, ?_, ?_, ?_⟩⟩
  · exact roundTrips_iff utf8_encoder hr fun replace _ =>
      bytesDecoder_decodes utf8_decoder hscalar replace
  · exact roundTrips_iff (utf16_encoder bytevectorU16beSet_writes) hr fun replace _ =>
      bytesDecoder_decodes (utf16_decoder bytevectorU16beRef_reads) hscalar replace
  · exact roundTrips_iff (utf16_encoder bytevectorU16leSet_writes) hr fun replace _ =>
      bytesDecoder_decodes (utf16_decoder bytevectorU16leRef_reads) hscalar replace
  · exact roundTrips_iff (utf16_encoder bytevectorU16beSet_writes) hr fun replace _ =>
      utf16ToString_mark hostBigEndian .big hscalar hsub replace
  · exact roundTrips_iff (utf16_encoder bytevectorU16leSet_writes) hr fun replace _ =>
      utf16ToString_mark hostBigEndian .little hscalar hsub replace
  · refine (utf32_roundTrips_iff bytevectorU32beSet_writes hr fun replace hall _ => ?_).trans ?_
    · exact bytesDecoder_decodes (utf32_decoder bytevectorU32beRef_reads) hall replace
    · rw [if_neg Bool.false_ne_true, Nat.zero_add]
  · refine (utf32_roundTrips_iff bytevectorU32leSet_writes hr fun replace hall _ => ?_).trans ?_
    · exact bytesDecoder_decodes (utf32_decoder bytevectorU32leRef_reads) hall replace
    · rw [if_neg Bool.false_ne_true, Nat.zero_add]
  · refine (utf32_roundTrips_iff bytevectorU32beSet_writes hr fun replace _ hlen => ?_).trans
      mark_alone_iff
    rw [nil_of_mark_alone hlen]
    exact utf32ToString_mark hostBigEndian .big replace
  · refine (utf32_roundTrips_iff bytevectorU32leSet_writes hr fun replace _ hlen => ?_).trans
      mark_alone_iff
    rw [nil_of_mark_alone hlen]
    exact utf32ToString_mark hostBigEndian .little replace
  · exact fun _ hreplace => hstrict utf8_decoder hreplace
  · exact fun _ hreplace => hstrict (utf16_decoder bytevectorU16beRef_reads) hreplace
  · exact fun _ hreplace => hstrict (utf16_decoder bytevectorU16leRef_reads) hreplace
  · exact fun _ hreplace => utf32_strict_iff fun _ =>
      bytesDecoder_strict_iff (utf32_decoder bytevectorU32beRef_reads) hb bytevector.short hreplace
  · exact fun _ hreplace => utf32_strict_iff fun _ =>
      bytesDecoder_strict_iff (utf32_decoder bytevectorU32leRef_reads) hb bytevector.short hreplace
  · exact bytesDecoder_replace utf8_decoder hb bytevector.short
  · exact bytesDecoder_replace (utf16_decoder bytevectorU16beRef_reads) hb bytevector.short
  · exact bytesDecoder_replace (utf16_decoder bytevectorU16leRef_reads) hb bytevector.short
  · exact bytesDecoder_replace (utf32_decoder bytevectorU32beRef_reads) hb bytevector.short
  · exact bytesDecoder_replace (utf32_decoder bytevectorU32leRef_reads) hb bytevector.short

/-- A character of each length, with the mark, and a window of three bytes. -/
theorem utf_codecs_lengths :
    RoundTrips stringToUtf16beBom (utf16ToString false) ⟨[0x41, 0xE9, 0x20AC, 0x1F600], by decide⟩
      (some 1) none :=
  ((utf_codecs_iff ⟨[0x41, 0xE9, 0x20AC, 0x1F600], by decide⟩ (some 1) none (by decide) (by decide)
    false ⟨[0xE2, 0x82, 0xAC], by decide⟩ none none (by decide)).1
    (stringToUtf16beBom, utf16ToString false) (by simp)).mpr (by decide)

/-- Two characters in UTF-32, and the first of those that pass for surrogates in UTF-8. -/
theorem utf_codecs_fail :
    ¬RoundTrips stringToUtf32be utf32beToString ⟨[0x61, 0x62], by decide⟩ none none ∧
      ¬RoundTrips stringToUtf8 utf8ToString ⟨[0x1D800], by decide⟩ none none := by
  have h32 : stringToUtf32be zeroAllocator ⟨[0x61, 0x62], by decide⟩ none none =
      .error .wrongType := by decide +kernel
  have h8 : stringToUtf8 zeroAllocator ⟨[0x1D800], by decide⟩ none none = .error .wrongType := by
    decide +kernel
  constructor
  · rintro ⟨bytes, hencode, -⟩
    exact nomatch (hencode zeroAllocator).symm.trans h32
  · rintro ⟨bytes, hencode, -⟩
    exact nomatch (hencode zeroAllocator).symm.trans h8

end MitScheme.Runtime.UtfString
