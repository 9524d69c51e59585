import MitScheme.Runtime.CharCodec

/-! # Streams decoded window by window

A caller of the sink keeps the bytes that were not taken for the next window. The characters are
those of the whole stream, whatever the chunks, as long as every call of the decoder returns. -/

namespace MitScheme.Runtime.Codecs
open Lib.EncodingForm Lib.Outcome
open CharEncoding

/-- A chunk of the stream, and the bytes around the window that it is put in. -/
structure Delivery where
  chunk : Bytes
  before : Bytes
  behind : Bytes

def stream (deliveries : List Delivery) : Bytes := deliveries.flatMap Delivery.chunk

/-- The characters that the sink writes when it is called with one chunk after the other, and the
bytes that it has not taken. -/
def deliver (decoder : Bytes → Nat → Nat → Result (Option Nat × Nat)) :
    Bytes → List Delivery → Result (List Nat × Bytes)
  | pending, [] => .ok ([], pending)
  | pending, d :: ds => do
    let undecoded := pending ++ d.chunk
    let (chars, n) ← sinkWrite decoder (d.before ++ undecoded ++ d.behind) d.before.length
      (d.before.length + undecoded.length)
    let (chars', rest) ← deliver decoder (undecoded.drop n) ds
    return (chars ++ chars', rest)

theorem window_drop (bv bs be n) : (window bv bs be).drop n = window bv (bs + n) be :=
  List.drop_drop

section
variable {Valid : Nat → Prop} {enc : Nat → Bytes} {unit : Nat} {size : Bytes → Nat}
  {getter : Bytes → Nat → Result Nat} {initialLength : Nat → Result Nat}
  {decodeChar : Bytes → Nat → Result (Option Nat)} {guard : Nat} {bv : Bytes} {bs be : Nat}

theorem decoder_incomplete (h : Decoder Valid enc unit size getter initialLength decodeChar)
    (hbs : bs ≤ be) (hbe : be ≤ bv.length) (hw : Incomplete unit size (window bv bs be))
    (hroom : (window bv bs be).length < guard ∨
      be + unit ≤ bv.length + (window bv bs be).length) :
    ∃ i, codecDecoder (nextCharLength guard getter initialLength) decodeChar bv bs be =
      .ok (none, i) := by
  have hlen := window_length bs hbe
  by_cases hguard : bs + guard ≤ be
  · have hunit : bs + unit ≤ bv.length := by omega
    refine ⟨_, decoder_cut h hguard hunit ?_⟩
    by_cases hle : unit ≤ (window bv bs be).length
    · rw [h.announced.size_prefix (window_begins bv bs be) hle]
      rw [Incomplete] at hw
      omega
    · have hsize := h.announced.unit_le_size (w := bv.drop bs) (by rw [List.length_drop]; omega)
      omega
  · exact ⟨bs, decoder_short hguard⟩

theorem sinkLoop_ok (h : Decoder Valid enc unit size getter initialLength decodeChar)
    (hguard : guard ≤ unit) {w r : Bytes} {ws : List Bytes} (hsplit : Splits unit size w ws r)
    {bi fuel : Nat} (hw : w = window bv bi be) (hbi : bi ≤ be) (hbe : be ≤ bv.length)
    (hfuel : be - bi < fuel)
    (hroom : r.length < guard ∨ be + unit ≤ bv.length + r.length) :
    sinkLoop (codecDecoder (nextCharLength guard getter initialLength) decodeChar) bv bs be fuel bi =
      .ok (ws.map (character decodeChar), be - r.length - bs) := by
  have hlen := window_length bi hbe
  induction hsplit generalizing bi fuel with
  | @rest w hinc =>
    subst hw
    obtain ⟨fuel, rfl⟩ := Nat.exists_eq_add_one_of_ne_zero (show fuel ≠ 0 by omega)
    have hstart : be - (window bv bi be).length = bi := by omega
    rw [sinkLoop, hstart]
    by_cases hlt : bi < be
    · obtain ⟨i, hi⟩ := decoder_incomplete h hbi hbe hinc hroom
      rw [if_pos hlt, hi]
      rfl
    · rw [if_neg hlt]
      rfl
  | @word w ws r hcomplete _ ih =>
    subst hw
    obtain ⟨fuel, rfl⟩ := Nat.exists_eq_add_one_of_ne_zero (show fuel ≠ 0 by omega)
    obtain ⟨hunit, hfit⟩ := (complete_iff unit size hbi hbe).mp hcomplete
    have hpos := h.announced.unit_pos
    have hunitle := h.announced.unit_le_size (w := window bv bi be) (by omega)
    have hfuel' : be - (bi + size (window bv bi be)) < fuel := by omega
    have hrest := ih (window_drop ..) hfit hfuel' hroom (window_length _ hbe)
    rw [sinkLoop, if_pos (by omega), (decoder_complete h hguard hbi hbe hcomplete).1, ok_bind]
    show (sinkLoop _ _ _ _ _ _ >>= _) = _
    rw [hrest]
    rfl

theorem sinkLoop_error (h : Decoder Valid enc unit size getter initialLength decodeChar)
    (hrange : ∀ {bv : Bytes} {i : Nat}, bv.length < i + unit → getter bv i = .error .badRange)
    (hguard : guard ≤ unit) {w r : Bytes} {ws : List Bytes} (hsplit : Splits unit size w ws r)
    {bi fuel : Nat} (hw : w = window bv bi be) (hbi : bi ≤ be) (hbe : be ≤ bv.length)
    (hfuel : be - bi < fuel) (hpos : 0 < guard) (hlong : guard ≤ r.length)
    (hroom : bv.length + r.length < be + unit) :
    sinkLoop (codecDecoder (nextCharLength guard getter initialLength) decodeChar) bv bs be fuel bi =
      .error .badRange := by
  have hlen := window_length bi hbe
  induction hsplit generalizing bi fuel with
  | @rest w hinc =>
    subst hw
    obtain ⟨fuel, rfl⟩ := Nat.exists_eq_add_one_of_ne_zero (show fuel ≠ 0 by omega)
    rw [sinkLoop, if_pos (by omega), codecDecoder, nextCharLength, if_pos (by omega),
      hrange (by omega)]
    rfl
  | @word w ws r hcomplete _ ih =>
    subst hw
    obtain ⟨fuel, rfl⟩ := Nat.exists_eq_add_one_of_ne_zero (show fuel ≠ 0 by omega)
    obtain ⟨hunit, hfit⟩ := (complete_iff unit size hbi hbe).mp hcomplete
    have hunitpos := h.announced.unit_pos
    have hunitle := h.announced.unit_le_size (w := window bv bi be) (by omega)
    have hfuel' : be - (bi + size (window bv bi be)) < fuel := by omega
    have hrest := ih (window_drop ..) hfit hfuel' hlong hroom (window_length _ hbe)
    rw [sinkLoop, if_pos (by omega), (decoder_complete h hguard hbi hbe hcomplete).1, ok_bind]
    show (sinkLoop _ _ _ _ _ _ >>= _) = _
    rw [hrest]
    rfl

/-- Every call of the decoder that finds no character can look at the unit. -/
inductive Room (guard unit : Nat) (size : Bytes → Nat) : Bytes → List Delivery → Prop
  | nil {pending} : Room guard unit size pending []
  | cons {pending d ds ws r} : Splits unit size (pending ++ d.chunk) ws r →
      (r.length < guard ∨ unit ≤ r.length + d.behind.length) → Room guard unit size r ds →
      Room guard unit size pending (d :: ds)

theorem room_of_unit (h : Announced Valid enc unit size) (pending ds) :
    Room unit unit size pending ds := by
  induction ds generalizing pending with
  | nil => exact .nil
  | cons d ds ih =>
    obtain ⟨ws, r, hsplit⟩ := Splits.exists h (pending ++ d.chunk)
    exact .cons hsplit (by omega) (ih r)

theorem delivery_window (pending) (d : Delivery) :
    window (d.before ++ (pending ++ d.chunk) ++ d.behind) d.before.length
      (d.before.length + (pending ++ d.chunk).length) = pending ++ d.chunk := by
  rw [window, ← List.length_append, List.take_left, List.drop_left]

theorem delivery_length (pending) (d : Delivery) :
    (d.before ++ (pending ++ d.chunk) ++ d.behind).length =
      d.before.length + (pending ++ d.chunk).length + d.behind.length := by
  rw [List.length_append, List.length_append]

theorem sinkWrite_delivery (h : Decoder Valid enc unit size getter initialLength decodeChar)
    (hguard : guard ≤ unit) {pending r : Bytes} {d : Delivery} {ws : List Bytes}
    (hsplit : Splits unit size (pending ++ d.chunk) ws r)
    (hroom : r.length < guard ∨ unit ≤ r.length + d.behind.length) :
    sinkWrite (codecDecoder (nextCharLength guard getter initialLength) decodeChar)
        (d.before ++ (pending ++ d.chunk) ++ d.behind) d.before.length
        (d.before.length + (pending ++ d.chunk).length) =
      .ok (ws.map (character decodeChar), (pending ++ d.chunk).length - r.length) := by
  have hlen := delivery_length pending d
  have hsub : d.before.length + (pending ++ d.chunk).length - r.length - d.before.length =
      (pending ++ d.chunk).length - r.length := by omega
  rw [sinkWrite, sinkLoop_ok h hguard hsplit (delivery_window pending d).symm (Nat.le_add_right ..)
    (by omega) (Nat.lt_succ_self _) (by omega), hsub]

theorem deliver_ok (h : Decoder Valid enc unit size getter initialLength decodeChar)
    (hguard : guard ≤ unit) {pending ds} (hroom : Room guard unit size pending ds)
    (hpending : Incomplete unit size pending) {ws r}
    (hsplit : Splits unit size (pending ++ stream ds) ws r) :
    deliver (codecDecoder (nextCharLength guard getter initialLength) decodeChar) pending ds =
      .ok (ws.map (character decodeChar), r) := by
  induction hroom generalizing ws r with
  | nil =>
    rw [stream, List.flatMap_nil, List.append_nil] at hsplit
    obtain ⟨rfl, rfl⟩ := hsplit.unique (.rest hpending)
    rfl
  | @cons pending d ds ws₁ r₁ hfirst hlook _ ih =>
    obtain ⟨ws₂, r₂, hsecond⟩ := Splits.exists h.announced (r₁ ++ stream ds)
    rw [stream, List.flatMap_cons, ← List.append_assoc] at hsplit
    obtain ⟨rfl, rfl⟩ := hsplit.unique (hfirst.append h.announced hsecond)
    rw [deliver, sinkWrite_delivery h hguard hfirst hlook, ok_bind]
    show (deliver _ _ _ >>= _) = _
    rw [hfirst.drop_rest.2, ih hfirst.incomplete hsecond, ok_bind, List.map_append]
    rfl

theorem room_of_deliver (h : Decoder Valid enc unit size getter initialLength decodeChar)
    (hrange : ∀ {bv : Bytes} {i : Nat}, bv.length < i + unit → getter bv i = .error .badRange)
    (hguard : guard ≤ unit) (hpos : 0 < guard) {pending : Bytes} {ds : List Delivery}
    {result : List Nat × Bytes}
    (hok : deliver (codecDecoder (nextCharLength guard getter initialLength) decodeChar) pending ds =
      .ok result) :
    Room guard unit size pending ds := by
  induction ds generalizing pending result with
  | nil => exact .nil
  | cons d ds ih =>
    obtain ⟨ws, r, hsplit⟩ := Splits.exists h.announced (pending ++ d.chunk)
    have hlen := delivery_length pending d
    by_cases hlook : r.length < guard ∨ unit ≤ r.length + d.behind.length
    · rw [deliver, sinkWrite_delivery h hguard hsplit hlook, ok_bind] at hok
      obtain ⟨rest, hrest, -⟩ := bind_eq_ok hok
      rw [hsplit.drop_rest.2] at hrest
      exact .cons hsplit hlook (ih hrest)
    · rw [deliver, sinkWrite, sinkLoop_error h hrange hguard hsplit (delivery_window pending d).symm
        (Nat.le_add_right ..) (by omega) (Nat.lt_succ_self _) hpos (by omega) (by omega)] at hok
      cases hok

end

/-! ## Four bytes a word -/

theorem utf32_rest_length {w r ws} (h : Splits 4 utf32Size w ws r) : r.length = w.length % 4 := by
  induction h with
  | rest hw =>
    rw [Incomplete] at hw
    exact (Nat.mod_eq_of_lt (hw.elim id id)).symm
  | @word w ws r hw _ ih =>
    rw [Incomplete, utf32Size] at hw
    rw [ih, List.length_drop, utf32Size]
    omega

/-- The rest of every window has one byte at most, or four bytes can be read behind its start. -/
def FourReadable (ds : List Delivery) : Prop :=
  ∀ ps (d : Delivery), ps ++ [d] <+: ds → (stream (ps ++ [d])).length % 4 < 2 ∨
    4 ≤ (stream (ps ++ [d])).length % 4 + d.behind.length

theorem stream_cons (d ds) : stream (d :: ds) = d.chunk ++ stream ds :=
  List.flatMap_cons ..

theorem room_four_iff (order : Order) (pending : Bytes) {ds} :
    Room 2 4 utf32Size pending ds ↔
      ∀ ps (d : Delivery), ps ++ [d] <+: ds →
        (pending ++ stream (ps ++ [d])).length % 4 < 2 ∨
          4 ≤ (pending ++ stream (ps ++ [d])).length % 4 + d.behind.length := by
  constructor
  · intro h
    induction h with
    | nil =>
      intro ps d hp
      rw [List.prefix_nil] at hp
      exact absurd hp (by simp)
    | @cons pending d ds ws r hsplit hlook _ ih =>
      intro ps d' hp
      have hr := utf32_rest_length hsplit
      rw [List.length_append] at hr
      cases ps with
      | nil =>
        obtain ⟨rfl, -⟩ := List.cons_prefix_cons.mp hp
        rw [List.nil_append, stream_cons, List.length_append, List.length_append, stream,
          List.flatMap_nil, List.length_nil]
        omega
      | cons p ps =>
        obtain ⟨rfl, hps⟩ := List.cons_prefix_cons.mp hp
        have hih := ih ps d' hps
        rw [List.cons_append, stream_cons, List.length_append, List.length_append]
        rw [List.length_append] at hih
        omega
  · intro h
    induction ds generalizing pending with
    | nil => exact .nil
    | cons d ds ih =>
      obtain ⟨ws, r, hsplit⟩ := Splits.exists (utf32_announced order) (pending ++ d.chunk)
      have hr := utf32_rest_length hsplit
      rw [List.length_append] at hr
      refine .cons hsplit ?_ (ih r fun ps d' hp => ?_)
      · have hd := h [] d ⟨ds, rfl⟩
        rw [List.nil_append, stream_cons, List.length_append, List.length_append, stream,
          List.flatMap_nil, List.length_nil] at hd
        omega
      · have hd := h (d :: ps) d' (List.cons_prefix_cons.mpr ⟨rfl, hp⟩)
        rw [List.cons_append, stream_cons, List.length_append, List.length_append] at hd
        rw [List.length_append]
        omega

/-! ## The codecs -/

section
variable {Valid : Nat → Prop} {enc : Nat → Bytes} {unit : Nat} {size : Bytes → Nat}
  {getter : Bytes → Nat → Result Nat} {initialLength : Nat → Result Nat}
  {decodeChar : Bytes → Nat → Result (Option Nat)} {guard : Nat}

theorem deliver_same (h : Decoder Valid enc unit size getter initialLength decodeChar)
    (hguard : guard ≤ unit) {ds whole} (hwhole : whole.chunk = stream ds)
    (hds : Room guard unit size [] ds) (hone : Room guard unit size [] [whole]) :
    ∃ result,
      deliver (codecDecoder (nextCharLength guard getter initialLength) decodeChar) [] ds =
        .ok result ∧
      deliver (codecDecoder (nextCharLength guard getter initialLength) decodeChar) [] [whole] =
        .ok result := by
  obtain ⟨ws, r, hsplit⟩ := Splits.exists h.announced ([] ++ stream ds)
  have hnil : Incomplete unit size [] := .inl h.announced.unit_pos
  refine ⟨_, deliver_ok h hguard hds hnil hsplit, deliver_ok h hguard hone hnil ?_⟩
  have hstream : stream [whole] = stream ds := by
    rw [stream_cons, hwhole]
    exact List.append_nil _
  rwa [hstream]

end

theorem deliver_four_iff {getter : Bytes → Nat → Result Nat} {order} (hr : ReadsFour getter order)
    (hrange : ∀ {bv : Bytes} {i : Nat}, bv.length < i + 4 → getter bv i = .error .badRange)
    {ds whole} (hwhole : whole.chunk = stream ds) :
    (∃ result,
        deliver (codecDecoder (nextCharLength 2 getter initialU32ToUtf32CharLength)
          (utf32CharDecoder getter)) [] ds = .ok result ∧
        deliver (codecDecoder (nextCharLength 2 getter initialU32ToUtf32CharLength)
          (utf32CharDecoder getter)) [] [whole] = .ok result) ↔
      FourReadable ds ∧ FourReadable [whole] := by
  have h := utf32_decoder hr
  have hds : Room 2 4 utf32Size [] ds ↔ FourReadable ds := room_four_iff order []
  have hone : Room 2 4 utf32Size [] [whole] ↔ FourReadable [whole] := room_four_iff order []
  rw [← hds, ← hone]
  constructor
  · rintro ⟨result, hds, hone⟩
    exact ⟨room_of_deliver h hrange (by omega) (by omega) hds,
      room_of_deliver h hrange (by omega) (by omega) hone⟩
  · rintro ⟨hds, hone⟩
    exact deliver_same h (by omega) hwhole hds hone

theorem u32Ref_error (f) {bv i} (h : bv.length < i + 4) : u32Ref f bv i = .error .badRange := by
  rw [u32Ref, decide_eq_false (by omega)]
  rfl

/-- **When the codecs are right.** A decoder passes an index above the window when the window holds
the beginning of a character and tells its length. A UTF-32 decoder looks for two bytes and reads
four, and takes some characters for surrogates; the encoders refuse these. Streams in UTF-8 and
UTF-16 decode the same in all chunks, as their caller does not use the index. -/
theorem char_codecs_iff (bv : Bytes) (bs be char : Nat) (hbs : bs ≤ be) (hbe : be ≤ bv.length)
    (ds : List Delivery) (whole : Delivery) (hwhole : whole.chunk = stream ds) :
    (DecodesWindow utf8 1 utf8Size utf8Codec.decoder bv bs be ↔
      (window bv bs be).length < 1 ∨ utf8Size (window bv bs be) ≤ (window bv bs be).length) ∧
    (∀ codec ∈ [(Order.big, utf16beCodec), (Order.little, utf16leCodec)],
      DecodesWindow (utf16 codec.1) 2 (utf16Size codec.1) codec.2.decoder bv bs be ↔
        (window bv bs be).length < 2 ∨
          utf16Size codec.1 (window bv bs be) ≤ (window bv bs be).length) ∧
    (∀ codec ∈ [(Order.big, utf32beCodec), (Order.little, utf32leCodec)],
      DecodesWindow (utf32 codec.1) 4 utf32Size codec.2.decoder bv bs be ↔
        (window bv bs be).length < 2 ∨ 4 ≤ (window bv bs be).length ∧
          ∀ c, Scalar c → utf32 codec.1 c <+: window bv bs be → unicodeScalarValue c = true) ∧
    (∀ codec ∈ [utf8Codec, utf16beCodec, utf16leCodec], ∃ result,
      deliver codec.decoder [] ds = .ok result ∧ deliver codec.decoder [] [whole] = .ok result) ∧
    (∀ codec ∈ [utf32beCodec, utf32leCodec],
      (∃ result,
        deliver codec.decoder [] ds = .ok result ∧ deliver codec.decoder [] [whole] = .ok result) ↔
      FourReadable ds ∧ FourReadable [whole]) ∧
    ∀ codec ∈ [(utf8, utf8Codec), (utf16 .big, utf16beCodec), (utf16 .little, utf16leCodec),
        (utf32 .big, utf32beCodec), (utf32 .little, utf32leCodec)],
      EncodesWindow codec.1 codec.2.encoder bv bs be char ↔ unicodeScalarValue char = true := by
  have hroom {unit size enc} (h : Announced Scalar enc unit size) :
      Room unit unit size [] ds ∧ Room unit unit size [] [whole] :=
    ⟨room_of_unit h [] ds, room_of_unit h [] [whole]⟩
  simp only [List.forall_mem_cons, List.not_mem_nil, false_implies, implies_true, and_true]
  refine ⟨?_, ⟨?_, ?_⟩, ⟨?_, ?_⟩, ⟨?_, ?_, ?_⟩, ⟨?_, ?_⟩, ?_, ?_, ?_, ?_, ?_⟩
  · exact decodesWindow_iff utf8_decoder hbs hbe
  · exact decodesWindow_iff (utf16_decoder bytevectorU16beRef_reads) hbs hbe
  · exact decodesWindow_iff (utf16_decoder bytevectorU16leRef_reads) hbs hbe
  · exact utf32_decodesWindow_iff bytevectorU32beRef_reads hbs hbe
  · exact utf32_decodesWindow_iff bytevectorU32leRef_reads hbs hbe
  · obtain ⟨hds, hone⟩ := hroom utf8_announced
    exact deliver_same utf8_decoder (Nat.le_refl 1) hwhole hds hone
  · obtain ⟨hds, hone⟩ := hroom (utf16_announced .big)
    exact deliver_same (utf16_decoder bytevectorU16beRef_reads) (Nat.le_refl 2) hwhole hds hone
  · obtain ⟨hds, hone⟩ := hroom (utf16_announced .little)
    exact deliver_same (utf16_decoder bytevectorU16leRef_reads) (Nat.le_refl 2) hwhole hds hone
  · exact deliver_four_iff bytevectorU32beRef_reads (u32Ref_error bytesToU32be) hwhole
  · exact deliver_four_iff bytevectorU32leRef_reads (u32Ref_error bytesToU32le) hwhole
  · exact encodesWindow_iff utf8_encoder hbe char
  · exact encodesWindow_iff (utf16_encoder bytevectorU16beSet_writes) hbe char
  · exact encodesWindow_iff (utf16_encoder bytevectorU16leSet_writes) hbe char
  · exact encodesWindow_iff (utf32_encoder bytevectorU32beSet_writes) hbe char
  · exact encodesWindow_iff (utf32_encoder bytevectorU32leSet_writes) hbe char

/-- A euro sign cut after two bytes, in two deliveries. -/
theorem char_codecs_chunks :
    ∃ result,
      deliver utf8Codec.decoder [] [⟨[0xE2, 0x82], [0], []⟩, ⟨[0xAC, 0x41], [], [0x42]⟩] = .ok result ∧
      deliver utf8Codec.decoder [] [⟨[0xE2, 0x82, 0xAC, 0x41], [], []⟩] = .ok result :=
  (char_codecs_iff [0xE2, 0x82, 0xAC] 0 3 0x20AC (by decide) (by decide)
    [⟨[0xE2, 0x82], [0], []⟩, ⟨[0xAC, 0x41], [], [0x42]⟩] ⟨[0xE2, 0x82, 0xAC, 0x41], [], []⟩
    rfl).2.2.2.1 utf8Codec (by simp)

/-- The window holds two bytes of three: the index passed is 3, and the window ends at 2. -/
theorem char_codecs_cut :
    utf8Codec.decoder [0xE2, 0x82, 0xAC] 0 2 = .ok (none, 3) ∧
      ¬DecodesWindow utf8 1 utf8Size utf8Codec.decoder [0xE2, 0x82, 0xAC] 0 2 := by
  have hcut : utf8Codec.decoder [0xE2, 0x82, 0xAC] 0 2 = .ok (none, 3) := by decide +kernel
  refine ⟨hcut, fun h => ?_⟩
  obtain ⟨i, hi, heq⟩ := h.incomplete_iff.mp (by decide)
  rw [hcut] at heq
  cases heq
  exact absurd hi (by decide)

end MitScheme.Runtime.Codecs
