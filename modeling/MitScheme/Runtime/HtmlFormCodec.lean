import MitScheme.Runtime.FixIndex

/-! # Codecs for HTML forms

`html-form-codec.scm`: names and values as a URL-encoded form, and back. The encoder returns its
string with what it wrote to the current output port meanwhile. -/

namespace MitScheme.Runtime.HtmlFormCodec
open Lib.Outcome FixIndex

inductive Fault
  | incompleteEscape
  | illegalInEscape (char : Char)
  | improperlyTerminatedName
  | illegalPosition (char : Char)
  | illegalCharacter (char : Char)
  | badRange
  | wrongType
  deriving DecidableEq

abbrev Result (α : Type) := Except Fault α

instance : Faults Fault := ⟨.badRange, .wrongType⟩

/-! ## Characters -/

/-- `char-unreserved?`: ASCII without the controls and without `" +%=&;"`. -/
def charUnreserved (char : Char) : Bool :=
  char.toNat < 0x80 && !(char.toNat < 0x20 || char.toNat = 0x7F) &&
    !(" +%=&;".toList.contains char)

/-- `digit->char` in radix 16. -/
def digitToChar (digit : Nat) : Char := "0123456789abcdef".toList.getD digit '0'

/-- `char->digit` in radix 16, on the characters of 8-bit strings. -/
def charToDigit (char : Char) : Option Nat :=
  if '0' ≤ char ∧ char ≤ '9' then some (char.toNat - '0'.toNat)
  else if 'A' ≤ char ∧ char ≤ 'F' then some (char.toNat - 'A'.toNat + 10)
  else if 'a' ≤ char ∧ char ≤ 'f' then some (char.toNat - 'a'.toNat + 10)
  else none

/-! ## The decoder -/

/-- `digit`: the digit and the rest of the input. -/
def digit : List Char → Result (Nat × List Char)
  | [] => .error .incompleteEscape
  | char :: input =>
    match charToDigit char with
    | some d => .ok (d, input)
    | none => .error (.illegalInEscape char)

/-- `out`: names are put in lower case. -/
def out (isName : Bool) (char : Char) : Char :=
  if isName && char.toNat < 0x80 then char.toLower else char

theorem digit_length {input rest : List Char} {d : Nat} (h : digit input = .ok (d, rest)) :
    rest.length < input.length := by
  match input with
  | [] => cases h
  | char :: input =>
    rw [digit] at h
    split at h
    · cases h
      exact Nat.lt_succ_self _
    · cases h

/-- `decode-segment`, with the characters that its builder has got. -/
def decodeSegment (isName : Bool) (builder : List Char) :
    List Char → Result (List Char × List Char)
  | [] => if isName then .error .improperlyTerminatedName else .ok (builder, [])
  | char :: input =>
    if char = '\r' then
      if input.head? ≠ some '\n' then decodeSegment isName (builder ++ [out isName char]) input
      else decodeSegment isName builder input
    else if charUnreserved char ∨ char = '\n' then
      decodeSegment isName (builder ++ [out isName char]) input
    else if char = '=' then
      if isName then .ok (builder, input) else .error (.illegalPosition char)
    else if char = '&' ∨ char = ';' then
      if isName then .error (.illegalPosition char) else .ok (builder, input)
    else if char = '+' then decodeSegment isName (builder ++ [out isName ' ']) input
    else if char = '%' then
      match _hd : digit input with
      | .error fault => .error fault
      | .ok (d1, input1) =>
        match _hd' : digit input1 with
        | .error fault => .error fault
        | .ok (d2, input2) =>
          decodeSegment isName (builder ++ [out isName (Char.ofNat (d1 <<< 4 ||| d2))]) input2
    else .error (.illegalCharacter char)
termination_by input => input.length
decreasing_by
  all_goals simp_wf
  have h := digit_length _hd
  have h' := digit_length _hd'
  omega

theorem decodeSegment_length {isName : Bool} {builder segment rest input : List Char}
    (h : decodeSegment isName builder input = .ok (segment, rest)) :
    rest.length + (if isName then 1 else 0) ≤ input.length := by
  fun_induction decodeSegment isName builder input with
  | case1 | case7 | case8 | case11 | case12 | case14 => cases h
  | case2 | case6 | case9 => cases h; simp_all
  | case3 | case4 | case5 | case10 => simp_all; omega
  | case13 builder input d1 input1 hd d2 input2 hd' _ _ _ _ _ ih =>
    have h1 := digit_length hd
    have h2 := digit_length hd'
    have h3 := ih h
    rw [List.length_cons]
    omega

/-- The loop of `decode-www-form-urlencoded`. -/
def decodeLoop (input : List Char) : Result (List (List Char × List Char)) :=
  match input with
  | [] => .ok []
  | char :: input' =>
    match _hname : decodeSegment true [] (char :: input') with
    | .error fault => .error fault
    | .ok (name, input1) =>
      match _hvalue : decodeSegment false [] input1 with
      | .error fault => .error fault
      | .ok (value, input2) => do
        let data ← decodeLoop input2
        return (name, value) :: data
termination_by input.length
decreasing_by
  have h := decodeSegment_length _hname
  have h' := decodeSegment_length _hvalue
  simp only [if_pos] at h
  simp only [Bool.false_eq_true, if_false] at h'
  omega

def decodeWwwFormUrlencoded (string : List Char) (start stop : Option Nat) :
    Result (List (List Char × List Char)) := do
  if !string.all (·.toNat < 0x100) then throw .wrongType
  let stop ← fixEndIndex stop string.length
  let start ← fixStartIndex start (some stop)
  decodeLoop ((string.drop start).take (stop - start))

/-! ## The encoder -/

def encodeOctet (char : Char) : List Char :=
  if charUnreserved char then [char]
  else if char = ' ' then ['+']
  else if char = '\n' then ['\r', '\n']
  else
    let octet := char.toNat
    ['%', digitToChar ((octet &&& 0xF0) >>> 4), digitToChar (octet &&& 0x0F)]

def encodeSegment (string : List Char) : List Char := string.flatMap encodeOctet

abbrev Datum := List Char × List Char

def writeDatum (datum : Datum) : List Char :=
  encodeSegment datum.1 ++ '=' :: encodeSegment datum.2

/-- The loop over the other pairs: what goes to the builder, and what `write-char` gives to the
current output port. -/
def encodeRest : List Datum → List Char × List Char
  | [] => ([], [])
  | datum :: data =>
    let (string, console) := encodeRest data
    (writeDatum datum ++ string, '&' :: console)

def encodeWwwFormUrlencoded : List Datum → List Char × List Char
  | [] => ([], [])
  | datum :: data =>
    let (string, console) := encodeRest data
    (writeDatum datum ++ string, console)

/-! ## Octets there and back -/

theorem octet_digits : ∀ o < 256,
    charToDigit (digitToChar ((o &&& 0xF0) >>> 4)) = some ((o &&& 0xF0) >>> 4) ∧
      charToDigit (digitToChar (o &&& 0x0F)) = some (o &&& 0x0F) ∧
      ((o &&& 0xF0) >>> 4) <<< 4 ||| (o &&& 0x0F) = o := by
  decide +kernel

theorem digit_eq {char : Char} {d : Nat} (h : charToDigit char = some d) (input) :
    digit (char :: input) = .ok (d, input) := by rw [digit, h]

theorem decodeSegment_escape {isName : Bool} {builder input input1 input2 : List Char} {d1 d2 : Nat}
    (h1 : digit input = .ok (d1, input1)) (h2 : digit input1 = .ok (d2, input2)) :
    decodeSegment isName builder ('%' :: input) =
      decodeSegment isName (builder ++ [out isName (Char.ofNat (d1 <<< 4 ||| d2))]) input2 := by
  rw [decodeSegment, if_neg (by decide), if_neg (by decide), if_neg (by decide),
    if_neg (by decide), if_neg (by decide), if_pos rfl]
  split
  · next fault h => cases h1.symm.trans h
  · next d input' h =>
    cases h1.symm.trans h
    split
    · next fault h => cases h2.symm.trans h
    · next d input' h =>
      cases h2.symm.trans h
      rfl

theorem decodeSegment_encodeOctet (isName builder rest) {char : Char} (hoctet : char.toNat < 256) :
    decodeSegment isName builder (encodeOctet char ++ rest) =
      decodeSegment isName (builder ++ [out isName char]) rest := by
  rw [encodeOctet]
  split_ifs with hunreserved hspace hnewline
  · have hreturn : char ≠ '\r' := by rintro rfl; revert hunreserved; decide
    rw [List.singleton_append, decodeSegment, if_neg hreturn, if_pos (.inl hunreserved)]
  · subst hspace
    rw [List.singleton_append, decodeSegment, if_neg (by decide), if_neg (by decide),
      if_neg (by decide), if_neg (by decide), if_pos rfl]
  · -- the return in front of a newline is dropped
    subst hnewline
    rw [List.cons_append, List.singleton_append, decodeSegment, if_pos rfl, if_neg (by simp),
      decodeSegment, if_neg (by decide), if_pos (.inr rfl)]
  · obtain ⟨hhigh, hlow, heq⟩ := octet_digits char.toNat hoctet
    dsimp only
    rw [List.cons_append, List.cons_append, List.singleton_append,
      decodeSegment_escape (digit_eq hhigh _) (digit_eq hlow _), heq, Char.ofNat_toNat]

theorem decodeSegment_encodeSegment (isName builder string rest)
    (hoctets : ∀ char ∈ string, char.toNat < 256) :
    decodeSegment isName builder (encodeSegment string ++ rest) =
      decodeSegment isName (builder ++ string.map (out isName)) rest := by
  induction string generalizing builder with
  | nil => rw [List.map_nil, List.append_nil]; rfl
  | cons char string ih =>
    rw [List.forall_mem_cons] at hoctets
    rw [encodeSegment, List.flatMap_cons, List.append_assoc,
      decodeSegment_encodeOctet isName _ _ hoctets.1, ← encodeSegment, ih _ hoctets.2,
      List.map_cons, List.append_assoc, List.singleton_append]

/-! ## Pairs -/

/-- A pair of the data: the name is ASCII without upper-case letters, the value is octets. -/
structure Pair where
  name : List Char
  value : List Char
  name_ascii : ∀ char ∈ name, char.toNat < 0x80 ∧ ¬('A' ≤ char ∧ char ≤ 'Z')
  value_octets : ∀ char ∈ value, char.toNat < 256

def Pair.datum (pair : Pair) : Datum := (pair.name, pair.value)

theorem out_value (string : List Char) : string.map (out false) = string := by
  conv_rhs => rw [← List.map_id string]
  rfl

theorem Pair.out_name (pair : Pair) : pair.name.map (out true) = pair.name := by
  conv_rhs => rw [← List.map_id pair.name]
  refine List.map_congr_left fun char hchar => ?_
  obtain ⟨hascii, hupper⟩ := pair.name_ascii char hchar
  have hval : ¬(char.val ≥ 'A'.val ∧ char.val ≤ 'Z'.val) := hupper
  rw [out, if_pos (by simpa using hascii), Char.toLower, dif_neg hval]
  rfl

theorem Pair.decode_name (pair : Pair) (rest) :
    decodeSegment true [] (writeDatum pair.datum ++ rest) =
      .ok (pair.name, encodeSegment pair.value ++ rest) := by
  rw [writeDatum, Pair.datum, List.append_assoc,
    decodeSegment_encodeSegment true [] _ _ fun char h => by have := (pair.name_ascii char h).1; omega,
    pair.out_name, List.nil_append, List.cons_append, decodeSegment, if_neg (by decide),
    if_neg (by decide), if_pos rfl, if_pos rfl]

theorem digitToChar_lt (digit) : (digitToChar digit).toNat < 0x100 := by
  rcases Nat.lt_or_ge digit 16 with hlt | hge
  · revert hlt
    revert digit
    decide
  · rw [digitToChar, List.getD_eq_default _ _ hge]
    decide

theorem encodeSegment_lt {string : List Char} {char : Char} (h : char ∈ encodeSegment string) :
    char.toNat < 0x100 := by
  obtain ⟨source, -, h⟩ := List.mem_flatMap.mp h
  rw [encodeOctet] at h
  split_ifs at h with hunreserved
  · obtain rfl := List.mem_singleton.mp h
    simp only [charUnreserved, Bool.and_eq_true, decide_eq_true_eq] at hunreserved
    omega
  · obtain rfl := List.mem_singleton.mp h
    decide
  · simp only [List.mem_cons, List.not_mem_nil, or_false] at h
    rcases h with rfl | rfl <;> decide
  · simp only [List.mem_cons, List.not_mem_nil, or_false] at h
    rcases h with rfl | rfl | rfl
    · decide
    · exact digitToChar_lt _
    · exact digitToChar_lt _

theorem encodeRest_lt {data : List Datum} {char : Char} (h : char ∈ (encodeRest data).1) :
    char.toNat < 0x100 := by
  induction data with
  | nil => cases h
  | cons datum data ih =>
    rcases List.mem_append.mp h with h | h
    · rcases List.mem_append.mp h with h | h
      · exact encodeSegment_lt h
      · rcases List.mem_cons.mp h with rfl | h
        · decide
        · exact encodeSegment_lt h
    · exact ih h

theorem decode_encode (datum data) :
    decodeWwwFormUrlencoded (encodeWwwFormUrlencoded (datum :: data)).1 none none =
      decodeLoop (writeDatum datum ++ (encodeRest data).1) := by
  have hbytes : (writeDatum datum ++ (encodeRest data).1).all (·.toNat < 0x100) = true := by
    rw [List.all_eq_true]
    exact fun char h => decide_eq_true (@encodeRest_lt (datum :: data) char h)
  change decodeWwwFormUrlencoded (writeDatum datum ++ (encodeRest data).1) none none = _
  rw [decodeWwwFormUrlencoded, hbytes]
  exact congrArg decodeLoop List.take_length

theorem decodeLoop_pair {input input1 input2 name value : List Char} (hne : input ≠ [])
    (hname : decodeSegment true [] input = .ok (name, input1))
    (hvalue : decodeSegment false [] input1 = .ok (value, input2)) :
    decodeLoop input = (decodeLoop input2 >>= fun data => .ok ((name, value) :: data)) := by
  obtain ⟨char, input, rfl⟩ := List.exists_cons_of_ne_nil hne
  rw [decodeLoop]
  split
  · next fault h => cases hname.symm.trans h
  · next name' input' h =>
    cases hname.symm.trans h
    split
    · next fault h => cases hvalue.symm.trans h
    · next value' input' h =>
      cases hvalue.symm.trans h
      rfl

theorem decodeLoop_error {input input1 name : List Char} {fault : Fault} (hne : input ≠ [])
    (hname : decodeSegment true [] input = .ok (name, input1))
    (hvalue : decodeSegment false [] input1 = .error fault) :
    decodeLoop input = .error fault := by
  obtain ⟨char, input, rfl⟩ := List.exists_cons_of_ne_nil hne
  rw [decodeLoop]
  split
  · next fault' h => cases hname.symm.trans h
  · next name' input' h =>
    cases hname.symm.trans h
    split
    · next fault' h =>
      cases hvalue.symm.trans h
      rfl
    · next value' input' h => cases hvalue.symm.trans h

theorem writeDatum_append_ne_nil (datum rest) :
    writeDatum datum ++ rest ≠ [] := by simp [writeDatum]

theorem decode_single (pair : Pair) :
    decodeLoop (writeDatum pair.datum ++ []) = .ok [pair.datum] := by
  have hvalue : decodeSegment false [] (encodeSegment pair.value ++ []) = .ok (pair.value, []) := by
    rw [decodeSegment_encodeSegment false [] _ _ pair.value_octets, out_value, decodeSegment]
    rfl
  rw [decodeLoop_pair (writeDatum_append_ne_nil _ _) (pair.decode_name []) hvalue, decodeLoop]
  rfl

theorem decode_several (pair next : Pair) (data) :
    decodeLoop (writeDatum pair.datum ++ (encodeRest ((next :: data).map Pair.datum)).1) =
      .error (.illegalPosition '=') := by
  refine decodeLoop_error (writeDatum_append_ne_nil _ _) (pair.decode_name _) ?_
  have hrest : (encodeRest ((next :: data).map Pair.datum)).1 = encodeSegment next.name ++
      ('=' :: (encodeSegment next.value ++ (encodeRest (data.map Pair.datum)).1)) := by
    change writeDatum next.datum ++ (encodeRest (data.map Pair.datum)).1 = _
    rw [writeDatum, List.append_assoc, List.cons_append]
    rfl
  rw [hrest, decodeSegment_encodeSegment false [] _ _ pair.value_octets,
    decodeSegment_encodeSegment false _ _ _ fun char h => by
      have := (next.name_ascii char h).1
      omega,
    decodeSegment, if_neg (by decide), if_neg (by decide), if_pos rfl, if_neg Bool.false_ne_true]

/-- **When a form comes back.** The encoder writes the separator of two pairs to the current output
port and not into its string, so no form of two pairs or more comes back. -/
theorem decode_encode_iff (data : List Pair) :
    (decodeWwwFormUrlencoded (encodeWwwFormUrlencoded (data.map Pair.datum)).1 none none =
        .ok (data.map Pair.datum) ↔ data.length ≤ 1) ∧
      ((encodeWwwFormUrlencoded (data.map Pair.datum)).2 = [] ↔ data.length ≤ 1) := by
  match data with
  | [] =>
    refine ⟨iff_of_true ?_ (by simp), iff_of_true rfl (by simp)⟩
    change decodeLoop [] = _
    rw [decodeLoop]
    rfl
  | [pair] =>
    refine ⟨iff_of_true ?_ (by simp), iff_of_true rfl (by simp)⟩
    rw [List.map_cons, decode_encode]
    exact decode_single pair
  | pair :: next :: data =>
    refine ⟨iff_of_false ?_ (by simp), iff_of_false (by simp [encodeWwwFormUrlencoded, encodeRest])
      (by simp)⟩
    rw [List.map_cons, decode_encode, decode_several]
    exact fun h => by cases h

theorem encode_two_pairs :
    encodeWwwFormUrlencoded [(['a'], ['1']), (['b'], ['2'])] =
        (['a', '=', '1', 'b', '=', '2'], ['&']) ∧
      decodeWwwFormUrlencoded ['a', '=', '1', 'b', '=', '2'] none none =
        .error (.illegalPosition '=') := by
  decide +kernel

end MitScheme.Runtime.HtmlFormCodec
