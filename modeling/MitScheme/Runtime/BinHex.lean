import Mathlib

/-! # BinHex 4.0

The two sinks behind the BinHex decoder of `mime-codec.scm`: the run-length layer
and the one that takes the data fork out of the expanded stream. Both are fed in
chunks, and handle a byte at a time. -/

namespace MitScheme.Runtime.BinHex

/-! ## Run-length decoding -/

def marker : UInt8 := 0x90

/-- The state of `make-binhex-run-length-decoding-sink` and what it has written;
`byte` is `byte*`. -/
structure RunLength where
  markerSeen : Bool
  byte : Option UInt8
  port : List UInt8

namespace RunLength

def initial : RunLength := ⟨false, none, []⟩

def writeByte (s : RunLength) (byte : UInt8) : RunLength :=
  if s.markerSeen then
    if byte = 0 then ⟨false, some marker, s.port ++ s.byte.toList⟩
    else
      match s.byte with
      | some b => ⟨false, none, s.port ++ List.replicate byte.toNat b⟩
      | none => { s with markerSeen := false }
  else if byte = marker then { s with markerSeen := true }
  else { s with byte := some byte, port := s.port ++ s.byte.toList }

/-- `write-bytes`, on the bytes of a chunk. -/
def writeBytes (s : RunLength) (bytes : List UInt8) : RunLength := bytes.foldl writeByte s

/-- `close`, and the bytes written in all. -/
def close (s : RunLength) : List UInt8 :=
  s.port ++ s.byte.toList ++ if s.markerSeen then [marker] else []

end RunLength

/-- A byte of a well-formed stream, with the run that may follow it. -/
structure Run where
  byte : UInt8
  count : Option UInt8
  count_ne_zero : ∀ n ∈ count, n ≠ 0

namespace Run

def literal (b : UInt8) : List UInt8 := if b = marker then [marker, 0] else [b]

def encoded (r : Run) : List UInt8 :=
  literal r.byte ++ (match r.count with
    | some n => [marker, n]
    | none => [])

def denoted (r : Run) : List UInt8 :=
  List.replicate (r.count.elim 1 UInt8.toNat) r.byte

end Run

namespace RunLength

theorem writeBytes_literal (byte : Option UInt8) (port : List UInt8) (b : UInt8) :
    writeBytes ⟨false, byte, port⟩ (Run.literal b) = ⟨false, some b, port ++ byte.toList⟩ := by
  unfold Run.literal
  split
  case isTrue hb =>
    subst hb
    rfl
  case isFalse hb => simp [writeBytes, writeByte, hb]

theorem writeBytes_run (byte : Option UInt8) (port : List UInt8) (r : Run) :
    ∃ byte' port', writeBytes ⟨false, byte, port⟩ r.encoded = ⟨false, byte', port'⟩ ∧
      port' ++ byte'.toList = port ++ byte.toList ++ r.denoted := by
  unfold Run.encoded Run.denoted
  rw [writeBytes, List.foldl_append]
  have hlit := writeBytes_literal byte port r.byte
  rw [writeBytes] at hlit
  rw [hlit]
  cases hc : r.count with
  | none => exact ⟨_, _, rfl, rfl⟩
  | some n =>
    have hn := r.count_ne_zero n hc
    have hmarker : writeByte ⟨false, some r.byte, port ++ byte.toList⟩ marker =
        ⟨true, some r.byte, port ++ byte.toList⟩ := rfl
    simp only [List.foldl_cons, List.foldl_nil, hmarker]
    refine ⟨none, _, by simp [writeByte, hn]; rfl, ?_⟩
    simp

theorem writeBytes_runs : ∀ (runs : List Run) (byte : Option UInt8) (port : List UInt8),
    ∃ byte' port', writeBytes ⟨false, byte, port⟩ (runs.flatMap Run.encoded) =
        ⟨false, byte', port'⟩ ∧
      port' ++ byte'.toList = port ++ byte.toList ++ runs.flatMap Run.denoted
  | [], byte, port => ⟨byte, port, rfl, by simp⟩
  | r :: runs, byte, port => by
    obtain ⟨byte₁, port₁, h₁, hp₁⟩ := writeBytes_run byte port r
    obtain ⟨byte₂, port₂, h₂, hp₂⟩ := writeBytes_runs runs byte₁ port₁
    refine ⟨byte₂, port₂, ?_, ?_⟩
    · rw [List.flatMap_cons, writeBytes, List.foldl_append]
      rw [writeBytes] at h₁ h₂
      rw [h₁, h₂]
    · rw [hp₂, hp₁, List.flatMap_cons, List.append_assoc]

theorem close_runs (runs : List Run) (chunks : List (List UInt8))
    (hc : chunks.flatten = runs.flatMap Run.encoded) :
    (chunks.foldl writeBytes initial).close = runs.flatMap Run.denoted := by
  have hfold : chunks.foldl writeBytes initial = writeBytes initial (runs.flatMap Run.encoded) := by
    rw [← hc, writeBytes, List.foldl_flatten]
    rfl
  obtain ⟨byte, port, h, hp⟩ := writeBytes_runs runs none []
  rw [hfold, initial, h]
  simpa [close] using hp

end RunLength

/-! ## Deconstruction -/

inductive State
  | readingHeader
  | copyingData
  | skippingTail
  | finished

/-- The variables of `make-binhex40-deconstructing-sink` and what it has written. -/
structure Deconstructing where
  state : State
  headerLength : Nat
  header : List UInt8
  index : Nat
  dataLength : Nat
  port : List UInt8

namespace Deconstructing

def initial : Deconstructing := ⟨.readingHeader, 0, [], 0, 0, []⟩

def readDataLength (header : List UInt8) (index : Nat) : Nat :=
  (header.getD index 0).toNat * 0x1000000 + (header.getD (index + 1) 0).toNat * 0x10000 +
    (header.getD (index + 2) 0).toNat * 0x100 + (header.getD (index + 3) 0).toNat

def readingHeader (s : Deconstructing) (byte : UInt8) : Deconstructing :=
  if s.index = 0 then
    let headerLength := 22 + byte.toNat
    { s with headerLength, header := List.replicate headerLength 0, index := 1 }
  else if s.index < s.headerLength then
    { s with header := s.header.set s.index byte, index := s.index + 1 }
  else
    { s with
      dataLength := readDataLength s.header (s.headerLength - 10)
      index := 0
      state := .copyingData }

def copyingData (s : Deconstructing) (byte : UInt8) : Deconstructing :=
  if s.index < s.dataLength then { s with port := s.port ++ [byte], index := s.index + 1 }
  else
    { s with
      index := 0
      dataLength := readDataLength s.header (s.headerLength - 6) + 4
      state := .skippingTail }

def skippingTail (s : Deconstructing) : Deconstructing :=
  if s.index < s.dataLength then { s with index := s.index + 1 } else { s with state := .finished }

/-- What `write-bytes` does with a byte. -/
def writeByte (s : Deconstructing) (byte : UInt8) : Deconstructing :=
  match s.state with
  | .readingHeader => s.readingHeader byte
  | .copyingData => s.copyingData byte
  | .skippingTail => s.skippingTail
  | .finished => s

/-- `write-bytes`, on the bytes of a chunk. -/
def writeBytes (s : Deconstructing) (bytes : List UInt8) : Deconstructing :=
  bytes.foldl writeByte s

end Deconstructing

def bytesOfLength (n : Nat) : List UInt8 :=
  [.ofNat (n / 0x1000000), .ofNat (n / 0x10000), .ofNat (n / 0x100), .ofNat n]

/-- A file in BinHex form. `info` is the version, the type, the creator and the
flags. -/
structure BinHexFile where
  name : List UInt8
  info : List UInt8
  headerCrc : List UInt8
  dataFork : List UInt8
  dataCrc : UInt8 × UInt8
  resourceFork : List UInt8
  resourceCrc : List UInt8
  name_length : name.length < 256
  info_length : info.length = 11
  headerCrc_length : headerCrc.length = 2
  dataFork_length : dataFork.length < 2 ^ 32
  resourceFork_length : resourceFork.length < 2 ^ 32
  resourceCrc_length : resourceCrc.length = 2

namespace BinHexFile

def fields (f : BinHexFile) : List UInt8 :=
  f.name ++ f.info ++ bytesOfLength f.dataFork.length ++ bytesOfLength f.resourceFork.length ++
    f.headerCrc

def body (f : BinHexFile) : List UInt8 :=
  f.dataFork ++ [f.dataCrc.1, f.dataCrc.2] ++ f.resourceFork ++ f.resourceCrc

def expanded (f : BinHexFile) : List UInt8 := .ofNat f.name.length :: f.fields ++ f.body

theorem fields_length (f : BinHexFile) : f.fields.length = 21 + f.name.length := by
  simp only [fields, bytesOfLength, List.length_append, f.info_length, f.headerCrc_length,
    List.length_cons, List.length_nil]
  omega

end BinHexFile

namespace Deconstructing

theorem writeBytes_header (n : Nat) : ∀ (bytes before after : List UInt8),
    0 < before.length → before.length + after.length = n → bytes.length = after.length →
      writeBytes ⟨.readingHeader, n, before ++ after, before.length, 0, []⟩ bytes =
        ⟨.readingHeader, n, before ++ bytes, n, 0, []⟩
  | [], before, after, _, hn, hl => by
    obtain rfl : after = [] := List.eq_nil_of_length_eq_zero hl.symm
    simp only [List.length_nil, Nat.add_zero] at hn
    rw [hn]
    rfl
  | b :: bytes, before, [], _, _, hl => absurd hl (Nat.succ_ne_zero _)
  | b :: bytes, before, a :: after, hpos, hn, hl => by
    have hstep : writeByte ⟨.readingHeader, n, before ++ a :: after, before.length, 0, []⟩ b =
        ⟨.readingHeader, n, (before ++ [b]) ++ after, (before ++ [b]).length, 0, []⟩ := by
      have hlt : before.length < n := by
        rw [← hn, List.length_cons]
        omega
      simp only [writeByte, readingHeader, Nat.ne_of_gt hpos, if_false, hlt, if_true]
      simp
    have ih := writeBytes_header n bytes (before ++ [b]) after (by simp)
      (by rw [← hn]; simp; omega) (Nat.succ.inj hl)
    rw [writeBytes, List.foldl_cons, hstep]
    rw [writeBytes] at ih
    rw [ih, List.append_assoc]
    rfl

theorem readDataLength_bytes {before after : List UInt8} {n : Nat} (hn : n < 2 ^ 32) :
    readDataLength (before ++ bytesOfLength n ++ after) before.length = n := by
  have hget : ∀ i, (before ++ bytesOfLength n ++ after).getD (before.length + i) 0 =
      (bytesOfLength n ++ after).getD i 0 := by
    intro i
    rw [List.append_assoc, List.getD_append_right _ _ _ _ (Nat.le_add_right _ _),
      Nat.add_sub_cancel_left]
  have h0 := hget 0
  rw [Nat.add_zero] at h0
  rw [readDataLength, h0, hget 1, hget 2, hget 3]
  simp only [bytesOfLength, List.cons_append, List.nil_append, List.getD_cons_zero,
    List.getD_cons_succ, UInt8.toNat_ofNat']
  omega

theorem writeBytes_tail : ∀ (bytes : List UInt8) (s : Deconstructing),
    s.state = .skippingTail ∨ s.state = .finished → (s.writeBytes bytes).port = s.port
  | [], _, _ => rfl
  | b :: bytes, s, hs => by
    have hstep : (s.writeByte b).port = s.port ∧
        ((s.writeByte b).state = .skippingTail ∨ (s.writeByte b).state = .finished) := by
      unfold writeByte
      obtain hs | hs := hs
      · rw [hs]
        dsimp only
        unfold skippingTail
        split
        · exact ⟨rfl, .inl hs⟩
        · exact ⟨rfl, .inr rfl⟩
      · rw [hs]
        exact ⟨rfl, .inr hs⟩
    exact (writeBytes_tail bytes (s.writeByte b) hstep.2).trans hstep.1

theorem writeBytes_data (header : List UInt8) (headerLength dataLength : Nat) :
    ∀ (bytes port : List UInt8) (index : Nat),
      (writeBytes ⟨.copyingData, headerLength, header, index, dataLength, port⟩ bytes).port =
        port ++ bytes.take (dataLength - index)
  | [], port, index => by simp [writeBytes]
  | b :: bytes, port, index => by
    rw [writeBytes, List.foldl_cons]
    by_cases hlt : index < dataLength
    · have hstep : writeByte ⟨.copyingData, headerLength, header, index, dataLength, port⟩ b =
          ⟨.copyingData, headerLength, header, index + 1, dataLength, port ++ [b]⟩ := by
        simp only [writeByte, copyingData, hlt, if_true]
      have ih := writeBytes_data header headerLength dataLength bytes (port ++ [b]) (index + 1)
      have hsub : dataLength - index = (dataLength - (index + 1)) + 1 := by omega
      rw [writeBytes] at ih
      rw [hstep, ih, hsub, List.take_succ_cons, List.append_assoc]
      rfl
    · have htail := writeBytes_tail bytes
        (writeByte ⟨.copyingData, headerLength, header, index, dataLength, port⟩ b)
        (.inl (by simp only [writeByte, copyingData, hlt, if_false]))
      have hport : (writeByte ⟨.copyingData, headerLength, header, index, dataLength, port⟩ b).port =
          port := by
        simp only [writeByte, copyingData, hlt, if_false]
      have hsub : dataLength - index = 0 := by omega
      rw [writeBytes, hport] at htail
      rw [htail, hsub]
      simp

theorem writeBytes_fields (f : BinHexFile) :
    writeBytes initial (.ofNat f.name.length :: f.fields) =
      ⟨.readingHeader, 22 + f.name.length, 0 :: f.fields, 22 + f.name.length, 0, []⟩ := by
  have hname : (UInt8.ofNat f.name.length).toNat = f.name.length := by
    rw [UInt8.toNat_ofNat']
    exact Nat.mod_eq_of_lt f.name_length
  have hstep : writeByte initial (.ofNat f.name.length) =
      ⟨.readingHeader, 22 + f.name.length, [0] ++ List.replicate (21 + f.name.length) 0,
        [(0 : UInt8)].length, 0, []⟩ := by
    simp only [writeByte, initial, readingHeader, if_true, hname]
    rw [show 22 + f.name.length = (21 + f.name.length) + 1 by omega, List.replicate_succ]
    rfl
  rw [writeBytes, List.foldl_cons, hstep]
  refine writeBytes_header (22 + f.name.length) f.fields [0] _ (by simp) ?_ ?_
  · rw [List.length_replicate, List.length_singleton]
    omega
  · rw [List.length_replicate, f.fields_length]

theorem readDataLength_fields (f : BinHexFile) :
    readDataLength (0 :: f.fields) (22 + f.name.length - 10) = f.dataFork.length := by
  have hsplit : (0 :: f.fields) = (0 :: f.name ++ f.info) ++ bytesOfLength f.dataFork.length ++
      (bytesOfLength f.resourceFork.length ++ f.headerCrc) := by
    simp [BinHexFile.fields]
  have hlength : 22 + f.name.length - 10 = (0 :: f.name ++ f.info).length := by
    rw [List.length_append, List.length_cons, f.info_length]
    omega
  rw [hsplit, hlength]
  exact readDataLength_bytes f.dataFork_length

theorem writeBytes_expanded (f : BinHexFile) :
    (writeBytes initial f.expanded).port = f.body.tail.take f.dataFork.length := by
  have hheader := writeBytes_fields f
  rw [BinHexFile.expanded, writeBytes, List.foldl_append]
  rw [writeBytes] at hheader
  rw [hheader]
  cases hbody : f.body with
  | nil =>
    have := congrArg List.length hbody
    simp [BinHexFile.body] at this
  | cons b bytes =>
    have hstep : writeByte
        ⟨.readingHeader, 22 + f.name.length, 0 :: f.fields, 22 + f.name.length, 0, []⟩ b =
          ⟨.copyingData, 22 + f.name.length, 0 :: f.fields, 0, f.dataFork.length, []⟩ := by
      have hne : 22 + f.name.length ≠ 0 := by omega
      simp only [writeByte, readingHeader, hne, if_false, Nat.lt_irrefl, readDataLength_fields]
    have hdata := writeBytes_data (0 :: f.fields) (22 + f.name.length) f.dataFork.length bytes [] 0
    rw [List.foldl_cons, hstep]
    rw [writeBytes] at hdata
    rw [hdata]
    rfl

end Deconstructing

theorem append_eq_cons_iff (c : UInt8) : ∀ (d : UInt8) (ds : List UInt8),
    ds ++ [c] = d :: ds ↔ ∀ b ∈ d :: ds, b = c
  | d, [] => by simp [eq_comm]
  | d, e :: ds => by
    rw [List.cons_append, List.cons.injEq, append_eq_cons_iff c e ds]
    simp only [List.forall_mem_cons]
    constructor
    · rintro ⟨rfl, hec, hds⟩
      exact ⟨hec, hec, hds⟩
    · rintro ⟨hdc, hec, hds⟩
      exact ⟨hec.trans hdc.symm, hec, hds⟩

/-- **BinHex deconstruction**: whatever the chunks, the data fork comes out
exactly when it is empty or all its bytes are the first byte of its CRC, as the
first byte is lost and the first CRC byte copied. The run-length layer expands
every stream to what it denotes. -/
theorem binhex_deconstruction (f : BinHexFile) (chunks : List (List UInt8)) (runs : List Run)
    (chunks' : List (List UInt8)) :
    (chunks.flatten = f.expanded →
      ((chunks.foldl Deconstructing.writeBytes .initial).port = f.dataFork ↔
        ∀ b ∈ f.dataFork, b = f.dataCrc.1)) ∧
    (chunks'.flatten = runs.flatMap Run.encoded →
      (chunks'.foldl RunLength.writeBytes .initial).close = runs.flatMap Run.denoted) := by
  refine ⟨?_, RunLength.close_runs runs chunks'⟩
  intro hc
  have hfold : chunks.foldl Deconstructing.writeBytes .initial =
      Deconstructing.writeBytes .initial f.expanded := by
    rw [← hc, Deconstructing.writeBytes, List.foldl_flatten]
    rfl
  rw [hfold, Deconstructing.writeBytes_expanded, BinHexFile.body]
  cases f.dataFork with
  | nil => simp
  | cons d ds =>
    rw [← append_eq_cons_iff]
    have htake : (((d :: ds) ++ [f.dataCrc.1, f.dataCrc.2] ++ f.resourceFork ++
        f.resourceCrc).tail).take (d :: ds).length = ds ++ [f.dataCrc.1] := by
      have hsplit : ((d :: ds) ++ [f.dataCrc.1, f.dataCrc.2] ++ f.resourceFork ++
          f.resourceCrc).tail =
            (ds ++ [f.dataCrc.1]) ++ (f.dataCrc.2 :: (f.resourceFork ++ f.resourceCrc)) := by
        simp
      rw [hsplit]
      exact List.take_left' (by simp)
    rw [htake]

def sampleFile (dataFork : List UInt8) (dataCrc : UInt8 × UInt8) (hn : dataFork.length < 2 ^ 32) :
    BinHexFile where
  name := [0x61]
  info := List.replicate 11 0
  headerCrc := [0xcf, 0x0d]
  dataFork
  dataCrc
  resourceFork := []
  resourceCrc := [0, 0]
  name_length := by decide
  info_length := rfl
  headerCrc_length := rfl
  dataFork_length := hn
  resourceFork_length := by decide
  resourceCrc_length := rfl

theorem binhex_deconstruction_zeros :
    (([(sampleFile [0, 0] (0, 0) (by decide)).expanded].foldl Deconstructing.writeBytes
        .initial).port = [0, 0] ↔ ∀ b ∈ [(0 : UInt8), 0], b = 0) ∧
      (([[0x61, 0x90], [3, 0x90, 0]] : List (List UInt8)).foldl RunLength.writeBytes
        .initial).close = [0x61, 0x61, 0x61, 0x90] := by
  obtain ⟨hfork, hruns⟩ := binhex_deconstruction (sampleFile [0, 0] (0, 0) (by decide))
    [(sampleFile [0, 0] (0, 0) (by decide)).expanded]
    [⟨0x61, some 3, fun n hn => by cases hn; decide⟩, ⟨0x90, none, fun n hn => by cases hn⟩]
    [[0x61, 0x90], [3, 0x90, 0]]
  exact ⟨hfork rfl, hruns rfl⟩

/-- The data fork 1, 2 comes out without its first byte, and with a byte of its
CRC. -/
theorem binhex_deconstruction_shifted :
    (([(sampleFile [1, 2] (0x13, 0x73) (by decide)).expanded].foldl Deconstructing.writeBytes
      .initial).port = [2, 0x13] ∧
      (sampleFile [1, 2] (0x13, 0x73) (by decide)).dataFork = [1, 2]) :=
  ⟨by decide, rfl⟩

end MitScheme.Runtime.BinHex
