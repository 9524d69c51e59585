import MitScheme.Runtime.Sha3Hash

/-! # SHA-3 against the standard

The sponge of FIPS 202 on bit strings, each byte with its least significant bit first, and the
incremental hash of `sha3.scm` for every split of a message into pieces. -/

namespace MitScheme.Runtime.Sha3Hash
open Lib.Outcome Lib.Sponge

variable {keccak : State → State}

/-! ## The standard -/

def bitString (bytes : List UInt8) : List Bool :=
  bytes.flatMap fun byte => (List.range 8).map byte.toNat.testBit

def stateBits (state : State) : Vector Bool 1600 :=
  Vector.ofFn fun i => state[i.val / 8].toNat.testBit (i % 8)

def stateBytes (bits : Vector Bool 1600) : State :=
  Vector.ofFn fun i => UInt8.ofNat (Nat.ofBits fun j : Fin 8 => bits[8 * i.val + j])

def keccakF (keccak : State → State) (bits : Vector Bool 1600) : Vector Bool 1600 :=
  stateBits (keccak (stateBytes bits))

/-- `pad10*1`. -/
def pad (x m : Nat) : List Bool :=
  true :: List.replicate ((-(m : Int) - 2) % x).toNat false ++ [true]

/-- The sponge construction with `pad10*1`. -/
def sponge (f : Vector Bool 1600 → Vector Bool 1600) (r : Nat) (N : List Bool) (d : Nat) :
    List Bool :=
  let S := absorbBlocks xor f r (Vector.replicate 1600 false) (N ++ pad r N.length)
  ((List.range (d / r + 1)).flatMap fun k => (f^[k] S).toList.take r).take d

def standard (f : Vector Bool 1600 → Vector Bool 1600) (M : List Bool) : List Bool :=
  sponge f 1088 (M ++ [false, true]) 256

/-! ## Bytes and bits -/

theorem bitString_cons (byte bytes) :
    bitString (byte :: bytes) = (List.range 8).map byte.toNat.testBit ++ bitString bytes :=
  List.flatMap_cons

theorem bitString_append (x y) : bitString (x ++ y) = bitString x ++ bitString y :=
  List.flatMap_append

variable (state : State) (bytes : List UInt8)

@[simp] theorem bitString_length : (bitString bytes).length = 8 * bytes.length := by
  induction bytes with
  | nil => rfl
  | cons byte bytes ih =>
    rw [bitString_cons, List.length_append, List.length_map, List.length_range, ih,
      List.length_cons]
    omega

theorem bitString_take (n) : bitString (bytes.take n) = (bitString bytes).take (8 * n) := by
  rcases Nat.lt_or_ge bytes.length n with hlt | hge
  · rw [List.take_of_length_le hlt.le, List.take_of_length_le (by rw [bitString_length]; omega)]
  · conv_rhs => rw [← List.take_append_drop n bytes, bitString_append]
    rw [List.take_left' (by rw [bitString_length, List.length_take_of_le hge])]

theorem bitString_drop (n) : bitString (bytes.drop n) = (bitString bytes).drop (8 * n) := by
  rcases Nat.lt_or_ge bytes.length n with hlt | hge
  · rw [List.drop_eq_nil_of_le hlt.le, List.drop_eq_nil_of_le (by rw [bitString_length]; omega)]
    rfl
  · conv_rhs => rw [← List.take_append_drop n bytes, bitString_append]
    rw [List.drop_left' (by rw [bitString_length, List.length_take_of_le hge])]

theorem getElem?_bitString (k : Nat) :
    (bitString bytes)[k]? = (bytes[k / 8]?).map fun byte => byte.toNat.testBit (k % 8) := by
  induction bytes generalizing k with
  | nil => rfl
  | cons byte bytes ih =>
    rw [bitString_cons]
    rcases Nat.lt_or_ge k 8 with hlt | hge
    · rw [List.getElem?_append_left (by simpa using hlt), Nat.div_eq_of_lt hlt,
        Nat.mod_eq_of_lt hlt, List.getElem?_map, List.getElem?_range hlt]
      rfl
    · have hdiv : k / 8 = (k - 8) / 8 + 1 := by omega
      have hmod : k % 8 = (k - 8) % 8 := by omega
      rw [List.getElem?_append_right (by simpa using hge), List.length_map, List.length_range, ih,
        hdiv, hmod, List.getElem?_cons_succ]

theorem stateBytes_stateBits : stateBytes (stateBits state) = state := by
  refine Vector.ext fun i hi => UInt8.toNat_inj.mp (Nat.eq_of_testBit_eq fun j => ?_)
  rw [stateBytes, Vector.getElem_ofFn, UInt8.toNat_ofNat', Nat.testBit_mod_two_pow,
    Nat.testBit_ofBits]
  rcases Nat.lt_or_ge j 8 with hlt | hge
  · have hdiv : (8 * i + j) / 8 = i := by omega
    have hmod : (8 * i + j) % 8 = j := by omega
    simp [stateBits, hlt, hdiv, hmod]
  · have hlt : state[i].toNat < 2 ^ j :=
      Nat.lt_of_lt_of_le state[i].toNat_lt (Nat.pow_le_pow_right (by decide) hge)
    rw [decide_eq_false (by omega), Bool.false_and, Nat.testBit_lt_two_pow hlt]

@[simp] theorem keccakF_stateBits :
    keccakF keccak (stateBits state) = stateBits (keccak state) := by
  rw [keccakF, stateBytes_stateBits]

theorem toList_stateBits : (stateBits state).toList = bitString state.toList := by
  refine List.ext_getElem? fun k => ?_
  rw [getElem?_bitString]
  rcases Nat.lt_or_ge k 1600 with hlt | hge
  · have hk : k / 8 < 200 := by omega
    simp [stateBits, hlt, hk]
  · have hk : 200 ≤ k / 8 := by omega
    simp [hge, hk]

theorem stateBits_addAt (block) :
    stateBits (addAt (· ^^^ ·) state 0 block) =
      addAt xor (stateBits state) 0 (bitString block) := by
  ext k hk
  rw [getElem_addAt, if_pos (Nat.zero_le k), Nat.sub_zero, getElem?_bitString, stateBits,
    Vector.getElem_ofFn, getElem_addAt, if_pos (Nat.zero_le _), Nat.sub_zero]
  cases block[k / 8]? with
  | none => simp [stateBits]
  | some byte => simp [stateBits]

theorem stateBits_absorbBlocks (message) :
    stateBits (absorbBlocks (· ^^^ ·) keccak 136 state message) =
      absorbBlocks xor (keccakF keccak) 1088 (stateBits state) (bitString message) := by
  have hcount : (bitString message).length / 1088 = message.length / 136 := by
    rw [bitString_length]
    omega
  rw [absorbBlocks, absorbBlocks, hcount]
  refine (List.foldl_hom stateBits fun state k => ?_).symm
  have hblock : ((bitString message).drop (k * 1088)).take 1088 =
      bitString ((message.drop (k * 136)).take 136) := by
    rw [bitString_take, bitString_drop]
    congr 2
    omega
  rw [hblock, ← stateBits_addAt, keccakF_stateBits]

/-! ## Padding -/

/-- The padding of a block that takes `q` more bytes. -/
def padBytes : Nat → List UInt8
  | 0 => []
  | 1 => [0x86]
  | q + 2 => 0x06 :: (List.replicate q 0 ++ [0x80])

theorem padBytes_length (q) : (padBytes q).length = q := by
  match q with
  | 0 | 1 => rfl
  | q + 2 => rw [padBytes, List.length_cons, List.length_append, List.length_replicate]; rfl

theorem bitString_zeros (n) : bitString (List.replicate n 0) = List.replicate (8 * n) false := by
  induction n with
  | zero => rfl
  | succ n ih =>
    rw [List.replicate_succ, bitString_cons, ih, Nat.mul_succ, Nat.add_comm,
      List.replicate_add]
    rfl

theorem bitString_padBytes {q} (hq : 0 < q) :
    bitString (padBytes q) = [false, true] ++
      (true :: List.replicate (8 * q - 4) false ++ [true]) := by
  match q with
  | 1 => decide
  | q + 2 =>
    have hlen : 8 * (q + 2) - 4 = 5 + (8 * q + 7) := by omega
    rw [padBytes, bitString_cons, bitString_append, bitString_zeros, hlen, List.replicate_add,
      List.replicate_add]
    simp only [List.append_assoc, List.cons_append]
    rfl

theorem bitString_padded (M) :
    bitString (M ++ padBytes (136 - M.length % 136)) =
      bitString M ++ [false, true] ++ pad 1088 (bitString M ++ [false, true]).length := by
  have hlen : (-((bitString M ++ [false, true]).length : Int) - 2) % (1088 : Nat) =
      (8 * (136 - M.length % 136) - 4 : Nat) := by
    rw [List.length_append, bitString_length]
    simp only [List.length_cons, List.length_nil]
    omega
  rw [bitString_append, bitString_padBytes (by omega), pad, hlen, Int.toNat_natCast,
    List.append_assoc]

theorem standard_eq (M) :
    standard (keccakF keccak) (bitString M) =
      bitString ((absorbBlocks (· ^^^ ·) keccak 136 (Vector.replicate 200 0)
        (M ++ padBytes (136 - M.length % 136))).toList.take 32) := by
  have hzero : stateBits (Vector.replicate 200 0) = Vector.replicate 1600 false := by
    ext k hk
    simp [stateBits]
  rw [standard, sponge, ← bitString_padded, ← hzero, ← stateBits_absorbBlocks, bitString_take,
    ← toList_stateBits]
  simp [List.range_succ, List.take_take]

/-! ## The digest -/

theorem bytevectorU8Xor_eq {i : Nat} (hi : i < 200) (x) :
    bytevectorU8Xor state i x = .ok (addAt (· ^^^ ·) state i [x]) := by
  rw [bytevectorU8Xor, guaranteeIndex, if_pos ⟨by omega, by omega⟩, ok_bind, Int.toNat_natCast,
    dif_pos hi]
  refine congrArg Except.ok (Vector.ext fun j hj => ?_)
  rw [Vector.getElem_set, getElem_addAt]
  rcases Nat.lt_trichotomy j i with hlt | rfl | hgt
  · rw [if_neg (by omega), if_neg (by omega)]
  · rw [if_pos rfl, if_pos (Nat.le_refl _), Nat.sub_self, UInt8.xor_comm]
    rfl
  · have hnone : ([x] : List UInt8)[j - i]? = none :=
      List.getElem?_eq_none (by rw [List.length_singleton]; omega)
    rw [if_neg (by omega), if_pos (by omega), hnone, Option.elim_none]

theorem addAt_zeros (pos n) : addAt (· ^^^ ·) state pos (List.replicate n 0) = state := by
  ext i hi
  rw [getElem_addAt, List.getElem?_replicate]
  split_ifs <;> simp

theorem addAt_padBytes {rb pos} (h : pos < rb) :
    addAt (· ^^^ ·) (addAt (· ^^^ ·) state pos [0x06]) (rb - 1) [0x80] =
      addAt (· ^^^ ·) state pos (padBytes (rb - pos)) := by
  match hq : rb - pos with
  | 0 => omega
  | 1 =>
    obtain rfl : pos = rb - 1 := by omega
    refine Vector.ext fun j hj => ?_
    simp only [getElem_addAt, padBytes]
    rcases Nat.lt_trichotomy j (rb - 1) with hlt | rfl | hgt
    · rw [if_neg (by omega), if_neg (by omega), if_neg (by omega)]
    · rw [if_pos (Nat.le_refl _), if_pos (Nat.le_refl _), if_pos (Nat.le_refl _), Nat.sub_self]
      exact UInt8.xor_assoc _ _ _
    · have hnone (x : UInt8) : ([x] : List UInt8)[j - (rb - 1)]? = none :=
        List.getElem?_eq_none (by rw [List.length_singleton]; omega)
      rw [if_pos (by omega), if_pos (by omega), if_pos (by omega), hnone, hnone, hnone]
      rfl
  | q + 2 =>
    have hend : rb - 1 = pos + 1 + q := by omega
    have hzeros := addAt_append (· ^^^ ·) (addAt (· ^^^ ·) state pos [0x06]) (pos + 1)
      (List.replicate q 0) [0x80]
    rw [addAt_zeros, List.length_replicate] at hzeros
    rw [padBytes, hend, hzeros]
    exact addAt_append _ state pos [0x06] _

theorem sha3Final_eq (keccak rb) (hrb : rb ≤ 200) {s : State × Nat} (hs : s.2 < rb)
    {h : List UInt8} {hstart} (hfit : hstart + 32 ≤ h.length) :
    sha3Final keccak rb (atPlace rb s) h hstart 32 =
      .ok (h.take hstart ++
        (absorbBytes keccak rb s (padBytes (rb - s.2))).1.toList.take 32 ++ h.drop (hstart + 32),
        ⟨Vector.replicate 200 0, 0⟩) := by
  obtain ⟨state, pos⟩ := s
  dsimp only at hs ⊢
  have hne : padBytes (rb - pos) ≠ [] := fun hnil => by
    have hlen := padBytes_length (rb - pos)
    rw [hnil, List.length_nil] at hlen
    omega
  have hplace : (rb : Int) - (rb - pos) = pos := by omega
  have hlast : (rb : Int) - 1 = (rb - 1 : Nat) := by omega
  have hend : ((hstart : Int) + (32 - 0)).toNat = hstart + 32 := by omega
  rw [sha3Final, assert_bind (by decide), atPlace, assert_bind (by dsimp only; omega)]
  dsimp only
  rw [hplace, bytevectorU8Xor_eq state (by omega), ok_bind, hlast,
    bytevectorU8Xor_eq _ (by omega), ok_bind, addAt_padBytes state hs, bytevectorCopy,
    if_pos ⟨by omega, by omega, by rw [Vector.length_toList]; omega, by omega, by omega⟩, ok_bind,
    absorbBytes, absorb_filled _ _ state _ hne (by rw [padBytes_length]; omega), hend]
  rfl

/-! ## Pieces of a message -/

structure Bytevector where
  bytes : List UInt8
  short : bytes.length < 2 ^ 57

structure Piece extends Bytevector where
  start : Nat
  stop : Nat
  start_le : start ≤ stop
  stop_le : stop ≤ bytes.length

def Piece.content (piece : Piece) : List UInt8 := slice piece.bytes piece.start piece.stop

def message (pieces : List Piece) : List UInt8 := pieces.flatMap Piece.content

/-- The place in a byte string where the digest goes. -/
structure Target where
  bytes : List UInt8
  start : Nat
  fits : start + 32 ≤ bytes.length

def updates (keccak : State → State) (pieces : List Piece) : Result Sha3 :=
  pieces.foldlM (fun s piece => sha3256Update keccak s piece.bytes piece.start piece.stop)
    sha3256Init

def incremental (keccak : State → State) (pieces : List Piece) (target : Target) :
    Result (List UInt8) := do
  let s ← updates keccak pieces
  let (h, _) ← sha3256Final keccak s target.bytes target.start (target.start + 32)
  return h

def Digested (keccak : State → State) (M : List UInt8) (target : Target) (h : List UInt8) : Prop :=
  ∃ digest, h = target.bytes.take target.start ++ digest ++ target.bytes.drop (target.start + 32) ∧
    bitString digest = standard (keccakF keccak) (bitString M)

/-- What the pieces of a message must do: every update starts with room in the block and returns,
and the end leaves the digest of the whole message. -/
structure Right (keccak : State → State) (pieces : List Piece) (target : Target) : Prop where
  room : ∀ before after, pieces = before ++ after →
    ∃ s, updates keccak before = .ok s ∧ 0 < s.nb ∧ s.nb ≤ sha3256RateBytes
  digest : ∃ h, incremental keccak pieces target = .ok h ∧
    Digested keccak (message pieces) target h

def Apart (pieces : List Piece) : Prop :=
  ∀ before (piece : Piece) after, pieces = before ++ piece :: after →
    136 ≤ piece.stop - piece.start → ¬136 ∣ (message before).length

theorem message_append (before after) :
    message (before ++ after) = message before ++ message after := List.flatMap_append

theorem message_singleton (piece) : message [piece] = piece.content := by
  rw [message, List.flatMap_singleton]

theorem updates_append (before after) :
    updates keccak (before ++ after) = updates keccak before >>= fun s =>
      after.foldlM (fun s piece => sha3256Update keccak s piece.bytes piece.start piece.stop) s :=
  List.foldlM_append

def absorbed (keccak : State → State) (M : List UInt8) : State × Nat :=
  absorbBytes keccak 136 (Vector.replicate 200 0, 0) M

theorem absorbed_place (keccak M) : (absorbed keccak M).2 = M.length % 136 := by
  rw [absorbed, absorbBytes, absorb_pos _ _ (by decide), Nat.zero_add]

theorem Apart.left {before after} (h : Apart (before ++ after)) : Apart before :=
  fun before' piece after' heq => h before' piece (after' ++ after) (by simp [heq])

theorem absorbed_append (M N) :
    absorbBytes keccak 136 (absorbed keccak M) N = absorbed keccak (M ++ N) :=
  (absorb_append _ _ _).symm

theorem sha3256Update_eq (M : List UInt8) (piece : Piece)
    (h : 136 ≤ piece.stop - piece.start → ¬136 ∣ M.length) :
    sha3256Update keccak (atPlace 136 (absorbed keccak M)) piece.bytes piece.start piece.stop =
      .ok (atPlace 136 (absorbed keccak (M ++ piece.content))) := by
  rw [← absorbed_append]
  refine sha3Update_eq keccak sha3256RateBytes (by decide) ?_ piece.start_le piece.stop_le
    piece.short ?_
  · rw [absorbed_place]
    exact Nat.mod_lt _ (by decide)
  · rw [absorbed_place, or_iff_not_imp_left, Nat.not_lt]
    exact fun hge hzero => h hge (Nat.dvd_of_mod_eq_zero hzero)

theorem updates_eq {pieces} (h : Apart pieces) :
    updates keccak pieces = .ok (atPlace 136 (absorbed keccak (message pieces))) := by
  induction pieces using List.reverseRecOn with
  | nil => rfl
  | append_singleton before piece ih =>
    rw [updates_append, ih h.left, ok_bind, List.foldlM_cons,
      sha3256Update_eq _ piece (h before piece [] rfl), ok_bind, message_append, message_singleton]
    rfl

theorem updates_stop (keccak) {before} (h : Apart before) {piece : Piece}
    (hblock : 136 ≤ piece.stop - piece.start) (hdvd : 136 ∣ (message before).length) :
    updates keccak (before ++ [piece]) = .error .assertion := by
  have hplace := absorbed_place keccak (message before)
  rw [Nat.mod_eq_zero_of_dvd hdvd] at hplace
  have hstop : sha3256Update keccak (atPlace 136 (absorbed keccak (message before))) piece.bytes
      piece.start piece.stop = .error .assertion := by
    rw [show absorbed keccak (message before) = ((absorbed keccak (message before)).1, 0) from
      Prod.ext rfl hplace]
    exact sha3Update_block keccak sha3256RateBytes _ hblock
  rw [updates_append, updates_eq h, ok_bind, List.foldlM_cons, hstop]
  rfl

theorem exists_first {pieces} (h : ¬Apart pieces) :
    ∃ before, ∃ piece : Piece, ∃ after, pieces = before ++ piece :: after ∧ Apart before ∧
      136 ≤ piece.stop - piece.start ∧ 136 ∣ (message before).length := by
  induction pieces using List.reverseRecOn with
  | nil => exact absurd (fun before piece after heq => by simp at heq) h
  | append_singleton pieces piece ih =>
    by_cases hpieces : Apart pieces
    · simp only [Apart, not_forall, not_not] at h
      obtain ⟨before, bad, after, heq, hblock, hdvd⟩ := h
      rcases List.eq_nil_or_concat after with rfl | ⟨after, last, rfl⟩
      · obtain ⟨rfl, hlast⟩ := List.append_inj' heq rfl
        obtain rfl := List.singleton_inj.mp hlast
        exact ⟨pieces, piece, [], rfl, hpieces, hblock, hdvd⟩
      · rw [List.concat_eq_append, ← List.cons_append, ← List.append_assoc] at heq
        obtain ⟨rfl, -⟩ := List.append_inj' heq rfl
        exact absurd hdvd (hpieces before bad after rfl hblock)
    · obtain ⟨before, bad, after, rfl, hrest⟩ := ih hpieces
      exact ⟨before, bad, after ++ [piece], by simp, hrest⟩

theorem final_digested (keccak M target) :
    ∃ h s, sha3256Final keccak (atPlace 136 (absorbed keccak M)) target.bytes target.start
        (target.start + 32) = .ok (h, s) ∧ Digested keccak M target h := by
  have hfinal := sha3Final_eq keccak sha3256RateBytes (by decide)
    (s := absorbed keccak M) (by rw [absorbed_place]; exact Nat.mod_lt _ (by decide)) target.fits
  have hdb : (target.start : Int) + 32 - target.start = 32 := by omega
  refine ⟨_, _, by rw [sha3256Final, hdb]; exact hfinal, _, rfl, ?_⟩
  have hlen : 136 ∣ (M ++ padBytes (136 - M.length % 136)).length := by
    rw [List.length_append, padBytes_length]
    omega
  have hblocks := absorb_blocks (r := 136) (· ^^^ ·) keccak (by decide)
    (Vector.replicate 200 0) _ hlen
  rw [absorb_append] at hblocks
  rw [standard_eq, absorbed_place]
  exact congrArg (fun s => bitString (s.1.toList.take 32)) hblocks

theorem right_iff (keccak pieces target) : Right keccak pieces target ↔ Apart pieces := by
  constructor
  · intro hright
    by_contra hnot
    obtain ⟨before, piece, after, rfl, hbefore, hblock, hdvd⟩ := exists_first hnot
    obtain ⟨s, hs, -⟩ := hright.room (before ++ [piece]) after (by simp)
    rw [updates_stop keccak hbefore hblock hdvd] at hs
    cases hs
  · intro hapart
    constructor
    · rintro before after rfl
      have hplace : (absorbed keccak (message before)).2 < 136 := by
        rw [absorbed_place]
        exact Nat.mod_lt _ (by decide)
      refine ⟨_, updates_eq hapart.left, ?_, ?_⟩
      · rw [atPlace]
        dsimp only
        omega
      · change (136 : Int) - _ ≤ 136
        omega
    · obtain ⟨h, s, hfinal, hdigest⟩ := final_digested keccak (message pieces) target
      refine ⟨h, ?_, hdigest⟩
      rw [incremental, updates_eq hapart, ok_bind, hfinal]
      rfl

def Bytevector.whole (bv : Bytevector) : Piece :=
  { bv with start := 0, stop := bv.bytes.length, start_le := Nat.zero_le _, stop_le := le_rfl }

/-- The target that `sha3256` makes. -/
def freshTarget (h : Vector UInt8 32) : Target := ⟨h.toList, 0, by simp⟩

theorem apart_singleton (piece) : Apart [piece] ↔ piece.stop - piece.start < 136 := by
  constructor
  · intro h
    by_contra hge
    exact h [] piece [] rfl (Nat.not_lt.mp hge) (Nat.dvd_zero 136)
  · intro hlt before last after heq hge
    rcases before with _ | ⟨first, before⟩
    · obtain ⟨rfl, -⟩ := List.cons.inj heq
      omega
    · exact absurd (List.cons.inj heq).2 (by simp)

theorem sha3256_eq (h : Vector UInt8 32) (bv : Bytevector) :
    sha3256 keccak h bv.bytes = incremental keccak [bv.whole] (freshTarget h) := by
  have hupdates : updates keccak [bv.whole] =
      sha3256Update keccak sha3256Init bv.bytes 0 bv.bytes.length := by
    rw [updates, List.foldlM_cons]
    exact bind_pure _
  rw [incremental, hupdates]
  rfl

theorem sha3256_iff (h : Vector UInt8 32) (bv : Bytevector) :
    (∃ digest, sha3256 keccak h bv.bytes = .ok digest ∧
        bitString digest = standard (keccakF keccak) (bitString bv.bytes)) ↔
      bv.bytes.length < 136 := by
  have hmessage : message [bv.whole] = bv.bytes := by
    rw [message_singleton]
    exact List.take_length
  have hright := right_iff keccak [bv.whole] (freshTarget h)
  rw [apart_singleton] at hright
  constructor
  · rintro ⟨digest, hdigest, -⟩
    by_contra hge
    have hempty : Apart [] := fun before piece after heq => by simp at heq
    have hstop : updates keccak ([] ++ [bv.whole]) = .error .assertion :=
      updates_stop keccak hempty (Nat.not_lt.mp hge) (Nat.dvd_zero 136)
    rw [sha3256_eq, incremental, ← List.nil_append [bv.whole], hstop] at hdigest
    cases hdigest
  · intro hlt
    obtain ⟨-, result, hresult, digest, rfl, hdigest⟩ := hright.mpr hlt
    rw [hmessage] at hdigest
    refine ⟨_, by rw [sha3256_eq]; exact hresult, ?_⟩
    have hrest : h.toList.drop 32 = [] := List.drop_eq_nil_of_le (by simp)
    rw [← hdigest]
    simp [freshTarget, hrest]

/-- **When the incremental hash is the hash of the standard.** For every permutation, every split
of a message into pieces and every target. An update asserts that it does not fill a block from its
start, so a piece of 136 bytes or more must not come at a block boundary. -/
theorem incremental_iff (keccak : State → State) :
    (∀ pieces target, Right keccak pieces target ↔ Apart pieces) ∧
      ∀ (h : Vector UInt8 32) (bv : Bytevector),
        (∃ digest, sha3256 keccak h bv.bytes = .ok digest ∧
          bitString digest = standard (keccakF keccak) (bitString bv.bytes)) ↔
        bv.bytes.length < 136 :=
  ⟨right_iff keccak, sha3256_iff⟩

theorem sha3256_one_block :
    sha3256 (fun state => state) (Vector.replicate 32 0) (List.replicate 136 0) =
      .error .assertion := by
  decide +kernel

end MitScheme.Runtime.Sha3Hash
