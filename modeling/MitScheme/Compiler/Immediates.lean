import MitScheme.Compiler.LogicalImmediate

/-! # Immediates of AArch64

`load-unsigned-immediate` and its relatives in the AArch64 `lapgen.scm`, with the instructions they
generate executed on 64-bit registers. -/

namespace MitScheme.Compiler.Immediates
open LogicalImmediate
open Runtime.IntegerBits (Result)
open BitVec (eq_of_toNat_eq ofInt ofNat toNat_ofInt toNat_ofNat)

/-! ## Instructions -/

/-- The general registers; the thirty-second number is none of them. -/
abbrev Register := Fin 31

/-- `(&U imm)`, `(LSL (&U imm) 12)`, or a register. -/
inductive Addend
  | immediate (imm : Int)
  | shifted (imm : Int)
  | register (rm : Register)

inductive Operation
  | add
  | sub

/-- The instructions, all of 64 bits. Without a shift the operand `(LSL (&U imm) 0)` stands for
`(&U imm)`; an addition without a target is a comparison. -/
inductive Instruction
  | movz (rd : Register) (imm : Int) (shift : Nat)
  | movn (rd : Register) (imm : Int) (shift : Nat)
  | movk (rd : Register) (imm : Int) (shift : Nat)
  | orr (rd : Register) (imm : Int)
  | arithmetic (op : Operation) (flags : Bool) (rd : Option Register) (rn : Register)
      (addend : Addend)

/-! ## The generator -/

def fitsInUnsigned16 (x : Int) : Bool := 0 ≤ x ∧ x ≤ 0xffff

def fitsInUnsigned12 (x : Int) : Bool := 0 ≤ x ∧ x ≤ 0xfff

def tryShift (imm : Int) (shift : Nat) : Option Nat :=
  if Int.land imm (bitMask shift) = 0 ∧ fitsInUnsigned16 (imm / 2 ^ shift) then some shift else none

def findShift (imm : Int) : Option Nat :=
  tryShift imm 0 <|> tryShift imm 16 <|> tryShift imm 32 <|> tryShift imm 48

def movChunk16 (target : Register) (imm : Int) (pos : Nat) : List Instruction :=
  let chunk := Int.land (imm / 2 ^ pos) 0xffff
  let below := Int.land imm (bitMask pos)
  if chunk = 0 then []
  else if pos = 0 ∨ below = 0 then [.movz target chunk pos]
  else [.movk target chunk pos]

def loadUnsignedImmediate (target : Register) (imm : Int) : Result (List Instruction) := do
  assert (0 ≤ imm ∧ imm ≤ bitMask 64)
  match findShift imm with
  | some shift => return [.movz target (imm / 2 ^ shift) shift]
  | none =>
    let inverse := Int.ldiff 0xffffffffffffffff imm
    match findShift inverse with
    | some shift => return [.movn target (inverse / 2 ^ shift) shift]
    | none =>
      match ← logicalImmediateUnsigned imm 64 with
      | some _ => return [.orr target imm]
      | none => return movChunk16 target imm 0 ++ (movChunk16 target imm 16 ++
          (movChunk16 target imm 32 ++ movChunk16 target imm 48))

def loadSignedImmediate (target : Register) (imm : Int) : Result (List Instruction) := do
  assert (Int.lnot (bitMask 63) ≤ imm ∧ imm ≤ bitMask 63)
  loadUnsignedImmediate target (Int.land imm 0xffffffffffffffff)

def immediateAddition (imm : Int) (add sub : Addend → Instruction) (temp : Register) :
    Result (List Instruction) :=
  if fitsInUnsigned12 imm then .ok [add (.immediate imm)]
  else if Int.land imm (bitMask 12) = 0 ∧ fitsInUnsigned12 (imm / 2 ^ 12) then
    .ok [add (.shifted (imm / 2 ^ 12))]
  else if fitsInUnsigned12 (-imm) then .ok [sub (.immediate (-imm))]
  else if Int.land (-imm) (bitMask 12) = 0 ∧ fitsInUnsigned12 (-imm / 2 ^ 12) then
    .ok [sub (.shifted (-imm / 2 ^ 12))]
  else do
    let load ← (if imm < 0 then loadSignedImmediate temp imm else loadUnsignedImmediate temp imm)
    return load ++ [add (.register temp)]

def addImmediate (target source : Register) (imm : Int) (temp : Register) :=
  immediateAddition imm (.arithmetic .add false (some target) source)
    (.arithmetic .sub false (some target) source) temp

def addImmediateWithFlags (target source : Register) (imm : Int) (temp : Register) :=
  immediateAddition imm (.arithmetic .add true (some target) source)
    (.arithmetic .sub true (some target) source) temp

/-- `cmp-immediate`: `CMP` is a subtraction, `CMN` an addition. -/
def cmpImmediate (source : Register) (imm : Int) (temp : Register) :=
  immediateAddition imm (.arithmetic .sub true none source) (.arithmetic .add true none source) temp

/-! ## The processor -/

structure Flags where
  n : Bool
  z : Bool
  c : Bool
  v : Bool
deriving DecidableEq

structure State where
  regs : Register → BitVec 64
  flags : Flags

def State.set (s : State) (rd : Register) (x : BitVec 64) : State :=
  { s with regs := Function.update s.regs rd x }

def addWithCarry (x y : BitVec 64) (carry : Bool) : BitVec 64 × Flags :=
  let result := x + y + .ofNat 64 carry.toNat
  (result,
    { n := result.msb
      z := result = 0
      c := x.toNat + y.toNat + carry.toNat ≠ result.toNat
      v := x.toInt + y.toInt + carry.toNat ≠ result.toInt })

def wide (imm : Int) (shift : Nat) : Option (BitVec 64) :=
  if fitsInUnsigned16 imm ∧ shift ∈ [0, 16, 32, 48] then some (ofInt 64 imm <<< shift) else none

def operand (s : State) : Addend → Option (BitVec 64)
  | .immediate imm => if fitsInUnsigned12 imm then some (.ofInt 64 imm) else none
  | .shifted imm => if fitsInUnsigned12 imm then some (ofInt 64 imm <<< 12) else none
  | .register rm => some (s.regs rm)

/-- The state after an addition or a subtraction of `y`. -/
def outcome (op : Operation) (flags : Bool) (rd : Option Register) (rn : Register) (s : State)
    (y : BitVec 64) : State :=
  let (result, nzcv) := match op with
    | .add => addWithCarry (s.regs rn) y false
    | .sub => addWithCarry (s.regs rn) (~~~y) true
  let s := if flags then { s with flags := nzcv } else s
  rd.elim s (s.set · result)

def execute (s : State) : Instruction → Option State
  | .movz rd imm shift => (wide imm shift).map (s.set rd)
  | .movn rd imm shift => (wide imm shift).map fun x => s.set rd (~~~x)
  | .movk rd imm shift => (wide imm shift).map fun x =>
      s.set rd (s.regs rd &&& ~~~(0xffff#64 <<< shift) ||| x)
  | .orr rd imm =>
    match logicalImmediateUnsigned imm 64 with
    | .ok (some code) => (decode 64 code).map fun x => s.set rd (.ofNat 64 x)
    | _ => none
  | .arithmetic op flags rd rn addend => (operand s addend).map (outcome op flags rd rn s)

def run (s : State) (code : List Instruction) : Option State := code.foldlM execute s

/-! ## Loading -/

variable {s : State} {target source temp : Register} {m pos shift : Nat}

theorem run_append (s a b) : run s (a ++ b) = (run s a).bind fun s => run s b := List.foldlM_append

@[simp] theorem set_set (x y) : (s.set target x).set target y = s.set target y := by
  simp [State.set]

@[simp] theorem set_regs (x) : (s.set target x).regs target = x := by simp [State.set]

theorem ofInt_natCast (m : Nat) : ofInt 64 m = ofNat 64 m := BitVec.ofInt_natCast ..

theorem div_natCast (m k : Nat) : (m : Int) / 2 ^ k = ((m / 2 ^ k : Nat) : Int) := by push_cast; rfl

theorem fits16_natCast (x : Nat) : fitsInUnsigned16 x = true ↔ x < 2 ^ 16 := by
  simp only [fitsInUnsigned16, decide_eq_true_eq]
  omega

theorem wide_natCast (hm : m < 2 ^ 16) (hshift : shift ∈ [0, 16, 32, 48]) :
    wide m shift = some (.ofNat 64 (m * 2 ^ shift)) := by
  rw [wide, if_pos ⟨(fits16_natCast m).mpr hm, hshift⟩, ofInt_natCast]
  refine congrArg some (eq_of_toNat_eq ?_)
  simp [Nat.shiftLeft_eq]

theorem run_movz (hm : m < 2 ^ 16) (hshift : shift ∈ [0, 16, 32, 48]) :
    run s [.movz target m shift] = some (s.set target (.ofNat 64 (m * 2 ^ shift))) := by
  simp only [run, List.foldlM_cons, List.foldlM_nil, execute, wide_natCast hm hshift,
    Option.map_some]
  rfl

theorem run_movk (hm : m < 2 ^ 16) (hshift : shift ∈ [0, 16, 32, 48]) (x) :
    run (s.set target x) [.movk target m shift] = some (s.set target
      (x &&& ~~~(0xffff#64 <<< shift) ||| .ofNat 64 (m * 2 ^ shift))) := by
  simp only [run, List.foldlM_cons, List.foldlM_nil, execute, wide_natCast hm hshift,
    Option.map_some, set_regs, set_set]
  rfl

theorem tryShift_eq (h : tryShift m shift = some pos) :
    pos = shift ∧ m / 2 ^ shift < 2 ^ 16 ∧ m / 2 ^ shift * 2 ^ shift = m := by
  rw [tryShift, land_bitMask, div_natCast] at h
  split at h
  · next hfits =>
    obtain ⟨hzero, hfits⟩ := hfits
    refine ⟨(Option.some.inj h).symm, (fits16_natCast _).mp hfits, Nat.div_mul_cancel ?_⟩
    exact Nat.dvd_of_mod_eq_zero (by exact_mod_cast hzero)
  · cases h

theorem findShift_eq (h : findShift m = some shift) :
    shift ∈ [0, 16, 32, 48] ∧ m / 2 ^ shift < 2 ^ 16 ∧ m / 2 ^ shift * 2 ^ shift = m := by
  have hor : ∀ {a b : Option Nat}, (a <|> b) = some shift → a = some shift ∨ b = some shift := by
    intro a b h
    cases a with
    | none => exact .inr h
    | some => exact .inl h
  rcases (hor h).imp_right fun h => (hor h).imp_right hor with h | h | h | h
  all_goals
    obtain ⟨rfl, hrest⟩ := tryShift_eq h
    exact ⟨by decide, hrest⟩

theorem keep_chunk (m pos) (hpos : pos ≤ 48) :
    ofNat 64 (m % 2 ^ pos) &&& ~~~(0xffff#64 <<< pos) |||
      ofNat 64 (m / 2 ^ pos % 2 ^ 16 * 2 ^ pos) = ofNat 64 (m % 2 ^ (pos + 16)) := by
  refine BitVec.eq_of_getLsbD_eq fun i hi => ?_
  have hffff : (0xffff#64).getLsbD (i - pos) = decide (i - pos < 16) := by
    rw [BitVec.getLsbD_ofNat, show 0xffff = 2 ^ 16 - 1 by decide, Nat.testBit_two_pow_sub_one,
      decide_eq_true (show i - pos < 64 by omega), Bool.true_and]
  simp only [BitVec.getLsbD_or, BitVec.getLsbD_and, BitVec.getLsbD_not, BitVec.getLsbD_shiftLeft,
    BitVec.getLsbD_ofNat, hffff, Nat.testBit_mod_two_pow, Nat.testBit_mul_two_pow,
    Nat.testBit_div_two_pow, decide_eq_true hi, Bool.true_and]
  rcases Nat.lt_or_ge i pos with h | h
  · simp [h, show i < pos + 16 by omega, show ¬pos ≤ i by omega]
  · rw [Nat.sub_add_cancel h]
    by_cases h16 : i < pos + 16
    · simp [h, h16, show ¬i < pos by omega, show i - pos < 16 by omega]
    · simp [h16, show ¬i < pos by omega, show ¬i - pos < 16 by omega]

/-- The target holds the bits below `pos`, unless they are all zero and nothing was moved yet. -/
def Loaded (s s' : State) (target : Register) (m pos : Nat) : Prop :=
  if m % 2 ^ pos = 0 then s' = s else s' = s.set target (.ofNat 64 (m % 2 ^ pos))

theorem run_movChunk16 {s'} (h : Loaded s s' target m pos) (hpos : pos ∈ [0, 16, 32, 48]) :
    ∃ t, run s' (movChunk16 target m pos) = some t ∧ Loaded s t target m (pos + 16) := by
  have hpos' : pos ≤ 48 := by
    simp only [List.mem_cons, List.not_mem_nil, or_false] at hpos
    omega
  have hchunk : Int.land ((m : Int) / 2 ^ pos) 0xffff = ((m / 2 ^ pos % 2 ^ 16 : Nat) : Int) := by
    rw [div_natCast]
    exact land_bitMask _ 16
  have hlt := Nat.mod_lt (m / 2 ^ pos) (Nat.two_pow_pos 16)
  have hsum : m % 2 ^ (pos + 16) = m % 2 ^ pos + m / 2 ^ pos % 2 ^ 16 * 2 ^ pos := by
    rw [pow_add, Nat.mod_mul, Nat.mul_comm (2 ^ pos)]
  have hp := Nat.two_pow_pos pos
  unfold Loaded at h ⊢
  rw [movChunk16, hchunk, land_bitMask]
  by_cases hzero : m / 2 ^ pos % 2 ^ 16 = 0
  · rw [hsum, hzero, Nat.zero_mul, Nat.add_zero, if_pos (by rfl)]
    exact ⟨s', rfl, h⟩
  have hne : m % 2 ^ (pos + 16) ≠ 0 := by
    have := Nat.mul_pos (Nat.pos_of_ne_zero hzero) hp
    omega
  rw [if_neg (by exact_mod_cast hzero)]
  simp only [if_neg hne]
  by_cases hbelow : m % 2 ^ pos = 0
  · rw [if_pos hbelow] at h
    rw [if_pos (.inr (by exact_mod_cast hbelow)), hsum, hbelow, Nat.zero_add, h]
    exact ⟨_, run_movz hlt hpos, rfl⟩
  · have hpos0 : pos ≠ 0 := by
      rintro rfl
      exact hbelow (Nat.mod_one m)
    rw [if_neg hbelow] at h
    rw [if_neg (not_or.mpr ⟨hpos0, by exact_mod_cast hbelow⟩), h, ← keep_chunk m pos hpos']
    exact ⟨_, run_movk hlt hpos _, rfl⟩

theorem run_loadUnsigned (s : State) (target : Register) (hm : m < 2 ^ 64) :
    ∃ code, loadUnsignedImmediate target m = .ok code ∧
      run s code = some (s.set target (.ofNat 64 m)) := by
  have hmask : (m : Int) ≤ bitMask 64 := by
    rw [bitMask_eq]
    omega
  have hinverse : Int.ldiff 0xffffffffffffffff (m : Int) = ((2 ^ 64 - 1 - m : Nat) : Int) := by
    have := ldiff_bitMask m 64
    rwa [Nat.mod_eq_of_lt hm] at this
  rw [loadUnsignedImmediate, assert_bind ⟨Int.natCast_nonneg m, hmask⟩]
  dsimp only
  rw [hinverse]
  cases hshift : findShift m with
  | some shift =>
    obtain ⟨hmem, hlt, heq⟩ := findShift_eq hshift
    refine ⟨_, rfl, ?_⟩
    rw [div_natCast, run_movz hlt hmem, heq]
  | none =>
    cases hshift' : findShift ((2 ^ 64 - 1 - m : Nat) : Int) with
    | some shift =>
      obtain ⟨hmem, hlt, heq⟩ := findShift_eq hshift'
      refine ⟨_, rfl, ?_⟩
      have hnot : ~~~ofNat 64 (2 ^ 64 - 1 - m) = ofNat 64 m := by
        refine eq_of_toNat_eq ?_
        simp only [BitVec.toNat_not, toNat_ofNat]
        omega
      simp only [run, List.foldlM_cons, List.foldlM_nil, execute, div_natCast, wide_natCast hlt hmem,
        heq, Option.map_some, hnot]
      rfl
    | none =>
      have h0 : m ≠ 0 := by
        rintro rfl
        cases hshift.symm.trans (show findShift (0 : Nat) = some 0 by decide)
      have h1 : m < 2 ^ 64 - 1 := by
        by_contra hge
        obtain rfl : m = 2 ^ 64 - 1 := by omega
        cases hshift'.symm.trans (show findShift ((2 ^ 64 - 1 - (2 ^ 64 - 1) : Nat) : Int) = some 0 by
          decide)
      rcases word_cases .w64 h0 h1 with ⟨-, code, hcode, hdecode⟩ | ⟨hnone, -⟩
      · simp only [Width.bits] at hcode hdecode
        rw [hcode]
        refine ⟨_, rfl, ?_⟩
        simp [run, execute, hcode, hdecode]
      · simp only [Width.bits] at hnone
        rw [hnone]
        refine ⟨_, rfl, ?_⟩
        have hstart : Loaded s s target m 0 := by simp [Loaded, Nat.mod_one]
        obtain ⟨s1, h1, hs1⟩ := run_movChunk16 hstart (by decide)
        obtain ⟨s2, h2, hs2⟩ := run_movChunk16 hs1 (by decide)
        obtain ⟨s3, h3, hs3⟩ := run_movChunk16 hs2 (by decide)
        obtain ⟨s4, h4, hs4⟩ := run_movChunk16 hs3 (by decide)
        unfold Loaded at hs4
        rw [Nat.mod_eq_of_lt hm, if_neg h0] at hs4
        simp only [run_append, h1, Option.bind_some, h2, h3, h4, hs4]

/-! ## Adding -/

abbrev word (imm : Int) : BitVec 64 := .ofInt 64 imm

theorem word_natCast (m : Nat) : word m = ofNat 64 m := ofInt_natCast m

theorem run_loadSigned (s target) {imm} (h0 : -2 ^ 63 ≤ imm) (h1 : imm < 2 ^ 63) :
    ∃ code, loadSignedImmediate target imm = .ok code ∧
      run s code = some (s.set target (word imm)) := by
  have hrange : Int.lnot (bitMask 63) ≤ imm ∧ imm ≤ bitMask 63 :=
    ⟨h0, Int.le_sub_one_of_lt h1⟩
  rw [loadSignedImmediate, assert_bind hrange]
  cases imm with
  | ofNat m =>
    have hland : Int.land (Int.ofNat m) 0xffffffffffffffff = (m : Int) := by
      have := land_bitMask m 64
      rwa [Nat.mod_eq_of_lt (by simp at h1; omega)] at this
    rw [hland]
    exact run_loadUnsigned s target (by simp at h1; omega)
  | negSucc n =>
    have hland : Int.land (Int.negSucc n) 0xffffffffffffffff = ((2 ^ 64 - 1 - n : Nat) : Int) := by
      have := ldiff_bitMask n 64
      rwa [Nat.mod_eq_of_lt (by omega)] at this
    have hword : word (Int.negSucc n) = ofNat 64 (2 ^ 64 - 1 - n) := by
      refine eq_of_toNat_eq ?_
      rw [toNat_ofNat, toNat_ofInt]
      omega
    rw [hland, hword]
    exact run_loadUnsigned s target (by omega)

theorem run_load (s : State) (target : Register) {imm} (h0 : -2 ^ 63 ≤ imm) (h1 : imm < 2 ^ 64) :
    ∃ code,
      (if imm < 0 then loadSignedImmediate target imm else loadUnsignedImmediate target imm) =
        .ok code ∧ run s code = some (s.set target (word imm)) := by
  by_cases hneg : imm < 0
  · rw [if_pos hneg]
    exact run_loadSigned s target h0 (by omega)
  · rw [if_neg hneg]
    obtain ⟨m, rfl⟩ := Int.eq_ofNat_of_zero_le (Int.not_lt.mp hneg)
    rw [word_natCast]
    exact run_loadUnsigned s target (by omega)

theorem not_word (k) : ~~~word k = word (-k - 1) := by
  refine eq_of_toNat_eq ?_
  rw [BitVec.toNat_not, toNat_ofInt, toNat_ofInt]
  omega

theorem addWithCarry_pred (x) {j} (hj : j ≠ 0) (h0 : -2 ^ 63 < j) (h1 : j < 2 ^ 63) :
    addWithCarry x (word (j - 1)) true = addWithCarry x (word j) false := by
  have hnat : (word (j - 1)).toNat + 1 = (word j).toNat := by
    simp only [word, toNat_ofInt]
    omega
  have hint : (word (j - 1)).toInt + 1 = (word j).toInt := by
    simp only [word, BitVec.toInt_ofInt]
    rw [Int.bmod_eq_of_le (by omega) (by omega), Int.bmod_eq_of_le (by omega) (by omega)]
    omega
  have hresult : x + word (j - 1) + ofNat 64 true.toNat =
      x + word j + ofNat 64 false.toNat := by
    have hsum : word (j - 1) + 1#64 = word j := eq_of_toNat_eq (by
      rw [BitVec.toNat_add]
      have := (word j).isLt
      simp only [toNat_ofNat]
      omega)
    rw [BitVec.add_assoc]
    simpa using congrArg (x + ·) hsum
  unfold addWithCarry
  rw [hresult, ← hnat, ← hint]
  simp only [Bool.toNat_true, Bool.toNat_false, Nat.add_zero, Nat.add_assoc, Int.add_assoc]
  simp

theorem outcome_neg (flags rd rn s) {k} (hk : k ≠ 0) (h0 : -2 ^ 63 < k) (h1 : k < 2 ^ 63) :
    outcome .sub flags rd rn s (word k) = outcome .add flags rd rn s (word (-k)) := by
  have := addWithCarry_pred (s.regs rn) (j := -k) (by omega) (by omega) (by omega)
  simp only [outcome, not_word, this]

theorem operand_immediate {k} (h : fitsInUnsigned12 k) :
    operand s (.immediate k) = some (word k) := if_pos h

theorem operand_shifted {k} (h : Int.land k (bitMask 12) = 0 ∧ fitsInUnsigned12 (k / 2 ^ 12)) :
    operand s (.shifted (k / 2 ^ 12)) = some (word k) ∧ 0 ≤ k ∧ k < 2 ^ 24 := by
  obtain ⟨hzero, hfits⟩ := h
  have hbounds : 0 ≤ k / 2 ^ 12 ∧ k / 2 ^ 12 ≤ 0xfff := of_decide_eq_true hfits
  obtain ⟨m, rfl⟩ := Int.eq_ofNat_of_zero_le (show 0 ≤ k by omega)
  rw [land_bitMask] at hzero
  refine ⟨?_, Int.natCast_nonneg m, by omega⟩
  rw [operand, if_pos hfits, div_natCast, ofInt_natCast, word_natCast]
  refine congrArg some (eq_of_toNat_eq ?_)
  rw [BitVec.toNat_shiftLeft, toNat_ofNat, toNat_ofNat, Nat.shiftLeft_eq]
  omega

theorem run_immediateAddition (temp : Register) {op op' : Operation} {flags : Bool}
    {rd : Option Register} {rn : Register} {imm : Int} (h0 : -2 ^ 63 ≤ imm) (h1 : imm < 2 ^ 64)
    (hop : ∀ k : Int, k ≠ 0 → -2 ^ 63 < k → k < 2 ^ 63 →
      outcome op' flags rd rn s (word k) = outcome op flags rd rn s (word (-k))) :
    ∃ code t, immediateAddition imm (.arithmetic op flags rd rn) (.arithmetic op' flags rd rn) temp =
        .ok code ∧ (t = s ∨ t = s.set temp (word imm)) ∧
      run s code = some (outcome op flags rd rn t (word imm)) := by
  have hone : ∀ {op addend y}, operand s addend = some y →
      run s [.arithmetic op flags rd rn addend] = some (outcome op flags rd rn s y) := by
    intro op addend y hy
    simp [run, execute, hy]
  unfold immediateAddition
  by_cases hfits : fitsInUnsigned12 imm = true
  · rw [if_pos hfits]
    exact ⟨_, s, rfl, .inl rfl, hone (operand_immediate hfits)⟩
  have hzero : imm ≠ 0 := by
    rintro rfl
    exact hfits (by decide)
  rw [if_neg hfits]
  by_cases hshifted : Int.land imm (bitMask 12) = 0 ∧ fitsInUnsigned12 (imm / 2 ^ 12) = true
  · rw [if_pos hshifted]
    exact ⟨_, s, rfl, .inl rfl, hone (operand_shifted hshifted).1⟩
  rw [if_neg hshifted]
  by_cases hneg : fitsInUnsigned12 (-imm) = true
  · rw [if_pos hneg]
    refine ⟨_, s, rfl, .inl rfl, (hone (operand_immediate hneg)).trans ?_⟩
    have hbounds : 0 ≤ -imm ∧ -imm ≤ 0xfff := of_decide_eq_true hneg
    rw [hop (-imm) (by omega) (by omega) (by omega), neg_neg]
  rw [if_neg hneg]
  by_cases hneg' : Int.land (-imm) (bitMask 12) = 0 ∧ fitsInUnsigned12 (-imm / 2 ^ 12) = true
  · rw [if_pos hneg']
    obtain ⟨hy, hbounds⟩ := operand_shifted hneg'
    refine ⟨_, s, rfl, .inl rfl, (hone hy).trans ?_⟩
    rw [hop (-imm) (by omega) (by omega) (by omega), neg_neg]
  rw [if_neg hneg']
  obtain ⟨code, hcode, hrun⟩ := run_load s temp h0 h1
  rw [hcode]
  refine ⟨_, _, rfl, .inr rfl, ?_⟩
  rw [run_append, hrun]
  simp [run, execute, operand]

/-- **Immediates.** A temporary register that is not the source is all that the callers provide. -/
theorem immediates_materialised (s : State) (target source temp : Register) (htemp : temp ≠ source)
    (imm : Int) :
    (0 ≤ imm → imm < 2 ^ 64 → ∃ code, loadUnsignedImmediate target imm = .ok code ∧
      run s code = some (s.set target (word imm))) ∧
    (-2 ^ 63 ≤ imm → imm < 2 ^ 63 → ∃ code, loadSignedImmediate target imm = .ok code ∧
      run s code = some (s.set target (word imm))) ∧
    (-2 ^ 63 ≤ imm → imm < 2 ^ 64 →
      (∃ code t, addImmediate target source imm temp = .ok code ∧ run s code = some t ∧
        t.regs target = s.regs source + word imm ∧ t.flags = s.flags ∧
        ∀ r, r ≠ target → r ≠ temp → t.regs r = s.regs r) ∧
      (∃ code t, addImmediateWithFlags target source imm temp = .ok code ∧ run s code = some t ∧
        t.regs target = s.regs source + word imm ∧
        t.flags = (addWithCarry (s.regs source) (word imm) false).2 ∧
        ∀ r, r ≠ target → r ≠ temp → t.regs r = s.regs r) ∧
      ∃ code t, cmpImmediate source imm temp = .ok code ∧ run s code = some t ∧
        t.flags = (addWithCarry (s.regs source) (~~~word imm) true).2 ∧
        ∀ r, r ≠ temp → t.regs r = s.regs r) := by
  refine ⟨fun h0 h1 => ?_, fun h0 h1 => run_loadSigned s target h0 h1, fun h0 h1 => ?_⟩
  · obtain ⟨m, rfl⟩ := Int.eq_ofNat_of_zero_le h0
    rw [word_natCast]
    exact run_loadUnsigned s target (by omega)
  have hset : ∀ {t}, t = s ∨ t = s.set temp (word imm) →
      t.regs source = s.regs source ∧ t.flags = s.flags ∧ ∀ r, r ≠ temp → t.regs r = s.regs r := by
    rintro t (rfl | rfl)
    · exact ⟨rfl, rfl, fun _ _ => rfl⟩
    · exact ⟨Function.update_of_ne htemp.symm _ _, rfl, fun r hr => Function.update_of_ne hr _ _⟩
  have hneg : ∀ flags rd (k : Int), k ≠ 0 → -2 ^ 63 < k → k < 2 ^ 63 →
      outcome .add flags rd source s (word k) = outcome .sub flags rd source s (word (-k)) := by
    intro flags rd k hk hk0 hk1
    rw [outcome_neg flags rd source s (by omega) (by omega) (by omega), neg_neg]
  refine ⟨?_, ?_, ?_⟩
  · obtain ⟨code, t, hcode, ht, hrun⟩ := run_immediateAddition temp h0 h1
      fun k => outcome_neg false (some target) source s
    obtain ⟨hsource, hflags, hregs⟩ := hset ht
    refine ⟨code, _, hcode, hrun, ?_, hflags, fun r hr hr' => ?_⟩
    · simp [outcome, addWithCarry, State.set, hsource]
    · exact (Function.update_of_ne hr _ _).trans (hregs r hr')
  · obtain ⟨code, t, hcode, ht, hrun⟩ := run_immediateAddition temp h0 h1
      fun k => outcome_neg true (some target) source s
    obtain ⟨hsource, hflags, hregs⟩ := hset ht
    refine ⟨code, _, hcode, hrun, ?_, ?_, fun r hr hr' => ?_⟩
    · simp [outcome, addWithCarry, State.set, hsource]
    · simp only [outcome, State.set, Option.elim_some, hsource, if_true]
    · exact (Function.update_of_ne hr _ _).trans (hregs r hr')
  · obtain ⟨code, t, hcode, ht, hrun⟩ := run_immediateAddition temp h0 h1
      (hneg true none)
    obtain ⟨hsource, hflags, hregs⟩ := hset ht
    refine ⟨code, _, hcode, hrun, ?_, fun r hr => hregs r hr⟩
    simp only [outcome, Option.elim_none, hsource, if_true]

theorem immediates_materialised_minus_five : ∃ code t,
    cmpImmediate 1 (-5) 2 = .ok code ∧ run ⟨fun _ => 3, ⟨false, false, false, false⟩⟩ code = some t ∧
      t.flags = ⟨false, false, false, false⟩ := by
  obtain ⟨-, -, hadd⟩ := immediates_materialised ⟨fun _ => 3, ⟨false, false, false, false⟩⟩ 0 1 2
    (by decide) (-5)
  obtain ⟨-, -, code, t, hcode, hrun, hflags, -⟩ := hadd (by decide) (by decide)
  exact ⟨code, t, hcode, hrun, hflags.trans (by decide)⟩

end MitScheme.Compiler.Immediates
