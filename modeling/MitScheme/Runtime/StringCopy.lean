import MitScheme.Runtime.CharEncoding
import MitScheme.Runtime.FixIndex

/-! # Copying strings

`string-copy!` of `string.scm` on the bytes of strings. The memory holds the legacy and Unicode
strings by their addresses; a slice is a part of one of them. The byte primitives check no index, so
the bytes of a string are a function of the offset from its address. -/

namespace MitScheme.Runtime.StringCopy
open Lib.Outcome FixIndex Function

inductive Fault
  | badRange
  | wrongType

abbrev Result (α : Type) := Except Fault α

instance : Faults Fault := ⟨.badRange, .wrongType⟩

/-! ## Strings -/

inductive Layout
  | legacy
  | mutableUstring
  | immutableUstring1
  | immutableUstring2
  | immutableUstring3

/-- `ustring-cp-size`. -/
def Layout.cpSize : Layout → Nat
  | .legacy => 1
  | .mutableUstring => 0
  | .immutableUstring1 => 1
  | .immutableUstring2 => 2
  | .immutableUstring3 => 3

/-- `ustring-mutable?`. -/
def Layout.mutable : Layout → Bool
  | .legacy | .mutableUstring => true
  | .immutableUstring1 | .immutableUstring2 | .immutableUstring3 => false

inductive Width
  | one
  | two
  | three

def Width.ofCpSize : Nat → Width
  | 1 => .one
  | 2 => .two
  | _ => .three

def Width.size : Width → Nat
  | .one => 1
  | .two => 2
  | .three => 3

theorem Width.size_pos (w : Width) : 0 < w.size := by cases w <;> decide

/-- `byte0-index`, for words of 64 bits. -/
def byte0Index : Nat := 16

/-- A legacy or Unicode string. The offset of each of its bytes is an index fixnum. -/
structure Ustring where
  layout : Layout
  length : Nat
  bytes : Nat → UInt8
  short : byte0Index + (Width.ofCpSize layout.cpSize).size * length < 2 ^ 57

def Ustring.width (ustring : Ustring) : Width := .ofCpSize ustring.layout.cpSize

abbrev Heap := Nat → Ustring

inductive StringObject
  | ustring (address : Nat)
  | slice (address start length : Nat)

def stringLength (heap : Heap) : StringObject → Nat
  | .ustring address => (heap address).length
  | .slice _ _ length => length

/-- `string-mutable?`. -/
def stringMutable (heap : Heap) : StringObject → Bool
  | .ustring address => (heap address).layout.mutable
  | .slice address _ _ => (heap address).layout.mutable

/-- `cp1-index`, `cp2-index` and `cp3-index`. -/
def cpIndex (w : Width) (index : Nat) : Nat := byte0Index + w.size * index

/-- `cp1-ref`, `cp2-ref` and `cp3-ref`. -/
def cpRef (bytes : Nat → UInt8) (w : Width) (index : Nat) : Nat :=
  let i := cpIndex w index
  match w with
  | .one => (bytes i).toNat
  | .two => (bytes i).toNat ||| ((bytes (i + 1)).toNat <<< 8)
  | .three => (bytes i).toNat |||
      (((bytes (i + 1)).toNat <<< 8) ||| ((bytes (i + 2)).toNat <<< 16))

def ustringRef (ustring : Ustring) (index : Nat) : Nat := cpRef ustring.bytes ustring.width index

/-! ## Copying -/

/-- `copy!` and `zero!` of `%general-copy!`. -/
inductive Action
  | copy (o : Nat)
  | zero (o : Nat)

def act (source : Nat → UInt8) (i j : Nat) (target : Nat → UInt8) : Action → Nat → UInt8
  | .copy o => update target (j + o) (source (i + o))
  | .zero o => update target (j + o) 0

/-- The bodies of the nine loops, by the widths of the source and the target. -/
def body : Width → Width → List Action
  | .one, .one => [.copy 0]
  | .one, .two => [.copy 0, .zero 1]
  | .one, .three => [.copy 0, .zero 1, .zero 2]
  | .two, .one => [.copy 0]
  | .two, .two => [.copy 0, .copy 1]
  | .two, .three => [.copy 0, .copy 1, .zero 2]
  | .three, .one => [.copy 0]
  | .three, .two => [.copy 0, .copy 1]
  | .three, .three => [.copy 0, .copy 1, .copy 2]

/-- The loops of `%general-copy!`. -/
def copyLoop (source : Nat → UInt8) (ws wt : Width) (stop i j : Nat) (target : Nat → UInt8) :
    Nat → UInt8 :=
  if i < stop then
    copyLoop source ws wt stop (i + ws.size) (j + wt.size)
      ((body ws wt).foldl (act source i j) target)
  else target
termination_by stop - i
decreasing_by
  have := ws.size_pos
  omega

/-- `do-shift!` of `%shift-left!`. The first argument is the number of bytes to move. -/
def shiftLeftLoop : Nat → Nat → Nat → (Nat → UInt8) → Nat → UInt8
  | 0, _, _, bytes => bytes
  | n + 1, i, j, bytes => shiftLeftLoop n (i + 1) (j + 1) (update bytes j (bytes i))

/-- `do-shift!` of `%shift-right!`. It moves the last of the bytes first. -/
def shiftRightLoop (start target : Nat) : Nat → (Nat → UInt8) → Nat → UInt8
  | 0, bytes => bytes
  | n + 1, bytes =>
    shiftRightLoop start target n (update bytes (target + n) (bytes (start + n)))

def generalShift (ustring : Ustring) (target start stop : Nat) : Nat → UInt8 :=
  let index := cpIndex ustring.width
  if target < start then
    shiftLeftLoop (index stop - index start) (index start) (index target) ustring.bytes
  else if target > start then
    shiftRightLoop (index start) (index target) (index stop - index start) ustring.bytes
  else ustring.bytes

def generalCopy (heap : Heap) (target position source start stop : Nat) : Heap :=
  let bytes :=
    if target = source then generalShift (heap target) position start stop
    else
      let ws := (heap source).width
      let wt := (heap target).width
      copyLoop (heap source).bytes ws wt (cpIndex ws stop) (cpIndex ws start) (cpIndex wt position)
        (heap target).bytes
  update heap target { heap target with bytes := bytes }

/-- `fix:+`. -/
def fixPlus (n m : Nat) : Result Nat := if n + m < 2 ^ 57 then .ok (n + m) else .error .badRange

def translate : StringObject → Nat → Nat × Nat
  | .ustring address, index => (address, index)
  | .slice address start _, index => (address, start + index)

/-- `string-copy!`: the memory afterwards, and the result. All errors come before the first byte is
written. -/
def stringCopy (heap : Heap) (target : StringObject) (position : Nat) (source : StringObject)
    (start stop : Option Nat) : Result (Heap × Nat) := do
  let stop ← fixEndIndex stop (stringLength heap source)
  let start ← fixStartIndex start (some stop)
  guaranteeIndex position
  let final ← fixPlus position (stop - start)
  if !(final ≤ stringLength heap target : Bool) then .error .badRange
  else if !stringMutable heap target then .error .badRange
  else
    let (target, position) := translate target position
    let (origin, start) := translate source start
    let (_, stop) := translate source stop
    return (generalCopy heap target position origin start stop, final)

/-! ## What the loops do -/

/-- `n` characters from `i` on have been widened or cut to `j`, and nothing else has changed. -/
structure Copied (source before after : Nat → UInt8) (ws wt : Width) (i j n : Nat) : Prop where
  inside : ∀ k < n, ∀ o < wt.size, after (j + wt.size * k + o) =
    if o < ws.size then source (i + ws.size * k + o) else 0
  outside : ∀ x, x < j ∨ j + wt.size * n ≤ x → after x = before x

theorem body_apply (source target ws wt i j x) :
    (body ws wt).foldl (act source i j) target x =
      if j ≤ x ∧ x < j + wt.size then (if x - j < ws.size then source (i + (x - j)) else 0)
      else target x := by
  by_cases hin : j ≤ x ∧ x < j + wt.size
  · obtain ⟨o, rfl⟩ := Nat.exists_eq_add_of_le hin.1
    rw [if_pos hin, Nat.add_sub_cancel_left]
    have ho : o < wt.size := by omega
    cases ws <;> cases wt <;> simp only [Width.size] at ho ⊢ <;>
      interval_cases o <;>
      simp [body, act]
  · rw [if_neg hin]
    cases ws <;> cases wt <;> simp only [Width.size] at hin <;>
      simp only [body, List.foldl_cons, List.foldl_nil, act, update_apply] <;>
      split_ifs <;> first | rfl | omega

theorem copyLoop_copied (source) (ws wt : Width) (n) {stop i j} (target)
    (hstop : stop = i + ws.size * n) :
    Copied source target (copyLoop source ws wt stop i j target) ws wt i j n := by
  have hs := ws.size_pos
  induction n generalizing i j target with
  | zero =>
    rw [copyLoop, if_neg (by omega)]
    exact ⟨fun k hk => absurd hk (Nat.not_lt_zero k), fun _ _ => rfl⟩
  | succ n ih =>
    rw [Nat.mul_succ] at hstop
    have hrest := ih (i := i + ws.size) (j := j + wt.size)
      ((body ws wt).foldl (act source i j) target) (by omega)
    rw [copyLoop, if_pos (by omega)]
    refine ⟨fun k hk o ho => ?_, fun x hx => ?_⟩
    · cases k with
      | zero =>
        rw [hrest.outside _ (.inl (by omega)), body_apply, if_pos (by omega)]
        simp only [Nat.mul_zero, Nat.add_zero, Nat.add_sub_cancel_left]
      | succ k =>
        have hinside := hrest.inside k (by omega) o ho
        have hj : j + wt.size * (k + 1) + o = j + wt.size + wt.size * k + o := by
          rw [Nat.mul_succ]
          omega
        have hi : i + ws.size * (k + 1) + o = i + ws.size + ws.size * k + o := by
          rw [Nat.mul_succ]
          omega
        rw [hj, hi, hinside]
    · rw [Nat.mul_succ] at hx
      rw [hrest.outside x (by omega), body_apply, if_neg (by have := wt.size_pos; omega)]

/-- `n` bytes have been moved within one string. -/
def Moved (before after : Nat → UInt8) (i j n : Nat) : Prop :=
  ∀ x, after x = if j ≤ x ∧ x < j + n then before (i + (x - j)) else before x

theorem shiftLeftLoop_moved (n) {i j} (hlt : j < i) (bytes) :
    Moved bytes (shiftLeftLoop n i j bytes) i j n := by
  induction n generalizing i j bytes with
  | zero => exact fun x => (if_neg (by omega)).symm
  | succ n ih =>
    intro x
    rw [shiftLeftLoop, ih (Nat.succ_lt_succ hlt) _ x]
    simp only [update_apply]
    by_cases hx : x = j
    · subst hx
      rw [if_neg (by omega), if_pos rfl, if_pos (by omega), Nat.sub_self, Nat.add_zero]
    · rw [if_neg (show ¬i + 1 + (x - (j + 1)) = j by omega), if_neg hx]
      by_cases hin : j ≤ x ∧ x < j + (n + 1)
      · rw [if_pos (by omega), if_pos hin]
        congr 1
        omega
      · rw [if_neg (by omega), if_neg hin]

theorem shiftRightLoop_moved (n) {i j} (hlt : i < j) (bytes) :
    Moved bytes (shiftRightLoop i j n bytes) i j n := by
  induction n generalizing bytes with
  | zero => exact fun x => (if_neg (by omega)).symm
  | succ n ih =>
    intro x
    rw [shiftRightLoop, ih _ x]
    simp only [update_apply]
    by_cases hx : x = j + n
    · subst hx
      rw [if_neg (by omega), if_pos rfl, if_pos (by omega), Nat.add_sub_cancel_left]
    · by_cases hin : j ≤ x ∧ x < j + n
      · rw [if_pos hin, if_neg (show ¬i + (x - j) = j + n by omega), if_pos (by omega)]
      · rw [if_neg hin, if_neg hx, if_neg (by omega)]

theorem Moved.copied {before after : Nat → UInt8} {i j n w}
    (h : Moved before after i j (w.size * n)) : Copied before before after w w i j n := by
  refine ⟨fun k hk o ho => ?_, fun x hx => ?_⟩
  · have hlt : w.size * k + o < w.size * n := by
      have hle : w.size * (k + 1) ≤ w.size * n := Nat.mul_le_mul_left _ hk
      rw [Nat.mul_succ] at hle
      omega
    rw [h, if_pos (by omega), if_pos ho]
    congr 1
    omega
  · rw [h, if_neg (by omega)]

theorem cpIndex_add (w index n) : cpIndex w (index + n) = cpIndex w index + w.size * n := by
  rw [cpIndex, cpIndex, Nat.mul_add, Nat.add_assoc]

theorem cpIndex_sub (w) {start stop} (h : start ≤ stop) :
    cpIndex w stop - cpIndex w start = w.size * (stop - start) := by
  obtain ⟨n, rfl⟩ := Nat.exists_eq_add_of_le h
  rw [cpIndex_add, Nat.add_sub_cancel_left, Nat.add_sub_cancel_left]

theorem cpIndex_lt (w) {index index'} (h : index < index') : cpIndex w index < cpIndex w index' :=
  Nat.add_lt_add_left (Nat.mul_lt_mul_of_pos_left h w.size_pos) _

theorem generalShift_copied (ustring : Ustring) {target start stop : Nat} (h : start ≤ stop) :
    Copied ustring.bytes ustring.bytes (generalShift ustring target start stop) ustring.width
      ustring.width (cpIndex ustring.width start) (cpIndex ustring.width target) (stop - start) := by
  rw [generalShift, cpIndex_sub _ h]
  by_cases hlt : target < start
  · rw [if_pos hlt]
    exact (shiftLeftLoop_moved _ (cpIndex_lt _ hlt) _).copied
  · rw [if_neg hlt]
    by_cases hgt : target > start
    · rw [if_pos hgt]
      exact (shiftRightLoop_moved _ (cpIndex_lt _ hgt) _).copied
    · obtain rfl : target = start := by omega
      rw [if_neg hgt]
      exact ⟨fun k _ o ho => (if_pos ho).symm, fun _ _ => rfl⟩

theorem generalCopy_copied (heap : Heap) (target position source) {start stop} (h : start ≤ stop) :
    Copied (heap source).bytes (heap target).bytes
      (generalCopy heap target position source start stop target).bytes (heap source).width
      (heap target).width (cpIndex (heap source).width start)
      (cpIndex (heap target).width position) (stop - start) := by
  rw [generalCopy, update_self]
  by_cases heq : target = source
  · subst heq
    simp only [if_true]
    exact generalShift_copied _ h
  · simp only [if_neg heq]
    refine copyLoop_copied _ _ _ _ _ ?_
    rw [← cpIndex_sub _ h]
    have := cpIndex_add (heap source).width start (stop - start)
    rw [Nat.add_sub_cancel' h] at this
    omega

/-! ## Characters -/

def Width.capacity : Width → Nat
  | .one => 0x100
  | .two => 0x10000
  | .three => 0x1000000

/-- The character that some bytes make, least significant byte first. -/
def Width.join (w : Width) (b : Nat → Nat) : Nat :=
  match w with
  | .one => b 0
  | .two => b 0 + b 1 * 0x100
  | .three => b 0 + b 1 * 0x100 + b 2 * 0x10000

theorem Width.join_congr {w : Width} {b b' : Nat → Nat} (h : ∀ o < w.size, b o = b' o) :
    w.join b = w.join b' := by
  cases w with
  | one => exact h 0 (by decide)
  | two => rw [join, join, h 0 (by decide), h 1 (by decide)]
  | three => rw [join, join, h 0 (by decide), h 1 (by decide), h 2 (by decide)]

theorem Width.join_cut (ws wt : Width) {b : Nat → Nat} (h : ∀ o, b o < 0x100) :
    (wt.join fun o => if o < ws.size then b o else 0) = ws.join b % wt.capacity := by
  have h0 := h 0
  have h1 := h 1
  have h2 := h 2
  cases ws <;> cases wt <;> simp [join, size, capacity] <;> omega

theorem cpRef_eq (bytes w index) :
    cpRef bytes w index = w.join fun o => (bytes (cpIndex w index + o)).toNat := by
  have h0 := (bytes (cpIndex w index)).toNat_lt
  have h1 := (bytes (cpIndex w index + 1)).toNat_lt
  cases w with
  | one => rfl
  | two =>
    show _ ||| (bytes (cpIndex .two index + 1)).toNat <<< 8 = _
    rw [Nat.shiftLeft_eq, Nat.or_comm, CharEncoding.or_eq_add 8 (by omega) (by omega), Nat.add_comm]
    rfl
  | three =>
    show _ ||| ((bytes (cpIndex .three index + 1)).toNat <<< 8 |||
      (bytes (cpIndex .three index + 2)).toNat <<< 16) = _
    have hhigh : (bytes (cpIndex .three index + 1)).toNat <<< 8 |||
        (bytes (cpIndex .three index + 2)).toNat <<< 16 =
        (bytes (cpIndex .three index + 2)).toNat * 0x10000 +
          (bytes (cpIndex .three index + 1)).toNat * 0x100 := by
      rw [Nat.shiftLeft_eq, Nat.shiftLeft_eq, Nat.or_comm,
        CharEncoding.or_eq_add 16 (by omega) (by omega)]
    rw [hhigh, Nat.or_comm, CharEncoding.or_eq_add 8 (by omega) (by omega), Width.join]
    show _ = (bytes (cpIndex .three index)).toNat + _ + _
    omega

theorem Copied.cpRef_inside {source before after : Nat → UInt8} {ws} {wt : Width}
    {start position n k}
    (h : Copied source before after ws wt (cpIndex ws start) (cpIndex wt position) n) (hk : k < n) :
    cpRef after wt (position + k) = cpRef source ws (start + k) % wt.capacity := by
  rw [cpRef_eq, cpRef_eq, cpIndex_add, cpIndex_add, ← Width.join_cut ws wt fun o => UInt8.toNat_lt _]
  refine Width.join_congr fun o ho => ?_
  rw [h.inside k hk o ho]
  split_ifs <;> rfl

theorem Copied.cpRef_outside {source before after : Nat → UInt8} {ws wt i position n}
    (h : Copied source before after ws wt i (cpIndex wt position) n) {index}
    (hindex : index < position ∨ position + n ≤ index) :
    cpRef after wt index = cpRef before wt index := by
  rw [cpRef_eq, cpRef_eq]
  refine Width.join_congr fun o ho => congrArg UInt8.toNat (h.outside _ ?_)
  rcases hindex with hlt | hle
  · obtain ⟨d, rfl⟩ := Nat.exists_eq_add_of_lt hlt
    rw [Nat.add_assoc, cpIndex_add, Nat.mul_succ]
    omega
  · obtain ⟨d, rfl⟩ := Nat.exists_eq_add_of_le hle
    rw [Nat.add_assoc, cpIndex_add, Nat.mul_add]
    omega

/-! ## Calls -/

def StringObject.address : StringObject → Nat
  | .ustring address => address
  | .slice address _ _ => address

def StringObject.offset : StringObject → Nat
  | .ustring _ => 0
  | .slice _ start _ => start

def Valid (heap : Heap) (string : StringObject) : Prop :=
  string.offset + stringLength heap string ≤ (heap string.address).length

instance (heap : Heap) (string : StringObject) : Decidable (Valid heap string) :=
  Nat.decLe ..

/-- `string-ref`, within the length. -/
def stringRef (heap : Heap) (string : StringObject) (index : Nat) : Nat :=
  ustringRef (heap string.address) (string.offset + index)

/-- What `string-copy!` checks. -/
structure Accepts (heap : Heap) (target : StringObject) (position : Nat) (source : StringObject)
    (start stop : Option Nat) : Prop where
  range : InRange start stop (stringLength heap source)
  room : position + (stop.getD (stringLength heap source) - start.getD 0) ≤ stringLength heap target
  mutable : stringMutable heap target = true

/-- `n` characters have been copied, and nothing else has changed. -/
structure Replaced (heap heap' : Heap) (target : StringObject) (position : Nat)
    (source : StringObject) (start n : Nat) : Prop where
  copied : ∀ k < n, stringRef heap' target (position + k) = stringRef heap source (start + k)
  kept : ∀ index, index < target.offset + position ∨ target.offset + position + n ≤ index →
    ustringRef (heap' target.address) index = ustringRef (heap target.address) index
  layout : (heap' target.address).layout = (heap target.address).layout
  length : (heap' target.address).length = (heap target.address).length
  others : ∀ address, address ≠ target.address → heap' address = heap address

def Fits (heap : Heap) (target source : StringObject) (start n : Nat) : Prop :=
  ∀ k < n, stringRef heap source (start + k) < (heap target.address).width.capacity

instance (heap : Heap) (target source : StringObject) (start n : Nat) :
    Decidable (Fits heap target source start n) :=
  inferInstanceAs (Decidable (∀ k < n, _ < _))

/-- What is said of a call: characters that fit are copied, others are refused. -/
structure Right (heap : Heap) (target : StringObject) (position : Nat) (source : StringObject)
    (start stop : Option Nat) (n : Nat) : Prop where
  copies : Fits heap target source (start.getD 0) n →
    ∃ heap', stringCopy heap target position source start stop = .ok (heap', position + n) ∧
      Replaced heap heap' target position source (start.getD 0) n
  refuses : ¬Fits heap target source (start.getD 0) n →
    ∃ fault, stringCopy heap target position source start stop = .error fault

theorem translate_eq (string index) :
    translate string index = (string.address, string.offset + index) := by
  cases string with
  | ustring address => rw [translate, StringObject.address, StringObject.offset, Nat.zero_add]
  | slice address start length => rfl

theorem Valid.length_lt {heap string} (h : Valid heap string) :
    stringLength heap string < 2 ^ 57 := by
  have hshort := (heap string.address).short
  have hle := Nat.le_mul_of_pos_left (heap string.address).length
    (Width.size_pos (.ofCpSize (heap string.address).layout.cpSize))
  unfold Valid at h
  omega

def afterCopy (heap : Heap) (target : StringObject) (position : Nat) (source : StringObject)
    (start n : Nat) : Heap :=
  generalCopy heap target.address (target.offset + position) source.address (source.offset + start)
    (source.offset + (start + n))

variable {heap : Heap} {target source : StringObject} {position : Nat} {start stop : Option Nat}

theorem stringCopy_ok (ht : Valid heap target) (hs : Valid heap source)
    (h : Accepts heap target position source start stop) :
    stringCopy heap target position source start stop =
      .ok (afterCopy heap target position source (start.getD 0)
          (stop.getD (stringLength heap source) - start.getD 0),
        position + (stop.getD (stringLength heap source) - start.getD 0)) := by
  obtain ⟨⟨hstart, hstop⟩, hroom, hmutable⟩ := h
  have hsl := hs.length_lt
  have htl := ht.length_lt
  have hposition : (guaranteeIndex position : Result Unit) = .ok () :=
    if_pos (Nat.lt_of_le_of_lt (Nat.le_trans (Nat.le_add_right _ _) hroom) htl)
  rw [stringCopy, fixEndIndex_ok hstop hsl, ok_bind,
    fixStartIndex_ok hstart (Nat.lt_of_le_of_lt hstop hsl), ok_bind, hposition, ok_bind, fixPlus,
    if_pos (Nat.lt_of_le_of_lt hroom htl), ok_bind, decide_eq_true hroom, hmutable]
  simp only [translate_eq]
  rw [afterCopy, Nat.add_sub_cancel' hstart]
  rfl

theorem accepts_of_ok {r} (h : stringCopy heap target position source start stop = .ok r) :
    Accepts heap target position source start stop := by
  obtain ⟨e, he, h⟩ := bind_eq_ok h
  obtain ⟨rfl, hstop⟩ := fixEndIndex_eq_ok he
  obtain ⟨s, hs, h⟩ := bind_eq_ok h
  obtain ⟨rfl, hstart⟩ := fixStartIndex_eq_ok hs
  obtain ⟨-, -, h⟩ := bind_eq_ok h
  obtain ⟨final, hfinal, h⟩ := bind_eq_ok h
  rw [fixPlus] at hfinal
  split_ifs at hfinal
  cases hfinal
  split_ifs at h with hroom hmutable
  exact ⟨⟨hstart, hstop⟩, by simpa using hroom, by simpa using hmutable⟩

theorem afterCopy_width (start n) :
    (afterCopy heap target position source start n target.address).width =
      (heap target.address).width := by
  rw [Ustring.width, afterCopy, generalCopy, update_self]
  rfl

theorem afterCopy_copied (heap : Heap) (target position source start n) :
    Copied (heap source.address).bytes (heap target.address).bytes
      (afterCopy heap target position source start n target.address).bytes
      (heap source.address).width (heap target.address).width
      (cpIndex (heap source.address).width (source.offset + start))
      (cpIndex (heap target.address).width (target.offset + position)) n := by
  have h := generalCopy_copied heap target.address (target.offset + position) source.address
    (show source.offset + start ≤ source.offset + (start + n) by omega)
  rwa [show source.offset + (start + n) - (source.offset + start) = n by omega] at h

theorem afterCopy_stringRef {start n k} (hk : k < n) :
    stringRef (afterCopy heap target position source start n) target (position + k) =
      stringRef heap source (start + k) % (heap target.address).width.capacity := by
  rw [stringRef, ustringRef, afterCopy_width, ← Nat.add_assoc,
    (afterCopy_copied heap target position source start n).cpRef_inside hk, Nat.add_assoc]
  rfl

theorem afterCopy_replaced {start n : Nat} (h : Fits heap target source start n) :
    Replaced heap (afterCopy heap target position source start n) target position source start n where
  copied k hk := by rw [afterCopy_stringRef hk, Nat.mod_eq_of_lt (h k hk)]
  kept index hindex := by
    rw [ustringRef, afterCopy_width]
    exact (afterCopy_copied heap target position source start n).cpRef_outside hindex
  layout := by rw [afterCopy, generalCopy, update_self]
  length := by rw [afterCopy, generalCopy, update_self]
  others address haddress := update_of_ne haddress _ _

/-- **When `string-copy!` is right.** The calls that it accepts never lose, so each character must
fit into the target. -/
theorem string_copy_iff (heap : Heap) (target : StringObject) (position : Nat)
    (source : StringObject) (start stop : Option Nat) (ht : Valid heap target)
    (hs : Valid heap source) :
    ((∃ r, stringCopy heap target position source start stop = .ok r) ↔
      Accepts heap target position source start stop) ∧
    (Accepts heap target position source start stop →
      (Right heap target position source start stop
          (stop.getD (stringLength heap source) - start.getD 0) ↔
        Fits heap target source (start.getD 0)
          (stop.getD (stringLength heap source) - start.getD 0))) := by
  refine ⟨⟨fun ⟨r, hr⟩ => accepts_of_ok hr, fun h => ⟨_, stringCopy_ok ht hs h⟩⟩, fun h => ?_⟩
  have hok := stringCopy_ok ht hs h
  constructor
  · intro hright
    by_contra hfits
    obtain ⟨fault, hfault⟩ := hright.refuses hfits
    rw [hok] at hfault
    cases hfault
  · intro hfits
    exact ⟨fun _ => ⟨_, hok, afterCopy_replaced hfits⟩, fun hn => absurd hfits hn⟩

def twoStrings : Heap := fun address =>
  if address = 0 then ⟨.legacy, 6, fun i => UInt8.ofNat (i + 49), by decide⟩
  else ⟨.mutableUstring, 1, fun i => if i = 17 then 1 else 0, by decide⟩

/-- Two slices of one string overlap. -/
theorem string_copy_slices :
    Right twoStrings (.slice 0 2 4) 1 (.slice 0 1 5) none (some 3) 3 :=
  ((string_copy_iff twoStrings (.slice 0 2 4) 1 (.slice 0 1 5) none (some 3) (by decide)
    (by decide)).2 ⟨⟨by decide, by decide⟩, by decide, by decide⟩).mpr (by decide +kernel)

/-- The character 256 is copied into a legacy string as the character 0. -/
theorem string_copy_cut :
    ∃ heap', stringCopy twoStrings (.ustring 0) 0 (.ustring 1) none none = .ok (heap', 1) ∧
      stringRef twoStrings (.ustring 1) 0 = 0x100 ∧ stringRef heap' (.ustring 0) 0 = 0 := by
  have haccepts : Accepts twoStrings (.ustring 0) 0 (.ustring 1) none none :=
    ⟨⟨by decide, by decide⟩, by decide, by decide⟩
  exact ⟨_, stringCopy_ok (by decide) (by decide) haccepts, by decide +kernel,
    (afterCopy_stringRef (k := 0) (n := 1) Nat.one_pos).trans (by decide +kernel)⟩

end MitScheme.Runtime.StringCopy
