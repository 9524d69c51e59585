import Mathlib.Data.Finset.Sort
import Mathlib.Data.Nat.Bitwise

/-! # Character sets

A character set is a bit vector for the code points below a limit and a packed list of code-point
ranges above it. The operations work on inversion lists: `[s1, e1, s2, e2, …]` stands for the
ranges from each start to its end, the end excluded. -/

namespace MitScheme.Runtime.CharSets

inductive Fault where
  | badRange
  | wrongType
  /-- An application of `#f`. -/
  | inapplicable
  | wrongNumberOfArguments

def charCodeLimit : Nat := 0x110000

/-- A character, with what `make-char` asks of its code and bucky bits. -/
structure Character where
  code : Nat
  bits : Nat
  code_lt : code < charCodeLimit
  bits_lt : bits < 16
deriving DecidableEq

/-- `integer->char`: the bucky bits stand above the 21 bits of the code. -/
def integerToChar (n : Nat) : Except Fault Character :=
  if h : n % 2 ^ 21 < charCodeLimit ∧ n / 2 ^ 21 < 16 then
    .ok ⟨n % 2 ^ 21, n / 2 ^ 21, h.1, h.2⟩
  else .error .badRange

abbrev Byte := BitVec 8

/-- The two parts; the predicate and the table are computed from them. -/
structure CharSet where
  low : List Byte
  high : List Byte

/-! ## The two parts -/

def makeLow (lowLimit : Nat) : List Byte := List.replicate (lowLimit / 8) 0

def lowLimit (low : List Byte) : Nat := low.length <<< 3

def lowRef (low : List Byte) (cp : Nat) : Bool :=
  low.getD (cp >>> 3) 0 &&& (1 <<< (cp % 8)) != 0

def lowSet (low : List Byte) (cp : Nat) : List Byte :=
  low.set (cp >>> 3) (low.getD (cp >>> 3) 0 ||| (1 <<< (cp % 8)))

def highLimit (high : List Byte) : Nat := high.length / 3

def highRef (high : List Byte) (index : Nat) : Nat :=
  let i := index * 3
  (high.getD i 0).toNat + ((high.getD (i + 1) 0).toNat <<< 8 +
    (high.getD (i + 2) 0).toNat <<< 16)

/-- The three bytes that `%high-set!` stores. -/
def highBytes (cp : Nat) : List Byte :=
  [BitVec.ofNat 8 cp, BitVec.ofNat 8 (cp >>> 8), BitVec.ofNat 8 (cp >>> 16)]

/-! ## Inversion lists to character sets -/

def estimateLoop (minCp : Nat) : List Nat → Nat
  | s :: e :: ilist =>
    if e < minCp then estimateLoop minCp ilist else (s :: e :: ilist).length * 3
  | _ => 0

def estimateSize (lowBytes : Nat) (ilist : List Nat) : Nat :=
  lowBytes + estimateLoop (lowBytes * 8) ilist

def maxLowBytes : Nat := charCodeLimit / 3

/-- The loop of `%choose-low-limit`; the number of bytes tried doubles. -/
def chooseLoop (ilist : List Nat) (lowBytes best bestTotal : Nat) (hpos : 0 < lowBytes) : Nat :=
  if lowBytes < maxLowBytes then
    let total := estimateSize lowBytes ilist
    if total < bestTotal then
      chooseLoop ilist (lowBytes <<< 1) lowBytes total (by rw [Nat.shiftLeft_eq]; omega)
    else chooseLoop ilist (lowBytes <<< 1) best bestTotal (by rw [Nat.shiftLeft_eq]; omega)
  else best * 8
termination_by maxLowBytes - lowBytes
decreasing_by all_goals rw [Nat.shiftLeft_eq]; omega

def chooseLowLimit (ilist : List Nat) : Nat :=
  chooseLoop ilist 1 0 (estimateSize 0 ilist) Nat.one_pos

/-- `set-range!` from `i`, with the number of code points left. -/
def setRange (low : List Byte) (i : Nat) : Nat → List Byte
  | 0 => low
  | n + 1 => setRange (lowSet low i) (i + 1) n

def lowLoop (lowLimit : Nat) : List Nat → List Byte → List Byte
  | s :: e :: ilist, low =>
    if e ≤ lowLimit then lowLoop lowLimit ilist (setRange low s (e - s))
    else if s < lowLimit then setRange low s (lowLimit - s)
    else low
  | _, low => low

def ilistToLow (ilist : List Nat) (lowLimit : Nat) : List Byte :=
  lowLoop lowLimit ilist (makeLow lowLimit)

def skipLow (lowLimit : Nat) : List Nat → List Nat
  | s :: e :: ilist =>
    if e ≤ lowLimit then skipLow lowLimit ilist
    else if s < lowLimit then lowLimit :: e :: ilist
    else s :: e :: ilist
  | _ => []

def ilistToHigh (ilist : List Nat) (lowLimit : Nat) : List Byte :=
  (skipLow lowLimit ilist).flatMap highBytes

def ilistToCharSet (ilist : List Nat) : CharSet :=
  ⟨ilistToLow ilist (chooseLowLimit ilist), ilistToHigh ilist (chooseLowLimit ilist)⟩

/-! ## Folds over the ranges -/

section RangeFold

variable {β : Type} (proc : Nat → Nat → β → β) (cs : CharSet)

/-- `high-loop` of `char-set-range-fold`. -/
def highLoop (i : Nat) (value : β) : β :=
  if i < highLimit cs.high then
    highLoop (i + 2) (proc (highRef cs.high i) (highRef cs.high (i + 1)) value)
  else value
termination_by highLimit cs.high - i

def maybeSplice (s e : Nat) (value : β) : β :=
  if 0 < highLimit cs.high ∧ e = highRef cs.high 0 then
    highLoop proc cs 2 (proc s (highRef cs.high 1) value)
  else highLoop proc cs 0 (proc s e value)

mutual

def lowStart (i : Nat) (value : β) : β :=
  if i < lowLimit cs.low then
    if lowRef cs.low i then lowEnd i (i + 1) value else lowStart (i + 1) value
  else highLoop proc cs 0 value
termination_by lowLimit cs.low - i

/-- `low-end`, inside the range that starts at `i`. -/
def lowEnd (i j : Nat) (value : β) : β :=
  if j < lowLimit cs.low then
    if lowRef cs.low j then lowEnd i (j + 1) value else lowStart (j + 1) (proc i j value)
  else maybeSplice proc cs i j value
termination_by lowLimit cs.low - j

end

def charSetRangeFold (init : β) : β := lowStart proc cs 0 init

mutual

/-- `low-end` of `char-set-range-fold-right`, with the number of code points left. -/
def rightLowEnd : Nat → β → β
  | 0, value => value
  | i + 1, value =>
    if lowRef cs.low i then rightLowStart i (i + 1) value else rightLowEnd i value

/-- `low-start` of `char-set-range-fold-right`. -/
def rightLowStart : Nat → Nat → β → β
  | 0, e, value => proc 0 e value
  | i + 1, e, value =>
    if lowRef cs.low i then rightLowStart i e value
    else rightLowEnd i (proc (i + 1) e value)

end

def rightMaybeSplice (s e : Nat) (value : β) : β :=
  if s = lowLimit cs.low then rightLowStart proc cs (lowLimit cs.low) e value
  else rightLowEnd proc cs (lowLimit cs.low) (proc s e value)

def rightHighLoop (i : Nat) (value : β) : β :=
  if 0 < i then
    rightHighLoop (i - 2) (proc (highRef cs.high i) (highRef cs.high (i + 1)) value)
  else rightMaybeSplice proc cs (highRef cs.high 0) (highRef cs.high 1) value

def charSetRangeFoldRight (init : β) : β :=
  if 2 ≤ highLimit cs.high then rightHighLoop proc cs (highLimit cs.high - 2) init
  else rightLowEnd proc cs (lowLimit cs.low) init

end RangeFold

def charSetToIlist (cs : CharSet) : List Nat :=
  charSetRangeFoldRight (fun s e ilist => s :: e :: ilist) cs []

def charSetSize (cs : CharSet) : Nat :=
  charSetRangeFold (fun s e size => (e - s) + size) cs 0

/-! ## Folds over the characters -/

section CharFold

variable {β : Type} (kons : Character → β → β)

/-- The inner loop of `char-set-fold` from `i`, with the number of code points left. -/
def foldLoop (i : Nat) : Nat → Except Fault β → Except Fault β
  | 0, acc => acc
  | n + 1, acc => foldLoop (i + 1) n do return kons (← integerToChar i) (← acc)

def charSetFold (knil : β) (cs : CharSet) : Except Fault β :=
  charSetRangeFold (fun s e acc => foldLoop kons s (e - s) acc) cs (.ok knil)

/-- The inner loop of `char-set-fold-right`, down to `s`. -/
def foldRightLoop (s : Nat) : Nat → Except Fault β → Except Fault β
  | 0, acc => acc
  | n + 1, acc => foldRightLoop s n do return kons (← integerToChar (s + n)) (← acc)

def charSetFoldRight (knil : β) (cs : CharSet) : Except Fault β :=
  charSetRangeFoldRight (fun s e acc => foldRightLoop kons s (e - s) acc) cs (.ok knil)

end CharFold

def charSetToList (cs : CharSet) : Except Fault (List Character) :=
  charSetFoldRight (fun c l => c :: l) [] cs

/-! ## Cursors -/

/-- What the closures of a cursor keep: the character set object, the place in the range and the
ranges after it. -/
inductive Cursor where
  | finish
  | at (charSet i e : Nat) (ilist : List Nat)
deriving DecidableEq

/-- `scan-ilist`, with the first turn of the loop of `scan-range`. -/
def scanIlist (charSet : Nat) : List Nat → Cursor
  | s :: e :: ilist => if s < e then .at charSet s e ilist else scanIlist charSet ilist
  | _ => .finish

/-- `char-set-cursor` of the object `charSet`. -/
def charSetCursor (charSet : Nat) (cs : CharSet) : Cursor :=
  scanIlist charSet (charSetToIlist cs)

/-- `char-set-ref`; there is no procedure in the cursor at the end. -/
def charSetRef (charSet : Nat) : Cursor → Except Fault Character
  | .finish => .error .inapplicable
  | .at owner i _ _ => if owner = charSet then integerToChar i else .error .badRange

/-- `char-set-cursor-next` passes the character set to the procedure in the cursor, which takes no
argument. -/
def charSetCursorNext : Cursor → Except Fault Cursor
  | .finish => .error .inapplicable
  | .at .. => .error .wrongNumberOfArguments

def endOfCharSet (c : Cursor) : Bool := c = .finish

/-- The cursor protocol, for at most as many steps as `fuel`. -/
def cursorWalk (charSet : Nat) : Nat → Cursor → Except Fault (Option (List Character))
  | 0, _ => .ok none
  | fuel + 1, c =>
    if endOfCharSet c then .ok (some [])
    else do
      let char ← charSetRef charSet c
      let rest ← cursorWalk charSet fuel (← charSetCursorNext c)
      return rest.map (char :: ·)

/-! ## Membership -/

def searchLoop (high : List Byte) (cp lower upper : Nat) : Bool :=
  if lower < upper then
    let i := 2 * ((lower + upper) / 4)
    if cp < highRef high i then searchLoop high cp lower i
    else if highRef high (i + 1) ≤ cp then searchLoop high cp (i + 2) upper
    else true
  else false
termination_by upper - lower
decreasing_by
  · omega
  · omega

/-- `%code-point-in-char-set?`. -/
def codePointInCharSet (cp : Nat) (cs : CharSet) : Bool :=
  if cp < lowLimit cs.low then lowRef cs.low cp
  else searchLoop cs.high cp 0 (highLimit cs.high)

/-! ## Operations on inversion lists -/

mutual

/-- `find-end` of `chars->ilist`; the code points come in decreasing order. -/
def findEnd : List Nat → List Nat → List Nat
  | cp :: cps, ilist => findStart cps cp (cp + 1) ilist
  | [], ilist => ilist
termination_by cps => 2 * cps.length

def findStart : List Nat → Nat → Nat → List Nat → List Nat
  | cp :: cps, s, e, ilist =>
    if cp = s then findStart cps s e ilist
    else if cp + 1 = s then findStart cps cp e ilist
    else findEnd (cp :: cps) (s :: e :: ilist)
  | [], s, e, ilist => s :: e :: ilist
termination_by cps => 2 * cps.length + 1

end

def charsToIlist (chars : List Character) : List Nat :=
  findEnd ((chars.map Character.code).mergeSort fun a b => decide (b ≤ a)) []

def invertLoop (start : Nat) : List Nat → List Nat → List Nat
  | s :: e :: ilist, inverse => invertLoop e ilist (s :: start :: inverse)
  | _, inverse =>
    (if start < charCodeLimit then charCodeLimit :: start :: inverse else inverse).reverse

def ilistInvert : List Nat → List Nat
  | s :: e :: ilist =>
    if 0 < s then invertLoop 0 (s :: e :: ilist) [] else invertLoop e ilist []
  | _ => invertLoop 0 [] []

/-- The fixnum comparisons as an inversion list's elements meet them, and the two constants. -/
structure FixnumOps (m : Type → Type) (α : Type) where
  lt : α → α → m Bool
  eq : α → α → m Bool
  zero : α
  limit : α

def fixnumOps : FixnumOps Id Nat where
  lt a b := decide (a < b)
  eq a b := decide (a = b)
  zero := 0
  limit := charCodeLimit

section Combiner

variable {m : Type → Type} [Monad m] {α : Type} (ops : FixnumOps m α)
  (combine : Bool → Bool → Bool)

/-- `process` of `ilist-combiner`. -/
def process (v : BitVec 2) (s e : α) (result : List α) : m (List α) := do
  if (← ops.lt s e) && combine (v &&& 1 == 1) (v &&& 2 == 2) then
    match result with
    | r :: p :: rest =>
      if ← ops.eq s r then return e :: p :: rest else return e :: s :: r :: p :: rest
    | _ => return e :: s :: result
  else return result

def combineTail (v vi : BitVec 2) (start : α) : List α → List α → m (List α)
  | e :: ilist, result => do
    combineTail (v ^^^ vi) vi e ilist (← process ops combine v start e result)
  | [], result => do
    if ← ops.lt start ops.limit then
      return (← process ops combine v start ops.limit result).reverse
    else return result.reverse

def combineLoop (v : BitVec 2) (start : α) : List α → List α → List α → m (List α)
  | [], il2, result => combineTail ops combine v 2 start il2 result
  | il1, [], result => combineTail ops combine v 1 start il1 result
  | a :: il1, b :: il2, result => do
    let e := if ← ops.lt a b then a else b
    let result' ← process ops combine v start e result
    if ← ops.lt e b then combineLoop (v ^^^ 1) e il1 (b :: il2) result'
    else if ← ops.lt e a then combineLoop (v ^^^ 2) e (a :: il1) il2 result'
    else combineLoop (v ^^^ 3) e il1 il2 result'
termination_by il1 il2 => il1.length + il2.length

def ilistCombiner (il1 il2 : List α) : m (List α) :=
  combineLoop ops combine 0 ops.zero il1 il2 []

end Combiner

def ilistUnion (il1 il2 : List Nat) : List Nat :=
  ilistCombiner fixnumOps (fun a b => a || b) il1 il2

def ilistIntersection (il1 il2 : List Nat) : List Nat :=
  ilistCombiner fixnumOps (fun a b => a && b) il1 il2

def ilistDifference (il1 il2 : List Nat) : List Nat :=
  ilistCombiner fixnumOps (fun a b => a && !b) il1 il2

def ilistXor (il1 il2 : List Nat) : List Nat :=
  ilistCombiner fixnumOps (fun a b => if a then !b else b) il1 il2

/-! ## Ranges -/

inductive Range where
  | codePoint (n : Nat)
  | pair (s e : Nat)

/-- `range?` of an object of that form. -/
def Range.valid : Range → Bool
  | .codePoint n => n < charCodeLimit
  | .pair s e => e ≤ charCodeLimit && s ≤ e

def makeRange (s e : Nat) : Range := if e - s = 1 then .codePoint s else .pair s e

def rangeStart : Range → Nat
  | .codePoint n => n
  | .pair s _ => s

def rangeEnd : Range → Nat
  | .codePoint n => n + 1
  | .pair _ e => e

/-- `range<?`. -/
def rangeLt (r1 r2 : Range) : Bool :=
  rangeStart r1 < rangeStart r2 ||
    (rangeStart r1 == rangeStart r2 && rangeEnd r1 < rangeEnd r2)

/-- The loop of `normalize-ranges`. -/
def normalizeLoop : List Range → List Range
  | r1 :: r2 :: ranges =>
    if rangeEnd r1 < rangeStart r2 then r1 :: normalizeLoop (r2 :: ranges)
    else normalizeLoop (makeRange (rangeStart r1) (max (rangeEnd r1) (rangeEnd r2)) :: ranges)
  | ranges => ranges
termination_by ranges => ranges.length

def normalizeRanges (ranges : List Range) : List Range :=
  normalizeLoop ((ranges.mergeSort fun a b => !rangeLt b a).filter
    fun r => rangeStart r < rangeEnd r)

def rangesToIlist (ranges : List Range) : List Nat :=
  (normalizeRanges ranges).foldr (fun r ilist => rangeStart r :: rangeEnd r :: ilist) []

/-! ## Code-point lists -/

/-- An element of a code-point list; `ν` is the type of the names. -/
inductive CplElement (ν : Type) where
  | range (r : Range)
  | char (c : Character)
  | string (s : List Character)
  | charSet (cs : CharSet)
  | name (n : ν)

section CodePointList

variable {ν : Type} (named : ν → Option CharSet)

/-- `cpl-element?`. -/
def isCplElement : CplElement ν → Bool
  | .range r => r.valid
  | .char _ | .string _ | .charSet _ => true
  | .name n => (named n).isSome

def cplLoop : List (CplElement ν) → List Range → List Nat → Except Fault (List Nat)
  | [], ranges, ilist => .ok (ilistUnion (rangesToIlist ranges) ilist)
  | .range r :: cpl, ranges, ilist => cplLoop cpl (r :: ranges) ilist
  | .char c :: cpl, ranges, ilist => cplLoop cpl (.codePoint c.code :: ranges) ilist
  | .string s :: cpl, ranges, ilist =>
    cplLoop cpl (s.foldl (fun ranges c => .codePoint c.code :: ranges) ranges) ilist
  | .charSet cs :: cpl, ranges, ilist =>
    cplLoop cpl ranges (ilistUnion (charSetToIlist cs) ilist)
  | .name n :: cpl, ranges, ilist =>
    match named n with
    | some cs => cplLoop cpl ranges (ilistUnion (charSetToIlist cs) ilist)
    | none => .error .wrongType

/-- `char-set*`, and `char-set` of the same elements. -/
def charSetStar (cpl : List (CplElement ν)) : Except Fault CharSet :=
  if cpl.all (isCplElement named) then do
    return ilistToCharSet (← cplLoop named cpl [] [])
  else .error .wrongType

end CodePointList

/-! ## Constructors and operations -/

/-- `list->char-set`, and `string->char-set` of the same characters. -/
def listToCharSet (chars : List Character) (baseSet : Option CharSet) : CharSet :=
  ilistToCharSet <|
    match baseSet with
    | none => charsToIlist chars
    | some cs => ilistUnion (charsToIlist chars) (charSetToIlist cs)

def ucsRangeToCharSet (lower upper : Nat) (baseSet : Option CharSet) : Except Fault CharSet :=
  if ¬ lower ≤ upper then .error .badRange
  else if ¬ upper ≤ charCodeLimit then .error .badRange
  else .ok <| ilistToCharSet <|
    match baseSet with
    | none => [lower, upper]
    | some cs => ilistUnion [lower, upper] (charSetToIlist cs)

def charSetAdjoin (cs : CharSet) (chars : List Character) : CharSet :=
  if chars.isEmpty then cs
  else ilistToCharSet (ilistUnion (charSetToIlist cs) (charsToIlist chars))

def charSetDelete (cs : CharSet) (chars : List Character) : CharSet :=
  if chars.isEmpty then cs
  else ilistToCharSet (ilistDifference (charSetToIlist cs) (charsToIlist chars))

def charSetInvert (cs : CharSet) : CharSet := ilistToCharSet (ilistInvert (charSetToIlist cs))

def charSetEmpty : CharSet := ilistToCharSet (ilistUnion (rangesToIlist []) [])

def charSetUnion : List CharSet → CharSet
  | [] => charSetEmpty
  | [cs] => cs
  | cs :: rest =>
    ilistToCharSet ((rest.map charSetToIlist).foldl (fun acc il => ilistUnion il acc)
      (charSetToIlist cs))

/-- `char-set-intersection`; `full` is `char-set:full`. -/
def charSetIntersection (full : CharSet) : List CharSet → CharSet
  | [] => full
  | [cs] => cs
  | cs :: rest =>
    ilistToCharSet ((rest.map charSetToIlist).foldl (fun acc il => ilistIntersection il acc)
      (charSetToIlist cs))

def charSetDifference (cs : CharSet) (rest : List CharSet) : CharSet :=
  if rest.isEmpty then cs
  else ilistToCharSet ((rest.map charSetToIlist).foldl (fun acc il => ilistDifference acc il)
    (charSetToIlist cs))

/-- `char-set-xor`; without an argument it returns no character set. -/
def charSetXor : List CharSet → Option CharSet
  | [] => none
  | cs :: rest =>
    some (ilistToCharSet ((rest.map charSetToIlist).foldl (fun acc il => ilistXor il acc)
      (charSetToIlist cs)))

/-! ## Predicates -/

/-- `char-set=`. -/
def charSetEq : List CharSet → Bool
  | [] => true
  | cs :: rest => rest.all fun cs' => cs'.low == cs.low && cs'.high == cs.high

/-- `char-set-empty?`. -/
def charSetIsEmpty (cs : CharSet) : Bool := cs.low.length == 0 && cs.high.length == 0

end MitScheme.Runtime.CharSets
