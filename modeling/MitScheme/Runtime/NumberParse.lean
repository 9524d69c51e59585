import MitScheme.Runtime.RatnumArith
import MitScheme.Runtime.IntegerRoots
import MitScheme.Lib.Halting

/-! # Parsing numbers

`string->number` of `numpar.scm`. Its procedures call each other in tail position,
so they are the states of a machine: a state has the name of the procedure, or of
its loop, and the text that is left. Two calls are not in tail position. The
continuation of `parse-digits` is a `Goal`; the part of a complex number that is
pending while the other one is parsed stands in the `Comp`. -/

namespace MitScheme.Runtime.NumberParser
open Arith
open Lib.Halting (Next)

/-! ## Characters -/

inductive Radix
  | two | eight | ten | sixteen
  deriving DecidableEq

def Radix.val : Radix → Nat
  | two => 2
  | eight => 8
  | ten => 10
  | sixteen => 16

/-- The ranges of the characters that `char-numeric?` accepts. -/
def decimalRanges : List (Nat × Nat) :=
  [(48, 58), (1632, 1642), (1776, 1786), (1984, 1994), (2406, 2416), (2534, 2544), (2662, 2672),
    (2790, 2800), (2918, 2928), (3046, 3056), (3174, 3184), (3302, 3312), (3430, 3440),
    (3558, 3568), (3664, 3674), (3792, 3802), (3872, 3882), (4160, 4170), (4240, 4250),
    (6112, 6122), (6160, 6170), (6470, 6480), (6608, 6618), (6784, 6794), (6800, 6810),
    (6992, 7002), (7088, 7098), (7232, 7242), (7248, 7258), (42528, 42538), (43216, 43226),
    (43264, 43274), (43472, 43482), (43504, 43514), (43600, 43610), (44016, 44026),
    (65296, 65306), (66720, 66730), (68912, 68922), (69734, 69744), (69872, 69882),
    (69942, 69952), (70096, 70106), (70384, 70394), (70736, 70746), (70864, 70874),
    (71248, 71258), (71360, 71370), (71472, 71482), (71904, 71914), (72016, 72026),
    (72784, 72794), (73040, 73050), (73120, 73130), (92768, 92778), (93008, 93018),
    (120782, 120832), (123200, 123210), (123632, 123642), (125264, 125274), (130032, 130042)]

/-- `digit-value`. In each range the numeric values run from 0 to 9. -/
def digitValue (char : Char) : Option Nat :=
  (decimalRanges.find? fun range => range.1 ≤ char.toNat ∧ char.toNat < range.2).map
    fun range => (char.toNat - range.1) % 10

def charToDigit (char : Char) (radix : Radix) : Option Nat :=
  match digitValue char with
  | some digit => if digit < radix.val then some digit else none
  | none =>
    if radix.val > 10 then
      let n : Int := char.toNat - ('A'.toNat - 10)
      if 10 ≤ n ∧ n < radix.val then some n.toNat
      else
        let n : Int := char.toNat - ('a'.toNat - 10)
        if 10 ≤ n ∧ n < radix.val then some n.toNat else none
    else none

/-- `exponent-marker?`. -/
def exponentMarker (char : Char) : Bool :=
  char ∈ ['e', 'E', 's', 'S', 'f', 'F', 'd', 'D', 'l', 'L']

def powerMarker (char : Char) : Bool := char = 'p' ∨ char = 'P'

inductive Sign
  | plus | minus
  deriving DecidableEq

/-- `sign?`, and the sign. -/
def signOf (char : Char) : Option Sign :=
  if char = '+' then some .plus else if char = '-' then some .minus else none

/-- `i?`. -/
def isI (char : Char) : Bool := char = 'i' ∨ char = 'I'

/-- `(char-ci=? #\n char)`. -/
def isN (char : Char) : Bool := char = 'n' ∨ char = 'N'

/-- `(char-ci=? #\s char)`. The long s folds to s as well. -/
def isS (char : Char) : Bool := char = 's' ∨ char = 'S' ∨ char = 'ſ'

/-- The text behind a pattern that `string-prefix-ci?` finds in front of it. A letter
of the pattern stands for its two cases; nothing else folds to it, and nothing composes
with the last character of a pattern. -/
def afterPattern : List Char → List Char → Option (List Char)
  | [], input => some input
  | _ :: _, [] => none
  | c :: pattern, char :: input =>
    if char = c ∨ char = c.toUpper then afterPattern pattern input else none

/-! ## Numbers -/

inductive Exactness
  | exact | inexact | implicitInexact
  deriving DecidableEq

structure Flonums (F : Type) where
  zero : F
  posInf : F
  negInf : F
  /-- The flonum that `flo:make-nan` makes of a sign, quietness and payload in range. -/
  nan : Bool → Bool → Nat → F
  negate : F → F
  times : F → F → F
  divide : F → F → F
  denormalize : F → Int → F
  sin : F → F
  cos : F → F
  isFinite : F → Bool
  isNan : F → Bool
  /-- `rat:->inexact`. -/
  ratToInexact : Rational → F
  /-- `integer->flonum`, of the flag whether the conversion has to be exact. -/
  integerToFlonum : Nat → Bool → Option F
  /-- `exact-flonum-powers-of-10`. -/
  powersOfTen : List F

inductive RealNumber (F : Type)
  | exact (q : Rational)
  | flonum (x : F)

inductive Number (F : Type)
  | real (x : RealNumber F)
  | recnum (re im : RealNumber F)

variable {F : Type} (flo : Flonums F)

/-- `real:exact0=`. -/
def RealNumber.exactZero : RealNumber F → Bool
  | exact q => q = .int 0
  | flonum _ => false

def realToInexact : RealNumber F → F
  | .exact q => flo.ratToInexact q
  | .flonum x => x

/-- `real:*`. -/
def realTimes : RealNumber F → RealNumber F → Result (RealNumber F)
  | .flonum x, .flonum y => .ok (.flonum (flo.times x y))
  | .flonum x, .exact y =>
    if y = .int 0 then
      if flo.isFinite x then .ok (.exact y)
      else if flo.isNan x then .ok (.flonum x)
      else .ok (.flonum (flo.times x flo.zero))
    else .ok (.flonum (flo.times x (flo.ratToInexact y)))
  | .exact x, .flonum y =>
    if x = .int 0 then
      if flo.isFinite y then .ok (.exact x)
      else if flo.isNan y then .ok (.flonum y)
      else .ok (.flonum (flo.times flo.zero y))
    else .ok (.flonum (flo.times (flo.ratToInexact x) y))
  | .exact x, .exact y => do return .exact (← ratTimes x y)

def realCos (x : RealNumber F) : RealNumber F :=
  if x.exactZero then .exact (.int 1) else .flonum (flo.cos (realToInexact flo x))

def realSin (x : RealNumber F) : RealNumber F :=
  if x.exactZero then .exact (.int 0) else .flonum (flo.sin (realToInexact flo x))

def makeRectangular (re im : RealNumber F) : Number F :=
  if im.exactZero then .real re else .recnum re im

def makePolar (magnitude angle : RealNumber F) : Result (Number F) :=
  if angle.exactZero then .ok (.real magnitude)
  else do
    let re ← realTimes flo magnitude (realCos flo angle)
    let im ← realTimes flo magnitude (realSin flo angle)
    return makeRectangular re im

/-- The payloads that `flo:make-nan` accepts are below this. -/
def nanPayloadLimit : Nat := 2 ^ 51

/-- `flo:make-nan`. -/
def makeNan (negative quiet : Bool) (payload : Nat) : Result F :=
  if payload < nanPayloadLimit ∧ (quiet ∨ payload ≠ 0) then .ok (flo.nan negative quiet payload)
  else .error .badRange

def intToFlonum (n : Nat) : Result F :=
  match flo.integerToFlonum n false with
  | some x => .ok x
  | none => .error .badRange

/-- `flo:ldexp`. -/
def ldexp (x : F) (e : Int) : Result F :=
  if flo.isFinite x then .ok (flo.denormalize x e) else .error .wrongType

/-! ## Finishing a number -/

def asksInexact (exactness : Option Exactness) : Bool :=
  exactness = some .inexact ∨ exactness = some .implicitInexact

/-- `(or exactness 'implicit-inexact)`. -/
def orImplicit (exactness : Option Exactness) : Option Exactness :=
  some (exactness.getD .implicitInexact)

def applyExactness (exactness : Option Exactness) (number : Rational) : RealNumber F :=
  if asksInexact exactness then .flonum (flo.ratToInexact number) else .exact number

/-- `apply-sign`, of a real number. -/
def applySign (sign : Option Sign) (number : RealNumber F) : RealNumber F :=
  if sign = some .minus then
    match number with
    | .flonum x => .flonum (flo.negate x)
    | .exact q => .exact (ratNegate q)
  else number

def finish (number : Rational) (exactness : Option Exactness) (sign : Option Sign) :
    RealNumber F :=
  applySign flo sign (applyExactness flo exactness number)

def finishInteger (integer : Nat) (exactness : Option Exactness) (sign : Option Sign) :
    RealNumber F :=
  finish flo (.int integer) exactness sign

def finishRational (numerator denominator : Nat) (exactness : Option Exactness)
    (sign : Option Sign) : Result (RealNumber F) := do
  return finish flo (← ratDivide (.int numerator) (.int denominator)) exactness sign

/-- `fix:power-of-two?`. -/
def powerOfTwo (x : Nat) : Bool := x &&& (x - 1) = 0

/-- `high-precision-method` of `finish-real`. -/
def highPrecisionMethod (integer : Nat) (rexponent : Int) (exactness : Option Exactness)
    (radix : Radix) (sign : Option Sign) (base : Radix) (bexponent : Int) :
    Result (RealNumber F) := do
  let radixPower ← ratExpt (.int radix.val) rexponent
  let basePower ← ratExpt (.int base.val) bexponent
  let product ← ratTimes (← ratTimes (.int integer) radixPower) basePower
  return applySign flo sign (applyExactness flo exactness product)

/-- The scaling of `finish-real` by a power of two. -/
def scaleByPowerOfTwo (integer : Nat) (rexponent : Int) (radix base : Radix) (bexponent : Int) :
    Result F := do
  let log2r ← fixnum (radix.val.size - 1)
  let log2b ← fixnum (base.val.size - 1)
  let e ← fxPlus (← fxTimes (← fixnum rexponent) log2r) (← fxTimes (← fixnum bexponent) log2b)
  ldexp flo (← intToFlonum flo integer) e.val

/-- `finish-real`. The flag `flonum-parser-fast?` is off. -/
def finishReal (integer : Nat) (rexponent : Int) (exactness : Option Exactness) (radix : Radix)
    (sign : Option Sign) (base : Radix) (bexponent : Int) : Result (RealNumber F) :=
  let highPrecision := highPrecisionMethod flo integer rexponent exactness radix sign base bexponent
  if radix = .ten ∧ base = .ten ∧ asksInexact exactness then
    let exponent := rexponent + bexponent
    match flo.powersOfTen[exponent.natAbs]?, flo.integerToFlonum integer true with
    | some power, some x =>
      let magnitude := if exponent = exponent.natAbs then flo.times x power else flo.divide x power
      .ok (.flonum (if sign = some .minus then flo.negate magnitude else magnitude))
    | _, _ => highPrecision
  else if powerOfTwo radix.val ∧ powerOfTwo base.val ∧ asksInexact exactness then do
    let x ← scaleByPowerOfTwo flo integer rexponent radix base bexponent
    return .flonum (if sign = some .minus then flo.negate x else x)
  else highPrecision

/-! ## The states -/

/-- Where the number that is parsed stands, with what was parsed before it. -/
inductive Comp (F : Type)
  | real
  | imag (re : RealNumber F)
  | angle (magnitude : RealNumber F)

structure Context (F : Type) where
  exactness : Option Exactness
  radix : Radix
  sign : Option Sign
  comp : Comp F

/-- What follows the digits: the continuation of `parse-integer`, or the one of
`parse-denominator-1` with its numerator and the start of the denominator. -/
inductive Goal
  | integer
  | denominator (numerator : Nat) (start : List Char)

inductive State (F : Type)
  | number (input : List Char) (exactness : Option Exactness) (radix defaultRadix : Option Radix)
  | topLevel (input : List Char) (exactness : Option Exactness) (radix : Option Radix)
      (comp : Comp F)
  | leader (input : List Char) (exactness : Option Exactness) (radix : Radix) (sign : Sign)
      (comp : Comp F)
  | digits (input : List Char) (integer : Nat) (goal : Goal) (ctx : Context F)
  | sharps (input : List Char) (integer : Nat) (goal : Goal) (ctx : Context F)
  | dotted1 (input : List Char) (ctx : Context F)
  | dotted2 (input : List Char) (integer : Nat) (rexponent : Int) (ctx : Context F)
  | dotted3 (input : List Char) (integer : Nat) (rexponent : Int) (ctx : Context F)
  | exponent1 (input : List Char) (integer : Nat) (rexponent : Int) (base : Radix)
      (ctx : Context F)
  | exponentDigits (input : List Char) (eint : Nat) (esign : Option Sign) (integer : Nat)
      (rexponent : Int) (base : Radix) (ctx : Context F)
  | complex (input : List Char) (real : RealNumber F) (ctx : Context F)
  | nanPayload (input : List Char) (payload : Nat) (quiet : Bool) (ctx : Context F)

abbrev Outcome (F : Type) := Next (State F) (Option (Number F))

def reject : Result (Outcome F) := .ok (.done none)

/-- The parsed real number is the whole number, or its second part. -/
def Comp.accept (comp : Comp F) (v : RealNumber F) : Result (Outcome F) :=
  match comp with
  | real => .ok (.done (some (.real v)))
  | imag re => .ok (.done (some (makeRectangular re v)))
  | angle magnitude => do return .done (some (← makePolar flo magnitude v))

/-- The end of the text in front of which an imaginary part lacks its `i`. -/
def Comp.acceptEnd (comp : Comp F) (v : Result (RealNumber F)) : Result (Outcome F) :=
  match comp with
  | imag _ => reject
  | comp => do comp.accept flo (← v)

/-- A sign or a number in front of the last `i`. -/
def Comp.acceptImaginary (comp : Comp F) (v : RealNumber F) : Result (Outcome F) :=
  match comp with
  | real => .ok (.done (some (makeRectangular (.exact (.int 0)) v)))
  | imag re => .ok (.done (some (makeRectangular re v)))
  | angle _ => reject

/-- The radix of a character behind `#`. -/
def radixMarker (char : Char) : Option Radix :=
  if char = 'b' ∨ char = 'B' then some .two
  else if char = 'o' ∨ char = 'O' then some .eight
  else if char = 'd' ∨ char = 'D' then some .ten
  else if char = 'x' ∨ char = 'X' then some .sixteen
  else none

/-- The exactness of a character behind `#`. -/
def exactnessMarker (char : Char) : Option Exactness :=
  if char = 'e' ∨ char = 'E' then some .exact
  else if char = 'i' ∨ char = 'I' then some .inexact
  else none

/-- The loop of `parse-number`. -/
def parseNumber (input : List Char) (exactness : Option Exactness)
    (radix defaultRadix : Option Radix) : Result (Outcome F) :=
  match input with
  | [] => reject
  | '#' :: [] => reject
  | '#' :: char :: input =>
    match radixMarker char, exactnessMarker char with
    | some r, _ =>
      if radix.isNone then .ok (.goto (.number input exactness (some r) defaultRadix))
      else reject
    | none, some e =>
      if exactness.isNone then .ok (.goto (.number input (some e) radix defaultRadix))
      else reject
    | none, none => reject
  | input => .ok (.goto (.topLevel input exactness (radix.or defaultRadix) .real))

def parseTopLevel (input : List Char) (exactness : Option Exactness) (radix : Option Radix)
    (comp : Comp F) : Result (Outcome F) :=
  match input with
  | [] => reject
  | char :: input =>
    match signOf char with
    | some sign => .ok (.goto (.leader input exactness (radix.getD .ten) sign comp))
    | none =>
      if char = '.' then
        if radix = none ∨ radix = some .ten ∨ radix = some .sixteen then
          .ok (.goto (.dotted1 input ⟨orImplicit exactness, radix.getD .ten, none, comp⟩))
        else reject
      else
        match charToDigit char (radix.getD .ten) with
        | some digit =>
          .ok (.goto (.digits input digit .integer ⟨exactness, radix.getD .ten, none, comp⟩))
        | none => reject

def findLeader (input : List Char) (exactness : Option Exactness) (radix : Radix) (sign : Sign)
    (comp : Comp F) : Result (Outcome F) :=
  match input with
  | [] => reject
  | char :: input =>
    match charToDigit char radix with
    | some digit => .ok (.goto (.digits input digit .integer ⟨exactness, radix, some sign, comp⟩))
    | none =>
      if char = '.' then
        .ok (.goto (.dotted1 input ⟨orImplicit exactness, radix, some sign, comp⟩))
      else
        match (if isI char then afterPattern "nf.0".toList input else none),
          (if isN char then afterPattern "an.".toList input else none),
          (if isS char then afterPattern "nan.".toList input else none) with
        | some rest, _, _ =>
          if exactness = some .exact then reject
          else
            .ok (.goto (.complex rest (.flonum (if sign = .minus then flo.negInf else flo.posInf))
              ⟨exactness, radix, some sign, comp⟩))
        | none, some rest, _ =>
          .ok (.goto (.nanPayload rest 0 true ⟨exactness, radix, some sign, comp⟩))
        | none, none, some rest =>
          .ok (.goto (.nanPayload rest 0 false ⟨exactness, radix, some sign, comp⟩))
        | none, none, none =>
          if isI char ∧ input = [] then
            comp.acceptImaginary (.exact (.int (if sign = .minus then -1 else 1)))
          else reject

def parseComplex (input : List Char) (real : RealNumber F) (ctx : Context F) : Result (Outcome F) :=
  match input with
  | [] => ctx.comp.acceptEnd flo (.ok real)
  | char :: rest =>
    let exactness := if ctx.exactness = some .implicitInexact then none else ctx.exactness
    if isI char then
      if ctx.sign.isSome ∧ rest = [] then ctx.comp.acceptImaginary real else reject
    else
      match ctx.comp with
      | .real =>
        if (signOf char).isSome then .ok (.goto (.topLevel input exactness ctx.radix (.imag real)))
        else if char = '@' then .ok (.goto (.topLevel rest exactness ctx.radix (.angle real)))
        else reject
      | _ => reject

/-- The continuation of `parse-integer` behind the digits. -/
def afterInteger (input : List Char) (integer : Nat) (sharp : Bool) (ctx : Context F) :
    Result (Outcome F) :=
  let implicit := { ctx with exactness := orImplicit ctx.exactness }
  match input with
  | [] => ctx.comp.acceptEnd flo (.ok (finishInteger flo integer ctx.exactness ctx.sign))
  | char :: rest =>
    if char = '/' then .ok (.goto (.digits rest 0 (.denominator integer rest) ctx))
    else if char = '.' then
      if sharp then .ok (.goto (.dotted3 rest integer 0 ctx))
      else .ok (.goto (.dotted2 rest integer 0 implicit))
    else if exponentMarker char then
      if ctx.radix = .ten then .ok (.goto (.exponent1 rest integer 0 .ten implicit)) else reject
    else if powerMarker char then .ok (.goto (.exponent1 rest integer 0 .two implicit))
    else .ok (.goto (.complex input (finishInteger flo integer ctx.exactness ctx.sign) ctx))

/-- The continuation of `parse-denominator-1` behind the digits. -/
def afterDenominator (input : List Char) (numerator denominator : Nat) (start : List Char)
    (ctx : Context F) : Result (Outcome F) :=
  if input.length < start.length then do
    let q ← finishRational flo numerator denominator ctx.exactness ctx.sign
    return .goto (.complex input q ctx)
  else reject

/-- The call of the continuation of `parse-digits`. -/
def Goal.continue (goal : Goal) (input : List Char) (integer : Nat) (sharp : Bool)
    (ctx : Context F) : Result (Outcome F) :=
  match goal with
  | .integer => afterInteger flo input integer sharp ctx
  | .denominator numerator start => afterDenominator flo input numerator integer start ctx

/-- The loop of `parse-digits`. -/
def parseDigits (input : List Char) (integer : Nat) (goal : Goal) (ctx : Context F) :
    Result (Outcome F) :=
  match input with
  | [] => goal.continue flo [] integer false ctx
  | char :: rest =>
    match charToDigit char ctx.radix with
    | some digit => .ok (.goto (.digits rest (integer * ctx.radix.val + digit) goal ctx))
    | none =>
      if char = '#' then .ok (.goto (.sharps rest (integer * ctx.radix.val) goal ctx))
      else goal.continue flo input integer false ctx

/-- The loop of `parse-digits` behind a `#`. -/
def parseSharps (input : List Char) (integer : Nat) (goal : Goal) (ctx : Context F) :
    Result (Outcome F) :=
  match input with
  | '#' :: rest => .ok (.goto (.sharps rest (integer * ctx.radix.val) goal ctx))
  | input =>
    goal.continue flo input integer true { ctx with exactness := orImplicit ctx.exactness }

def parseDotted1 (input : List Char) (ctx : Context F) : Result (Outcome F) :=
  match input with
  | [] => reject
  | char :: rest =>
    match charToDigit char ctx.radix with
    | some digit => .ok (.goto (.dotted2 rest digit (-1) ctx))
    | none => reject

def parseDotted5 (input : List Char) (integer : Nat) (rexponent : Int) (ctx : Context F)
    (base : Radix) (bexponent : Int) : Result (Outcome F) := do
  let x ← finishReal flo integer rexponent ctx.exactness ctx.radix ctx.sign base bexponent
  return .goto (.complex input x ctx)

/-- `parse-dotted-4`, at a character that is not a digit of the fraction. -/
def parseDotted4 (char : Char) (rest : List Char) (integer : Nat) (rexponent : Int)
    (ctx : Context F) : Result (Outcome F) :=
  if exponentMarker char then
    if ctx.radix = .ten then .ok (.goto (.exponent1 rest integer rexponent .ten ctx)) else reject
  else if powerMarker char then
    if ctx.radix = .sixteen then .ok (.goto (.exponent1 rest integer rexponent .two ctx))
    else reject
  else parseDotted5 flo (char :: rest) integer rexponent ctx .ten 0

/-- The loop of `parse-dotted-2`. -/
def parseDotted2 (input : List Char) (integer : Nat) (rexponent : Int) (ctx : Context F) :
    Result (Outcome F) :=
  match input with
  | [] =>
    ctx.comp.acceptEnd flo
      (finishReal flo integer rexponent ctx.exactness ctx.radix ctx.sign .ten 0)
  | char :: rest =>
    match charToDigit char ctx.radix with
    | some digit =>
      .ok (.goto (.dotted2 rest (integer * ctx.radix.val + digit) (rexponent - 1) ctx))
    | none =>
      if char = '#' then .ok (.goto (.dotted3 rest integer rexponent ctx))
      else parseDotted4 flo char rest integer rexponent ctx

/-- The loop of `parse-dotted-3`. -/
def parseDotted3 (input : List Char) (integer : Nat) (rexponent : Int) (ctx : Context F) :
    Result (Outcome F) :=
  match input with
  | [] =>
    ctx.comp.acceptEnd flo
      (finishReal flo integer rexponent ctx.exactness ctx.radix ctx.sign ctx.radix 0)
  | char :: rest =>
    if char = '#' then .ok (.goto (.dotted3 rest integer rexponent ctx))
    else parseDotted4 flo char rest integer rexponent ctx

/-- `get-digits` of `parse-exponent-1`, to the first digit. -/
def getDigits (start : List Char) (esign : Option Sign) (integer : Nat) (rexponent : Int)
    (base : Radix) (ctx : Context F) : Result (Outcome F) :=
  match start with
  | [] => reject
  | char :: rest =>
    match charToDigit char .ten with
    | some digit => .ok (.goto (.exponentDigits rest digit esign integer rexponent base ctx))
    | none => reject

def parseExponent1 (input : List Char) (integer : Nat) (rexponent : Int) (base : Radix)
    (ctx : Context F) : Result (Outcome F) :=
  match input with
  | [] => reject
  | char :: rest =>
    match signOf char with
    | some esign => getDigits rest (some esign) integer rexponent base ctx
    | none => getDigits input none integer rexponent base ctx

/-- The loop of `get-digits`, and `continue` of `parse-exponent-1` behind it. -/
def parseExponentDigits (input : List Char) (eint : Nat) (esign : Option Sign) (integer : Nat)
    (rexponent : Int) (base : Radix) (ctx : Context F) : Result (Outcome F) :=
  let bexponent : Int := if esign = some .minus then -eint else eint
  match input with
  | [] =>
    ctx.comp.acceptEnd flo
      (finishReal flo integer rexponent ctx.exactness ctx.radix ctx.sign base bexponent)
  | char :: rest =>
    match charToDigit char .ten with
    | some digit =>
      .ok (.goto (.exponentDigits rest (eint * 10 + digit) esign integer rexponent base ctx))
    | none => parseDotted5 flo input integer rexponent ctx base bexponent

def finishNan (payload : Nat) (quiet : Bool) (ctx : Context F) : Result (Option F) :=
  if (quiet ∨ payload ≠ 0) ∧ ctx.exactness ≠ some .exact then do
    return some (← makeNan flo (ctx.sign = some .minus) quiet payload)
  else .ok none

/-- The loop of `parse-nan-payload`. At the end of the text it does not ask where the
number stands. -/
def parseNanPayload (input : List Char) (payload : Nat) (quiet : Bool) (ctx : Context F) :
    Result (Outcome F) :=
  match input with
  | [] => do
    match ← finishNan flo payload quiet ctx with
    | some nan => ctx.comp.accept flo (.flonum nan)
    | none => reject
  | char :: rest =>
    match charToDigit char ctx.radix with
    | some digit =>
      .ok (.goto (.nanPayload rest (payload * ctx.radix.val + digit) quiet ctx))
    | none => do
      match ← finishNan flo payload quiet ctx with
      | some nan => return .goto (.complex input (.flonum nan) ctx)
      | none => reject

def step : State F → Result (Outcome F)
  | .number input exactness radix defaultRadix => parseNumber input exactness radix defaultRadix
  | .topLevel input exactness radix comp => parseTopLevel input exactness radix comp
  | .leader input exactness radix sign comp => findLeader flo input exactness radix sign comp
  | .digits input integer goal ctx => parseDigits flo input integer goal ctx
  | .sharps input integer goal ctx => parseSharps flo input integer goal ctx
  | .dotted1 input ctx => parseDotted1 input ctx
  | .dotted2 input integer rexponent ctx => parseDotted2 flo input integer rexponent ctx
  | .dotted3 input integer rexponent ctx => parseDotted3 flo input integer rexponent ctx
  | .exponent1 input integer rexponent base ctx => parseExponent1 input integer rexponent base ctx
  | .exponentDigits input eint esign integer rexponent base ctx =>
    parseExponentDigits flo input eint esign integer rexponent base ctx
  | .complex input real ctx => parseComplex flo input real ctx
  | .nanPayload input payload quiet ctx => parseNanPayload flo input payload quiet ctx

def State.input : State F → List Char
  | number input .. | topLevel input .. | leader input .. | digits input .. | sharps input ..
  | dotted1 input .. | dotted2 input .. | dotted3 input .. | exponent1 input ..
  | exponentDigits input .. | complex input .. | nanPayload input .. => input

/-- How many states may follow one another without a character read. -/
def State.rank : State F → Nat
  | number .. => 2
  | topLevel .. => 1
  | leader .. => 0
  | complex .. => 2
  | _ => 3

def State.measure (s : State F) : Nat := 4 * s.input.length + s.rank

/-- `string->number`, without the argument `error?`. -/
def stringToNumber (string : List Char) (radix : Option Radix) : Result (Option (Number F)) :=
  let start : State F := .number string none none radix
  Lib.Halting.run (step flo) .outOfFuel (start.measure + 1) start

end MitScheme.Runtime.NumberParser
