import MitScheme.Runtime.NumberParse

/-! # The grammar of numbers

The text of a number, apart from how it is parsed: the marks in front of it, its
digits with their value, the point, the exponent, and the real numbers that stand in
front of an imaginary part or an angle. On these words, the texts that break what
`string->number` promises. -/

namespace MitScheme.Runtime.NumberParser
open Arith

variable {F : Type}

/-! ## Words -/

def Sign.char : Sign → Char
  | plus => '+'
  | minus => '-'

def signText (sign : Option Sign) : List Char := sign.toList.map Sign.char

/-- The marks in front of a number, at most one of its exactness and one of its radix. -/
inductive Marks : List Char → Option Exactness → Option Radix → Prop
  | nil : Marks [] none none
  | radix {m e char r} : Marks m e none → radixMarker char = some r →
      Marks (m ++ ['#', char]) e (some r)
  | exactness {m r char e} : Marks m none r → exactnessMarker char = some e →
      Marks (m ++ ['#', char]) (some e) r

section
variable (radix : Radix)

/-- The text `start`, of value `n₀`, with digits and then `#`s behind it. A `#` stands for
a digit 0. -/
inductive Places (start : List Char) (n₀ : Nat) : Bool → List Char → Nat → Prop
  | start : Places start n₀ false start n₀
  | digit {w n char d} : Places start n₀ false w n → charToDigit char radix = some d →
      Places start n₀ false (w ++ [char]) (n * radix.val + d)
  | sharp {b w n} : Places start n₀ b w n → Places start n₀ true (w ++ ['#']) (n * radix.val)

variable (sign : Option Sign)

/-- The flag says whether there are `#`s behind the digits. -/
def Integer (sharp : Bool) (w : List Char) (n : Nat) : Prop :=
  ∃ char d, charToDigit char radix = some d ∧
    Places radix (signText sign ++ [char]) d sharp w n

/-- Digits with a point among them, of value `n * radix ^ x`. -/
inductive Point : Bool → List Char → Nat → Int → Prop
  | integer {b w n} : Integer radix sign b w n → Point b (w ++ ['.']) n 0
  | leading {char d} : sign.isSome ∨ radix = .ten ∨ radix = .sixteen →
      charToDigit char radix = some d → Point false (signText sign ++ ['.', char]) d (-1)
  | digit {w n x char d} : Point false w n x → charToDigit char radix = some d →
      Point false (w ++ [char]) (n * radix.val + d) (x - 1)
  | sharp {b w n x} : Point b w n x → Point true (w ++ ['#']) n x

def ExponentMark (base : Radix) (char : Char) : Prop :=
  base = .ten ∧ radix = .ten ∧ exponentMarker char ∨ base = .two ∧ powerMarker char

/-- A significand with the mark of its exponent. Behind a point the exponent of a power of
two is one of radix 16. -/
inductive Marked (base : Radix) : List Char → Nat → Int → Prop
  | integer {b w n char} : Integer radix sign b w n → ExponentMark radix base char →
      Marked base (w ++ [char]) n 0
  | point {b w n x char} : Point radix sign b w n x → ExponentMark radix base char →
      (base = .two → radix = .sixteen) → Marked base (w ++ [char]) n x

def Exponent (base : Radix) (esign : Option Sign) (w : List Char) (n : Nat) (x : Int) (y : Nat) :
    Prop :=
  ∃ m char d, Marked radix sign base m n x ∧ charToDigit char .ten = some d ∧
    Places .ten (m ++ signText esign ++ [char]) d false w y

def exponentValue (esign : Option Sign) (y : Nat) : Int := if esign = some .minus then -y else y

/-- A name of the grammar, without its first character in `pattern`. -/
def Named (first : Char → Bool) (pattern : List Char) (w : List Char) : Prop :=
  ∃ char v, w = char :: v ∧ first char ∧ afterPattern pattern v = some []

def NanName : Bool → List Char → Prop
  | true => Named isN "an.".toList
  | false => Named isS "nan.".toList

def Payload (quiet : Bool) (w : List Char) (y : Nat) : Prop :=
  ∃ s name, sign = some s ∧ NanName quiet name ∧ Places radix (s.char :: name) 0 false w y

/-! ## Numbers -/

def IsFixnum (v : Int) : Prop :=
  -2 ^ Microcode.fixnumLength ≤ v ∧ v < 2 ^ Microcode.fixnumLength

instance : DecidablePred IsFixnum := fun v =>
  inferInstanceAs (Decidable (-2 ^ Microcode.fixnumLength ≤ v ∧ v < 2 ^ Microcode.fixnumLength))

def Radix.log2 (radix : Radix) : Int := radix.val.size - 1

/-- The significand has a finite flonum, and the exponent is computed in fixnums. -/
structure Scalable (flo : Flonums F) (integer : Nat) (rexponent : Int) (radix base : Radix)
    (bexponent : Int) : Prop where
  significand : ∃ x, flo.integerToFlonum integer false = some x ∧ flo.isFinite x
  ofRadix : IsFixnum rexponent
  ofBase : IsFixnum bexponent
  radixPart : IsFixnum (rexponent * radix.log2)
  basePart : IsFixnum (bexponent * base.log2)
  exponent : IsFixnum (rexponent * radix.log2 + bexponent * base.log2)

/-- An inexact number that is scaled by a power of two, and cannot be. -/
def Unscalable (flo : Flonums F) (integer : Nat) (rexponent : Int) (exactness : Option Exactness)
    (radix base : Radix) (bexponent : Int) : Prop :=
  powerOfTwo radix.val ∧ powerOfTwo base.val ∧ asksInexact exactness ∧
    ¬Scalable flo integer rexponent radix base bexponent

variable (flo : Flonums F) (e : Option Exactness)

/-- A real number that can have an imaginary part or an angle behind it. -/
inductive RealText : List Char → Prop
  | integer {b w n} : Integer radix sign b w n → RealText w
  | ratio {a b n b' w d} : Integer radix sign b a n → Places radix (a ++ ['/']) 0 b' w d → d ≠ 0 →
      RealText w
  | point {b w n x} : Point radix sign b w n x → RealText w
  | exponent {base esign w n x y} : Exponent radix sign base esign w n x y →
      ¬Unscalable flo n x (orImplicit e) radix base (exponentValue esign y) → RealText w
  | infinity {s w} : sign = some s → e ≠ some .exact → Named isI "nf.0".toList w →
      RealText (s.char :: w)
  | nan {quiet w y} : e ≠ some .exact → Payload radix sign quiet w y → (quiet ∨ y ≠ 0) →
      y < nanPayloadLimit → RealText w

end

inductive Place
  | real | imag | angle
  deriving DecidableEq

def markedRadix : List Char → Option Radix → Option Radix
  | '#' :: char :: input, radix => markedRadix input (radix.or (radixMarker char))
  | _, radix => radix

/-- The radix of a string: the one it is marked with, the argument, or ten. -/
def readRadix (string : List Char) (radix : Option Radix) : Radix :=
  ((markedRadix string none).or radix).getD .ten

/-- A number begins in front of `text`: the first one of the string, the imaginary part,
or the angle. -/
inductive NumberAt (flo : Flonums F) (string : List Char) (radix : Option Radix)
    (e : Option Exactness) : Place → List Char → Prop
  | first {m r char text} : Marks m e r → string = m ++ char :: text → char ≠ '#' →
      NumberAt flo string radix e .real (char :: text)
  | imag {w sign s text} : NumberAt flo string radix e .real (w ++ Sign.char s :: text) →
      RealText (readRadix string radix) sign flo e w →
      NumberAt flo string radix e .imag (s.char :: text)
  | angle {w sign text} : NumberAt flo string radix e .real (w ++ '@' :: text) →
      RealText (readRadix string radix) sign flo e w → NumberAt flo string radix e .angle text

/-! ## The texts that break a promise -/

def DigitsEnd (input : List Char) (radix : Radix) : Prop :=
  ∀ char ∈ input.head?, charToDigit char radix = none

/-- A number that is an error: a denominator of digits and `#`s that is zero, a power of
two out of range, or a payload that no NaN has. What is behind it does not matter. -/
inductive Fault (flo : Flonums F) (radix : Radix) (e : Option Exactness) (place : Place) :
    List Char → Prop
  | ratio {sign b a n b' w rest} : Integer radix sign b a n →
      Places radix (a ++ ['/']) 0 b' w 0 → w ≠ a ++ ['/'] →
      (b' = false → DigitsEnd rest radix) → rest.head? ≠ some '#' →
      Fault flo radix e place (w ++ rest)
  | sharps {sign w n x} : Point radix sign true w n x → place ≠ .imag →
      Unscalable flo n x (orImplicit e) radix radix 0 → Fault flo radix e place w
  | exponent {sign base esign w n x y rest} : Exponent radix sign base esign w n x y →
      DigitsEnd rest .ten → (rest = [] → place ≠ .imag) →
      Unscalable flo n x (orImplicit e) radix base (exponentValue esign y) →
      Fault flo radix e place (w ++ rest)
  | payload {sign quiet w y rest} : e ≠ some .exact → Payload radix sign quiet w y →
      DigitsEnd rest radix → nanPayloadLimit ≤ y → Fault flo radix e place (w ++ rest)

def HasFault (flo : Flonums F) (string : List Char) (radix : Option Radix) : Prop :=
  ∃ e place text, NumberAt flo string radix e place text ∧
    Fault flo (readRadix string radix) e place text

/-- The imaginary part is a NaN, and the text ends behind its payload. -/
def EndsInNan (flo : Flonums F) (string : List Char) (radix : Option Radix) : Prop :=
  ∃ e sign quiet w y, NumberAt flo string radix e .imag w ∧ e ≠ some .exact ∧
    Payload (readRadix string radix) sign quiet w y ∧ (quiet ∨ y ≠ 0) ∧ y < nanPayloadLimit

/-- An integer has the mark of a power of two behind it, in a radix that is not 16. -/
def HasIntegerPower (flo : Flonums F) (string : List Char) (radix : Option Radix) : Prop :=
  ∃ e place sign b w n char text, NumberAt flo string radix e place (w ++ char :: text) ∧
    Integer (readRadix string radix) sign b w n ∧ powerMarker char ∧
    readRadix string radix ≠ .sixteen

end MitScheme.Runtime.NumberParser
