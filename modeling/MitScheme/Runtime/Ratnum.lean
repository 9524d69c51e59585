import MitScheme.Runtime.Integer

/-! # Exact rationals

The rational procedures of `arith.scm`. A rational is an exact integer or a
ratnum of a numerator and a denominator; nothing in the representation keeps a
ratnum in lowest terms, the procedures have to. -/

namespace MitScheme.Runtime.Arith

inductive Rational
  | int (n : Int)
  | ratnum (numerator denominator : Int)
  deriving DecidableEq

namespace Rational

/-- An integer, or a ratnum in lowest terms whose denominator is above one. -/
def Canonical : Rational → Prop
  | int _ => True
  | ratnum n d => 1 < d ∧ Int.gcd n d = 1

instance : DecidablePred Canonical
  | int _ => inferInstanceAs (Decidable True)
  | ratnum n d => inferInstanceAs (Decidable (1 < d ∧ Int.gcd n d = 1))

def toRat : Rational → ℚ
  | int n => n
  | ratnum n d => n / d

end Rational

open Rational

def makeRational (n d : Int) : Rational := if n = 0 ∨ 1 = d then .int n else .ratnum n d

/-- `rat:=`. -/
def ratEqual : Rational → Rational → Bool
  | .ratnum n d, .ratnum n' d' => n = n' ∧ d = d'
  | .ratnum _ _, .int _ => false
  | .int _, .ratnum _ _ => false
  | .int n, .int n' => n = n'

/-- `rat:<`. -/
def ratLess : Rational → Rational → Bool
  | .ratnum n d, .ratnum n' d' => n * d' < n' * d
  | .ratnum n d, .int r => n < r * d
  | .int q, .ratnum n d => q * d < n
  | .int q, .int r => q < r

/-- `rat:negative?`. -/
def ratNegative : Rational → Bool
  | .ratnum n _ => n < 0
  | .int n => n < 0

/-- `rat:positive?`. -/
def ratPositive : Rational → Bool
  | .ratnum n _ => n > 0
  | .int n => n > 0

def ratBinaryOperator (q r : Rational) (intInt : Int → Int → Result Rational)
    (intRat ratInt : Int → Int → Int → Result Rational)
    (ratRat : Int → Int → Int → Int → Result Rational) : Result Rational :=
  match q, r with
  | .ratnum u u', .ratnum v v' => ratRat u u' v v'
  | .ratnum u u', .int v => ratInt u u' v
  | .int u, .ratnum v v' => intRat u v v'
  | .int u, .int v => intInt u v

/-- `define-addition-operator`. -/
def additionOperator (op : Int → Int → Int) (q r : Rational) : Result Rational :=
  ratBinaryOperator q r
    (fun u v => .ok (.int (op u v)))
    (fun u v v' => .ok (makeRational (op (u * v') v) v'))
    (fun u u' v => .ok (makeRational (op u (v * u')) u'))
    (fun u u' v v' => do
      let d1 := intGcd u' v'
      if d1 = 1 then return makeRational (op (u * v') (v * u')) (u' * v')
      else
        let uDivided ← intQuotient u' d1
        let t := op (u * (← intQuotient v' d1)) (v * uDivided)
        if t = 0 then return .int 0
        else
          let d2 := intGcd t d1
          return makeRational (← intQuotient t d2) (uDivided * (← intQuotient v' d2)))

/-- `rat:+`. -/
def ratPlus : Rational → Rational → Result Rational := additionOperator (· + ·)

/-- `rat:-`. -/
def ratMinus : Rational → Rational → Result Rational := additionOperator (· - ·)

/-- `rat:1+`. -/
def ratAddOne : Rational → Rational
  | .ratnum v v' => .ratnum (v + v') v'
  | .int v => .int (v + 1)

/-- `rat:-1+`. -/
def ratSubtractOne : Rational → Rational
  | .ratnum v v' => .ratnum (v - v') v'
  | .int v => .int (v - 1)

def ratNegate : Rational → Rational
  | .ratnum v v' => .ratnum (-v) v'
  | .int v => .int (-v)

/-- `rat:*`. -/
def ratTimes (q r : Rational) : Result Rational :=
  ratBinaryOperator q r
    (fun u v => .ok (.int (u * v)))
    (fun u v v' => do
      let d := intGcd u v'
      return makeRational ((← intQuotient u d) * v) (← intQuotient v' d))
    (fun u u' v => do
      let d := intGcd v u'
      return makeRational (u * (← intQuotient v d)) (← intQuotient u' d))
    (fun u u' v v' => do
      let d1 := intGcd u v'
      let d2 := intGcd v u'
      return makeRational ((← intQuotient u d1) * (← intQuotient v d2))
        ((← intQuotient u' d2) * (← intQuotient v' d1)))

def ratSquare : Rational → Rational
  | .ratnum n d => .ratnum (n * n) (d * d)
  | .int q => .int (q * q)

def ratCube : Rational → Rational
  | .ratnum n d => .ratnum (n * (n * n)) (d * (d * d))
  | .int q => .int (q * (q * q))

def ratSignCorrection (u v : Int) (cont : Int → Int → Result Rational) : Result Rational :=
  if v < 0 then cont (-u) (-v) else cont u v

/-- `rat:/`. -/
def ratDivide (q r : Rational) : Result Rational :=
  ratBinaryOperator q r
    (fun u v =>
      if v = 0 then .error .divideByZero
      else ratSignCorrection u v fun u v => do
        let d := intGcd u v
        return makeRational (← intQuotient u d) (← intQuotient v d))
    (fun u v v' => ratSignCorrection u v fun u v => do
      let d := intGcd u v
      return makeRational ((← intQuotient u d) * v') (← intQuotient v d))
    (fun u u' v =>
      if v = 0 then .error .divideByZero
      else ratSignCorrection u v fun u v => do
        let d := intGcd u v
        return makeRational (← intQuotient u d) (u' * (← intQuotient v d)))
    (fun u u' v v' => do
      let d1 := intGcd u v
      let d2 := intGcd v' u'
      let d2 := if v < 0 then -d2 else d2
      return makeRational ((← intQuotient u d1) * (← intQuotient v' d2))
        ((← intQuotient u' d2) * (← intQuotient v d1)))

def ratInvert : Rational → Result Rational
  | .ratnum v v' =>
    if v > 0 then .ok (makeRational v' v)
    else if v < 0 then .ok (makeRational (-v') (-v))
    else .error .divideByZero
  | .int v =>
    if v > 0 then .ok (makeRational 1 v)
    else if v < 0 then .ok (makeRational (-1) (-v))
    else .error .divideByZero

def ratAbs : Rational → Rational
  | .ratnum n d => if n < 0 then .ratnum (-n) d else .ratnum n d
  | .int q => if q < 0 then .int (-q) else .int q

/-- `define-integer-coercion`. -/
def integerCoercion (coerce : Int → Int → Result Int) : Rational → Result Int
  | .ratnum n d => coerce n d
  | .int q => .ok q

def ratFloor : Rational → Result Int := integerCoercion intFloor

def ratCeiling : Rational → Result Int := integerCoercion intCeiling

def ratTruncate : Rational → Result Int := integerCoercion intQuotient

def ratRound : Rational → Result Int := integerCoercion intRound

/-- `exact-method` of `rat:expt`. -/
def ratExptExact (b : Rational) (e : Int) (he : 0 < e) : Result Rational :=
  if h1 : 1 = e then .ok b else exptLoop ratTimes b e (.int 1) (by omega)

/-- `rat:expt`, for an exponent that is an integer. -/
def ratExpt : Rational → Int → Result Rational
  | .int b, e =>
    if e < 0 then do ratInvert (.int (← intExpt b (-e)))
    else do return .int (← intExpt b e)
  | .ratnum n d, e =>
    if hn : e < 0 then do ratInvert (← ratExptExact (.ratnum n d) (-e) (by omega))
    else if hp : e > 0 then ratExptExact (.ratnum n d) e hp
    else .ok (.int 1)

end MitScheme.Runtime.Arith
