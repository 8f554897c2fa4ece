/-!
Binary floating-point numbers of 64 bits as exact integers. A finite number is
`significand * 2 ^ (exponent - 1074)` up to its sign, with a significand below `2 ^ 53` that is
at least `2 ^ 52` unless the exponent is zero, so every value but zero has one form. Every
operation rounds the exact result once, to the nearest number and to the even one in a tie.
-/
namespace Arbor

inductive Binary64 where
  | nan
  | infinite (negative : Bool)
  | finite (negative : Bool) (significand exponent : Nat)
deriving DecidableEq, Inhabited

/-- The nearest integer to `num / den`, the even one in a tie. -/
def roundDiv (num den : Nat) : Nat :=
  let q := num / den
  let r := num % den
  if 2 * r < den then q
  else if den < 2 * r then q + 1
  else if q % 2 = 0 then q else q + 1

namespace Binary64

/-- The unit of finite numbers is `1 / unitDen`. -/
def unitDen : Nat := Nat.pow 2 1074

/-- Exponents above this one belong to no finite number. -/
def maxExponent : Nat := 2045

def zero : Binary64 := .finite false 0 0

/-- The number nearest to `num / den`, with the given sign. -/
def ofRatio (negative : Bool) (num den : Nat) : Binary64 :=
  let scaled := num * unitDen
  let exponent := Nat.log2 (scaled / den) - 52
  let m := roundDiv scaled (den * Nat.pow 2 exponent)
  let (m, exponent) := if m = Nat.pow 2 53 then (Nat.pow 2 52, exponent + 1) else (m, exponent)
  if maxExponent < exponent then .infinite negative else .finite negative m exponent

/-- The integer `n`, rounded. -/
def ofInt (n : Int) : Binary64 := ofRatio (n < 0) n.natAbs 1

def isNegative : Binary64 → Bool
  | .nan => false
  | .infinite n => n
  | .finite n _ _ => n

def negate : Binary64 → Binary64
  | .nan => .nan
  | .infinite n => .infinite !n
  | .finite n m e => .finite (!n) m e

def isZero : Binary64 → Bool
  | .finite _ m _ => m = 0
  | _ => false

/-- A product of finite numbers; other operands give no number. -/
def mul : Binary64 → Binary64 → Binary64
  | .finite n m e, .finite n' m' e' =>
      ofRatio (n != n') (m * m' * Nat.pow 2 (e + e')) (unitDen * unitDen)
  | _, _ => .nan

/-- A quotient of finite numbers; other operands give no number. -/
def div : Binary64 → Binary64 → Binary64
  | .finite n m e, .finite n' m' e' =>
      if m' = 0 then .nan else ofRatio (n != n') (m * Nat.pow 2 e) (m' * Nat.pow 2 e')
  | _, _ => .nan

/-- Numeric equality: a NaN differs from itself and both zeros are equal. -/
def eqv (x y : Binary64) : Bool :=
  match x, y with
  | .nan, _ => false
  | _, .nan => false
  | x, y => x = y || (x.isZero && y.isZero)

end Binary64

end Arbor
