import Arbor.Number.Binary64

/-!
The shortest decimal that reads back as a given binary number. The decimals that round to
`m * 2 ^ e` fill an interval, whose ends count when `m` is even; on the grid of each digit
count the two neighbours of the number are tried, so the first grid with a hit is the
coarsest one and the nearer hit is the nearest decimal on it.
-/
namespace Arbor

/-- The number `digits * 10 ^ exponent`. -/
structure Decimal where
  digits : Nat
  exponent : Int
deriving DecidableEq, Inhabited

/-- Which of two equally near decimals is taken. -/
inductive Tie where
  | up
  | even
deriving DecidableEq

namespace Decimal

def digitCount (n : Nat) : Nat := (Nat.toDigits 10 n).length

/-- The exponent of the leading decimal digit of `num / den`. -/
def leading (num den : Nat) : Int :=
  if den ≤ num then digitCount (num / den) - 1
  else
    let d := digitCount (den / num)
    if num * Nat.pow 10 (d - 1) = den then 1 - d else -d

/-- The fraction `num / den` divided by `10 ^ k`. -/
def rescale (num den : Nat) (k : Int) : Nat × Nat :=
  if 0 ≤ k then (num, den * Nat.pow 10 k.toNat) else (num * Nat.pow 10 (-k).toNat, den)

/-- Removes trailing zeros, at most `fuel` of them. -/
def trim : Nat → Decimal → Decimal
  | 0, d => d
  | fuel + 1, d =>
      if d.digits ≠ 0 ∧ d.digits % 10 = 0 then trim fuel ⟨d.digits / 10, d.exponent + 1⟩ else d

end Decimal

namespace Binary64

/-- Twice the two ends of the interval of decimals that round to `m * 2 ^ e`, and twice its
middle, as multiples of one quarter of a unit. -/
def interval (m e : Nat) : Nat × Nat × Nat :=
  let below := if m = Nat.pow 2 52 ∧ 0 < e then 1 else 2
  ((4 * m - below) * Nat.pow 2 e, 4 * m * Nat.pow 2 e, (4 * m + 2) * Nat.pow 2 e)

/-- The decimal with `n` digits nearest to `m * 2 ^ e`, if it rounds to that number. -/
def nearestWith (tie : Tie) (m e n : Nat) : Option Decimal :=
  let (low, mid, high) := interval m e
  let den := 4 * unitDen
  let k := Decimal.leading mid den - n + 1
  let (num, den) := Decimal.rescale mid den k
  let (lowNum, _) := Decimal.rescale low (4 * unitDen) k
  let (highNum, _) := Decimal.rescale high (4 * unitDen) k
  let hit (d : Nat) : Bool :=
    if m % 2 = 0 then lowNum ≤ d * den && d * den ≤ highNum
    else lowNum < d * den && d * den < highNum
  let d := num / den
  let r := num % den
  let up :=
    if 2 * r < den then false
    else if den < 2 * r then true
    else match tie with
      | .up => true
      | .even => d % 2 = 1
  let first := if up then d + 1 else d
  let second := if up then d else d + 1
  if hit first then some ⟨first, k⟩ else if hit second then some ⟨second, k⟩ else none

/-- The first of `n, n + 1, …` digits that reads back; seventeen always do. -/
def shortestFrom (tie : Tie) (m e : Nat) : Nat → Nat → Decimal
  | 0, n => (nearestWith tie m e n).getD ⟨0, 0⟩
  | fuel + 1, n => (nearestWith tie m e n).getD (shortestFrom tie m e fuel (n + 1))

/-- The shortest decimal that rounds to `m * 2 ^ e`, the nearest one of that length. -/
def shortest (tie : Tie) (m e : Nat) : Decimal :=
  if m = 0 then ⟨0, 0⟩ else Decimal.trim 20 (shortestFrom tie m e 16 1)

end Binary64

/-- How a decimal is laid out. -/
structure NumberFormat where
  tie : Tie
  /-- What follows the digits of a whole number. -/
  wholeMark : String
  /-- Leading exponents from the first bound up to, not including, the second are written
  without an exponent; no bound stands for all. -/
  positional : Option (Int × Int)

namespace NumberFormat

def zeros (n : Nat) : String := String.ofList (List.replicate n '0')

/-- The digits with the decimal point in its place. -/
def positionalText (f : NumberFormat) (d : Decimal) : String :=
  let ds := toString d.digits
  if 0 ≤ d.exponent then ds ++ zeros d.exponent.toNat ++ f.wholeMark
  else
    let places := (-d.exponent).toNat
    if places < ds.length then
      let whole := ds.toList.take (ds.length - places)
      let part := ds.toList.drop (ds.length - places)
      String.ofList whole ++ "." ++ String.ofList part
    else "0." ++ zeros (places - ds.length) ++ ds

/-- One digit, the point, the others, and the exponent of the first. -/
def exponentText (d : Decimal) : String :=
  let ds := (toString d.digits).toList
  let lead := d.exponent + ds.length - 1
  let part := ds.drop 1
  String.ofList (ds.take 1) ++ (if part.isEmpty then "" else "." ++ String.ofList part)
    ++ "e" ++ toString lead

def isPositional (f : NumberFormat) (d : Decimal) : Bool :=
  match f.positional with
  | none => true
  | some (low, high) =>
      let lead := d.exponent + Decimal.digitCount d.digits - 1
      d.digits = 0 || (low ≤ lead && lead < high)

/-- The text of a number in this format. -/
def render (f : NumberFormat) : Binary64 → String
  | .nan => "NaN"
  | .infinite negative => if negative then "-inf" else "inf"
  | .finite negative m e =>
      let d := Binary64.shortest f.tie m e
      let body := if f.isPositional d then f.positionalText d else exponentText d
      if negative then "-" ++ body else body

/-- Plain decimals: never an exponent, and nothing after a whole number. -/
def plain : NumberFormat := ⟨.up, "", none⟩

/-- Decimals in structural listings: a whole number keeps a decimal zero, and an exponent is
used below `10 ^ -4` and from `10 ^ 16`. -/
def listing : NumberFormat := ⟨.up, ".0", some (-4, 16)⟩

/-- Decimals in JSON texts: an exponent is used below `10 ^ -5` and from `10 ^ 16`. -/
def json : NumberFormat := ⟨.even, ".0", some (-5, 16)⟩

end NumberFormat

end Arbor
