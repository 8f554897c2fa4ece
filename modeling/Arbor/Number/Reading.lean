import Arbor.Number.Shortest

/-!
Reading integers of 64 bits and binary numbers from decimal text. A text that is not taken
yields the reason as an error.
-/
namespace Arbor

/-- Why a text is no number. -/
inductive NumberError where
  | emptyInteger
  | invalidDigit
  | tooLarge
  | tooSmall
  | emptyDecimal
  | invalidDecimal
deriving DecidableEq

namespace NumberError

def message : NumberError → String
  | .emptyInteger => "cannot parse integer from empty string"
  | .invalidDigit => "invalid digit found in string"
  | .tooLarge => "number too large to fit in target type"
  | .tooSmall => "number too small to fit in target type"
  | .emptyDecimal => "cannot parse float from empty string"
  | .invalidDecimal => "invalid float literal"

end NumberError

/-- The value of a decimal digit. -/
def digitValue? (c : Char) : Option Nat :=
  if '0' ≤ c ∧ c ≤ '9' then some (c.toNat - '0'.toNat) else none

/-- The number that a run of digits spells, most significant first. -/
def digitsValue (cs : List Char) : Nat :=
  cs.foldl (fun n c => 10 * n + (c.toNat - '0'.toNat)) 0

def isDigit (c : Char) : Bool := (digitValue? c).isSome

namespace Integer64

def low : Int := -(Nat.pow 2 63 : Nat)
def high : Int := (Nat.pow 2 63 : Nat) - 1

/-- Whether `n` is an integer of 64 bits. -/
def fits (n : Int) : Bool := low ≤ n && n ≤ high

/-- Reads digits up to `limit`; the first digit that passes the limit stops the reading. -/
def readDigits (limit : Nat) (overflow : NumberError) : Nat → List Char → Except NumberError Nat
  | n, [] => .ok n
  | n, c :: rest =>
      match digitValue? c with
      | none => .error .invalidDigit
      | some d => if 10 * n + d ≤ limit then readDigits limit overflow (10 * n + d) rest
          else .error overflow

def readChars : List Char → Except NumberError Int
  | [] => .error .emptyInteger
  | ['+'] => .error .invalidDigit
  | ['-'] => .error .invalidDigit
  | '+' :: rest => (readDigits high.toNat .tooLarge 0 rest).map Int.ofNat
  | '-' :: rest => (readDigits (Nat.pow 2 63) .tooSmall 0 rest).map fun n => -(n : Int)
  | cs => (readDigits high.toNat .tooLarge 0 cs).map Int.ofNat

/-- Reads an optional sign and digits. -/
def read (text : String) : Except NumberError Int := readChars text.toList

end Integer64

namespace Binary64

/-- The number nearest to `d`. A decimal beyond every finite number, or below half of the least
one, is not computed. -/
def ofDecimal (negative : Bool) (d : Decimal) : Binary64 :=
  let lead := d.exponent + Decimal.digitCount d.digits
  if d.digits = 0 then .finite negative 0 0
  else if 400 < lead then .infinite negative
  else if lead < -400 then .finite negative 0 0
  else if 0 ≤ d.exponent then ofRatio negative (d.digits * Nat.pow 10 d.exponent.toNat) 1
  else ofRatio negative d.digits (Nat.pow 10 (-d.exponent).toNat)

/-- Splits digits, an optional fraction and an optional exponent, and nothing else. -/
def readUnsigned (negative : Bool) (cs : List Char) : Option Binary64 := do
  let whole := cs.takeWhile isDigit
  let afterWhole := cs.dropWhile isDigit
  let (part, rest) :=
    match afterWhole with
    | '.' :: more => (more.takeWhile isDigit, more.dropWhile isDigit)
    | more => ([], more)
  if whole.isEmpty && part.isEmpty then none
  let exponent ← match rest with
    | [] => some (0 : Int)
    | c :: more =>
        if c = 'e' ∨ c = 'E' then
          let (sign, ds) := match more with
            | '-' :: ds => (-1, ds)
            | '+' :: ds => (1, ds)
            | ds => ((1 : Int), ds)
          if ds.isEmpty || !ds.all isDigit then none else some (sign * digitsValue ds)
        else none
  return ofDecimal negative ⟨digitsValue (whole ++ part), exponent - part.length⟩

def readSpecial (negative : Bool) (cs : List Char) : Option Binary64 :=
  let word := String.ofList (cs.map Char.toLower)
  if word = "inf" ∨ word = "infinity" then some (.infinite negative)
  else if word = "nan" then some .nan
  else none

/-- Reads an optional sign and a decimal, an infinity or a NaN. -/
def read (text : String) : Except NumberError Binary64 :=
  let (negative, body) := match text.toList with
    | '-' :: cs => (true, cs)
    | '+' :: cs => (false, cs)
    | cs => (false, cs)
  if text.isEmpty then .error .emptyDecimal
  else match (readUnsigned negative body).or (readSpecial negative body) with
    | some x => .ok x
    | none => .error .invalidDecimal

end Binary64

end Arbor
