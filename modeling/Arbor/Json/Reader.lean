import Arbor.Json.Basic

/-!
Reading JSON texts. The grammar is the strict one: no trailing commas, no leading zeros, no
bare controls in strings. Each step gives what it read and the rest of the text. A decimal is
computed from the first digits that fit 64 bits and a power of ten, rounding after each step.
-/
namespace Arbor.Json.Reader

def isBlank (c : Char) : Bool := c = ' ' || c = '\n' || c = '\t' || c = '\r'

def skipBlank (cs : List Char) : List Char := cs.dropWhile isBlank

def hexValue? (c : Char) : Option Nat :=
  if '0' ≤ c ∧ c ≤ '9' then some (c.toNat - 48)
  else if 'a' ≤ c ∧ c ≤ 'f' then some (c.toNat - 87)
  else if 'A' ≤ c ∧ c ≤ 'F' then some (c.toNat - 55)
  else none

/-- Four hexadecimal digits. -/
def unit? : List Char → Option (Nat × List Char)
  | a :: b :: c :: d :: rest => do
      let a ← hexValue? a
      let b ← hexValue? b
      let c ← hexValue? c
      let d ← hexValue? d
      return (((a * 16 + b) * 16 + c) * 16 + d, rest)
  | _ => none

def isHighHalf (n : Nat) : Bool := 0xD800 ≤ n && n < 0xDC00
def isLowHalf (n : Nat) : Bool := 0xDC00 ≤ n && n < 0xE000

/-- The code points of a sequence of UTF-16 units and code points; none for a lone half. -/
def joinHalves : List Nat → Option (List Char)
  | [] => some []
  | [n] => if isHighHalf n || isLowHalf n then none else some [Char.ofNat n]
  | n :: m :: rest =>
      if isHighHalf n then
        if isLowHalf m then
          (joinHalves rest).map (Char.ofNat (0x10000 + (n - 0xD800) * 0x400 + (m - 0xDC00)) :: ·)
        else none
      else if isLowHalf n then none
      else (joinHalves (m :: rest)).map (Char.ofNat n :: ·)

def simpleEscape? (c : Char) : Option Nat :=
  match c with
  | '"' => some 34
  | '\\' => some 92
  | '/' => some 47
  | 'b' => some 8
  | 'f' => some 12
  | 'n' => some 10
  | 'r' => some 13
  | 't' => some 9
  | _ => none

/-- The codes up to the closing quote. -/
def stringCodes : Nat → List Char → Option (List Nat × List Char)
  | 0, _ => none
  | _ + 1, [] => none
  | fuel + 1, c :: rest =>
      if c = '"' then some ([], rest)
      else if c = '\\' then
        match rest with
        | 'u' :: more => do
            let (n, more) ← unit? more
            let (codes, last) ← stringCodes fuel more
            return (n :: codes, last)
        | e :: more => do
            let n ← simpleEscape? e
            let (codes, last) ← stringCodes fuel more
            return (n :: codes, last)
        | [] => none
      else if c.toNat < 32 then none
      else do
        let (codes, last) ← stringCodes fuel rest
        return (c.toNat :: codes, last)

/-- A string after its opening quote; it has no value when a surrogate stands alone. -/
def string (cs : List Char) : Option (Option String × List Char) := do
  let (codes, rest) ← stringCodes (cs.length + 1) cs
  return ((joinHalves codes).map String.ofList, rest)

/-- The parts of a numeral. -/
structure Numeral where
  negative : Bool
  whole : List Char
  part : Option (List Char)
  exponent : Option (Bool × List Char)

/-- Splits a numeral off; a leading zero stands alone, and a point or an exponent mark is
followed by a digit. -/
def numeral (cs : List Char) : Option (Numeral × List Char) := do
  let (negative, cs) := match cs with
    | '-' :: rest => (true, rest)
    | rest => (false, rest)
  let whole := cs.takeWhile isDigit
  let rest := cs.dropWhile isDigit
  if whole.isEmpty || (whole.head? = some '0' && whole.length ≠ 1) then none
  let (part, rest) ← match rest with
    | '.' :: more =>
        let ds := more.takeWhile isDigit
        if ds.isEmpty then none else some (some ds, more.dropWhile isDigit)
    | more => some (none, more)
  let (exponent, rest) ← match rest with
    | c :: more =>
        if c = 'e' ∨ c = 'E' then
          let (up, more) := match more with
            | '+' :: ds => (true, ds)
            | '-' :: ds => (false, ds)
            | ds => (true, ds)
          let ds := more.takeWhile isDigit
          if ds.isEmpty then none else some (some (up, ds), more.dropWhile isDigit)
        else some (none, rest)
    | [] => some (none, [])
  return (⟨negative, whole, part, exponent⟩, rest)

/-- Digits that fit 64 bits, a power of ten, and whether every digit went in. -/
structure Gathered where
  significand : Nat
  exponent : Int
  complete : Bool

def gatherWhole (g : Gathered) (c : Char) : Gathered :=
  let next := 10 * g.significand + (c.toNat - 48)
  if g.complete && next < Nat.pow 2 64 then { g with significand := next }
  else { g with exponent := g.exponent + 1, complete := false }

/-- A digit after the point that does not fit ends the gathering. -/
def gatherPart (g : Gathered) (c : Char) : Gathered :=
  let next := 10 * g.significand + (c.toNat - 48)
  if g.complete && next < Nat.pow 2 64 then ⟨next, g.exponent - 1, true⟩
  else { g with complete := false }

/-- `f * 10 ^ exponent`, one power of at most 308 at a time; none beyond all finite numbers. -/
def scale : Nat → Binary64 → Int → Option Binary64
  | 0, _, _ => none
  | fuel + 1, f, exponent =>
      if exponent.natAbs ≤ 308 then
        let power := Binary64.ofRatio false (Nat.pow 10 exponent.natAbs) 1
        if 0 ≤ exponent then
          match f.mul power with
          | .finite n m e => some (.finite n m e)
          | _ => none
        else some (f.div power)
      else if f.isZero then some f
      else if 0 ≤ exponent then none
      else scale fuel (f.div (Binary64.ofRatio false (Nat.pow 10 308) 1)) (exponent + 308)

/-- What a numeral denotes. -/
def Numeral.value (n : Numeral) : Option Number :=
  let whole := n.whole.foldl gatherWhole ⟨0, 0, true⟩
  let signed (x : Binary64) : Number := .decimal (if n.negative then x.negate else x)
  if n.part.isNone && n.exponent.isNone && whole.complete then
    if !n.negative then some (.natural whole.significand)
    else if 0 < whole.significand && whole.significand ≤ Nat.pow 2 63 then
      some (.negative (-(whole.significand : Int)))
    else some (signed (Binary64.ofRatio false whole.significand 1))
  else
    let all := (n.part.getD []).foldl gatherPart { whole with complete := true }
    let far := Nat.pow 2 31 - 1
    match n.exponent with
    | some (up, ds) =>
        let k := digitsValue ds
        if far < k then
          if up && all.significand ≠ 0 then none else some (signed Binary64.zero)
        else
          (scale 1000 (Binary64.ofRatio false all.significand 1)
            (all.exponent + (if up then (k : Int) else -(k : Int)))).map signed
    | none => (scale 1000 (Binary64.ofRatio false all.significand 1) all.exponent).map signed

/-- An object from its members; one unusable key spoils it. -/
def objectOf (members : List (Option String × Json)) : Json :=
  if members.all (·.1.isSome) then
    .object (members.filterMap fun (key, value) => key.map fun k => (k, value))
  else .meaningless

mutual

/-- One value, after blanks. -/
def value : Nat → List Char → Option (Json × List Char)
  | 0, _ => none
  | fuel + 1, cs =>
      match skipBlank cs with
      | 'n' :: 'u' :: 'l' :: 'l' :: rest => some (.null, rest)
      | 't' :: 'r' :: 'u' :: 'e' :: rest => some (.bool true, rest)
      | 'f' :: 'a' :: 'l' :: 's' :: 'e' :: rest => some (.bool false, rest)
      | '"' :: rest => do
          let (s, rest) ← string rest
          return ((s.map Json.string).getD .meaningless, rest)
      | '[' :: rest =>
          match skipBlank rest with
          | ']' :: rest => some (.array [], rest)
          | rest => do
              let (items, rest) ← items fuel rest
              return (.array items, rest)
      | '\x7b' :: rest =>
          match skipBlank rest with
          | '\x7d' :: rest => some (.object [], rest)
          | rest => do
              let (ms, rest) ← members fuel rest
              return (objectOf ms, rest)
      | rest => do
          let (n, rest) ← numeral rest
          return ((n.value.map Json.number).getD .meaningless, rest)

/-- Items up to the closing bracket. -/
def items : Nat → List Char → Option (List Json × List Char)
  | 0, _ => none
  | fuel + 1, cs => do
      let (item, rest) ← value fuel cs
      match skipBlank rest with
      | ',' :: rest =>
          let (others, rest) ← items fuel rest
          return (item :: others, rest)
      | ']' :: rest => return ([item], rest)
      | _ => none

/-- Members up to the closing brace. -/
def members : Nat → List Char → Option (List (Option String × Json) × List Char)
  | 0, _ => none
  | fuel + 1, cs =>
      match skipBlank cs with
      | '"' :: rest => do
          let (key, rest) ← string rest
          match skipBlank rest with
          | ':' :: rest =>
              let (item, rest) ← value fuel rest
              match skipBlank rest with
              | ',' :: rest =>
                  let (others, rest) ← members fuel rest
                  return ((key, item) :: others, rest)
              | '\x7d' :: rest => return ([(key, item)], rest)
              | _ => none
          | _ => none
      | _ => none

end

end Arbor.Json.Reader

namespace Arbor.Json

/-- Reads one value and blanks around it, and nothing else. -/
def read? (text : String) : Option Json := do
  let cs := text.toList
  let (j, rest) ← Reader.value (2 * cs.length + 2) cs
  if (Reader.skipBlank rest).isEmpty then some j else none

end Arbor.Json
