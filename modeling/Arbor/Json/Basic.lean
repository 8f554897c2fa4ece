import Arbor.Number.Reading

/-!
JSON trees. Members of an object keep the order in which they are written, and a key may come
twice; what a repeated key means is for the reader of the tree to say. A numeral without a
fraction and an exponent is an integer as long as it fits 64 bits.
-/
namespace Arbor

namespace Json

inductive Number where
  | natural (n : Nat)
  | negative (n : Int)
  | decimal (x : Binary64)
deriving DecidableEq

end Json

inductive Json where
  | null
  | bool (b : Bool)
  | number (n : Json.Number)
  | string (s : String)
  | array (items : List Json)
  | object (members : List (String × Json))
  /-- A well-formed text that denotes nothing, such as a string with half a surrogate pair, a
  number beyond all finite ones, or an object with such a key. It may be skipped but not used. -/
  | meaningless
deriving Inhabited

namespace Json

def ofInt (n : Int) : Json :=
  .number (if n < 0 then .negative n else .natural n.toNat)

def ofNat (n : Nat) : Json := .number (.natural n)

/-- The value of the last member with this key. -/
def get? (key : String) : Json → Option Json
  | .object members => (members.reverse.find? (·.1 = key)).map (·.2)
  | _ => none

def string? : Json → Option String
  | .string s => some s
  | _ => none

def bool? : Json → Option Bool
  | .bool b => some b
  | _ => none

def array? : Json → Option (List Json)
  | .array items => some items
  | _ => none

def natural? : Json → Option Nat
  | .number (.natural n) => some n
  | _ => none

end Json

end Arbor
