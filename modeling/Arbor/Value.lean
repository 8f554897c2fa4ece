import Arbor.Json.Writer
import Arbor.Text.Listing

/-!
Plain values of attributes. A JSON text of a value carries no tag: reading tries truth values,
integers of 64 bits, decimals, strings and null, in this order.
-/
namespace Arbor

inductive Value where
  | boolean (b : Bool)
  | integer (n : Int)
  | decimal (x : Binary64)
  | string (s : String)
  | null
deriving DecidableEq, Inhabited

namespace Value

/-- The text of a value as such; null has none. -/
def asString : Value → Option String
  | .string s => some s
  | .integer n => some (toString n)
  | .decimal x => some (NumberFormat.plain.render x)
  | .boolean b => some (Text.truth b)
  | .null => none

def asStr : Value → Option String
  | .string s => some s
  | _ => none

def asInteger : Value → Option Int
  | .integer n => some n
  | _ => none

/-- Integers count as numbers, rounded. -/
def asNumber : Value → Option Binary64
  | .decimal x => some x
  | .integer n => some (Binary64.ofInt n)
  | _ => none

def asBool : Value → Option Bool
  | .boolean b => some b
  | _ => none

def isNull : Value → Bool
  | .null => true
  | _ => false

/-- Equality of values; decimals are compared as numbers. -/
def eqv : Value → Value → Bool
  | .decimal x, .decimal y => x.eqv y
  | v, w => v = w

/-- The value in a printed tree: strings stand between quotes. -/
def display : Value → String
  | .string s => Text.quoted s
  | .integer n => toString n
  | .decimal x => NumberFormat.plain.render x
  | .boolean b => Text.truth b
  | .null => "null"

def listing : Value → String
  | .string s => Text.applied "String" (Text.quoted s)
  | .integer n => Text.applied "Integer" (toString n)
  | .decimal x => Text.applied "Decimal" (NumberFormat.listing.render x)
  | .boolean b => Text.applied "Boolean" (Text.truth b)
  | .null => "Null"

def toJson : Value → Json
  | .boolean b => .bool b
  | .integer n => Json.ofInt n
  | .decimal (.finite n m e) => .number (.decimal (.finite n m e))
  | .decimal _ => .null
  | .string s => .string s
  | .null => .null

/-- The value of a JSON scalar; a whole number beyond 64 bits is a decimal. -/
def ofJson? : Json → Option Value
  | .bool b => some (.boolean b)
  | .number (.natural n) =>
      some (if n ≤ Integer64.high.toNat then .integer n else .decimal (Binary64.ofInt n))
  | .number (.negative n) => some (.integer n)
  | .number (.decimal x) => some (.decimal x)
  | .string s => some (.string s)
  | .null => some .null
  | _ => none

end Value

end Arbor
