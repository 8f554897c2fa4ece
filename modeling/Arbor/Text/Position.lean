import Arbor.Text.Point

/-!
Ranges of a text between two places. Both ends belong to a range when ranges are compared,
and a range may be empty or reversed; `isValid` tells those that a text can have.
-/
namespace Arbor

structure Position where
  start : Point
  stop : Point
deriving DecidableEq, Inhabited

/-- The empty range at a place. -/
def Point.toPosition (p : Point) : Position := ⟨p, p⟩

namespace Position

/-- The range that `text` covers when it begins at `p`. -/
def ofText (p : Point) (text : String) : Position := ⟨p, p.advance text⟩

def isEmpty (r : Position) : Bool := r.start = r.stop

def isValid (r : Position) : Bool := r.start.isValid && r.stop.isValid && r.start ≤ r.stop

/-- Whether `other` lies between the ends of `r`. -/
def contains (r other : Position) : Bool := r.start ≤ other.start && other.stop ≤ r.stop

/-- Whether the place lies between the ends of `r`. -/
def covers (r : Position) (p : Point) : Bool := r.start ≤ p && p ≤ r.stop

/-- Whether an end of one range lies in the other. -/
def overlaps (r other : Position) : Bool :=
  other.covers r.start || other.covers r.stop || r.covers other.start || r.covers other.stop

/-- A missing range is contained in none. -/
def containsSome (r : Position) (other : Option Position) : Bool := other.any r.contains

/-- A missing range overlaps none. -/
def overlapsSome (r : Position) (other : Option Position) : Bool := other.any r.overlaps

/-- The least range around both. -/
def union (r other : Position) : Position := ⟨r.start.min other.start, r.stop.max other.stop⟩

/-- What follows the first `n` bytes; a character that the cut would split is dropped whole. -/
def dropBytes : Nat → List Char → List Char
  | 0, text => text
  | _ + 1, [] => []
  | n + 1, c :: rest => dropBytes (n + 1 - c.utf8Size) rest

/-- The characters that begin within the first `n` bytes. -/
def takeBytes : Nat → List Char → List Char
  | 0, _ => []
  | _ + 1, [] => []
  | n + 1, c :: rest => c :: takeBytes (n + 1 - c.utf8Size) rest

/-- The characters of `code` that `r` covers, if both ends lie in it in this order. -/
def charsOf (r : Position) (code : List Char) : Option (List Char) := do
  let first ← r.start.offsetInChars code
  let last ← r.stop.offsetInChars code
  if first ≤ last then some (takeBytes (last - first) (dropBytes first code)) else none

/-- The part of `code` that `r` covers. -/
def textOf (r : Position) (code : String) : Option String :=
  (r.charsOf code.toList).map String.ofList

def display (r : Position) : String := r.start.display ++ "-" ++ r.stop.display

end Position

end Arbor
