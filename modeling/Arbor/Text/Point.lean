/-!
Places in a text, counted by line and column. Lines start at 1 and columns at 0; a column
counts characters, and each of CR LF, CR and LF ends one line. `Point.advance` says where
reading a text leads, `Point.offsetIn` finds the byte at which a place lies.
-/
namespace Arbor

/-- A place in a text. Lines and columns have no bound, while counters of 32 bits would overflow in
a text of 2 ^ 32 lines, or with as many characters in a line. Such texts are left aside: what is
told of the places in a text is told of counters that are wide enough for it. -/
structure Point where
  line : Nat
  column : Nat
deriving DecidableEq, Inhabited

namespace Point

/-- The first place of every text. -/
def start : Point := ⟨1, 0⟩

/-- Lines are counted from one. -/
def isValid (p : Point) : Bool := 1 ≤ p.line

def nextLine (p : Point) : Point := ⟨p.line + 1, 0⟩
def nextColumn (p : Point) : Point := ⟨p.line, p.column + 1⟩

/-- Places are ordered by line, then by column. -/
protected def le (p q : Point) : Prop := p.line < q.line ∨ (p.line = q.line ∧ p.column ≤ q.column)
protected def lt (p q : Point) : Prop := p.line < q.line ∨ (p.line = q.line ∧ p.column < q.column)

instance : LE Point := ⟨Point.le⟩
instance : LT Point := ⟨Point.lt⟩
instance (p q : Point) : Decidable (p ≤ q) := inferInstanceAs (Decidable (_ ∨ _))
instance (p q : Point) : Decidable (p < q) := inferInstanceAs (Decidable (_ ∨ _))

theorem le_def {p q : Point} :
    p ≤ q ↔ p.line < q.line ∨ (p.line = q.line ∧ p.column ≤ q.column) := Iff.rfl

theorem lt_def {p q : Point} :
    p < q ↔ p.line < q.line ∨ (p.line = q.line ∧ p.column < q.column) := Iff.rfl

/-- The earlier and the later of two places. -/
def min (p q : Point) : Point := if p ≤ q then p else q
def max (p q : Point) : Point := if p ≤ q then q else p

def order (p q : Point) : Ordering :=
  if p < q then .lt else if p = q then .eq else .gt

/-- Whether `c` ends a line on its own. -/
def isLineEnd (c : Char) : Bool := c = '\r' || c = '\n'

/-- The place reached by reading characters; CR LF ends a single line. -/
def advanceChars (p : Point) : List Char → Point
  | [] => p
  | '\r' :: '\n' :: rest => advanceChars p.nextLine rest
  | c :: rest => advanceChars (if isLineEnd c then p.nextLine else p.nextColumn) rest

/-- The place reached by reading `text` from `p`. -/
def advance (p : Point) (text : String) : Point := p.advanceChars text.toList

/-- Passes `n` line ends; gives the bytes passed and what follows them. -/
def passLines : Nat → List Char → Option (Nat × List Char)
  | 0, rest => some (0, rest)
  | _ + 1, [] => none
  | n + 1, '\r' :: '\n' :: rest => (passLines n rest).map fun (k, r) => (k + 2, r)
  | n + 1, c :: rest =>
      (passLines (if isLineEnd c then n else n + 1) rest).map fun (k, r) => (k + c.utf8Size, r)

/-- Passes `n` characters of one line and gives their bytes. -/
def passColumns : Nat → List Char → Option Nat
  | 0, _ => some 0
  | _ + 1, [] => none
  | n + 1, c :: rest =>
      if isLineEnd c then none else (passColumns n rest).map (· + c.utf8Size)

def offsetInChars (p : Point) (text : List Char) : Option Nat :=
  if p.isValid then
    (passLines (p.line - 1) text).bind fun (k, rest) =>
      (passColumns p.column rest).map (k + ·)
  else none

/-- The UTF-8 offset of `p` in `code`, if `p` lies in it. -/
def offsetIn (p : Point) (code : String) : Option Nat := p.offsetInChars code.toList

def display (p : Point) : String := s!"{p.line}:{p.column}"

end Point

end Arbor
