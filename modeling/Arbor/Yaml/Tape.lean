/-!
The text of a YAML file under reading: what is still to come, and how far the reading is. Lines
and columns are counted from zero, and columns count characters.
-/
namespace Arbor.Yaml

def isBlank (c : Char) : Bool := c = ' ' || c = '\t'

/-- Characters that end a line. -/
def isBreak (c : Char) : Bool :=
  c = '\n' || c = '\r' || c = '\x85' || c = '\u2028' || c = '\u2029'

/-- Whether a word ends before this character, or before the end of the text. -/
def endsWord (c : Option Char) : Bool := c.all fun c => isBlank c || isBreak c

/-- Whether a line ends before this character, or before the end of the text. -/
def endsLine (c : Option Char) : Bool := c.all isBreak

/-- Letters, digits and the marks that names may have. -/
def isNameChar (c : Char) : Bool := c.isAlphanum || c = '_' || c = '-'

/-- Characters that may stand in a file at all. -/
def isAllowed (c : Char) : Bool :=
  let n := c.toNat
  n = 0x09 || n = 0x0A || n = 0x0D || (0x20 ≤ n && n ≤ 0x7E) || n = 0x85
    || (0xA0 ≤ n && n ≤ 0xD7FF) || (0xE000 ≤ n && n ≤ 0xFFFD) || 0x10000 ≤ n

def hexValue? (c : Char) : Option Nat :=
  if '0' ≤ c && c ≤ '9' then some (c.toNat - 48)
  else if 'a' ≤ c && c ≤ 'f' then some (c.toNat - 87)
  else if 'A' ≤ c && c ≤ 'F' then some (c.toNat - 55)
  else none

structure Tape where
  rest : List Char
  /-- Characters read so far. -/
  index : Nat := 0
  line : Nat := 0
  column : Nat := 0
deriving DecidableEq, Inhabited

namespace Tape

def peek (t : Tape) : Option Char := t.rest.head?

/-- Whether the next character is `c`. -/
def sees (t : Tape) (c : Char) : Bool := t.peek = some c

/-- Passes over the next `n` characters, which end no line. -/
def forward (t : Tape) (n : Nat) : Tape :=
  { t with rest := t.rest.drop n, index := t.index + n, column := t.column + n }

def skip (t : Tape) : Tape := t.forward 1

/-- Reads the characters of the line that satisfy `p`. -/
def span (t : Tape) (p : Char → Bool) : List Char × Tape :=
  let run := t.rest.takeWhile p
  (run, t.forward run.length)

def skipWhile (t : Tape) (p : Char → Bool) : Tape := (t.span p).2

/-- Reads the end of a line, if one is next. Separators of lines and paragraphs stay what they
are, and all other ends become line feeds. -/
def readBreak (t : Tape) : List Char × Tape :=
  let past (n : Nat) : Tape :=
    { rest := t.rest.drop n, index := t.index + n, line := t.line + 1, column := 0 }
  match t.rest with
  | '\r' :: '\n' :: _ => (['\n'], past 2)
  | c :: _ =>
      if c = '\u2028' || c = '\u2029' then ([c], past 1)
      else if isBreak c then (['\n'], past 1)
      else ([], t)
  | [] => ([], t)

def skipBreak (t : Tape) : Tape := t.readBreak.2

/-- Whether the tape stands at the start of a line that is `mark`, three times, and a word end. -/
def seesRule (t : Tape) (mark : Char) : Bool :=
  t.column = 0 && match t.rest with
    | a :: b :: c :: rest => a = mark && b = mark && c = mark && endsWord rest.head?
    | _ => false

/-- Whether the tape stands where a document starts or ends. -/
def seesDocumentMark (t : Tape) : Bool := t.seesRule '-' || t.seesRule '.'

/-- Passes over blanks, a comment and the end of the line; nothing else may come. -/
def finishLine (t : Tape) : Option Tape :=
  let t := t.skipWhile isBlank
  let t := if t.sees '#' then t.skipWhile (!isBreak ·) else t
  if endsLine t.peek then some t.skipBreak else none

end Tape

end Arbor.Yaml
