import Arbor.Token.Basic

/-!
Words of the statement language. At each place the longest match of a rule counts, and of equal
ones that of the rule that stands first, which is why keywords win over identifiers. A character
at which nothing matches is reported and passed over.
-/
namespace Arbor.Script

/-- The shapes that texts of tokens have. -/
inductive Shape where
  | word (text : List Char)
  | identifier
  | decimal
  | integer
  | quoted
  | blanks
  | lineBreak
deriving DecidableEq

def isLetter (c : Char) : Bool := ('a' ≤ c && c ≤ 'z') || ('A' ≤ c && c ≤ 'Z')
def isDigit (c : Char) : Bool := '0' ≤ c && c ≤ '9'
def isWordChar (c : Char) : Bool := isLetter c || isDigit c || c = '_'
def isBlank (c : Char) : Bool := c = ' ' || c = '\t'

/-- Whether `c` may stand between quotes. -/
def isQuotable (c : Char) : Bool := c ≠ '"' && c ≠ '\r' && c ≠ '\n'

namespace Shape

/-- How many characters at the start of `cs` have this shape, as many as possible; zero if there
are none. -/
def scan : Shape → List Char → Nat
  | .word text, cs => if text.isPrefixOf cs then text.length else 0
  | .identifier, [] => 0
  | .identifier, c :: cs => if isLetter c then (cs.takeWhile isWordChar).length + 1 else 0
  | .decimal, cs =>
      let whole := (cs.takeWhile isDigit).length
      match cs.drop whole with
      | '.' :: rest =>
          let part := (rest.takeWhile isDigit).length
          if whole = 0 || part = 0 then 0 else whole + 1 + part
      | _ => 0
  | .integer, cs => (cs.takeWhile isDigit).length
  | .quoted, '"' :: cs =>
      let body := (cs.takeWhile isQuotable).length
      match cs.drop body with
      | '"' :: _ => body + 2
      | _ => 0
  | .quoted, _ => 0
  | .blanks, cs => (cs.takeWhile isBlank).length
  | .lineBreak, '\r' :: '\n' :: _ => 2
  | .lineBreak, '\r' :: _ => 1
  | .lineBreak, '\n' :: _ => 1
  | .lineBreak, _ => 0

end Shape

structure LexicalRule where
  kind : TokenKind
  shape : Shape
  channel : Nat := 0
deriving DecidableEq

def set : TokenKind := ⟨"SET"⟩
def display : TokenKind := ⟨"DISPLAY"⟩
def input : TokenKind := ⟨"INPUT"⟩
def is : TokenKind := ⟨"IS"⟩
def int : TokenKind := ⟨"INT"⟩
def dec : TokenKind := ⟨"DEC"⟩
def string : TokenKind := ⟨"STRING"⟩
def identifier : TokenKind := ⟨"ID"⟩
def intLiteral : TokenKind := ⟨"INT_LIT"⟩
def decLiteral : TokenKind := ⟨"DEC_LIT"⟩
def stringLiteral : TokenKind := ⟨"STRING_LIT"⟩
def equal : TokenKind := ⟨"EQUAL"⟩
def plus : TokenKind := ⟨"PLUS"⟩
def blank : TokenKind := ⟨"WS"⟩
def newline : TokenKind := ⟨"NEWLINE"⟩

/-- The rules, those that win first. -/
def lexicalRules : List LexicalRule := [
  ⟨set, .word ['s', 'e', 't'], 0⟩,
  ⟨display, .word ['d', 'i', 's', 'p', 'l', 'a', 'y'], 0⟩,
  ⟨input, .word ['i', 'n', 'p', 'u', 't'], 0⟩,
  ⟨is, .word ['i', 's'], 0⟩,
  ⟨int, .word ['i', 'n', 't'], 0⟩,
  ⟨dec, .word ['d', 'e', 'c'], 0⟩,
  ⟨string, .word ['s', 't', 'r', 'i', 'n', 'g'], 0⟩,
  ⟨identifier, .identifier, 0⟩,
  ⟨decLiteral, .decimal, 0⟩,
  ⟨intLiteral, .integer, 0⟩,
  ⟨stringLiteral, .quoted, 0⟩,
  ⟨equal, .word ['='], 0⟩,
  ⟨plus, .word ['+'], 0⟩,
  ⟨blank, .blanks, Token.hidden⟩,
  ⟨newline, .lineBreak, Token.hidden⟩]

/-- Keeps the longer of the best match so far and the match of `rule`, the old one in a tie. -/
def better (cs : List Char) (best : Option (LexicalRule × Nat)) (rule : LexicalRule) :
    Option (LexicalRule × Nat) :=
  let n := rule.shape.scan cs
  if (best.map (·.2)).getD 0 < n then some (rule, n) else best

/-- The rule with the longest match at the start of `cs`, and its length. -/
def longestMatch (cs : List Char) : Option (LexicalRule × Nat) :=
  lexicalRules.foldl (better cs) none

def unrecognized (c : Char) (p : Point) : Issue :=
  .lexical ("token recognition error at: '" ++ c.toString ++ "'")
    (some ⟨p, p.advanceChars [c]⟩)

/-- Tokens and issues of the text `cs` that starts at `p`, where `index` tokens stand before it.
Each step takes a character at least, so `fuel` is enough when it is the length of the text. -/
def scanFrom : Nat → Point → Nat → List Char → List Token × List Issue
  | _, p, index, [] => ([Token.eof p index], [])
  | 0, p, index, _ :: _ => ([Token.eof p index], [])
  | fuel + 1, p, index, c :: cs =>
      match longestMatch (c :: cs) with
      | some (rule, n) =>
          let text := (c :: cs).take n
          let (tokens, issues) :=
            scanFrom fuel (p.advanceChars text) (index + 1) ((c :: cs).drop n)
          (⟨rule.kind, String.ofList text, p, index, rule.channel⟩ :: tokens, issues)
      | none =>
          let (tokens, issues) := scanFrom fuel (p.advanceChars [c]) index cs
          (tokens, unrecognized c p :: issues)

/-- All tokens of a text, the end of the input last, and an issue for each character that
belongs to none. -/
def tokenize (text : String) : List Token × List Issue :=
  scanFrom text.toList.length .start 0 text.toList

end Arbor.Script
