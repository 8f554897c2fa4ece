import Arbor.Issue.Codec

/-!
Tokens of a source text. A token knows its text and where it starts; channels other than the
default one hold what parsing passes over.
-/
namespace Arbor

structure TokenKind where
  name : String
deriving DecidableEq, Inhabited

namespace TokenKind

/-- The end of the input. -/
def eof : TokenKind := ⟨"EOF"⟩

end TokenKind

structure Token where
  kind : TokenKind
  text : String
  start : Point
  /-- The place among all tokens, hidden ones included. -/
  index : Nat
  channel : Nat := 0
deriving DecidableEq, Inhabited

namespace Token

def hidden : Nat := 1

def eof (start : Point) (index : Nat) : Token := { kind := .eof, text := "", start, index }

/-- The place right after the token. -/
def stop (t : Token) : Point := t.start.advance t.text

def position (t : Token) : Position := ⟨t.start, t.stop⟩

def isEof (t : Token) : Bool := t.kind = .eof

def isDefault (t : Token) : Bool := t.channel = 0

def display (t : Token) : String :=
  t.kind.name ++ " " ++ Text.quoted t.text ++ " at " ++ t.start.display

def toJson (t : Token) : Json :=
  .object [
    ("kind", .string t.kind.name),
    ("text", .string t.text),
    ("start", t.start.toJson),
    ("index", Json.ofNat t.index),
    ("channel", Json.ofNat t.channel)]

def listing (t : Token) : String :=
  Text.fields "Token" [
    ("kind", Text.applied "TokenKind" (Text.quoted t.kind.name)),
    ("text", Text.quoted t.text),
    ("start", t.start.listing),
    ("index", toString t.index),
    ("channel", Text.applied "Channel" (toString t.channel))]

end Token

end Arbor
