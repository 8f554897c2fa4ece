import Arbor.Token.Basic

/-!
Token streams: all tokens of a text and a cursor on the default channel. The end of the input is
never passed. `pending` is the view of a stream that parsing works on: the tokens from the
cursor on that are neither hidden nor behind the end of the input.
-/
namespace Arbor

structure TokenStream where
  source : String := ""
  tokens : List Token := []
  cursor : Nat := 0
deriving DecidableEq, Inhabited

namespace TokenStream

/-- How many tokens stand before the first one on the default channel. -/
def hiddenRun : List Token → Nat
  | [] => 0
  | t :: rest => if t.isDefault then 0 else hiddenRun rest + 1

/-- Moves the cursor to the next token on the default channel. -/
def skipHidden (s : TokenStream) : TokenStream :=
  { s with cursor := s.cursor + hiddenRun (s.tokens.drop s.cursor) }

def ofTokens (source : String) (tokens : List Token) : TokenStream :=
  skipHidden { source, tokens }

def size (s : TokenStream) : Nat := s.tokens.length
def last? (s : TokenStream) : Option Token := s.tokens.getLast?

/-- The tokens on the default channel. -/
def visible (s : TokenStream) : List Token := s.tokens.filter (·.isDefault)

def current? (s : TokenStream) : Option Token := s.tokens[s.cursor]?

/-- The token on the default channel `k` places after the current one. -/
def lookahead? (s : TokenStream) (k : Nat) : Option Token :=
  ((s.tokens.drop s.cursor).filter (·.isDefault))[k]?

def atEof (s : TokenStream) : Bool := s.current?.all (·.isEof)

/-- Takes the current token, which stays if it is the end of the input. -/
def advance (s : TokenStream) : Option Token × TokenStream :=
  match s.current? with
  | none => (none, s)
  | some t => (some t, if t.isEof then s else skipHidden { s with cursor := s.cursor + 1 })

/-- Takes `n` tokens. -/
def advanceBy (s : TokenStream) : Nat → TokenStream
  | 0 => s
  | n + 1 => s.advance.2.advanceBy n

/-- The tokens on the default channel from the cursor up to the end of the input. -/
def pending (s : TokenStream) : List Token :=
  ((s.tokens.drop s.cursor).filter (·.isDefault)).takeWhile (!·.isEof)

/-- The token that ends the pending ones; a stream without one ends at the start of the text. -/
def endToken (s : TokenStream) : Token :=
  (((s.tokens.drop s.cursor).filter (·.isDefault)).find? (·.isEof)).getD (Token.eof .start 0)

end TokenStream

end Arbor
