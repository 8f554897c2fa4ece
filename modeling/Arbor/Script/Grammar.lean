import Arbor.Pipeline.Basic
import Arbor.Script.Lexis

/-!
The grammar of the statement language and its parser.

    compilationUnit : statement* EOF ;
    statement       : SET ID EQUAL expression | DISPLAY expression
                    | INPUT ID IS (INT | DEC | STRING) ;
    expression      : expression PLUS expression | INT_LIT | DEC_LIT | STRING_LIT | ID ;

Sums are grouped to the left. A token that does not fit is reported and marked in the tree, and
what follows up to the next statement goes into the rule that was open. The parser works on the
pending tokens of a stream and on the token that ends them.
-/
namespace Arbor.Script

namespace Rule

def compilationUnit : RuleKind := { name := "compilationUnit" }
def statement : RuleKind := { name := "statement" }
def setStatement : RuleKind := statement.specialize "setStatement"
def displayStatement : RuleKind := statement.specialize "displayStatement"
def inputDeclaration : RuleKind := statement.specialize "inputDeclaration"
def expression : RuleKind := { name := "expression" }
def sumExpression : RuleKind := expression.specialize "sumExpression"
def intLiteral : RuleKind := expression.specialize "intLiteral"
def decLiteral : RuleKind := expression.specialize "decLiteral"
def stringLiteral : RuleKind := expression.specialize "stringLiteral"
def valueReference : RuleKind := expression.specialize "valueReference"

/-- The rules that parsing can start from. -/
def names : List String := ["compilationUnit", "statement", "expression"]

end Rule

/-- The later of the last token so far and `t`. -/
def laterToken (stop : Option Token) (t : Token) : Option Token :=
  match stop with
  | none => some t
  | some s => if s.index < t.index then some t else some s

/-- The last token that a child adds to a rule. A marker adds none, since its token may belong
to the next statement. -/
def extendStop (stop : Option Token) : ParseTree → Option Token
  | .token t => laterToken stop t
  | .node n =>
      match n.stop with
      | some t => laterToken stop t
      | none => stop
  | .error _ => stop

def stopOf (children : List ParseTree) : Option Token := children.foldl extendStop none

/-- A rule node over `children`. -/
def ruleNode (source : String) (rule : RuleKind) (start : Token) (children : List ParseTree) :
    ParseNode :=
  ⟨rule, children, start, stopOf children, source⟩

def startsStatement (t : Token) : Bool := t.kind = set || t.kind = display || t.kind = input

/-- The current token of a stream whose pending tokens are given. -/
def currentOf (last : Token) (pending : List Token) : Token := pending.head?.getD last

/-- What a part of a rule matched. -/
structure Match where
  /-- Whether the rest of the rule is still to be matched. -/
  fits : Bool
  children : List ParseTree
  issues : List Issue
  rest : List Token

/-- The current token does not fit: it is reported and marked, and the tokens up to the next
statement are taken. -/
def mismatch (last : Token) (expected : String) (pending : List Token) : Match :=
  let token := currentOf last pending
  let found := if token.isEof then "<EOF>" else token.text
  let message := "mismatched input '" ++ found ++ "' expecting " ++ expected
  { fits := false
    children := .error ⟨token, message⟩ ::
      (pending.takeWhile (!startsStatement ·)).map ParseTree.token
    issues := [.syntactic message (some token.position)]
    rest := pending.dropWhile (!startsStatement ·) }

/-- A token of one of the kinds. -/
def expectAny (last : Token) (kinds : List TokenKind) (expected : String) :
    List Token → Match
  | [] => mismatch last expected []
  | t :: rest =>
      if t.kind ∈ kinds then ⟨true, [.token t], [], rest⟩ else mismatch last expected (t :: rest)

def expect (last : Token) (kind : TokenKind) (pending : List Token) : Match :=
  expectAny last [kind] kind.name pending

/-- Matches on behind a part that fits. -/
def Match.andThen (m : Match) (next : List Token → Match) : Match :=
  if m.fits then
    let n := next m.rest
    { n with children := m.children ++ n.children, issues := m.issues ++ n.issues }
  else m

/-- The rule of an operand of a sum. -/
def operandRule? (t : Token) : Option RuleKind :=
  if t.kind = intLiteral then some Rule.intLiteral
  else if t.kind = decLiteral then some Rule.decLiteral
  else if t.kind = stringLiteral then some Rule.stringLiteral
  else if t.kind = identifier then some Rule.valueReference
  else none

def operand (source : String) (rule : RuleKind) (t : Token) : ParseNode :=
  ruleNode source rule t [.token t]

def sum (source : String) (left : ParseNode) (children : List ParseTree) : ParseNode :=
  ruleNode source Rule.sumExpression left.start (.node left :: children)

/-- Continues a sum whose left part is `left`. -/
def sumFrom (source : String) (last : Token) :
    ParseNode → List Token → ParseNode × List Issue × List Token
  | left, [] => (left, [], [])
  | left, [t] =>
      if t.kind = plus then
        let m := mismatch last "expression" []
        (sum source left (.token t :: m.children), m.issues, m.rest)
      else (left, [], [t])
  | left, t :: u :: rest =>
      if t.kind = plus then
        match operandRule? u with
        | some rule =>
            sumFrom source last (sum source left [.token t, .node (operand source rule u)]) rest
        | none =>
            let m := mismatch last "expression" (u :: rest)
            (sum source left (.token t :: m.children), m.issues, m.rest)
      else (left, [], t :: u :: rest)

/-- An expression, or nothing when none begins here. -/
def expression (source : String) (last : Token) :
    List Token → Option (ParseNode × List Issue × List Token)
  | [] => none
  | t :: rest => (operandRule? t).map fun rule => sumFrom source last (operand source rule t) rest

def expectExpression (source : String) (last : Token) (pending : List Token) : Match :=
  match expression source last pending with
  | some (n, issues, rest) => ⟨true, [.node n], issues, rest⟩
  | none => mismatch last "expression" pending

/-- A rule and what it matched. -/
def finishRule (source : String) (rule : RuleKind) (start : Token) (m : Match) :
    ParseNode × List Issue × List Token :=
  (ruleNode source rule start m.children, m.issues, m.rest)

/-- A rule that begins with the keyword `t`. -/
def afterKeyword (source : String) (rule : RuleKind) (t : Token) (m : Match) :
    ParseNode × List Issue × List Token :=
  finishRule source rule t { m with children := .token t :: m.children }

def typeKeywords : List TokenKind := [int, dec, string]

def statement (source : String) (last : Token) (pending : List Token) :
    ParseNode × List Issue × List Token :=
  match pending with
  | [] =>
      finishRule source Rule.statement last (mismatch last "\x7bset, display, input\x7d" [])
  | t :: rest =>
      if t.kind = set then
        afterKeyword source Rule.setStatement t <|
          ((expect last identifier rest).andThen (expect last equal)).andThen
            (expectExpression source last)
      else if t.kind = display then
        afterKeyword source Rule.displayStatement t (expectExpression source last rest)
      else if t.kind = input then
        afterKeyword source Rule.inputDeclaration t <|
          ((expect last identifier rest).andThen (expect last is)).andThen
            (expectAny last typeKeywords "\x7bint, dec, string\x7d")
      else
        finishRule source Rule.statement t
          (mismatch last "\x7bset, display, input\x7d" (t :: rest))

/-- A token that begins no statement. -/
def extraneous (t : Token) : ErrorMarker :=
  ⟨t, "extraneous input '" ++ t.text ++ "' expecting \x7bset, display, input\x7d"⟩

/-- Statements up to the end, with a marker for each token between them, and the tokens that are
left. Every step takes a token, so nothing is left when `fuel` is the number of tokens. -/
def statements (source : String) (last : Token) :
    Nat → List Token → List ParseTree × List Issue × List Token
  | _, [] => ([], [], [])
  | 0, t :: rest => ([], [], t :: rest)
  | fuel + 1, t :: rest =>
      if startsStatement t then
        let (n, issues, rest) := statement source last (t :: rest)
        let (children, more, rest) := statements source last fuel rest
        (.node n :: children, issues ++ more, rest)
      else
        let m := extraneous t
        let (children, more, rest) := statements source last fuel rest
        (.error m :: children, .syntactic m.message (some m.position) :: more, rest)

def compilationUnit (source : String) (last : Token) (pending : List Token) :
    ParseNode × List Issue × List Token :=
  let (children, issues, rest) := statements source last pending.length pending
  (ruleNode source Rule.compilationUnit (currentOf last pending)
    (children ++ [.token (currentOf last rest)]), issues, rest)

/-- Moves a stream to the tokens that are left. -/
def leave (s : TokenStream) (rest : List Token) : TokenStream :=
  s.advanceBy (s.pending.length - rest.length)

def parseRule (rule : String) (s : TokenStream) : RuleResult :=
  if rule = "compilationUnit" then
    let (n, issues, rest) := compilationUnit s.source s.endToken s.pending
    ⟨some n, issues, leave s rest⟩
  else if rule = "statement" then
    let (n, issues, rest) := statement s.source s.endToken s.pending
    ⟨some n, issues, leave s rest⟩
  else if rule = "expression" then
    match expression s.source s.endToken s.pending with
    | some (n, issues, rest) => ⟨some n, issues, leave s rest⟩
    | none => ⟨none, [], s⟩
  else ⟨none, [], s⟩

def frontEnd : FrontEnd := ⟨Rule.names, parseRule⟩

end Arbor.Script
