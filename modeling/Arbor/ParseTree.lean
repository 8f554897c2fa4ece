import Arbor.Token.Basic

/-!
Concrete syntax trees. A rule node holds the tokens, error markers and rule nodes it matched, in
the order of the text, and the whole input, from which its own text is cut. A rule may
specialize another one, as a labelled alternative does.
-/
namespace Arbor

/-- A grammar rule with the rules it specializes, nearest first. -/
structure RuleKind where
  name : String
  supertypes : List String := []
deriving DecidableEq, Inhabited

namespace RuleKind

def chain (r : RuleKind) : List String := r.name :: r.supertypes

/-- A rule that specializes `r`. -/
def specialize (r : RuleKind) (name : String) : RuleKind := ⟨name, r.chain⟩

/-- Whether the rule is `other` or specializes it. Rules are the same when their whole chains
are, so this is a question about the end of the chain. -/
def isA (r other : RuleKind) : Bool := other.chain.isSuffixOf r.chain

end RuleKind

/-- A token at which parsing did not fit the grammar, and why. -/
structure ErrorMarker where
  token : Token
  message : String
deriving DecidableEq, Inhabited

namespace ErrorMarker

def position (m : ErrorMarker) : Position := m.token.position

def listing (m : ErrorMarker) : String :=
  Text.fields "ErrorMarker" [("token", m.token.listing), ("message", Text.quoted m.message)]

end ErrorMarker

/-- A match of a rule over children of type `α`. -/
structure RuleNode (α : Type) where
  rule : RuleKind
  children : List α
  start : Token
  /-- The last token of the match; none if it has no token. -/
  stop : Option Token
  input : String
deriving Inhabited

inductive ParseTree where
  | token (t : Token)
  | error (m : ErrorMarker)
  | node (n : RuleNode ParseTree)
deriving Inhabited

abbrev ParseNode := RuleNode ParseTree

namespace ParseTree

def node? : ParseTree → Option ParseNode
  | .node n => some n
  | _ => none

mutual

/-- Error markers in the order of the text. -/
def markers : ParseTree → List ErrorMarker
  | .token _ => []
  | .error m => [m]
  | .node ⟨_, children, _, _, _⟩ => markersOf children

def markersOf : List ParseTree → List ErrorMarker
  | [] => []
  | t :: rest => t.markers ++ markersOf rest

end

mutual

/-- The number of rule nodes. -/
def nodeCount : ParseTree → Nat
  | .token _ => 0
  | .error _ => 0
  | .node ⟨_, children, _, _, _⟩ => nodeCountOf children + 1

def nodeCountOf : List ParseTree → Nat
  | [] => 0
  | t :: rest => t.nodeCount + nodeCountOf rest

end

end ParseTree

namespace RuleNode

def isRule (n : ParseNode) (r : RuleKind) : Bool := n.rule.isA r

/-- The children that are rule nodes. -/
def childNodes (n : ParseNode) : List ParseNode := n.children.filterMap ParseTree.node?

def nodesOf (n : ParseNode) (r : RuleKind) : List ParseNode := n.childNodes.filter (·.isRule r)
def nodeOf? (n : ParseNode) (r : RuleKind) : Option ParseNode := n.childNodes.find? (·.isRule r)

/-- The first token of this kind among the children. -/
def tokenOf? (n : ParseNode) (kind : TokenKind) : Option Token :=
  n.children.findSome? fun
    | .token t => if t.kind = kind then some t else none
    | _ => none

def errorMarkers (n : ParseNode) : List ErrorMarker := ParseTree.markersOf n.children

/-- The number of rule nodes, this one included. -/
def nodeCount (n : ParseNode) : Nat := ParseTree.nodeCountOf n.children + 1

/-- From the first to the last token; empty at the first one if the match has none behind it. -/
def position (n : ParseNode) : Position :=
  match n.stop with
  | some stop =>
      if n.start.index ≤ stop.index then ⟨n.start.start, stop.stop⟩ else n.start.start.toPosition
  | none => n.start.start.toPosition

/-- The part of the input that the node covers. -/
def text (n : ParseNode) : String := (n.position.textOf n.input).getD ""

end RuleNode

namespace ParseTree

mutual

def listing : ParseTree → String
  | .token t => Text.applied "Token" t.listing
  | .error m => Text.applied "Error" m.listing
  | .node ⟨rule, children, start, stop, input⟩ =>
      Text.applied "Node" (Text.fields "ParseNode" [
        ("rule", Text.quoted rule.name),
        ("position", (RuleNode.position ⟨rule, children, start, stop, input⟩).listing),
        ("children", Text.bracketed (listingOf children))])

def listingOf : List ParseTree → List String
  | [] => []
  | t :: rest => t.listing :: listingOf rest

end

end ParseTree

def RuleNode.listing (n : ParseNode) : String :=
  Text.fields "ParseNode" [
    ("rule", Text.quoted n.rule.name),
    ("position", n.position.listing),
    ("children", Text.bracketed (ParseTree.listingOf n.children))]

end Arbor
