import Arbor.Script.Grammar
import Arbor.Script.Kinds

/-!
From parse trees of the statement language to nodes: one factory a rule. A statement that
parsing could not tell, a declaration without its parts and a number that does not fit have no
node of their own.
-/
namespace Arbor.Script.Mapping

/-- The rule node that a source must be. -/
def ruleOf (f : Forest) (s : Source) : Except Failure ParseNode :=
  match s.tree? with
  | some n => .ok n
  | none => .error ⟨"expected a parse node, got " ++ f.sourceType s, []⟩

/-- The statements or operands under a rule node. -/
def partsOf (rule : RuleKind) (f : Forest) (s : Source) : Except Failure (Portion Source) :=
  (ruleOf f s).map fun n => .many ((n.nodesOf rule).map .tree)

/-- The `i`-th expression under a rule node. -/
def expressionAt (i : Nat) (f : Forest) (s : Source) : Except Failure (Portion Source) :=
  (ruleOf f s).map fun n => .ofOption ((n.nodesOf Rule.expression)[i]?.map .tree)

def create (k : Kind) : Work Failure NodeId := Work.create Kinds.family k

/-- A node of a kind with attributes. -/
def createWith (k : Kind) (attributes : List (String × Value)) : Work Failure NodeId := do
  let id ← create k
  Work.setProperties id attributes
  return id

/-- What stands in the tree, or a failure. -/
def required {α : Type} (message : String) : Option α → Work Failure α
  | some a => return a
  | none => throw ⟨message, []⟩

def ruleNodeOf (s : Source) : Work Failure ParseNode := do
  match ruleOf (← Work.forest) s with
  | .ok n => return n
  | .error e => throw e

def setStatement (s : Source) : Work Failure NodeId := do
  let tree ← ruleNodeOf s
  let target ← required "set statement without a variable" (tree.tokenOf? identifier)
  createWith Kinds.setStatement [("variable", .string target.text)]

def inputDeclaration (s : Source) : Work Failure NodeId := do
  let tree ← ruleNodeOf s
  let name ← required "input declaration without a name" (tree.tokenOf? identifier)
  let type ← required "input declaration without a type" (typeKeywords.findSome? tree.tokenOf?)
  createWith Kinds.inputDeclaration [("name", .string name.text), ("type", .string type.text)]

/-- What a literal reads as, or why it does not. -/
def read {α : Type} (message : String) : Except NumberError α → Work Failure α
  | .ok a => return a
  | .error e => throw ⟨message, [e.message]⟩

def intLiteral (s : Source) : Work Failure NodeId := do
  let text := (← ruleNodeOf s).text
  let n ← read ("integer literal " ++ text ++ " out of range") (Integer64.read text)
  createWith Kinds.intLiteral [("value", .integer n)]

def decLiteral (s : Source) : Work Failure NodeId := do
  let text := (← ruleNodeOf s).text
  let x ← read ("invalid decimal literal " ++ text) (Binary64.read text)
  createWith Kinds.decLiteral [("value", .decimal x)]

/-- A text without the quotes at its ends, however many there are. -/
def unquoted (text : String) : String :=
  let isQuote (c : Char) : Bool := c = '"'
  String.ofList (((text.toList.dropWhile isQuote).reverse.dropWhile isQuote).reverse)

def stringLiteral (s : Source) : Work Failure NodeId := do
  let text := (← ruleNodeOf s).text
  createWith Kinds.stringLiteral [("value", .string (unquoted text))]

def valueReference (s : Source) : Work Failure NodeId := do
  let id ← create Kinds.valueReference
  let text := (← ruleNodeOf s).text
  Work.change (·.setReference id "variable" ⟨text, none⟩)
  return id

def ofKind (rule : RuleKind) (k : Kind) : Factory := .ofKind rule.name Kinds.family k

def factories : List Factory := [
  (ofKind Rule.compilationUnit Kinds.compilationUnit).withChild "statements"
    (partsOf Rule.statement),
  .single Rule.statement.name fun s => do
    throw ⟨"unrecognized statement '" ++ (← ruleNodeOf s).text ++ "'", []⟩,
  (Factory.single Rule.setStatement.name setStatement).withChild "value" (expressionAt 0),
  (ofKind Rule.displayStatement Kinds.displayStatement).withChild "value" (expressionAt 0),
  .single Rule.inputDeclaration.name inputDeclaration,
  .single Rule.intLiteral.name intLiteral,
  .single Rule.decLiteral.name decLiteral,
  .single Rule.stringLiteral.name stringLiteral,
  .single Rule.valueReference.name valueReference,
  ((ofKind Rule.sumExpression Kinds.sumExpression).withChild "left" (expressionAt 0)).withChild
    "right" (expressionAt 1)]

/-- The transformer with the given factories. -/
def transformer (factories : List Factory) (config : TransformerConfig) : Transformer :=
  factories.foldl Transformer.addFactory { config, hooks := .parseTree }

end Arbor.Script.Mapping
