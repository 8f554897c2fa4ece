import Arbor.Forest.World

/-! Node kinds of the statement language. -/
namespace Arbor.Script.Kinds

/-- A kind of the language with its own properties. -/
def kind (name : String) (properties : List Property) (parent : Option Kind) : Kind :=
  ⟨"sylva_simple::ast::" ++ name, ⟨"simple", name⟩, properties, parent.map (·.typeName)⟩

def compilationUnit : Kind :=
  kind "CompilationUnit" [.children "statements" "simple.Statement"] none

def statement : Kind := kind "Statement" [] none

/-- A variable and the value it takes. -/
def setStatement : Kind :=
  kind "SetStatement" [.attr "variable" "string", .child "value" "simple.Expression"]
    (some statement)

def displayStatement : Kind :=
  kind "DisplayStatement" [.child "value" "simple.Expression"] (some statement)

/-- A variable that is read, and its type. -/
def inputDeclaration : Kind :=
  kind "InputDeclaration" [.attr "name" "string", .attr "type" "string"] (some statement)

def expression : Kind := kind "Expression" [] none
def intLiteral : Kind := kind "IntLiteral" [.attr "value" "int"] (some expression)
def decLiteral : Kind := kind "DecLiteral" [.attr "value" "decimal"] (some expression)
def stringLiteral : Kind := kind "StringLiteral" [.attr "value" "string"] (some expression)

def sumExpression : Kind :=
  kind "SumExpression" [.child "left" "simple.Expression", .child "right" "simple.Expression"]
    (some expression)

/-- The use of a variable; it refers to the statement that declares it. -/
def valueReference : Kind :=
  kind "ValueReference" [.reference "variable" "simple.Statement"] (some expression)

def family : Family := ⟨[compilationUnit, statement, setStatement, displayStatement,
  inputDeclaration, expression, intLiteral, decLiteral, stringLiteral, sumExpression,
  valueReference]⟩

/-- Registers kinds in turn up to the first that fails. -/
def registerEach (r : Registry) : List Kind → Except SchemaError (List Descriptor) × Registry
  | [] => (.ok [], r)
  | k :: rest =>
      match r.register family k with
      | (.error e, r) => (.error e, r)
      | (.ok d, r) =>
          let (others, r) := registerEach r rest
          (others.map (d :: ·), r)

/-- Registers every kind of the language. -/
def registerAll (r : Registry) : Except SchemaError (List Descriptor) × Registry :=
  registerEach r family.kinds

end Arbor.Script.Kinds
