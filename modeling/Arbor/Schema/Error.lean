import Arbor.Schema.Descriptor

/-! Reasons why a node type is not registered or not found. -/
namespace Arbor

inductive SchemaError where
  | notFound (name : QualifiedName)
  /-- The name belongs to another type, and the policy keeps it so. -/
  | conflict (name : QualifiedName) (existing incoming : Binding)
  /-- A type extends a type of its own name. -/
  | redefinition (name : QualifiedName) (existing incoming : Binding)
  | duplicateProperty (name : QualifiedName) (property : String)
  | circularInheritance (child parent : QualifiedName)
deriving DecidableEq

namespace SchemaError

/-- The name of the case, for tools. -/
def code : SchemaError → String
  | .notFound _ => "NotFound"
  | .conflict .. => "Conflict"
  | .redefinition .. => "Redefinition"
  | .duplicateProperty .. => "DuplicateProperty"
  | .circularInheritance .. => "CircularInheritance"

def message : SchemaError → String
  | .notFound n => "Node type not found: " ++ n.display
  | .conflict n existing incoming =>
      "Node type " ++ n.display ++ " is already bound to " ++ existing.display
        ++ ", cannot bind it to " ++ incoming.display
  | .redefinition n existing incoming =>
      "Redefinition of " ++ n.display ++ ": " ++ incoming.display ++ " extends "
        ++ existing.display ++ " without changing its name"
  | .duplicateProperty n property =>
      "Property '" ++ property ++ "' is declared twice on " ++ n.display
  | .circularInheritance child parent =>
      "Circular inheritance: " ++ child.display ++ " cannot extend " ++ parent.display

end SchemaError

end Arbor
